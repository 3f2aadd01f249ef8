import Mathlib.Algebra.Ring.Nat
import Mathlib.Data.List.Chain

/-!
# Computations that are observed after every step

A computation changes a world in steps, and each step may fail for a reason that is not in the
world. All worlds it passes through are recorded, also those before an error: they are what a crash
can leave behind.
-/

namespace Omg.Control

open MonadExcept

structure History (W : Type) where
  past : List W
  now : W

namespace History

variable {W : Type}

def start (w : W) : History W := ⟨[], w⟩

def states (h : History W) : List W := h.now :: h.past

/-- The run goes on to the world `w`. -/
def record (h : History W) (w : W) : History W := ⟨h.now :: h.past, w⟩

@[simp] lemma now_start (w : W) : (start w).now = w := rfl

@[simp] lemma states_start (w : W) : (start w).states = [w] := rfl

@[simp] lemma now_record (h : History W) (w : W) : (h.record w).now = w := rfl

@[simp] lemma states_record (h : History W) (w : W) : (h.record w).states = w :: h.states := rfl

lemma now_mem_states (h : History W) : h.now ∈ h.states := List.mem_cons_self

end History

/-- A computation on worlds of type `W` with errors of type `ε`. The function that is read says
which steps fail, by their number. -/
def Steps (W ε α : Type) : Type := (ℕ → Bool) → History W → Except ε α × History W

namespace Steps

variable {W ε ε' α β : Type}

instance : Monad (Steps W ε) where
  pure a := fun _ h => (.ok a, h)
  bind x f := fun fails h =>
    match x fails h with
    | (.ok a, h') => f a fails h'
    | (.error e, h') => (.error e, h')

instance : MonadExcept ε (Steps W ε) where
  throw e := fun _ h => (.error e, h)
  tryCatch x f := fun fails h =>
    match x fails h with
    | (.ok a, h') => (.ok a, h')
    | (.error e, h') => f e fails h'

/-- A check that does not depend on the world. -/
instance : MonadLift (Except ε) (Steps W ε) where
  monadLift x := fun _ h => (x, h)

def step (fault : ε) (f : W → Except ε α × W) : Steps W ε α := fun fails h =>
  if fails h.past.length then (.error fault, h.record h.now)
  else ((f h.now).1, h.record (f h.now).2)

def assign (f : W → W) : Steps W ε Unit := fun _ h => (.ok (), h.record (f h.now))

def mapError (f : ε → ε') (x : Steps W ε α) : Steps W ε' α := fun fails h =>
  ((x fails h).1.mapError f, (x fails h).2)

def attempt (x : Steps W ε α) : Steps W ε' (Except ε α) := fun fails h =>
  (.ok (x fails h).1, (x fails h).2)

section

variable {x : Steps W ε α} {fails : ℕ → Bool} {h h' : History W}

lemma bind_apply_ok {f : α → Steps W ε β} {a : α} (hx : x fails h = (.ok a, h')) :
    (x >>= f) fails h = f a fails h' := by
  simp only [Bind.bind, hx]

lemma bind_apply_error {f : α → Steps W ε β} {e : ε} (hx : x fails h = (.error e, h')) :
    (x >>= f) fails h = (.error e, h') := by
  simp only [Bind.bind, hx]

lemma tryCatch_apply_ok {f : ε → Steps W ε α} {a : α} (hx : x fails h = (.ok a, h')) :
    tryCatch x f fails h = (.ok a, h') := by
  simp only [tryCatch, hx]

lemma tryCatch_apply_error {f : ε → Steps W ε α} {e : ε} (hx : x fails h = (.error e, h')) :
    tryCatch x f fails h = f e fails h' := by
  simp only [tryCatch, hx]

end

/-- If `I` holds in the worlds passed through before and `P` in the present one, then `I` holds in
all worlds that `x` passes through, and the last one is as `Q` says of the result, or as `E` says of
the error. -/
def Satisfies (I P : W → Prop) (x : Steps W ε α) (Q : α → W → Prop) (E : ε → W → Prop) : Prop :=
  ∀ fails h, (∀ w ∈ h.states, I w) → P h.now →
    (∀ w ∈ (x fails h).2.states, I w) ∧
      (∀ a, (x fails h).1 = .ok a → Q a (x fails h).2.now) ∧
      ∀ e, (x fails h).1 = .error e → E e (x fails h).2.now

/-- The invariant is kept, and nothing is said of the result. -/
abbrev Keeps (I P : W → Prop) (x : Steps W ε α) : Prop :=
  Satisfies I P x (fun _ _ => True) fun _ _ => True

/-- The invariant is kept, and so is `P`, whatever the result. -/
abbrev Stays (I P : W → Prop) (x : Steps W ε α) : Prop := Satisfies I P x (fun _ => P) fun _ => P

abbrev Ensures (P : W → Prop) (x : Steps W ε α) (Q : α → W → Prop) (E : ε → W → Prop) : Prop :=
  Satisfies (fun _ => True) P x Q E

/-- The outcome of one step is as `Satisfies` requires. -/
def Ends (I : W → Prop) (Q : α → W → Prop) (E : ε → W → Prop) (r : Except ε α × W) : Prop :=
  I r.2 ∧ (∀ a, r.1 = .ok a → Q a r.2) ∧ ∀ e, r.1 = .error e → E e r.2

lemma Ends.ok {I : W → Prop} {Q : α → W → Prop} {E : ε → W → Prop} {a : α} {w : W} (hI : I w)
    (hQ : Q a w) : Ends I Q E (.ok a, w) := by
  refine ⟨hI, ?_, by simp⟩
  rintro b hb
  cases hb
  exact hQ

lemma Ends.error {I : W → Prop} {Q : α → W → Prop} {E : ε → W → Prop} {e : ε} {w : W}
    (hI : I w) (hE : E e w) : Ends I Q E (.error e, w) := by
  refine ⟨hI, by simp, ?_⟩
  rintro e' he
  cases he
  exact hE

namespace Satisfies

variable {I P P' : W → Prop} {x : Steps W ε α} {Q Q' : α → W → Prop} {E E' : ε → W → Prop}

lemma of_forall (h : ∀ w, I w → P w → Satisfies I (· = w) x Q E) : Satisfies I P x Q E :=
  fun fails hist hI hP => h hist.now (hI _ hist.now_mem_states) hP fails hist hI rfl

lemma mono (hx : Satisfies I P x Q E) (hP : ∀ w, P' w → P w) (hQ : ∀ a w, Q a w → Q' a w)
    (hE : ∀ e w, E e w → E' e w) : Satisfies I P' x Q' E' := by
  intro fails h hI hP'
  obtain ⟨hsts, hok, her⟩ := hx fails h hI (hP _ hP')
  exact ⟨hsts, fun a ha => hQ a _ (hok a ha), fun e he => hE e _ (her e he)⟩

lemma pre (hx : Satisfies I P x Q E) (hP : ∀ w, P' w → P w) : Satisfies I P' x Q E :=
  hx.mono hP (fun _ _ h => h) fun _ _ h => h

lemma post (hx : Satisfies I P x Q E) (hQ : ∀ a w, Q a w → Q' a w) : Satisfies I P x Q' E :=
  hx.mono (fun _ h => h) hQ fun _ _ h => h

lemma and_invariant (hx : Satisfies I P x Q E) :
    Satisfies I P x (fun a w => I w ∧ Q a w) (fun e w => I w ∧ E e w) := by
  intro fails h hI hP
  obtain ⟨hsts, hok, her⟩ := hx fails h hI hP
  have hnow := hsts _ (x fails h).2.now_mem_states
  exact ⟨hsts, fun a ha => ⟨hnow, hok a ha⟩, fun e he => ⟨hnow, her e he⟩⟩

lemma pure {a : α} (h : ∀ w, I w → P w → Q a w) :
    Satisfies I P (Pure.pure a : Steps W ε α) Q E := by
  refine fun fails hist hI hP => ⟨hI, ?_, ?_⟩
  · rintro b hb
    cases hb
    exact h _ (hI _ hist.now_mem_states) hP
  · rintro e he
    cases he

lemma throw {e : ε} (h : ∀ w, I w → P w → E e w) : Satisfies I P (throw e : Steps W ε α) Q E := by
  refine fun fails hist hI hP => ⟨hI, ?_, ?_⟩
  · rintro b hb
    cases hb
  · rintro e' he
    cases he
    exact h _ (hI _ hist.now_mem_states) hP

lemma lift {y : Except ε α} (hok : ∀ a w, y = .ok a → I w → P w → Q a w)
    (her : ∀ e w, y = .error e → I w → P w → E e w) :
    Satisfies I P (liftM y : Steps W ε α) Q E := by
  cases y with
  | ok a => exact Satisfies.pure fun w hI hP => hok a w rfl hI hP
  | error e => exact Satisfies.throw fun w hI hP => her e w rfl hI hP

lemma check {y : Except ε α} (hE : ∀ e w, P w → E e w) :
    Satisfies I P (liftM y : Steps W ε α) (fun _ => P) E :=
  .lift (fun _ _ _ _ h => h) fun e w _ _ h => hE e w h

lemma step {flt : ε} {f : W → Except ε α × W} (hfau : ∀ w, I w → P w → E flt w)
    (hf : ∀ w, I w → P w → Ends I Q E (f w)) : Satisfies I P (Steps.step flt f) Q E := by
  intro fails h hsts hP
  have hnow := hsts _ h.now_mem_states
  unfold Steps.step
  split_ifs
  · refine ⟨by simpa using ⟨hnow, hsts⟩, by simp, ?_⟩
    rintro e he
    cases he
    exact hfau _ hnow hP
  · obtain ⟨hI, hok, her⟩ := hf _ hnow hP
    exact ⟨by simpa using ⟨hI, hsts⟩, hok, her⟩

lemma assign {f : W → W} {Q : Unit → W → Prop} (hI : ∀ w, I w → P w → I (f w))
    (hQ : ∀ w, I w → P w → Q () (f w)) : Satisfies I P (Steps.assign f : Steps W ε Unit) Q E := by
  intro fails h hsts hP
  have hnow := hsts _ h.now_mem_states
  refine ⟨by simpa [Steps.assign] using ⟨hI _ hnow hP, hsts⟩, ?_, by simp [Steps.assign]⟩
  rintro u -
  exact hQ _ hnow hP

lemma bind {f : α → Steps W ε β} {R : β → W → Prop} (hx : Satisfies I P x Q E)
    (hf : ∀ a, Satisfies I (Q a) (f a) R E) : Satisfies I P (x >>= f) R E := by
  intro fails h hI hP
  obtain ⟨hsts, hok, her⟩ := hx fails h hI hP
  rcases hrun : x fails h with ⟨a | e, h'⟩
  · rw [bind_apply_error hrun]
    rw [hrun] at hsts her
    refine ⟨hsts, by simp, ?_⟩
    rintro e he
    cases he
    exact her _ rfl
  · rw [bind_apply_ok hrun]
    rw [hrun] at hsts hok
    exact hf _ fails h' hsts (hok _ rfl)

lemma tryCatch {f : ε → Steps W ε α} (hx : Satisfies I P x Q E)
    (hf : ∀ e, Satisfies I (E e) (f e) Q E') : Satisfies I P (tryCatch x f) Q E' := by
  intro fails h hI hP
  obtain ⟨hsts, hok, her⟩ := hx fails h hI hP
  rcases hrun : x fails h with ⟨a | e, h'⟩
  · rw [tryCatch_apply_error hrun]
    rw [hrun] at hsts her
    exact hf _ fails h' hsts (her _ rfl)
  · rw [tryCatch_apply_ok hrun]
    rw [hrun] at hsts hok
    refine ⟨hsts, ?_, by simp⟩
    rintro a ha
    cases ha
    exact hok _ rfl

lemma mapError {f : ε → ε'} {E' : ε' → W → Prop} (hx : Satisfies I P x Q E)
    (hE : ∀ e w, E e w → E' (f e) w) : Satisfies I P (Steps.mapError f x) Q E' := by
  intro fails h hI hP
  obtain ⟨hsts, hok, her⟩ := hx fails h hI hP
  refine ⟨hsts, fun a ha => ?_, fun e he => ?_⟩
  · unfold Steps.mapError at ha
    cases hrun : (x fails h).1 with
    | error e => rw [hrun] at ha; cases ha
    | ok b => rw [hrun] at ha; cases ha; exact hok _ hrun
  · unfold Steps.mapError at he
    cases hrun : (x fails h).1 with
    | error e => rw [hrun] at he; cases he; exact hE _ _ (her _ hrun)
    | ok b => rw [hrun] at he; cases he

lemma attempt {E' : ε' → W → Prop} (hx : Satisfies I P x Q E) :
    Satisfies I P (Steps.attempt x) (fun r w =>
      (∀ a, r = .ok a → Q a w) ∧ ∀ e, r = .error e → E e w) E' := by
  intro fails h hI hP
  obtain ⟨hsts, hok, her⟩ := hx fails h hI hP
  refine ⟨hsts, ?_, by simp [Steps.attempt]⟩
  rintro r hr
  cases hr
  exact ⟨hok, her⟩

lemma attempt_const {R : W → Prop} {E' : ε' → W → Prop}
    (hx : Satisfies I P x (fun _ => R) fun _ => R) :
    Satisfies I P (Steps.attempt x) (fun _ => R) E' := by
  refine hx.attempt.post fun r w hw => ?_
  cases r with
  | ok a => exact hw.1 a rfl
  | error e => exact hw.2 e rfl

end Satisfies

/-- One run: `I` holds in all worlds passed through, and `Q` in the last one if there is a result.
-/
def Ran (I : W → Prop) (r : Except ε α × History W) (Q : α → W → Prop) : Prop :=
  (∀ w ∈ r.2.states, I w) ∧ ∀ a, r.1 = .ok a → Q a r.2.now

namespace Ran

variable {I P : W → Prop} {x : Steps W ε α} {Q : α → W → Prop} {E : ε → W → Prop}
  {fails : ℕ → Bool} {h : History W}

lemma of_satisfies (hx : Satisfies I P x Q E) (hI : ∀ w ∈ h.states, I w) (hP : P h.now) :
    Ran I (x fails h) Q := by
  obtain ⟨hsts, hok, -⟩ := hx fails h hI hP
  exact ⟨hsts, hok⟩

lemma throw {e : ε} (hI : ∀ w ∈ h.states, I w) :
    Ran I ((throw e : Steps W ε α) fails h) Q := ⟨hI, nofun⟩

lemma bind {f : α → Steps W ε β} {R : β → W → Prop} (hx : Ran I (x fails h) Q)
    (hf : ∀ a h', x fails h = (.ok a, h') → (∀ w ∈ h'.states, I w) → Q a h'.now →
      Ran I (f a fails h') R) : Ran I ((x >>= f) fails h) R := by
  obtain ⟨hsts, hok⟩ := hx
  rcases hrun : x fails h with ⟨e | a, h'⟩
  · rw [bind_apply_error hrun]
    rw [hrun] at hsts
    exact ⟨hsts, nofun⟩
  · rw [bind_apply_ok hrun]
    rw [hrun] at hsts hok
    exact hf a h' hrun hsts (hok a rfl)

lemma lift_bind {y : Except ε α} {f : α → Steps W ε β} {R : β → W → Prop}
    (hI : ∀ w ∈ h.states, I w) (hf : ∀ a, y = .ok a → Ran I (f a fails h) R) :
    Ran I (((liftM y : Steps W ε α) >>= f) fails h) R := by
  refine Ran.bind (Q := fun _ _ => True) ⟨hI, fun _ _ => trivial⟩ fun a h' hrun _ _ => ?_
  cases hrun
  exact hf a rfl

end Ran

/-- If no step fails for an outside reason then `x` returns a result, as `Q` says. -/
def Attains (P : W → Prop) (x : Steps W ε α) (Q : α → W → Prop) : Prop :=
  ∀ h : History W, P h.now →
    ∃ a h', x (fun _ => false) h = (.ok a, h') ∧ Q a h'.now

namespace Attains

variable {P : W → Prop} {x : Steps W ε α} {Q : α → W → Prop}

lemma pure {a : α} (h : ∀ w, P w → Q a w) : Attains P (Pure.pure a : Steps W ε α) Q :=
  fun hist hP => ⟨a, hist, rfl, h _ hP⟩

lemma step {flt : ε} {f : W → Except ε α × W}
    (h : ∀ w, P w → ∃ a, (f w).1 = .ok a ∧ Q a (f w).2) : Attains P (Steps.step flt f) Q := by
  intro hist hP
  obtain ⟨a, ha, hQ⟩ := h _ hP
  exact ⟨a, _, Prod.ext ha rfl, hQ⟩

lemma assign {f : W → W} {Q : Unit → W → Prop} (h : ∀ w, P w → Q () (f w)) :
    Attains P (Steps.assign f : Steps W ε Unit) Q :=
  fun _ hP => ⟨(), _, rfl, h _ hP⟩

lemma bind {f : α → Steps W ε β} {R : β → W → Prop} (hx : Attains P x Q)
    (hf : ∀ a, Attains (Q a) (f a) R) : Attains P (x >>= f) R := by
  intro hist hP
  obtain ⟨a, h', hrun, hQ⟩ := hx hist hP
  rw [bind_apply_ok hrun]
  exact hf a h' hQ

lemma attempt (hx : Attains P x Q) :
    Attains P (Steps.attempt x : Steps W ε' (Except ε α)) fun r w => ∃ a, r = .ok a ∧ Q a w := by
  intro hist hP
  obtain ⟨a, h', hrun, hQ⟩ := hx hist hP
  exact ⟨.ok a, h', by rw [Steps.attempt, hrun], a, rfl, hQ⟩

end Attains

end Steps

/-!
### Computations whose changes are observed

`Steps.Satisfies` asserts something of each world that a computation passes through. Here it is
asserted of each change from one world to the next: what a single step may do to the world in front
of it.
-/

namespace History

variable {W : Type} {I : W → Prop} {R : W → W → Prop} {h : History W} {w : W}

/-- All worlds satisfy `I`, and each one is related to the one that follows it. -/
structure Linked (I : W → Prop) (R : W → W → Prop) (h : History W) : Prop where
  holds : ∀ w ∈ h.states, I w
  chain : h.states.IsChain fun after before => R before after

lemma linked_start (hw : I w) : (start w).Linked I R :=
  ⟨by simpa using hw, List.isChain_singleton _⟩

lemma Linked.record (hh : h.Linked I R) (hw : I w) (hcg : R h.now w) : (h.record w).Linked I R :=
  ⟨by simpa using ⟨hw, hh.holds⟩, List.isChain_cons_cons.mpr ⟨hcg, hh.chain⟩⟩

lemma Linked.now (hh : h.Linked I R) : I h.now := hh.holds _ h.now_mem_states

end History

namespace Steps

variable {W ε α β : Type} {I : W → Prop} {R : W → W → Prop} {P P' : W → Prop}
  {x : Steps W ε α} {Q Q' : α → W → Prop}

/-- From a world with `P` the worlds of `x` are as `I` says and its changes as `R` says, and the
last world is as `Q` says of the result. -/
def Follows (I : W → Prop) (R : W → W → Prop) (P : W → Prop) (x : Steps W ε α)
    (Q : α → W → Prop) : Prop :=
  ∀ fails h, h.Linked I R → P h.now →
    (x fails h).2.Linked I R ∧ ∀ a, (x fails h).1 = .ok a → Q a (x fails h).2.now

namespace Follows

lemma of_forall (h : ∀ w, P w → Follows I R (· = w) x Q) : Follows I R P x Q :=
  fun fl hist hlk hP => h hist.now hP fl hist hlk rfl

lemma mono (hx : Follows I R P x Q) (hP : ∀ w, P' w → P w) (hQ : ∀ a w, Q a w → Q' a w) :
    Follows I R P' x Q' := by
  intro fl h hlk hP'
  obtain ⟨hlk', hok⟩ := hx fl h hlk (hP _ hP')
  exact ⟨hlk', fun a ha => hQ a _ (hok a ha)⟩

lemma pure {a : α} (h : ∀ w, P w → Q a w) : Follows I R P (Pure.pure a : Steps W ε α) Q := by
  refine fun fl hist hlk hP => ⟨hlk, ?_⟩
  rintro b hb
  cases hb
  exact h _ hP

/-- The rule of a step. It may fail without doing anything, so `R` is reflexive. -/
lemma step {flt : ε} {f : W → Except ε α × W} (hre : ∀ w, R w w)
    (hf : ∀ w, I w → P w → I (f w).2 ∧ R w (f w).2 ∧ ∀ a, (f w).1 = .ok a → Q a (f w).2) :
    Follows I R P (Steps.step flt f) Q := by
  intro fl h hlk hP
  obtain ⟨hI, hR, hok⟩ := hf _ hlk.now hP
  unfold Steps.step
  split_ifs
  · exact ⟨hlk.record hlk.now (hre _), by simp⟩
  · exact ⟨hlk.record hI hR, hok⟩

lemma assign {f : W → W} {Q : Unit → W → Prop}
    (hf : ∀ w, I w → P w → I (f w) ∧ R w (f w) ∧ Q () (f w)) :
    Follows I R P (Steps.assign f : Steps W ε Unit) Q := by
  intro fl h hlk hP
  obtain ⟨hI, hR, hQ⟩ := hf _ hlk.now hP
  exact ⟨hlk.record hI hR, fun _ _ => hQ⟩

lemma bind {f : α → Steps W ε β} {S : β → W → Prop} (hx : Follows I R P x Q)
    (hf : ∀ a, Follows I R (Q a) (f a) S) : Follows I R P (x >>= f) S := by
  intro fl h hlk hP
  obtain ⟨hlk', hok⟩ := hx fl h hlk hP
  rcases hrun : x fl h with ⟨e | a, h'⟩
  · rw [bind_apply_error hrun]
    rw [hrun] at hlk'
    exact ⟨hlk', by simp⟩
  · rw [bind_apply_ok hrun]
    rw [hrun] at hlk' hok
    exact hf a fl h' hlk' (hok a rfl)

lemma changes (hx : Follows I R P x Q) (fl : ℕ → Bool) {w : W} (hI : I w) (hP : P w) :
    (x fl (.start w)).2.Linked I R ∧
      ∀ a, (x fl (.start w)).1 = .ok a → Q a (x fl (.start w)).2.now :=
  hx fl _ (History.linked_start hI) hP

end Follows

end Steps

end Omg.Control
