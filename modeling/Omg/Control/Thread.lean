import Omg.Control.Machine

/-!
# Threads that wait

A thread is a result, an error, or an action on a shared store and a thread for each of its
outcomes. An action waits until the store is ready for it, as for a lock that is free. Between two
actions of a thread the others may change the store as its *rely* relation allows, and an action
changes the store as the *guarantee* allows. A thread can be aborted before each of its actions;
what it holds is then released.

If the guarantee of each thread is in the rely relations of all others then the threads may be
interleaved in any way.
-/

namespace Omg.Control

/-- A thread on a store `M`, with outside inputs `A` to its actions. -/
inductive Thread (M A ε α : Type)
  | ret (result : α)
  | fail (error : ε)
  | act (ready : M → Bool) (effect : A → M → M) (next : A → M → Thread M A ε α)

namespace Thread

variable {M A ε ε' α β : Type} (R G : M → M → Prop)

def bind : Thread M A ε α → (α → Thread M A ε β) → Thread M A ε β
  | ret result, k => k result
  | fail error, _ => fail error
  | act ready effect next, k => act ready effect fun a m => (next a m).bind k

instance : Monad (Thread M A ε) where
  pure := ret
  bind := bind

def ofExcept : Except ε α → Thread M A ε α
  | .ok result => ret result
  | .error error => fail error

def await (ready : M → Bool) (f : A → M → Except ε α × M) : Thread M A ε α :=
  act ready (fun a m => (f a m).2) fun a m => ofExcept (f a m).1

def perform (f : A → M → Except ε α × M) : Thread M A ε α := await (fun _ => true) f

def mapError (f : ε → ε') : Thread M A ε α → Thread M A ε' α
  | ret result => ret result
  | fail error => fail (f error)
  | act ready effect next => act ready effect fun a m => (next a m).mapError f

def attempt : Thread M A ε α → Thread M A ε' (Except ε α)
  | ret result => ret (.ok result)
  | fail error => ret (.error error)
  | act ready effect next => act ready effect fun a m => (next a m).attempt

/-- From the store `m`, if all others change the store as in `R`, then every action changes it as in
`G`, and the outcome is as `Q` or `E` says. -/
def Sat (Q : α → M → Prop) (E : ε → M → Prop) : Thread M A ε α → M → Prop
  | ret result, m => Q result m
  | fail error, m => E error m
  | act ready effect next, m =>
    ∀ m', R m m' → ready m' = true → ∀ a, G m' (effect a m') ∧ (next a m').Sat Q E (effect a m')

def Triple (P : M → Prop) (t : Thread M A ε α) (Q : α → M → Prop) (E : ε → M → Prop) : Prop :=
  ∀ m, P m → t.Sat R G Q E m

/-- The others do not change whether `P` holds. -/
def Stable (P : M → Prop) : Prop := ∀ m m', R m m' → P m → P m'

variable {R G} {ι : Type} {release : ι → M → M}

namespace Triple

variable {P P' : M → Prop} {t : Thread M A ε α} {Q Q' : α → M → Prop} {E E' : ε → M → Prop}

/-- What goes on in a thread `F t` as in `t`, up to the outcomes of `t`. -/
lemma sat_elim (F : Thread M A ε α → Thread M A ε' β) {Q' : β → M → Prop} {E' : ε' → M → Prop}
    (hF : ∀ rdy effect next, F (act rdy effect next) = act rdy effect fun a m => F (next a m))
    (hQ : ∀ a m, Q a m → (F (ret a)).Sat R G Q' E' m)
    (hE : ∀ e m, E e m → (F (.fail e)).Sat R G Q' E' m) {m : M} (h : t.Sat R G Q E m) :
    (F t).Sat R G Q' E' m := by
  induction t generalizing m with
  | ret res => exact hQ _ _ h
  | fail error => exact hE _ _ h
  | act rdy effect next ih =>
    rw [hF]
    exact fun m' hm' hrdy a => ⟨(h m' hm' hrdy a).1, ih a m' (h m' hm' hrdy a).2⟩

lemma mono (h : Triple R G P t Q E) (hP : ∀ m, P' m → P m) (hQ : ∀ a m, Q a m → Q' a m)
    (hE : ∀ e m, E e m → E' e m) : Triple R G P' t Q' E' :=
  fun m hm => sat_elim id (fun _ _ _ => rfl) hQ hE (h m (hP m hm))

lemma pure {a : α} (h : ∀ m, P m → Q a m) : Triple R G P (Pure.pure a : Thread M A ε α) Q E := h

lemma fail {e : ε} (h : ∀ m, P m → E e m) : Triple R G P (Thread.fail e : Thread M A ε α) Q E := h

lemma bind {k : α → Thread M A ε β} {Q' : β → M → Prop} (ht : Triple R G P t Q E)
    (hk : ∀ a, Triple R G (Q a) (k a) Q' E) : Triple R G P (t >>= k) Q' E :=
  fun m hm => sat_elim (·.bind k) (fun _ _ _ => rfl) hk (fun _ _ h => h) (ht m hm)

lemma await {rdy : M → Bool} {f : A → M → Except ε α × M} (hP : Stable R P)
    (hf : ∀ a m, P m → rdy m → G m (f a m).2 ∧ (∀ r, (f a m).1 = .ok r → Q r (f a m).2) ∧
      ∀ e, (f a m).1 = .error e → E e (f a m).2) : Triple R G P (Thread.await rdy f) Q E := by
  intro m hm m' hm' hrdy a
  obtain ⟨hG, hok, her⟩ := hf a m' (hP m m' hm' hm) hrdy
  refine ⟨hG, ?_⟩
  change (Thread.ofExcept (f a m').1).Sat R G Q E (f a m').2
  cases hr : (f a m').1 with
  | ok r => exact hok r hr
  | error e => exact her e hr

lemma perform {f : A → M → Except ε α × M} (hP : Stable R P)
    (hf : ∀ a m, P m → G m (f a m).2 ∧ (∀ r, (f a m).1 = .ok r → Q r (f a m).2) ∧
      ∀ e, (f a m).1 = .error e → E e (f a m).2) : Triple R G P (Thread.perform f) Q E :=
  await hP fun a m hm _ => hf a m hm

lemma mapError {f : ε → ε'} {E' : ε' → M → Prop} (ht : Triple R G P t Q E)
    (hE : ∀ e m, E e m → E' (f e) m) : Triple R G P (t.mapError f) Q E' :=
  fun m hm => sat_elim (·.mapError f) (fun _ _ _ => rfl) (fun _ _ h => h) hE (ht m hm)

lemma attempt {Q' : Except ε α → M → Prop} {E' : ε' → M → Prop} (ht : Triple R G P t Q E)
    (hok : ∀ a m, Q a m → Q' (.ok a) m) (her : ∀ e m, E e m → Q' (.error e) m) :
    Triple R G P (t.attempt : Thread M A ε' (Except ε α)) Q' E' :=
  fun m hm => sat_elim (·.attempt) (fun _ _ _ => rfl) hok her (ht m hm)

end Triple

/-! ### Interleaving -/

/-- Each thread goes on, if the store is ready for its action, until it has an outcome; or it is
aborted and what it holds is released. -/
def machine (ι : Type) (release : ι → M → M) :
    Machine ι (Option (Thread M A ε α)) M (Option A) where
  advance i input t m :=
    match t, input with
    | some (act ready effect next), some a =>
      if ready m then some (some (next a m), effect a m) else none
    | some (act _ _ _), none => some (none, release i m)
    | _, _ => none

lemma machine_cases {i : ι} {input : Option A} {t : Option (Thread M A ε α)} {m : M}
    {next : Option (Thread M A ε α) × M} (h : (machine ι release).advance i input t m = some next) :
    ∃ rdy effect cnt, t = some (act rdy effect cnt) ∧
      ((∃ a, input = some a ∧ rdy m ∧ next = (some (cnt a m), effect a m)) ∨
        input = none ∧ next = (none, release i m)) := by
  cases t with
  | none => cases h
  | some t =>
    cases t with
    | act rdy effect cnt =>
      refine ⟨rdy, effect, cnt, rfl, ?_⟩
      cases input with
      | none => exact .inr ⟨rfl, (Option.some.inj h).symm⟩
      | some a =>
        simp only [machine] at h
        split_ifs at h with hrdy
        exact .inl ⟨a, rfl, hrdy, (Option.some.inj h).symm⟩
    | _ res => cases h

lemma preserves {R G : ι → M → M → Prop} {Q : ι → α → M → Prop} {E : ι → ε → M → Prop}
    (hre : ∀ i m, R i m m) (htra : ∀ i m m' m'', R i m m' → R i m' m'' → R i m m'')
    (hry : ∀ i k m m', k ≠ i → G i m m' → R k m m') (hrls : ∀ i m, G i m (release i m))
    (hQ : ∀ i a, Stable (R i) (Q i a)) (hE : ∀ i e, Stable (R i) (E i e)) :
    (machine ι release : Machine ι (Option (Thread M A ε α)) M (Option A)).Preserves
      (fun i t m => ∀ p, t = some p → p.Sat (R i) (G i) (Q i) (E i) m) G where
  own i a t m next ht hnx := by
    obtain ⟨rdy, effect, cnt, rfl, ⟨a, rfl, hrdy, rfl⟩ | ⟨rfl, rfl⟩⟩ := machine_cases hnx
    · obtain ⟨hG, hsat⟩ := ht _ rfl m (hre i m) hrdy a
      refine ⟨fun p hp => ?_, hG⟩
      cases hp
      exact hsat
    · refine ⟨fun p hp => ?_, hrls i m⟩
      cases hp
  stable i k t m m' hk hG ht p hp := by
    have hR := hry i k m m' hk hG
    have hsat := ht p hp
    cases p with
    | ret res => exact hQ k res m m' hR hsat
    | fail error => exact hE k error m m' hR hsat
    | act rdy effect cnt => exact fun m'' hm'' => hsat m'' (htra k m m' m'' hR hm'')

/-! ### A thread that runs alone -/

/-- With the input `a` to all its actions, and no others in between, the thread has this outcome. -/
inductive Runs (a : A) : Thread M A ε α → M → Except ε α → M → Prop
  | ret (result : α) (m : M) : Runs a (ret result) m (.ok result) m
  | fail (error : ε) (m : M) : Runs a (fail error) m (.error error) m
  | act {ready : M → Bool} {effect : A → M → M} {next : A → M → Thread M A ε α} {m m' : M}
      {outcome : Except ε α} (hready : ready m = true)
      (hnext : Runs a (next a m) (effect a m) outcome m') :
      Runs a (act ready effect next) m outcome m'

namespace Runs

variable {a : A} {t : Thread M A ε α} {m m' : M} {outcome : Except ε α}

lemma ofExcept (outcome : Except ε α) (m : M) : Runs a (Thread.ofExcept outcome) m outcome m := by
  cases outcome with
  | ok result => exact .ret result m
  | error error => exact .fail error m

lemma await {ready : M → Bool} {f : A → M → Except ε α × M} (hready : ready m = true) :
    Runs a (Thread.await ready f) m (f a m).1 (f a m).2 :=
  .act hready (ofExcept _ _)

lemma perform {f : A → M → Except ε α × M} : Runs a (Thread.perform f) m (f a m).1 (f a m).2 :=
  await rfl

lemma bind {k : α → Thread M A ε β} {result : α} {m'' : M} {outcome : Except ε β}
    (ht : Runs a t m (.ok result) m') (hk : Runs a (k result) m' outcome m'') :
    Runs a (t >>= k) m outcome m'' := by
  generalize hresult : Except.ok result = r at ht
  induction ht with
  | ret result' m =>
    cases hresult
    exact hk
  | fail error m => cases hresult
  | act hready _ ih => exact .act hready (ih hk hresult)

lemma mapError (f : ε → ε') (ht : Runs a t m outcome m') :
    Runs a (t.mapError f) m (outcome.mapError f) m' := by
  induction ht with
  | ret result m => exact .ret result m
  | fail error m => exact .fail (f error) m
  | act hready _ ih => exact .act hready ih

lemma attempt (ht : Runs a t m outcome m') :
    Runs a (t.attempt : Thread M A ε' (Except ε α)) m (.ok outcome) m' := by
  induction ht with
  | ret result m => exact .ret _ m
  | fail error m => exact .ret _ m
  | act hready _ ih => exact .act hready ih

/-- The thread goes on to its outcome if it alone takes its turns. -/
lemma exec [DecidableEq ι] {c : Machine.Config ι (Option (Thread M A ε α)) M} {i : ι}
    (ht : Runs a t c.store outcome m') (hlocal : c.locals i = some t) :
    ∃ n c', (machine ι release).exec c (List.replicate n (i, some a)) = some c' ∧
      c'.locals i = some (Thread.ofExcept outcome) ∧ c'.store = m' := by
  generalize hm : c.store = m at ht
  induction ht generalizing c with
  | ret result m => exact ⟨0, c, rfl, hlocal, hm⟩
  | fail error m => exact ⟨0, c, rfl, hlocal, hm⟩
  | @act ready effect next _ _ _ hready _ ih =>
    subst hm
    obtain ⟨n, c', hexec, hend⟩ := ih (c := c.put i (some (next a c.store), effect a c.store))
      (Machine.Config.locals_put_self ..) rfl
    have hadvance : (machine ι release).advance i (some a) (c.locals i) c.store =
        some (some (next a c.store), effect a c.store) := by simp [machine, hlocal, hready]
    refine ⟨n + 1, c', ?_, hend⟩
    rw [List.replicate_succ, Machine.exec, Machine.step, hadvance]
    exact hexec

end Runs

end Thread

/-!
### Sections under a lock

Threads that change some data only while they hold a lock. A thread takes the lock when it is free;
a thread that ends or is aborted does not hold it any more. What holds of the data before and after
every action under the lock is an invariant of all runs, and in its section a thread can rely on the
data not being changed by others.
-/

open Thread.Triple

structure Guarded (ι S : Type) where
  owner : Option ι
  data : S

namespace Guarded

variable {ι S A ε α β : Type}

def release [DecidableEq ι] (i : ι) (m : Guarded ι S) : Guarded ι S :=
  if m.owner = some i then { m with owner := none } else m

def acquire (i : ι) : Thread (Guarded ι S) A ε Unit :=
  .await (fun m => m.owner.isNone) fun _ m => (.ok (), { m with owner := some i })

def inside (f : A → S → Except ε α × S) : Thread (Guarded ι S) A ε α :=
  .perform fun a m => ((f a m.data).1, { m with data := (f a m.data).2 })

def free [DecidableEq ι] (i : ι) (f : A → Except ε α) : Thread (Guarded ι S) A ε α :=
  .perform fun a m => (f a, release i m)

structure Protocol (ι S : Type) where
  invariant : S → Prop
  own : ι → S → S → Prop
  others : ι → S → S → Prop
  own_refl : ∀ i s, own i s s
  others_refl : ∀ i s, others i s s
  others_trans : ∀ i s s' s'', others i s s' → others i s' s'' → others i s s''
  others_of_own : ∀ i k s s', k ≠ i → own i s s' → others k s s'

variable (p : Protocol ι S)

/-- What the thread `i` relies on; while it holds the lock nothing changes. -/
structure Rely (i : ι) (m m' : Guarded ι S) : Prop where
  invariant : p.invariant m.data → p.invariant m'.data
  others : p.others i m.data m'.data
  held : m.owner = some i → m' = m

/-- What the thread `i` guarantees. -/
structure Guarantee (i : ι) (m m' : Guarded ι S) : Prop where
  invariant : p.invariant m.data → p.invariant m'.data
  own : p.own i m.data m'.data
  held : ∀ k, k ≠ i → m.owner = some k → m' = m

/-- The thread `i` is in its section, with data as in `P`. -/
structure Within (i : ι) (P : S → Prop) (m : Guarded ι S) : Prop where
  owner : m.owner = some i
  invariant : p.invariant m.data
  data : P m.data

/-- The thread `i` is not in its section. -/
structure Without (P : S → Prop) (m : Guarded ι S) : Prop where
  invariant : p.invariant m.data
  data : P m.data

/-- What the thread `i` ensures in its section. -/
def Section (i : ι) (P : S → Prop) (t : Thread (Guarded ι S) A ε α) (Q : α → S → Prop)
    (E : ε → S → Prop) : Prop :=
  t.Triple (Rely p i) (Guarantee p i) (Within p i P) (fun r => Within p i (Q r))
    fun e => Within p i (E e)

/-- What the thread `i` ensures when it is not in its section before and after. -/
abbrev Outer (i : ι) (P : S → Prop) (t : Thread (Guarded ι S) A ε α) (Q : α → S → Prop)
    (E : ε → S → Prop) : Prop :=
  t.Triple (Rely p i) (Guarantee p i) (Without p P) (fun r => Without p (Q r))
    fun e => Without p (E e)

variable {p} {i : ι} {P : S → Prop} {Q : α → S → Prop} {E : ε → S → Prop}

lemma Guarantee.rely {k : ι} {m m' : Guarded ι S} (hk : k ≠ i) (h : Guarantee p i m m') :
    Rely p k m m' :=
  ⟨h.invariant, p.others_of_own i k _ _ hk h.own, h.held k hk⟩

lemma Rely.refl (i : ι) (m : Guarded ι S) : Rely p i m m :=
  ⟨id, p.others_refl i m.data, fun _ => rfl⟩

lemma Rely.trans {m m' m'' : Guarded ι S} (h : Rely p i m m') (h' : Rely p i m' m'') :
    Rely p i m m'' := by
  refine ⟨fun hI => h'.invariant (h.invariant hI), p.others_trans i _ _ _ h.others h'.others,
    fun hm => ?_⟩
  have heq := h.held hm
  subst heq
  exact h'.held hm

lemma stable_within : Thread.Stable (Rely p i) (Within p i P) := by
  intro m m' hR hm
  rw [hR.held hm.owner]
  exact hm

lemma stable_without (hP : ∀ s s', p.others i s s' → P s → P s') :
    Thread.Stable (Rely p i) (Without p P) :=
  fun _ _ hR hm => ⟨hR.invariant hm.invariant, hP _ _ hR.others hm.data⟩

/-! ### Rules -/

lemma triple_outside (hP : ∀ s s', p.others i s s' → P s → P s') {f : A → Except ε α}
    (hok : ∀ a r s, f a = .ok r → P s → Q r s) (her : ∀ a e s, f a = .error e → P s → E e s) :
    Outer p i P (Thread.perform fun a m => (f a, m)) Q E := by
  refine .perform (stable_without hP) fun a m hm => ⟨?_, fun r hr => ?_, fun e he => ?_⟩
  · exact ⟨id, p.own_refl i m.data, fun _ _ _ => rfl⟩
  · exact ⟨hm.invariant, hok a r _ hr hm.data⟩
  · exact ⟨hm.invariant, her a e _ he hm.data⟩

lemma triple_acquire (hP : ∀ s s', p.others i s s' → P s → P s') {E : ε → Guarded ι S → Prop} :
    (acquire i : Thread (Guarded ι S) A ε Unit).Triple (Rely p i) (Guarantee p i) (Without p P)
      (fun _ => Within p i P) E := by
  refine .await (stable_without hP) fun a m hm hrdy => ⟨?_, fun r _ => ?_, fun e he => ?_⟩
  · refine ⟨id, p.own_refl i m.data, fun k _ hown => ?_⟩
    rw [hown] at hrdy
    cases hrdy
  · exact ⟨rfl, hm.invariant, hm.data⟩
  · cases he

lemma section_of_forall {t : Thread (Guarded ι S) A ε α}
    (h : ∀ s, p.invariant s → P s → Section p i (fun s' => s' = s) t Q E) : Section p i P t Q E :=
  fun m hm => h m.data hm.invariant hm.data m ⟨hm.owner, hm.invariant, rfl⟩

lemma section_inside {f : A → S → Except ε α × S}
    (hf : ∀ a s, p.invariant s → P s → p.invariant (f a s).2 ∧ p.own i s (f a s).2 ∧
      (∀ r, (f a s).1 = .ok r → Q r (f a s).2) ∧ ∀ e, (f a s).1 = .error e → E e (f a s).2) :
    Section p i P (inside f) Q E := by
  refine .perform stable_within fun a m hm => ?_
  obtain ⟨hI, hown, hok, her⟩ := hf a m.data hm.invariant hm.data
  refine ⟨⟨fun _ => hI, hown, fun k hk how => ?_⟩, fun r hr => ⟨hm.owner, hI, hok r hr⟩,
    fun e he => ⟨hm.owner, hI, her e he⟩⟩
  rw [hm.owner] at how
  exact absurd (Option.some.inj how).symm hk

namespace Section

variable {i : ι} {P : S → Prop} {t : Thread (Guarded ι S) A ε α} {Q : α → S → Prop}
  {E : ε → S → Prop}

lemma mono {P' : S → Prop} {Q' : α → S → Prop} {E' : ε → S → Prop} (ht : Section p i P t Q E)
    (hP : ∀ s, P' s → P s) (hQ : ∀ a s, Q a s → Q' a s) (hE : ∀ e s, E e s → E' e s) :
    Section p i P' t Q' E' :=
  Thread.Triple.mono ht (fun _ hm => ⟨hm.owner, hm.invariant, hP _ hm.data⟩)
    (fun a _ hm => ⟨hm.owner, hm.invariant, hQ a _ hm.data⟩)
    fun e _ hm => ⟨hm.owner, hm.invariant, hE e _ hm.data⟩

lemma pure {a : α} (h : ∀ s, P s → Q a s) :
    Section p i P (Pure.pure a : Thread (Guarded ι S) A ε α) Q E :=
  Thread.Triple.pure fun _ hm => ⟨hm.owner, hm.invariant, h _ hm.data⟩

lemma fail {e : ε} (h : ∀ s, P s → E e s) :
    Section p i P (Thread.fail e : Thread (Guarded ι S) A ε α) Q E :=
  Thread.Triple.fail fun _ hm => ⟨hm.owner, hm.invariant, h _ hm.data⟩

lemma bind {k : α → Thread (Guarded ι S) A ε β} {Q' : β → S → Prop} (ht : Section p i P t Q E)
    (hk : ∀ a, Section p i (Q a) (k a) Q' E) : Section p i P (t >>= k) Q' E :=
  Thread.Triple.bind ht hk

lemma bind_of_eq {k : α → Thread (Guarded ι S) A ε β} {Q' : β → S → Prop} {s : S} {a : α}
    (ht : Section p i P t (fun r s' => s' = s ∧ r = a) E)
    (hk : Section p i (fun s' => s' = s) (k a) Q' E) : Section p i P (t >>= k) Q' E := by
  refine bind ht fun r m hm => ?_
  obtain ⟨hs, rfl⟩ := hm.data
  exact hk m ⟨hm.owner, hm.invariant, hs⟩

lemma mapError {ε' : Type} {f : ε → ε'} {E' : ε' → S → Prop} (ht : Section p i P t Q E)
    (hE : ∀ e s, E e s → E' (f e) s) : Section p i P (t.mapError f) Q E' :=
  Thread.Triple.mapError ht fun e _ hm => ⟨hm.owner, hm.invariant, hE e _ hm.data⟩

lemma attempt {ε' : Type} {Q' : Except ε α → S → Prop} {E' : ε' → S → Prop}
    (ht : Section p i P t Q E) (hok : ∀ a s, Q a s → Q' (.ok a) s)
    (her : ∀ e s, E e s → Q' (.error e) s) :
    Section p i P (t.attempt : Thread (Guarded ι S) A ε' (Except ε α)) Q' E' :=
  Thread.Triple.attempt ht (fun a _ hm => ⟨hm.owner, hm.invariant, hok a _ hm.data⟩)
    fun e _ hm => ⟨hm.owner, hm.invariant, her e _ hm.data⟩

end Section

variable [DecidableEq ι]

lemma guarantee_release (i : ι) (m : Guarded ι S) : Guarantee p i m (release i m) := by
  unfold release
  split_ifs with hown
  · refine ⟨id, p.own_refl i m.data, fun k hk hm => ?_⟩
    rw [hown] at hm
    exact absurd (Option.some.inj hm).symm hk
  · exact ⟨id, p.own_refl i m.data, fun _ _ _ => rfl⟩

@[simp] lemma data_release (i : ι) (m : Guarded ι S) : (release i m).data = m.data := by
  unfold release
  split_ifs <;> rfl

lemma triple_free {f : A → Except ε α} (hok : ∀ a r s, f a = .ok r → P s → Q r s)
    (her : ∀ a e s, f a = .error e → P s → E e s) :
    (free i f : Thread (Guarded ι S) A ε α).Triple (Rely p i) (Guarantee p i) (Within p i P)
      (fun r => Without p (Q r)) fun e => Without p (E e) := by
  refine .perform stable_within fun a m hm => ⟨guarantee_release i m, fun r hr => ?_,
    fun e he => ?_⟩
  · exact ⟨by simpa using hm.invariant, by simpa using hok a r _ hr hm.data⟩
  · exact ⟨by simpa using hm.invariant, by simpa using her a e _ he hm.data⟩

lemma triple_locked (hP : ∀ s s', p.others i s s' → P s → P s') {t : Thread (Guarded ι S) A ε α}
    (ht : Section p i P t Q E) {f : Except ε α → A → Except ε β} {Q' : β → S → Prop}
    {E' : ε → S → Prop}
    (hok : ∀ x a r s, f x a = .ok r → (∀ b, x = .ok b → Q b s) → (∀ e, x = .error e → E e s) → Q' r
      s)
    (her : ∀ x a e s, f x a = .error e → (∀ b, x = .ok b → Q b s) → (∀ e, x = .error e → E e s) →
      E' e s) : Outer p i P (acquire i >>= fun _ => t.attempt >>= fun x => free i (f x)) Q' E' := by
  refine .bind (triple_acquire hP) fun _ => ?_
  refine .bind (Q := fun x => Within p i fun s =>
    (∀ b, x = .ok b → Q b s) ∧ ∀ e, x = .error e → E e s) ?_ fun x => ?_
  · refine attempt ht (fun b m hm => ?_) fun e m hm => ?_
    · refine ⟨hm.owner, hm.invariant, fun b' hb' => ?_, fun e he => ?_⟩
      · exact Except.ok.inj hb' ▸ hm.data
      · cases he
    · refine ⟨hm.owner, hm.invariant, fun b hb => ?_, fun e' he' => ?_⟩
      · cases hb
      · exact Except.error.inj he' ▸ hm.data
  · exact triple_free (fun a r s hr hs => hok x a r s hr hs.1 hs.2)
      fun a e s he hs => her x a e s he hs.1 hs.2

lemma preserves {Q : ι → α → S → Prop} {E : ι → ε → S → Prop}
    (hQ : ∀ i r s s', p.others i s s' → Q i r s → Q i r s')
    (hE : ∀ i e s s', p.others i s s' → E i e s → E i e s') : (Thread.machine ι release :
      Machine ι (Option (Thread (Guarded ι S) A ε α)) (Guarded ι S) (Option A)).Preserves
      (fun i t m => ∀ t', t = some t' → t'.Sat (Rely p i) (Guarantee p i)
        (fun r => Without p (Q i r)) (fun e => Without p (E i e)) m) (Guarantee p) :=
  Thread.preserves Rely.refl (fun _ _ _ _ => Rely.trans) (fun _ _ _ _ hk h => h.rely hk)
    guarantee_release (fun i r => stable_without (hQ i r)) fun i e => stable_without (hE i e)

end Guarded

end Omg.Control
