import Mathlib.Data.List.Basic

/-!
# Processes that share a store

Processes, each with a state of its own, take turns in any order. A step is taken by one process:
it changes the state of this process and the shared store. The rule for invariants asks two things:
that a process keeps its own assertion and meets its guarantee, and that the assertions of the
others are stable under the guarantee.
-/

namespace Omg.Control

/-- What the processes `ι`, with states `L` and a shared store `M`, do by the actions `A`. An action
may not be possible. -/
structure Machine (ι L M A : Type) where
  advance : ι → A → L → M → Option (L × M)

namespace Machine

variable {ι L M A : Type} [DecidableEq ι] (m : Machine ι L M A)

structure Config (ι L M : Type) where
  locals : ι → L
  store : M

/-- The process `i` goes on. -/
def Config.put (s : Config ι L M) (i : ι) (next : L × M) : Config ι L M :=
  ⟨Function.update s.locals i next.1, next.2⟩

@[simp] lemma Config.store_put (s : Config ι L M) (i : ι) (next : L × M) :
    (s.put i next).store = next.2 := rfl

@[simp] lemma Config.locals_put_self (s : Config ι L M) (i : ι) (next : L × M) :
    (s.put i next).locals i = next.1 := Function.update_self ..

lemma Config.locals_put_of_ne (s : Config ι L M) {i k : ι} (h : k ≠ i) (next : L × M) :
    (s.put i next).locals k = s.locals k := Function.update_of_ne h ..

def step (s : Config ι L M) (a : ι × A) : Option (Config ι L M) :=
  (m.advance a.1 a.2 (s.locals a.1) s.store).map (s.put a.1)

def exec (s : Config ι L M) : List (ι × A) → Option (Config ι L M)
  | [] => some s
  | a :: as => (m.step s a).bind fun s' => exec s' as

variable {m} {s s' : Config ι L M}

lemma step_cases {a : ι × A} (h : m.step s a = some s') :
    ∃ next, m.advance a.1 a.2 (s.locals a.1) s.store = some next ∧ s' = s.put a.1 next := by
  obtain ⟨next, hnx, hs'⟩ := Option.map_eq_some_iff.mp h
  exact ⟨next, hnx, hs'.symm⟩

lemma exec_induction {P : Config ι L M → Prop}
    (hst : ∀ s a s', P s → m.step s a = some s' → P s') {as : List (ι × A)}
    (h : m.exec s as = some s') (hs : P s) : P s' := by
  induction as generalizing s with
  | nil => exact Option.some.inj h ▸ hs
  | cons a as ih =>
    obtain ⟨s₁, hs₁, hr⟩ := Option.bind_eq_some_iff.mp h
    exact ih hr (hst s a s₁ hs hs₁)

/-- Each process has an assertion `I` on its state and the store. It keeps its assertion, and it
changes the store as its guarantee `G` allows; the assertions of the others are stable under such
changes. -/
structure Preserves (m : Machine ι L M A) (I : ι → L → M → Prop) (G : ι → M → M → Prop) :
    Prop where
  own : ∀ i a l store next, I i l store → m.advance i a l store = some next →
    I i next.1 next.2 ∧ G i store next.2
  stable : ∀ i k l store store', k ≠ i → G i store store' → I k l store → I k l store'

lemma Preserves.step {I : ι → L → M → Prop} {G : ι → M → M → Prop} (hm : m.Preserves I G)
    {a : ι × A} (hs : ∀ i, I i (s.locals i) s.store) (h : m.step s a = some s') :
    (∀ i, I i (s'.locals i) s'.store) ∧ G a.1 s.store s'.store := by
  obtain ⟨next, hnx, rfl⟩ := step_cases h
  obtain ⟨hown, hgu⟩ := hm.own a.1 a.2 _ _ next (hs a.1) hnx
  refine ⟨fun k => ?_, hgu⟩
  by_cases hk : k = a.1
  · subst hk
    rw [Config.locals_put_self]
    exact hown
  · rw [Config.locals_put_of_ne s hk]
    exact hm.stable a.1 k _ _ _ hk hgu (hs k)

lemma exec_invariant {I : ι → L → M → Prop} {G : ι → M → M → Prop} (hm : m.Preserves I G)
    {as : List (ι × A)} (h : m.exec s as = some s') (hs : ∀ i, I i (s.locals i) s.store) :
    ∀ i, I i (s'.locals i) s'.store :=
  exec_induction (fun _ _ _ hs h => (hm.step hs h).1) h hs

end Machine

/-!
### Programs of processes that share a store

A program is a result, an error, or an action on the store and a program for each of its outcomes.
Between two actions of a process the others may change the store as its *rely* relation allows. An
action changes the store as the *guarantee* allows. If the guarantee of each process is in the rely
relation of all others then the programs may be interleaved in any way.
-/

/-- A program on a store `M`, with outside inputs `A` to its actions. -/
inductive Process (M A ε α : Type)
  | ret (result : α)
  | fail (error : ε)
  | act (effect : A → M → M) (next : A → M → Process M A ε α)

namespace Process

variable {M A ε ε' α β : Type} (R G : M → M → Prop) {ι : Type}

def bind : Process M A ε α → (α → Process M A ε β) → Process M A ε β
  | ret result, k => k result
  | fail error, _ => fail error
  | act effect next, k => act effect fun a m => (next a m).bind k

instance : Monad (Process M A ε) where
  pure := ret
  bind := bind

def ofExcept : Except ε α → Process M A ε α
  | .ok result => ret result
  | .error error => fail error

instance : MonadLift (Except ε) (Process M A ε) := ⟨ofExcept⟩

def perform (f : A → M → Except ε α × M) : Process M A ε α :=
  act (fun a m => (f a m).2) fun a m => ofExcept (f a m).1

def mapError (f : ε → ε') : Process M A ε α → Process M A ε' α
  | ret result => ret result
  | fail error => fail (f error)
  | act effect next => act effect fun a m => (next a m).mapError f

def attempt : Process M A ε α → Process M A ε' (Except ε α)
  | ret result => ret (.ok result)
  | fail error => ret (.error error)
  | act effect next => act effect fun a m => (next a m).attempt

/-- From the store `m`, if all others change the store as in `R`, then every action changes it as in
`G`, and the outcome is as `Q` or `E` says. -/
def Sat (Q : α → M → Prop) (E : ε → M → Prop) : Process M A ε α → M → Prop
  | ret result, m => Q result m
  | fail error, m => E error m
  | act effect next, m =>
    ∀ m', R m m' → ∀ a, G m' (effect a m') ∧ (next a m').Sat Q E (effect a m')

def Triple (P : M → Prop) (p : Process M A ε α) (Q : α → M → Prop) (E : ε → M → Prop) : Prop :=
  ∀ m, P m → p.Sat R G Q E m

/-- The others do not change whether `P` holds. -/
def Stable (P : M → Prop) : Prop := ∀ m m', R m m' → P m → P m'

namespace Triple

variable {R G} {P P' : M → Prop} {p : Process M A ε α} {Q Q' : α → M → Prop} {E E' : ε → M → Prop}

/-- What goes on in a program `F p` as in `p`, up to the outcomes of `p`. -/
lemma sat_elim (F : Process M A ε α → Process M A ε' β) {Q' : β → M → Prop} {E' : ε' → M → Prop}
    (hF : ∀ effect next, F (act effect next) = act effect fun a m => F (next a m))
    (hQ : ∀ a m, Q a m → (F (ret a)).Sat R G Q' E' m)
    (hE : ∀ e m, E e m → (F (.fail e)).Sat R G Q' E' m) {m : M} (h : p.Sat R G Q E m) :
    (F p).Sat R G Q' E' m := by
  induction p generalizing m with
  | ret res => exact hQ _ _ h
  | fail error => exact hE _ _ h
  | act effect next ih =>
    rw [hF]
    exact fun m' hm' a => ⟨(h m' hm' a).1, ih a m' (h m' hm' a).2⟩

lemma mono (h : Triple R G P p Q E) (hP : ∀ m, P' m → P m) (hQ : ∀ a m, Q a m → Q' a m)
    (hE : ∀ e m, E e m → E' e m) : Triple R G P' p Q' E' :=
  fun m hm => sat_elim id (fun _ _ => rfl) hQ hE (h m (hP m hm))

lemma pure {a : α} (h : ∀ m, P m → Q a m) : Triple R G P (Pure.pure a : Process M A ε α) Q E := h

lemma lift {x : Except ε α} (hok : ∀ a m, x = .ok a → P m → Q a m)
    (her : ∀ e m, x = .error e → P m → E e m) : Triple R G P (liftM x : Process M A ε α) Q E := by
  cases x with
  | ok a => exact fun m hm => hok a m rfl hm
  | error e => exact fun m hm => her e m rfl hm

lemma bind {k : α → Process M A ε β} {Q' : β → M → Prop} (hp : Triple R G P p Q E)
    (hk : ∀ a, Triple R G (Q a) (k a) Q' E) : Triple R G P (p >>= k) Q' E :=
  fun m hm => sat_elim (·.bind k) (fun _ _ => rfl) hk (fun _ _ h => h) (hp m hm)

lemma perform {f : A → M → Except ε α × M} (hP : Stable R P)
    (hf : ∀ a m, P m → G m (f a m).2 ∧ (∀ r, (f a m).1 = .ok r → Q r (f a m).2) ∧
      ∀ e, (f a m).1 = .error e → E e (f a m).2) : Triple R G P (Process.perform f) Q E := by
  intro m hm m' hm' a
  obtain ⟨hG, hok, her⟩ := hf a m' (hP m m' hm' hm)
  refine ⟨hG, ?_⟩
  change (ofExcept (f a m').1).Sat R G Q E (f a m').2
  cases hr : (f a m').1 with
  | ok r => exact hok r hr
  | error e => exact her e hr

lemma mapError {f : ε → ε'} {E' : ε' → M → Prop} (hp : Triple R G P p Q E)
    (hE : ∀ e m, E e m → E' (f e) m) : Triple R G P (p.mapError f) Q E' :=
  fun m hm => sat_elim (·.mapError f) (fun _ _ => rfl) (fun _ _ h => h) hE (hp m hm)

lemma attempt_bind {k : Except ε α → Process M A ε' β} {Q' : β → M → Prop} {E' : ε' → M → Prop}
    (hp : Triple R G P p Q E) (hok : ∀ a, Triple R G (Q a) (k (.ok a)) Q' E')
    (her : ∀ e, Triple R G (E e) (k (.error e)) Q' E') : Triple R G P (p.attempt >>= k) Q' E' :=
  fun m hm => sat_elim (·.attempt.bind k) (fun _ _ => rfl) hok her (hp m hm)

end Triple

def machine (ι : Type) : Machine ι (Process M A ε α) M A where
  advance _ a p m :=
    match p with
    | act effect next => some (next a m, effect a m)
    | _ => none

lemma preserves {R G : ι → M → M → Prop} {Q : ι → α → M → Prop} {E : ι → ε → M → Prop}
    (hre : ∀ i m, R i m m) (htra : ∀ i m m' m'', R i m m' → R i m' m'' → R i m m'')
    (hry : ∀ i k m m', k ≠ i → G i m m' → R k m m')
    (hQ : ∀ i a, Stable (R i) (Q i a)) (hE : ∀ i e, Stable (R i) (E i e)) :
    (machine ι : Machine ι (Process M A ε α) M A).Preserves
      (fun i p m => p.Sat (R i) (G i) (Q i) (E i) m) G where
  own i a p m next hp hnx := by
    cases p with
    | act effect cnt =>
      cases hnx
      obtain ⟨hG, hnx⟩ := hp m (hre i m) a
      exact ⟨hnx, hG⟩
    | _ res => cases hnx
  stable i k p m m' hk hG hp := by
    have hR := hry i k m m' hk hG
    cases p with
    | ret res => exact hQ k res m m' hR hp
    | fail error => exact hE k error m m' hR hp
    | act effect cnt => exact fun m'' hm'' => hp m'' (htra k m m' m'' hR hm'')

end Process

end Omg.Control
