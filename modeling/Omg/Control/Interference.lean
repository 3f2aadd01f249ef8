import Omg.Control.Except

/-!
# Computations that other processes interfere with

A computation works on a world that others change while it runs. Every step of it is preceded by a
step of the environment, an arbitrary function of the time and the world. Two kinds of statements
are made about such a computation.

* `Meets R x Q`: against every environment whose steps are in the relation `R`, if `x` succeeds,
  then `Q` relates the world it starts in, its result and the world it ends in.
* `Attains env P x Q`: against the environment `env`, from every world in which `P` holds, `x`
  succeeds and `Q` holds of its result and the world it ends in.
-/

namespace Omg.Control

/-- A computation over a world of type `W` that fails with errors of type `ε`. The state counts the
steps and holds the world, and the function that is read is the environment. -/
abbrev Interfered (W ε : Type) : Type → Type := ReaderT (ℕ → W → W) (StateT (ℕ × W) (Except ε))

namespace Interfered

variable {W ε α β : Type} {R : W → W → Prop} {env : ℕ → W → W} {x : Interfered W ε α}
  {Q : W → α → W → Prop} {a : α} {f : α → Interfered W ε β} {P : W → Prop}

def step (f : W → Except ε (α × W)) : Interfered W ε α := fun env s =>
  (f (env s.1 s.2)).map fun r => (r.1, s.1 + 1, r.2)

/-- Against every environment with steps in `R`, the results of `x` are as `Q` says. -/
def Meets (R : W → W → Prop) (x : Interfered W ε α) (Q : W → α → W → Prop) : Prop :=
  ∀ env : ℕ → W → W, (∀ k w, R w (env k w)) →
    ∀ k w a k' w', x env (k, w) = .ok (a, k', w') → Q w a w'

/-- Against `env`, the computation `x` succeeds from `P` and its results are as `Q` says. -/
def Attains (env : ℕ → W → W) (P : W → Prop) (x : Interfered W ε α) (Q : α → W → Prop) : Prop :=
  ∀ k w, P w → ∃ a k' w', x env (k, w) = .ok (a, k', w') ∧ Q a w'

lemma bind_apply (x : Interfered W ε α) (f : α → Interfered W ε β) (env : ℕ → W → W)
    (s : ℕ × W) : (x >>= f) env s = x env s >>= fun r => f r.1 env r.2 := rfl

/-! ### What holds whenever a computation succeeds -/

lemma Meets.mono {Q' : W → α → W → Prop} (hx : Meets R x Q) (h : ∀ w a w', Q w a w' → Q' w a w') :
    Meets R x Q' :=
  fun env henv k w a k' w' hrun => h w a w' (hx env henv k w a k' w' hrun)

lemma Meets.pure (h : ∀ w, Q w a w) : Meets R (pure a : Interfered W ε α) Q := by
  rintro env - k w a' k' w' hrun
  cases hrun
  exact h w

lemma Meets.throw {e : ε} : Meets R (MonadExcept.throw e : Interfered W ε α) Q := by
  rintro env - k w a k' w' hrun
  cases hrun

lemma Meets.lift_bind {x : Except ε α} {Q : W → β → W → Prop}
    (h : ∀ a, x = .ok a → Meets R (f a) Q) : Meets R ((liftM x : Interfered W ε α) >>= f) Q := by
  rintro env henv k w b k' w' hrun
  cases x with
  | error e => cases hrun
  | ok a => exact h a rfl env henv k w b k' w' hrun

lemma Meets.step {f : W → Except ε (α × W)}
    (h : ∀ w w₁ a w', R w w₁ → f w₁ = .ok (a, w') → Q w a w') : Meets R (step f) Q := by
  rintro env henv k w a k' w' hrun
  cases hf : f (env k w) with
  | error e => simp [Interfered.step, hf, Except.map] at hrun
  | ok r =>
    obtain ⟨rfl, -, rfl⟩ : r.1 = a ∧ k + 1 = k' ∧ r.2 = w' := by
      simpa [Interfered.step, hf, Except.map] using hrun
    exact h w (env k w) r.1 r.2 (henv k w) hf

lemma Meets.bind {P : W → α → W → Prop} {Q : W → β → W → Prop} (hx : Meets R x P)
    (hf : ∀ a, Meets R (f a) fun w₁ b w' => ∀ w, P w a w₁ → Q w b w') : Meets R (x >>= f) Q := by
  rintro env henv k w b k' w' hrun
  rw [bind_apply, bind_eq_ok] at hrun
  obtain ⟨⟨a, k₁, w₁⟩, hrun₁, hrun₂⟩ := hrun
  exact hf a env henv k₁ w₁ b k' w' hrun₂ w (hx env henv k w a k₁ w₁ hrun₁)

/-! ### What makes a computation succeed -/

lemma Attains.pure {Q : α → W → Prop} (h : ∀ w, P w → Q a w) :
    Attains env P (pure a : Interfered W ε α) Q :=
  fun k w hw => ⟨a, k, w, rfl, h w hw⟩

lemma Attains.lift_bind {x : Except ε α} {Q : β → W → Prop} (hx : x = .ok a)
    (h : Attains env P (f a) Q) : Attains env P ((liftM x : Interfered W ε α) >>= f) Q := by
  subst hx
  exact h

lemma Attains.step {f : W → Except ε (α × W)} {Q : α → W → Prop}
    (h : ∀ k w, P w → ∃ a w', f (env k w) = .ok (a, w') ∧ Q a w') : Attains env P (step f) Q := by
  intro k w hw
  obtain ⟨a, w', hf, ha⟩ := h k w hw
  exact ⟨a, k + 1, w', by simp [Interfered.step, hf, Except.map], ha⟩

lemma Attains.bind {Q : α → W → Prop} {Q' : β → W → Prop} (hx : Attains env P x Q)
    (hf : ∀ a, Attains env (Q a) (f a) Q') : Attains env P (x >>= f) Q' := by
  intro k w hw
  obtain ⟨a, k₁, w₁, hrun, ha⟩ := hx k w hw
  obtain ⟨b, k', w', hrun', hb⟩ := hf a k₁ w₁ ha
  exact ⟨b, k', w', by rw [bind_apply, hrun]; exact hrun', hb⟩

end Interfered

end Omg.Control
