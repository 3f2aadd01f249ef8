import Mathlib.Data.List.Basic

/-!
# Parsers that look one token ahead

A parser reads tokens from the front of a list and returns a value together with the tokens that it
has not read. It is local if its result does not depend on the unread tokens beyond the first one,
and not on the first one either once that is a token at which every parser stops. The tokens that
a local parser reads can then be parsed on their own, or in front of other tokens.
-/

namespace Omg.Parse

variable {τ α β : Type*}

abbrev Parser (τ α : Type*) := List τ → Option (α × List τ)

/-- The tokens `rest'` may take the place of the unread tokens `rest`: they start with the same
token, or with a token at which parsers stop, or there are none. -/
def Interchangeable (stop : τ → Prop) (rest rest' : List τ) : Prop :=
  rest'.head? = rest.head? ∨ ∀ t, rest'.head? = some t → stop t

/-- A parser is local on the input `ts`, and what it reads has the property `good`. -/
def LocalAt (stop : τ → Prop) (good : List τ → Prop) (p : Parser τ α) (ts : List τ) : Prop :=
  ∀ ⦃a rest⦄, p ts = some (a, rest) → ∃ read, ts = read ++ rest ∧ good read ∧
    ∀ rest', Interchangeable stop rest rest' → p (read ++ rest') = some (a, rest')

def Local (stop : τ → Prop) (good : List τ → Prop) (p : Parser τ α) : Prop :=
  ∀ ts, LocalAt stop good p ts

variable {stop : τ → Prop} {good good' good'' : List τ → Prop} {p : Parser τ α}
  {q : α → Parser τ β}

lemma Interchangeable.append_left {rest rest' : List τ} (h : Interchangeable stop rest rest')
    (read : List τ) : Interchangeable stop (read ++ rest) (read ++ rest') := by
  cases read with
  | nil => exact h
  | cons t read => exact .inl rfl

lemma interchangeable_nil (rest : List τ) : Interchangeable stop rest [] :=
  .inr fun _ h => by simp at h

lemma Local.bind (hap : ∀ s t, good s → good' t → good'' (s ++ t)) (hp : Local stop good p)
    (hq : ∀ a, Local stop good' (q a)) :
    Local stop good'' fun ts => (p ts).bind fun r => q r.1 r.2 := by
  intro ts b rest h
  obtain ⟨⟨a, mid⟩, hpts, hqm⟩ := Option.bind_eq_some_iff.mp h
  obtain ⟨read, rfl, hg, hrd⟩ := hp ts hpts
  obtain ⟨read', rfl, hg', hrd'⟩ := hq a mid hqm
  refine ⟨read ++ read', by simp, hap _ _ hg hg', fun rest' hr' => ?_⟩
  rw [List.append_assoc]
  simp only [hrd _ (hr'.append_left read'), Option.bind_some, hrd' rest' hr']

/-- A parser that reads the token `t` and continues as a local parser. -/
lemma Local.localAt_cons {p' : Parser τ α} (hp : Local stop good p) {t : τ}
    (hg : ∀ read, good read → good' (t :: read)) (heq : ∀ ts, p' (t :: ts) = p ts)
    (ts : List τ) : LocalAt stop good' p' (t :: ts) := by
  intro a rest h
  rw [heq] at h
  obtain ⟨read, rfl, hrd, hr⟩ := hp ts h
  refine ⟨t :: read, rfl, hg read hrd, fun rest' hr' => ?_⟩
  rw [List.cons_append, heq, hr rest' hr']

lemma LocalAt.mono {ts : List τ} (h : LocalAt stop good p ts)
    (hgo : ∀ read, good read → good' read) : LocalAt stop good' p ts := by
  intro a rest hts
  obtain ⟨read, hrd, hg, hr⟩ := h hts
  exact ⟨read, hrd, hgo read hg, hr⟩

lemma Local.localAt_of_head {p' : Parser τ α} (hp : Local stop good p)
    (hne : ∀ read, good read → read ≠ []) {ts : List τ}
    (heq : ∀ ts', ts'.head? = ts.head? → p' ts' = p ts') : LocalAt stop good p' ts := by
  intro a rest h
  rw [heq ts rfl] at h
  obtain ⟨read, rfl, hrd, hr⟩ := hp ts h
  refine ⟨read, rfl, hrd, fun rest' hr' => ?_⟩
  rw [heq, hr rest' hr']
  obtain ⟨t, read', rfl⟩ := List.exists_cons_of_ne_nil (hne read hrd)
  rfl

/-- A parser that returns a value without reading, unless a token of `continues` comes next. -/
lemma localAt_stop {a : α} {continues : τ → Prop} (hnil : good [])
    (hsto : ∀ t, stop t → ¬ continues t)
    (heq : ∀ ts, (∀ t, ts.head? = some t → ¬ continues t) → p ts = some (a, ts)) {ts : List τ}
    (hts : ∀ t, ts.head? = some t → ¬ continues t) : LocalAt stop good p ts := by
  intro b rest h
  obtain ⟨rfl, rfl⟩ := Prod.mk.inj (Option.some.inj ((heq ts hts).symm.trans h))
  refine ⟨[], rfl, hnil, fun rest' hr' => heq rest' fun t ht => ?_⟩
  rcases hr' with hsm | hstp
  · exact hts t (hsm ▸ ht)
  · exact hsto t (hstp t ht)

lemma Local.alone (hp : Local stop good p) {ts rest : List τ} {a : α} (h : p ts = some (a, rest)) :
    ∃ read, ts = read ++ rest ∧ good read ∧ p read = some (a, []) := by
  obtain ⟨read, hts, hg, hrd⟩ := hp ts h
  exact ⟨read, hts, hg, by simpa using hrd [] (interchangeable_nil rest)⟩

lemma bind_requireProgress {f : α × List τ → Option β} {ts : List τ} {k : ℕ}
    (h : ∀ r, p ts = some r → r.2.length < k) :
    ((p ts).bind fun r => if r.2.length < k then f r else none) = (p ts).bind f := by
  cases hp : p ts with
  | none => rfl
  | some r => simp [h r hp]

end Omg.Parse
