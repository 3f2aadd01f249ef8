import Mathlib.Data.List.Induction
import Mathlib.Data.List.Perm.Basic
import Mathlib.Order.Compare

/-!
# Choosing by pairwise replacement

A choice among the elements of a list is kept while the list is read: an element replaces the choice
if it beats it. The outcome is an element of the list. If to beat is to be greater in a total
preorder, then no element beats the outcome, so that another order of the list gives an outcome of
the same rank.
-/

open Std (TransCmp OrientedCmp)

namespace Omg.Collections

open List Option

variable {α : Type} (cmp : α → α → Ordering)

def challenge (beats : α → α → Bool) : Option α → α → Option α
  | none, a => some a
  | some b, a => if beats a b then some a else some b

def champion (beats : α → α → Bool) (l : List α) : Option α := l.foldl (challenge beats) none

section

variable (beats : α → α → Bool)

include beats

@[simp] lemma challenge_none (a : α) : challenge beats none a = some a := rfl

@[simp] lemma challenge_some (b a : α) :
    challenge beats (some b) a = if beats a b then some a else some b := rfl

@[simp] lemma champion_nil : champion beats [] = none := rfl

@[simp] lemma champion_concat (l : List α) (a : α) :
    champion beats (l ++ [a]) = challenge beats (champion beats l) a := by
  rw [champion, foldl_concat]
  rfl

lemma challenge_isSome (best : Option α) (a : α) : (challenge beats best a).isSome := by
  cases best with
  | none => rfl
  | some b =>
    rw [challenge_some]
    split_ifs <;> rfl

lemma champion_isSome {l : List α} (h : l ≠ []) : (champion beats l).isSome := by
  rcases eq_nil_or_concat' l with rfl | ⟨init, a, rfl⟩
  · exact absurd rfl h
  · rw [champion_concat]
    exact challenge_isSome beats _ a

end

lemma mem_of_champion {beats : α → α → Bool} {l : List α} {a : α}
    (h : champion beats l = some a) : a ∈ l := by
  induction l using List.reverseRecOn generalizing a with
  | nil => cases h
  | append_singleton l b ih =>
    rw [champion_concat] at h
    cases hbe : champion beats l with
    | none =>
      rw [hbe] at h
      exact mem_append_right l (mem_singleton.mpr (some.inj h).symm)
    | some c =>
      rw [hbe, challenge_some] at h
      split_ifs at h
      · exact mem_append_right l (mem_singleton.mpr (some.inj h).symm)
      · exact mem_append_left _ (some.inj h ▸ ih hbe)

def beatsBy (a b : α) : Bool := cmp a b == .gt

def Selects (l : List α) : Option α → Prop
  | none => l = []
  | some a => a ∈ l ∧ ∀ b ∈ l, cmp b a ≠ .gt

variable {cmp}

lemma selects_none {l : List α} : Selects cmp l none ↔ l = [] := Iff.rfl

lemma selects_some {l : List α} {a : α} :
    Selects cmp l (some a) ↔ a ∈ l ∧ ∀ b ∈ l, cmp b a ≠ .gt := Iff.rfl

section

variable [TransCmp cmp]

lemma Selects.concat {l : List α} {best : Option α} (h : Selects cmp l best) (a : α) :
    Selects cmp (l ++ [a]) (challenge (beatsBy cmp) best a) := by
  have hsl : cmp a a ≠ .gt := by
    have heq : cmp a a = .eq := Std.ReflCmp.compare_self
    rw [heq]
    decide
  cases best with
  | none =>
    obtain rfl := selects_none.mp h
    rw [challenge_none, selects_some]
    simpa using hsl
  | some b =>
    obtain ⟨hmem, hbe⟩ := selects_some.mp h
    rw [challenge_some]
    split_ifs with hbea
    · -- what does not beat the old choice does not beat the one that beats it
      have hba : cmp b a ≠ .gt := OrientedCmp.not_gt_of_gt (beq_iff_eq.mp hbea)
      refine selects_some.mpr ⟨by simp, fun c hc => ?_⟩
      rcases mem_append.mp hc with hc | hc
      · exact TransCmp.le_trans (hbe c hc) hba
      · rw [mem_singleton.mp hc]
        exact hsl
    · refine selects_some.mpr ⟨mem_append_left _ hmem, fun c hc => ?_⟩
      rcases mem_append.mp hc with hc | hc
      · exact hbe c hc
      · rw [mem_singleton.mp hc]
        exact fun hgt => hbea (beq_iff_eq.mpr hgt)

lemma selects_champion (l : List α) : Selects cmp l (champion (beatsBy cmp) l) := by
  induction l using List.reverseRecOn with
  | nil => rfl
  | append_singleton l a ih =>
    rw [champion_concat]
    exact ih.concat a

omit [TransCmp cmp] in
lemma Selects.perm {l l' : List α} (hp : l.Perm l') {best : Option α}
    (h : Selects cmp l best) : Selects cmp l' best := by
  cases best with
  | none =>
    obtain rfl := selects_none.mp h
    exact hp.nil_eq.symm
  | some a =>
    obtain ⟨hmem, hbe⟩ := selects_some.mp h
    exact ⟨hp.mem_iff.mp hmem, fun b hb => hbe b (hp.mem_iff.mpr hb)⟩

lemma Selects.rel {R : α → α → Prop} (hR : ∀ a b, cmp a b = .eq → R a b) {l : List α}
    {best best' : Option α} (h : Selects cmp l best) (h' : Selects cmp l best') :
    Rel R best best' := by
  cases best with
  | none =>
    obtain rfl := selects_none.mp h
    cases best' with
    | none => exact .none
    | some b => exact absurd (selects_some.mp h').1 not_mem_nil
  | some a =>
    obtain ⟨hmem, hbe⟩ := selects_some.mp h
    cases best' with
    | none =>
      obtain rfl := selects_none.mp h'
      exact absurd hmem not_mem_nil
    | some b =>
      obtain ⟨hmem', hbe'⟩ := selects_some.mp h'
      exact .some (hR a b <| OrientedCmp.isLE_antisymm (Ordering.ne_gt_iff_isLE.mp (hbe' a hmem))
        (Ordering.ne_gt_iff_isLE.mp (hbe b hmem')))

end

end Omg.Collections
