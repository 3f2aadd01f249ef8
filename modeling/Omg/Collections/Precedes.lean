import Mathlib.Data.List.Nodup
import Mathlib.Data.List.Sort

/-!
# The order in a list
-/

namespace Omg.Collections

open List

variable {α : Type*} {a b : α} {l l' : List α}

/-- `a` stands before an occurrence of `b`. -/
def Precedes (a b : α) (l : List α) : Prop := ∃ l₁ l₂, l = l₁ ++ b :: l₂ ∧ a ∈ l₁

lemma Precedes.append (h : Precedes a b l) (l' : List α) : Precedes a b (l ++ l') := by
  obtain ⟨s, t, rfl, ha⟩ := h
  exact ⟨s, t ++ l', by simp, ha⟩

lemma precedes_concat (h : a ∈ l) : Precedes a b (l ++ [b]) := ⟨l, [], rfl, h⟩

lemma Precedes.mem_left (h : Precedes a b l) : a ∈ l := by
  obtain ⟨s, t, rfl, ha⟩ := h
  simp [ha]

lemma precedes_append_of_mem (ha : a ∈ l) (hb : b ∈ l') : Precedes a b (l ++ l') := by
  obtain ⟨s, t, rfl⟩ := append_of_mem hb
  exact ⟨l ++ s, t, by simp, mem_append_left _ ha⟩

lemma Precedes.of_append (h : Precedes a b (l ++ l')) (ha : a ∉ l) : Precedes a b l' := by
  obtain ⟨s, t, heq, hmem⟩ := h
  rcases append_eq_append_iff.mp heq with ⟨mid, rfl, hmid⟩ | ⟨mid, rfl, -⟩
  · rw [mem_append] at hmem
    exact ⟨mid, t, hmid, hmem.resolve_left ha⟩
  · exact absurd (mem_append_left _ hmem) ha

lemma Precedes.idxOf_lt [DecidableEq α] (h : Precedes a b l) (hl : l.Nodup) :
    l.idxOf a < l.idxOf b := by
  obtain ⟨s, t, rfl, ha⟩ := h
  have hb : b ∉ s := by
    rw [nodup_append] at hl
    exact fun hmem => hl.2.2 b hmem b mem_cons_self rfl
  rw [idxOf_append_of_mem ha, idxOf_append_of_notMem hb]
  exact Nat.lt_of_lt_of_le (idxOf_lt_length_of_mem ha) (Nat.le_add_right _ _)

lemma precedes_iff_lt [LinearOrder α] (hl : l.Pairwise (· ≤ ·)) (hd : l.Nodup) (ha : a ∈ l)
    (hb : b ∈ l) : Precedes a b l ↔ a < b := by
  constructor
  · rintro ⟨s, t, rfl, ha'⟩
    have hle := (pairwise_append.mp hl).2.2 a ha' b mem_cons_self
    have hne := (nodup_append.mp hd).2.2 a ha' b mem_cons_self
    exact lt_of_le_of_ne hle hne
  · intro hlt
    obtain ⟨s, t, rfl⟩ := append_of_mem hb
    refine ⟨s, t, rfl, ?_⟩
    rw [mem_append, mem_cons] at ha
    rcases ha with ha | rfl | ha
    · exact ha
    · exact absurd hlt (lt_irrefl _)
    · have hle := (pairwise_cons.mp (pairwise_append.mp hl).2.1).1 a ha
      exact absurd hlt (not_lt_of_ge hle)

section

open Relation

variable [DecidableEq α] {r : α → α → Prop} (hnodup : l.Nodup)
  (hl : ∀ a b, r a b → b ∈ l → Precedes a b l)

include hnodup hl in
/-- In a list where what is related to an element comes before it, so does what is related to it
through several steps. -/
lemma idxOf_lt_of_transGen (hab : TransGen r a b) (hb : b ∈ l) : a ∈ l ∧ l.idxOf a < l.idxOf b := by
  induction hab using TransGen.head_induction_on with
  | single hed =>
    have hbe := hl _ _ hed hb
    exact ⟨hbe.mem_left, hbe.idxOf_lt hnodup⟩
  | head hed _ ih =>
    have hbe := hl _ _ hed ih.1
    exact ⟨hbe.mem_left, (hbe.idxOf_lt hnodup).trans ih.2⟩

include hnodup hl in
lemma getLast?_eq_of_reach {root : α} (hmem : ∀ a, a ∈ l ↔ ReflTransGen r a root) :
    l.getLast? = some root := by
  have hro : root ∈ l := (hmem root).mpr .refl
  rcases eq_nil_or_concat' l with rfl | ⟨init, last, rfl⟩
  · cases hro
  · rw [getLast?_concat]
    refine congrArg some ?_
    by_contra hne
    have hre := (hmem last).mp (by simp)
    have hlt := (idxOf_lt_of_transGen hnodup hl
      ((reflTransGen_iff_eq_or_transGen.mp hre).resolve_left (Ne.symm hne)) hro).2
    have hla : last ∉ init := fun h => disjoint_of_nodup_append hnodup h (by simp)
    have hlen := idxOf_lt_length_of_mem hro
    rw [idxOf_append_of_notMem hla] at hlt
    simp only [idxOf_cons_self, length_append, length_singleton] at hlt hlen
    omega

end

/-!
### Lists without repetitions

The elements of a list are appended to another list one after the other, except for those that it
has already.
-/

variable {α : Type} [DecidableEq α]

def addNew (l : List α) (a : α) : List α := if a ∈ l then l else l ++ [a]

def absorb (l as : List α) : List α := as.foldl addNew l

@[simp] lemma absorb_nil (l : List α) : absorb l [] = l := rfl

@[simp] lemma absorb_cons (l : List α) (a : α) (as : List α) :
    absorb l (a :: as) = absorb (addNew l a) as := rfl

lemma absorb_append (l as bs : List α) : absorb l (as ++ bs) = absorb (absorb l as) bs :=
  foldl_append

lemma mem_absorb {l as : List α} {a : α} : a ∈ absorb l as ↔ a ∈ l ∨ a ∈ as := by
  induction as generalizing l with
  | nil => simp
  | cons b as ih =>
    rw [absorb_cons, ih, addNew, mem_cons]
    split_ifs with hb
    · constructor
      · tauto
      · rintro (h | rfl | h)
        · exact .inl h
        · exact .inl hb
        · exact .inr h
    · rw [mem_append, mem_singleton]
      tauto

lemma absorb_of_subset {l as : List α} (h : ∀ a ∈ as, a ∈ l) : absorb l as = l := by
  induction as with
  | nil => rfl
  | cons a as ih =>
    rw [absorb_cons, addNew, if_pos (h a mem_cons_self)]
    exact ih fun b hb => h b (mem_cons_of_mem _ hb)

lemma absorb_of_nodup {l as : List α} (h : (l ++ as).Nodup) : absorb l as = l ++ as := by
  induction as generalizing l with
  | nil => rw [absorb_nil, append_nil]
  | cons a as ih =>
    have hnew : a ∉ l := fun hmem => (nodup_append.mp h).2.2 a hmem a mem_cons_self rfl
    rw [absorb_cons, addNew, if_neg hnew, ih (by simpa using h), append_assoc]
    rfl

/-!
### Sorting by rank

If some elements of a list are all ranked before the others then the sorted list begins with them,
sorted.
-/

variable {α : Type} {r : α → α → Prop} [DecidableRel r] [Std.Total r] [IsTrans α r]

lemma insertionSort_eq_append {l first : List α} {p : α → Prop} [DecidablePred p]
    (hant : ∀ a ∈ l, ∀ b ∈ l, r a b → r b a → a = b) (hl : l.Nodup) (hf : first.Nodup)
    (hmem : ∀ a, a ∈ first ↔ a ∈ l ∧ p a) (hbe : ∀ a ∈ l, ∀ b ∈ l, p a → ¬p b → r a b) :
    ∃ rest, l.insertionSort r = first.insertionSort r ++ rest ∧ ∀ b ∈ rest, b ∈ l ∧ ¬p b := by
  have hots : ∀ b, b ∈ (l.filter (¬p ·)).insertionSort r ↔ b ∈ l ∧ ¬p b := by
    intro b
    rw [mem_insertionSort, mem_filter, decide_eq_true_eq]
  refine ⟨(l.filter (¬p ·)).insertionSort r, ?_, fun b hb => (hots b).mp hb⟩
  have hp : first.Perm (l.filter (p ·)) := by
    rw [perm_ext_iff_of_nodup hf (hl.filter _)]
    intro a
    rw [hmem, mem_filter, decide_eq_true_eq]
  have hsp : (first.insertionSort r ++ (l.filter (¬p ·)).insertionSort r).Perm l := by
    refine ((perm_insertionSort r first).trans hp).append (perm_insertionSort r _) |>.trans ?_
    have := filter_append_perm (p ·) l
    simpa using this
  refine List.Perm.eq_of_pairwise ?_ (pairwise_insertionSort r l) ?_
    ((perm_insertionSort r l).trans hsp.symm)
  · intro a b ha hb
    exact hant a (mem_insertionSort r |>.mp ha) b (hsp.subset hb)
  · rw [pairwise_append]
    refine ⟨pairwise_insertionSort r _, pairwise_insertionSort r _, fun a ha b hb => ?_⟩
    obtain ⟨hal, hpa⟩ := (hmem a).mp ((mem_insertionSort r).mp ha)
    obtain ⟨hbl, hpb⟩ := (hots b).mp hb
    exact hbe a hal b hbl hpa hpb

end Omg.Collections
