import Mathlib.Algebra.Ring.Nat
import Mathlib.Data.List.Sort

/-!
# Maps as sorted association lists

A map with ordered keys is the list of its entries, in strictly increasing order of the keys. Two
maps with the same entries are equal.
-/

namespace Omg.Collections

open List

variable {K V : Type} [LinearOrder K]

@[ext]
structure SortedMap (K V : Type) [LinearOrder K] where
  entries : List (K × V)
  sorted : entries.Pairwise fun a b => a.1 < b.1
  deriving DecidableEq

/-- The value of the key `k` becomes `v`. -/
def insertEntry (k : K) (v : V) : List (K × V) → List (K × V)
  | [] => [(k, v)]
  | e :: es =>
    if k < e.1 then (k, v) :: e :: es
    else if e.1 = k then (k, v) :: es
    else e :: insertEntry k v es

lemma mem_insertEntry {k : K} {v : V} {e : K × V} {es : List (K × V)}
    (h : e ∈ insertEntry k v es) : e = (k, v) ∨ e ∈ es := by
  induction es with
  | nil => exact .inl (mem_singleton.mp h)
  | cons e' es ih =>
    unfold insertEntry at h
    split_ifs at h
    · simpa using h
    · rcases mem_cons.mp h with rfl | h
      · exact .inl rfl
      · exact .inr (mem_cons_of_mem _ h)
    · rcases mem_cons.mp h with rfl | h
      · exact .inr mem_cons_self
      · exact (ih h).imp_right (mem_cons_of_mem _)

lemma pairwise_insertEntry (k : K) (v : V) {es : List (K × V)}
    (h : es.Pairwise fun a b => a.1 < b.1) :
    (insertEntry k v es).Pairwise fun a b => a.1 < b.1 := by
  induction es with
  | nil => simp [insertEntry]
  | cons e es ih =>
    obtain ⟨hh, hta⟩ := pairwise_cons.mp h
    unfold insertEntry
    split_ifs with hlt heq
    · refine pairwise_cons.mpr ⟨fun e' he' => ?_, h⟩
      rcases mem_cons.mp he' with rfl | he'
      · exact hlt
      · exact lt_trans hlt (hh e' he')
    · subst heq
      exact pairwise_cons.mpr ⟨hh, hta⟩
    · have hgt : e.1 < k := lt_of_le_of_ne (not_lt.mp hlt) heq
      refine pairwise_cons.mpr ⟨fun e' he' => ?_, ih hta⟩
      rcases mem_insertEntry he' with rfl | he'
      · exact hgt
      · exact hh e' he'

lemma insertEntry_of_forall_lt {k : K} {v : V} {es : List (K × V)}
    (h : ∀ e ∈ es, e.1 < k) : insertEntry k v es = es ++ [(k, v)] := by
  induction es with
  | nil => rfl
  | cons e es ih =>
    obtain ⟨hh, hta⟩ := forall_mem_cons.mp h
    rw [insertEntry, if_neg (lt_asymm hh), if_neg (ne_of_lt hh), ih hta, cons_append]

lemma insertEntry_subperm (k : K) (v : V) (es : List (K × V)) :
    (insertEntry k v es).Subperm ((k, v) :: es) := by
  induction es with
  | nil => exact List.Subperm.refl _
  | cons e es ih =>
    unfold insertEntry
    split_ifs
    · exact List.Subperm.refl _
    · exact (subperm_cons (k, v)).mpr List.Subperm.cons_self
    · exact ((subperm_cons e).mpr ih).trans (List.Perm.swap (k, v) e es).subperm

lemma sum_le_of_sublist {α : Type} {wt : α → ℕ} (hwei : ∀ a, 0 < wt a)
    {l l' : List α} (h : l.Sublist l') : (l.map wt).sum ≤ (l'.map wt).sum ∧
      ((l.map wt).sum = (l'.map wt).sum → l = l') := by
  induction h with
  | slnil => exact ⟨le_refl _, fun _ => rfl⟩
  | cons a _ ih =>
    -- An element that is left out takes its weight with it.
    have hpos := hwei a
    simp only [map_cons, sum_cons]
    exact ⟨by omega, fun hsum => by omega⟩
  | cons_cons a _ ih =>
    simp only [map_cons, sum_cons]
    exact ⟨by omega, fun hsum => by rw [ih.2 (by omega)]⟩

lemma perm_of_subperm_of_sum_eq {α : Type} {wt : α → ℕ} (hwei : ∀ a, 0 < wt a)
    {l l' : List α} (hsub : l.Subperm l') (hsum : (l.map wt).sum = (l'.map wt).sum) :
    l.Perm l' := by
  obtain ⟨l₀, hp, hsbl⟩ := hsub
  rw [← (hp.map wt).sum_nat] at hsum
  rw [← (sum_le_of_sublist hwei hsbl).2 hsum]
  exact hp.symm

namespace SortedMap

def empty : SortedMap K V := ⟨[], List.Pairwise.nil⟩

def insert (m : SortedMap K V) (k : K) (v : V) : SortedMap K V :=
  ⟨insertEntry k v m.entries, pairwise_insertEntry k v m.sorted⟩

def ofList (es : List (K × V)) : SortedMap K V := es.foldl (fun m e => m.insert e.1 e.2) empty

def get (m : SortedMap K V) (k : K) : Option V := m.entries.lookup k

def keys (m : SortedMap K V) : List K := m.entries.map Prod.fst

lemma mem_iff_get {m : SortedMap K V} {k : K} {v : V} : (k, v) ∈ m.entries ↔ m.get k = some v := by
  obtain ⟨ens, hsor⟩ := m
  simp only [get]
  induction ens with
  | nil => simp
  | cons e es ih =>
    obtain ⟨hh, hta⟩ := pairwise_cons.mp hsor
    obtain ⟨k', v'⟩ := e
    by_cases hk : k = k'
    · subst hk
      have hno : (k, v) ∉ es := fun h => lt_irrefl k (hh (k, v) h)
      simp [hno, eq_comm]
    · simp [lookup_cons, beq_eq_false_iff_ne.mpr hk, hk, ih hta]

private lemma lookup_entry (e : K × V) (es : List (K × V)) (k : K) :
    (e :: es).lookup k = if k = e.1 then some e.2 else es.lookup k := by
  obtain ⟨k', v⟩ := e
  by_cases hk : k = k'
  · simp [hk]
  · simp [lookup_cons, beq_eq_false_iff_ne.mpr hk, hk]

lemma get_insert (m : SortedMap K V) (k : K) (v : V) (k' : K) :
    (m.insert k v).get k' = if k' = k then some v else m.get k' := by
  obtain ⟨ens, hsor⟩ := m
  simp only [get, insert]
  clear hsor
  induction ens with
  | nil => exact lookup_entry (k, v) [] k'
  | cons e es ih =>
    unfold insertEntry
    by_cases hlt : k < e.1
    · rw [if_pos hlt, lookup_entry]
    rw [if_neg hlt]
    by_cases heq : e.1 = k
    · rw [if_pos heq, lookup_entry, lookup_entry, heq]
      by_cases hk : k' = k
      · simp [hk]
      · simp [hk]
    · rw [if_neg heq, lookup_entry, lookup_entry, ih]
      by_cases hk : k' = e.1
      · simp [hk, heq]
      · simp [hk]

lemma nodup (m : SortedMap K V) : m.entries.Nodup := by
  refine m.sorted.imp fun {a b} hlt heq => ?_
  rw [heq] at hlt
  exact lt_irrefl _ hlt

lemma ext_of_mem {m m' : SortedMap K V} (h : ∀ e, e ∈ m.entries ↔ e ∈ m'.entries) : m = m' := by
  have hp : m.entries.Perm m'.entries := (perm_ext_iff_of_nodup m.nodup m'.nodup).mpr h
  refine SortedMap.ext (hp.eq_of_pairwise ?_ m.sorted m'.sorted)
  exact fun a b _ _ hab hba => absurd hab (lt_asymm hba)

lemma entries_foldl_insert {m : SortedMap K V} {es : List (K × V)}
    (hsor : es.Pairwise fun a b => a.1 < b.1) (hlt : ∀ a ∈ m.entries, ∀ b ∈ es, a.1 < b.1) :
    (es.foldl (fun m e => m.insert e.1 e.2) m).entries = m.entries ++ es := by
  induction es generalizing m with
  | nil => simp
  | cons e es ih =>
    obtain ⟨hh, hta⟩ := pairwise_cons.mp hsor
    have hins : (m.insert e.1 e.2).entries = m.entries ++ [e] :=
      insertEntry_of_forall_lt fun a ha => hlt a ha e mem_cons_self
    rw [foldl_cons, ih hta, hins, append_assoc, singleton_append]
    rw [hins]
    intro a ha b hb
    rcases mem_append.mp ha with ha | ha
    · exact hlt a ha b (mem_cons_of_mem _ hb)
    · rw [mem_singleton.mp ha]
      exact hh b hb

lemma ofList_eq_self {es : List (K × V)} (h : es.Pairwise fun a b => a.1 < b.1) :
    (ofList es).entries = es := by
  unfold ofList
  rw [entries_foldl_insert h (by simp [empty])]
  rfl

lemma foldl_insert_subperm (m : SortedMap K V) (es : List (K × V)) :
    (es.foldl (fun m e => m.insert e.1 e.2) m).entries.Subperm (m.entries ++ es) := by
  induction es generalizing m with
  | nil =>
    rw [append_nil]
    exact List.Subperm.refl _
  | cons e es ih =>
    refine (ih (m.insert e.1 e.2)).trans ?_
    have hins : (m.insert e.1 e.2).entries.Subperm (e :: m.entries) :=
      insertEntry_subperm e.1 e.2 m.entries
    exact ((subperm_append_right es).mpr hins).trans perm_middle.symm.subperm

lemma ofList_subperm (es : List (K × V)) : (ofList es).entries.Subperm es :=
  foldl_insert_subperm empty es

lemma nodup_keys (m : SortedMap K V) : (m.entries.map Prod.fst).Nodup := by
  refine pairwise_map.mpr (m.sorted.imp fun hlt heq => ?_)
  exact absurd heq (ne_of_lt hlt)

end SortedMap

end Omg.Collections
