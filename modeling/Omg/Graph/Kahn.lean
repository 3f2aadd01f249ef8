import Mathlib.Data.List.Chain
import Mathlib.Data.Set.Finite.Basic
import Mathlib.Order.WellFounded
import Omg.Collections.Precedes

/-!
# Ordering a graph by its in-degrees

Each node of a finite graph has a list of successors. The nodes without predecessors are ready; the
least node that is ready is taken, and its successors lose a predecessor. What is left when no node
is ready are the nodes that are reachable from a cycle.
-/

namespace Omg.Graph

open Collections List Function Relation

variable {α : Type*} [LinearOrder α]

/-- The state of the loop: the numbers of predecessors that were not taken, the nodes that are ready
in their order, and the nodes that were taken. -/
structure Kahn (α : Type*) where
  inDegree : α → ℕ
  ready : List α
  ordered : List α

namespace Kahn

def insertReady (a : α) (ready : List α) : List α :=
  if a ∈ ready then ready else ready.orderedInsert (· ≤ ·) a

def release (s : Kahn α) (a : α) : Kahn α :=
  let degree := s.inDegree a - 1
  { s with
    inDegree := update s.inDegree a degree
    ready := if degree = 0 then insertReady a s.ready else s.ready }

variable (succ : α → List α)

def step (s : Kahn α) : Option (Kahn α) :=
  match s.ready with
  | [] => none
  | a :: ready =>
    some ((succ a).foldl release { s with ready := ready, ordered := s.ordered ++ [a] })

/-- At most `n` nodes are taken. -/
def run : ℕ → Kahn α → Kahn α
  | 0, s => s
  | n + 1, s =>
    match step succ s with
    | none => s
    | some s' => run n s'

end Kahn

def inDegrees (nodes : List α) (succ : α → List α) : α → ℕ :=
  nodes.foldl (fun degrees a => (succ a).foldl
    (fun degrees b => update degrees b (degrees b + 1)) degrees) fun _ => 0

def kahnStart (nodes : List α) (succ : α → List α) : Kahn α where
  inDegree := inDegrees nodes succ
  ready := (nodes.filter fun a => inDegrees nodes succ a = 0).insertionSort (· ≤ ·)
  ordered := []

def kahnOrder (nodes : List α) (succ : α → List α) : List α :=
  (Kahn.run succ nodes.length (kahnStart nodes succ)).ordered

lemma foldl_update_add (l : List α) (hl : l.Nodup) (degs : α → ℕ) (x : α) :
    l.foldl (fun degs b => update degs b (degs b + 1)) degs x =
      degs x + if x ∈ l then 1 else 0 := by
  induction l generalizing degs with
  | nil => simp
  | cons b l ih =>
    rw [nodup_cons] at hl
    rw [foldl_cons, ih hl.2]
    by_cases hx : x = b
    · subst hx
      simp [hl.1]
    · simp [hx]

def predecessors (nodes : List α) (succ : α → List α) (x : α) : ℕ :=
  (nodes.filter fun a => x ∈ succ a).length

lemma inDegrees_eq (nodes : List α) (succ : α → List α) (hsucc : ∀ a, (succ a).Nodup) (x : α) :
    inDegrees nodes succ x = predecessors nodes succ x := by
  have hgen : ∀ (nodes : List α) (degs : α → ℕ), nodes.foldl (fun degs a => (succ a).foldl
        (fun degs b => update degs b (degs b + 1)) degs) degs x =
      degs x + predecessors nodes succ x := by
    intro nodes
    induction nodes with
    | nil => intro degs; rfl
    | cons a nodes ih =>
      intro degs
      rw [foldl_cons, ih, foldl_update_add _ (hsucc a), predecessors, predecessors]
      by_cases hx : x ∈ succ a
      · simp [hx]
        omega
      · simp [hx]
  rw [inDegrees, hgen, Nat.zero_add]

lemma predecessors_pos_iff {nodes : List α} {succ : α → List α} {x : α} :
    0 < predecessors nodes succ x ↔ ∃ a ∈ nodes, x ∈ succ a := by
  rw [predecessors]
  simp

/-! ### The loop -/

namespace Kahn

variable {succ : α → List α} {nodes : List α} (hnodes : nodes.Nodup) (hsucc : ∀ a, (succ a).Nodup)
  (hclosed : ∀ a ∈ nodes, ∀ b ∈ succ a, b ∈ nodes)

lemma mem_insertReady {a b : α} {rdy : List α} : b ∈ insertReady a rdy ↔ b = a ∨ b ∈ rdy := by
  unfold insertReady
  split_ifs with h
  · refine ⟨.inr, ?_⟩
    rintro (rfl | hb)
    · exact h
    · exact hb
  · exact mem_orderedInsert _

lemma nodup_insertReady {a : α} {rdy : List α} (h : rdy.Nodup) : (insertReady a rdy).Nodup := by
  unfold insertReady
  split_ifs with hmem
  · exact h
  · exact (perm_orderedInsert (· ≤ ·) a rdy).nodup_iff.mpr (nodup_cons.mpr ⟨hmem, h⟩)

lemma foldl_release (l : List α) (hl : l.Nodup) (s : Kahn α) :
    (l.foldl release s).ordered = s.ordered ∧
    (∀ x, (l.foldl release s).inDegree x = s.inDegree x - if x ∈ l then 1 else 0) ∧
    (s.ready.Nodup → (l.foldl release s).ready.Nodup) ∧
    ∀ x, x ∈ (l.foldl release s).ready ↔ x ∈ s.ready ∨ x ∈ l ∧ s.inDegree x - 1 = 0 := by
  induction l generalizing s with
  | nil => simp
  | cons a l ih =>
    rw [nodup_cons] at hl
    obtain ⟨hord, hdeg, hnd, hrdy⟩ := ih hl.2 (s.release a)
    have hke : ∀ x, x ≠ a → (s.release a).inDegree x = s.inDegree x := by
      intro x hx
      simp [release, update_of_ne hx]
    have hsl : (s.release a).inDegree a = s.inDegree a - 1 := by simp [release]
    have hrel : ∀ x, x ∈ (s.release a).ready ↔ x ∈ s.ready ∨ x = a ∧ s.inDegree a - 1 = 0 := by
      intro x
      simp only [release]
      split_ifs with hz
      · rw [mem_insertReady]
        tauto
      · tauto
    rw [foldl_cons]
    refine ⟨hord, fun x => ?_, fun h => hnd ?_, fun x => ?_⟩
    · rw [hdeg x]
      by_cases hx : x = a
      · subst hx
        simp [hsl, hl.1]
      · simp [hke x hx, hx]
    · simp only [release]
      split_ifs
      · exact nodup_insertReady h
      · exact h
    · rw [hrdy, hrel]
      by_cases hx : x = a
      · subst hx
        simp [hl.1]
      · simp [hke x hx, hx]

structure Invariant (nodes : List α) (succ : α → List α) (s : Kahn α) : Prop where
  nodup : (s.ordered ++ s.ready).Nodup
  mem : ∀ x ∈ s.ordered ++ s.ready, x ∈ nodes
  degree : ∀ x, s.inDegree x = predecessors (nodes.filter (· ∉ s.ordered)) succ x
  free : ∀ x ∈ nodes, x ∈ s.ordered ++ s.ready ↔ s.inDegree x = 0
  order : ∀ x ∈ s.ordered, ∀ a ∈ nodes, x ∈ succ a → Precedes a x s.ordered

lemma predecessors_filter_concat {l ord : List α} {a : α} (hl : l.Nodup) (ha : a ∈ l)
    (hnew : a ∉ ord) (x : α) : predecessors (l.filter (· ∉ ord)) succ x =
      predecessors (l.filter (· ∉ ord ++ [a])) succ x + if x ∈ succ a then 1 else 0 := by
  have hmem : a ∈ l.filter (· ∉ ord) := mem_filter.mpr ⟨ha, by simpa using hnew⟩
  have hera : l.filter (· ∉ ord ++ [a]) = (l.filter (· ∉ ord)).erase a := by
    rw [(hl.filter _).erase_eq_filter, filter_filter]
    refine filter_congr fun b _ => ?_
    rw [Bool.eq_iff_iff]
    simp [and_comm]
  have hp : (l.filter (· ∉ ord)).Perm (a :: l.filter (· ∉ ord ++ [a])) := by
    rw [hera]
    exact perm_cons_erase hmem
  rw [predecessors, (hp.filter _).length_eq, predecessors]
  split_ifs <;> simp_all

include hnodes hsucc in
lemma invariant_start : Invariant nodes succ (kahnStart nodes succ) where
  nodup := by
    simp only [kahnStart, nil_append]
    exact (perm_insertionSort _ _).nodup_iff.mpr (hnodes.filter _)
  mem x hx := by
    simp only [kahnStart, nil_append, mem_insertionSort, mem_filter] at hx
    exact hx.1
  degree x := by
    simp only [kahnStart, not_mem_nil, not_false_eq_true, decide_true, filter_true]
    exact inDegrees_eq nodes succ hsucc x
  free x hx := by
    simp [kahnStart, hx]
  order x hx := by cases hx

include hnodes hsucc hclosed in
lemma Invariant.step {s s' : Kahn α} (h : Invariant nodes succ s)
    (hs : Kahn.step succ s = some s') :
    Invariant nodes succ s' ∧ s'.ordered.length = s.ordered.length + 1 := by
  unfold Kahn.step at hs
  split at hs
  · cases hs
  next a ready hrdy =>
  obtain rfl := Option.some.inj hs
  obtain ⟨hord, hdeg, hnd, hmemReady⟩ := foldl_release (succ a) (hsucc a)
    { s with ready := ready, ordered := s.ordered ++ [a] }
  dsimp only at hord hdeg hnd hmemReady
  have hnd₀ := h.nodup
  rw [hrdy, nodup_append, nodup_cons] at hnd₀
  have ham : a ∈ s.ordered ++ s.ready := by simp [hrdy]
  have ha : a ∈ nodes := h.mem a ham
  have han : a ∉ s.ordered := fun hmem => hnd₀.2.2 a hmem a mem_cons_self rfl
  -- A successor of the node has a predecessor, so it was not ready.
  have hpos : ∀ x ∈ succ a, s.inDegree x ≠ 0 := by
    intro x hx
    rw [h.degree x]
    refine Nat.pos_iff_ne_zero.mp (predecessors_pos_iff.mpr ⟨a, ?_, hx⟩)
    exact mem_filter.mpr ⟨ha, by simpa using han⟩
  have hfre : ∀ x ∈ succ a, x ∉ s.ordered ++ s.ready := fun x hx hmem =>
    hpos x hx ((h.free x (hclosed a ha x hx)).mp hmem)
  refine ⟨⟨?_, fun x hx => ?_, fun x => ?_, fun x hx => ?_, fun x hx b hb hed => ?_⟩, ?_⟩
  · rw [hord, nodup_append]
    refine ⟨?_, hnd hnd₀.2.1.2, fun x hx y hy hxy => ?_⟩
    · rw [nodup_append]
      refine ⟨hnd₀.1, nodup_singleton a, fun x hx y hy hxy => ?_⟩
      rw [mem_singleton] at hy
      exact han (hy ▸ hxy ▸ hx)
    · subst hxy
      rw [mem_append, mem_singleton] at hx
      rcases (hmemReady x).mp hy with hold | ⟨hsc', -⟩
      · rcases hx with hx | rfl
        · exact hnd₀.2.2 x hx x (mem_cons_of_mem _ hold) rfl
        · exact hnd₀.2.1.1 hold
      · refine hfre x hsc' ?_
        rcases hx with hx | rfl
        · exact mem_append_left _ hx
        · exact ham
  · rw [hord, mem_append, mem_append, mem_singleton] at hx
    rcases hx with (hx | rfl) | hx
    · exact h.mem x (mem_append_left _ hx)
    · exact ha
    · rcases (hmemReady x).mp hx with hold | ⟨hsc', -⟩
      · exact h.mem x (by simp [hrdy, hold])
      · exact hclosed a ha x hsc'
  · rw [hdeg x, h.degree x, hord, predecessors_filter_concat hnodes ha han x]
    omega
  · have hfe := h.free x hx
    rw [hrdy, mem_append, mem_cons] at hfe
    rw [hord, hdeg x, mem_append, mem_append, mem_singleton, hmemReady x]
    by_cases hsc' : x ∈ succ a
    · have hout := hfre x hsc'
      rw [hrdy, mem_append, mem_cons] at hout
      simp only [hsc', if_true, true_and]
      tauto
    · simp only [hsc', if_false, Nat.sub_zero, false_and, or_false, or_assoc]
      exact hfe
  · rw [hord] at hx ⊢
    rw [mem_append, mem_singleton] at hx
    rcases hx with hx | rfl
    · exact (h.order x hx b hb hed).append [a]
    · refine precedes_concat ?_
      by_contra hnot
      have hz := (h.free x ha).mp ham
      rw [h.degree x] at hz
      have hpr : 0 < predecessors (nodes.filter (· ∉ s.ordered)) succ x :=
        predecessors_pos_iff.mpr ⟨b, mem_filter.mpr ⟨hb, by simpa using hnot⟩, hed⟩
      omega
  · rw [hord, length_append, length_singleton]

lemma Invariant.length_le {s : Kahn α} (h : Invariant nodes succ s) :
    s.ordered.length + s.ready.length ≤ nodes.length := by
  rw [← length_append]
  exact (h.nodup.subperm h.mem).length_le

include hnodes hsucc hclosed in
lemma invariant_run (n : ℕ) {s : Kahn α} (h : Invariant nodes succ s)
    (hn : nodes.length ≤ s.ordered.length + n) :
    Invariant nodes succ (run succ n s) ∧ (run succ n s).ready = [] := by
  induction n generalizing s with
  | zero =>
    refine ⟨h, eq_nil_of_length_eq_zero ?_⟩
    have hle := h.length_le
    change s.ready.length = 0
    omega
  | succ n ih =>
    unfold run
    cases hs : Kahn.step succ s with
    | none =>
      refine ⟨h, ?_⟩
      unfold Kahn.step at hs
      split at hs
      · assumption
      · cases hs
    | some s' =>
      obtain ⟨h', hlen⟩ := h.step hnodes hsucc hclosed hs
      exact ih h' (by omega)

end Kahn

/-! ### The order -/

section

variable {nodes : List α} {succ : α → List α} (hnodes : nodes.Nodup) (hsucc : ∀ a, (succ a).Nodup)
  (hclosed : ∀ a ∈ nodes, ∀ b ∈ succ a, b ∈ nodes)

def SuccEdge (nodes : List α) (succ : α → List α) (a b : α) : Prop := a ∈ nodes ∧ b ∈ succ a

include hnodes hsucc hclosed

lemma kahnOrder_spec : (kahnOrder nodes succ).Nodup ∧ (∀ x ∈ kahnOrder nodes succ, x ∈ nodes) ∧
    (∀ a x, SuccEdge nodes succ a x → x ∈ kahnOrder nodes succ →
      Precedes a x (kahnOrder nodes succ)) ∧ ∀ x ∈ nodes, x ∉ kahnOrder nodes succ →
      ∃ a, SuccEdge nodes succ a x ∧ a ∉ kahnOrder nodes succ := by
  obtain ⟨h, hrdy⟩ := Kahn.invariant_run hnodes hsucc hclosed nodes.length
    (Kahn.invariant_start hnodes hsucc) (Nat.le_add_left _ _)
  have hnd := h.nodup
  have hmem := h.mem
  have hfe := h.free
  simp only [hrdy, append_nil] at hnd hmem hfe
  refine ⟨hnd, hmem, fun a x hed hx => h.order x hx a hed.1 hed.2, fun x hx hnot => ?_⟩
  have hdeg := h.degree x
  have hpos : 0 < predecessors (nodes.filter (· ∉ kahnOrder nodes succ)) succ x := by
    refine Nat.pos_of_ne_zero fun hz => hnot ((hfe x hx).mpr ?_)
    rw [hdeg]
    exact hz
  obtain ⟨a, ha, hed⟩ := predecessors_pos_iff.mp hpos
  rw [mem_filter] at ha
  exact ⟨a, ⟨ha.1, hed⟩, by simpa using ha.2⟩

/-- **What is not taken.** These are the nodes that are reachable from a cycle. -/
lemma notMem_kahnOrder_iff {x : α} (hx : x ∈ nodes) : x ∉ kahnOrder nodes succ ↔
      ∃ c, TransGen (SuccEdge nodes succ) c c ∧ ReflTransGen (SuccEdge nodes succ) c x := by
  constructor
  · intro hnot
    by_contra hcy
    obtain ⟨-, -, -, hlf⟩ := kahnOrder_spec hnodes hsucc hclosed
    -- Among the nodes that reach `x` and are not taken, one has no predecessor of this kind.
    let S := { y : α // y ∈ nodes ∧ y ∉ kahnOrder nodes succ ∧
      ReflTransGen (SuccEdge nodes succ) y x }
    have hfin : Finite S := Set.Finite.subset (finite_toSet nodes) fun y hy => hy.1
    let R : S → S → Prop := fun a b => TransGen (SuccEdge nodes succ) a.1 b.1
    have hirr : Std.Irrefl R := ⟨fun a ha => hcy ⟨a.1, ha, a.2.2.2⟩⟩
    have hwf : WellFounded R := Finite.wellFounded_of_trans_of_irrefl R
    obtain ⟨y, -, hmin⟩ := hwf.has_min Set.univ ⟨⟨x, hx, hnot, .refl⟩, trivial⟩
    obtain ⟨a, hed, han⟩ := hlf y.1 y.2.1 y.2.2.1
    exact hmin ⟨a, hed.1, han, y.2.2.2.head hed⟩ trivial (.single hed)
  · rintro ⟨c, hcy, hre⟩ hmem
    obtain ⟨hnd, -, hod, -⟩ := kahnOrder_spec hnodes hsucc hclosed
    rcases reflTransGen_iff_eq_or_transGen.mp hre with rfl | hre
    · exact lt_irrefl _ (idxOf_lt_of_transGen hnd hod hcy hmem).2
    · have hc := (idxOf_lt_of_transGen hnd hod hre hmem).1
      exact lt_irrefl _ (idxOf_lt_of_transGen hnd hod hcy hc).2

end

/-!
### The longest chain from an element

A relation is given by its chains. An element has a height if the chains that start at it have
bounded lengths; then none of them comes back to it. In a finite set without cycles some element has
no successor.
-/

variable {α : Type*} {R : α → α → Prop} {a b : α} {n : ℕ}

def chainLengths (R : α → α → Prop) (a : α) : Set ℕ :=
  {n | ∃ chain : List α, (a :: chain).IsChain R ∧ chain.length = n}

/-- All chains from an element have less than `n` steps. -/
def ShorterThan (R : α → α → Prop) (n : ℕ) (a : α) : Prop := ∀ k ∈ chainLengths R a, k < n

lemma not_shorterThan_zero : ¬ShorterThan R 0 a := fun h =>
  absurd (h 0 ⟨[], List.isChain_singleton a, rfl⟩) (Nat.lt_irrefl 0)

lemma shorterThan_succ_iff : ShorterThan R (n + 1) a ↔ ∀ b, R a b → ShorterThan R n b := by
  constructor
  · rintro h b hab k ⟨chain, hch, rfl⟩
    exact Nat.lt_of_succ_lt_succ (h _ ⟨b :: chain, hch.cons_cons hab, rfl⟩)
  · rintro h k ⟨_ | ⟨b, chain⟩, hch, rfl⟩
    · exact Nat.succ_pos n
    · rw [List.isChain_cons_cons] at hch
      exact Nat.succ_lt_succ (h b hch.1 _ ⟨chain, hch.2, rfl⟩)

lemma ShorterThan.succ (h : ShorterThan R n a) : ShorterThan R (n + 1) a := fun k hk =>
  Nat.lt_succ_of_lt (h k hk)

lemma isGreatest_chainLengths (h : ShorterThan R (n + 1) a) (hn : ¬ShorterThan R n a) :
    IsGreatest (chainLengths R a) n := by
  refine ⟨?_, fun k hk => Nat.le_of_lt_succ (h k hk)⟩
  simp only [ShorterThan, not_forall, not_lt] at hn
  obtain ⟨k, hk, hnk⟩ := hn
  have hkn : k = n := le_antisymm (Nat.le_of_lt_succ (h k hk)) hnk
  exact hkn ▸ hk

lemma ShorterThan.of_transGen (h : ShorterThan R n a) (hab : TransGen R a b) :
    ∃ m < n, ShorterThan R m b := by
  have hs : ∀ {n : ℕ} {a b : α}, ShorterThan R n a → R a b → ∃ m < n, ShorterThan R m b := by
    rintro (_ | n) a b h hab
    · exact absurd h not_shorterThan_zero
    · exact ⟨n, Nat.lt_succ_self n, shorterThan_succ_iff.mp h b hab⟩
  induction hab with
  | single hab => exact hs h hab
  | tail _ hbc ih =>
    obtain ⟨m, hm, hb⟩ := ih
    obtain ⟨k, hk, hc⟩ := hs hb hbc
    exact ⟨k, hk.trans hm, hc⟩

lemma ShorterThan.not_transGen_self (h : ShorterThan R n a) : ¬TransGen R a a := by
  induction n using Nat.strong_induction_on with
  | _ n ih =>
    intro hcy
    obtain ⟨m, hm, ha⟩ := h.of_transGen hcy
    exact ih m hm ha hcy

lemma exists_no_successor {s : Set α} (hfin : s.Finite) (hne : s.Nonempty)
    (hacy : ∀ a, ¬TransGen R a a) : ∃ a ∈ s, ∀ b ∈ s, ¬R a b := by
  have : Finite s := hfin
  let pre : s → s → Prop := fun x y => TransGen R y.1 x.1
  have : Std.Irrefl pre := ⟨fun x => hacy x.1⟩
  obtain ⟨first, hf⟩ := hne
  obtain ⟨x, -, hx⟩ := (Finite.wellFounded_of_trans_of_irrefl pre).has_min Set.univ
    ⟨⟨first, hf⟩, trivial⟩
  exact ⟨x.1, x.2, fun b hb hab => hx ⟨b, hb⟩ trivial (.single hab)⟩

end Omg.Graph
