import Mathlib.Algebra.Order.BigOperators.Group.List
import Mathlib.Algebra.Order.Group.Nat
import Mathlib.Algebra.Ring.Nat
import Omg.Collections.Precedes

/-!
# Post-order traversal with an explicit stack

A graph is given by a function `expand` that lists the successors of a node, or fails. The traversal
keeps a stack of nodes: a node popped for the first time is marked as visited and put back with the
flag `true` below its successors; a node popped with the flag `true` is finished. A node that was
visited before is dropped.
-/

namespace Omg.Graph

open List Except

variable {α ε : Type*}

/-- A traversal in progress. A node of the stack carries the flag `true` when its successors
were put above it, and `false` when it is still to be visited. -/
structure Traversal (α : Type*) where
  stack : List (α × Bool)
  visited : List α
  finished : List α

def start (root : α) (visited finished : List α) : Traversal α :=
  ⟨[(root, false)], visited, finished⟩

section

variable [DecidableEq α] (expand : α → Except ε (List α))

def step (t : Traversal α) : Except ε (Traversal α) :=
  match t.stack with
  | [] => .ok t
  | (a, true) :: rest => .ok ⟨rest, t.visited, t.finished ++ [a]⟩
  | (a, false) :: rest =>
    if a ∈ t.visited then .ok ⟨rest, t.visited, t.finished⟩
    else match expand a with
      | .error e => .error e
      | .ok ds => .ok ⟨ds.map (·, false) ++ (a, true) :: rest, a :: t.visited, t.finished⟩

/-- At most `n` iterations of the loop. -/
def run : ℕ → Traversal α → Except ε (Traversal α)
  | 0, t => .ok t
  | n + 1, t =>
    match t.stack with
    | [] => .ok t
    | _ :: _ =>
      match step expand t with
      | .error e => .error e
      | .ok t' => run n t'

/-- The traversals from the roots in turn, each with at most `n` iterations; the visited and
the finished nodes are shared. -/
def runAll (n : ℕ) : List α → List α → List α → Except ε (List α × List α)
  | [], visited, finished => .ok (visited, finished)
  | root :: roots, visited, finished =>
    match run expand n (start root visited finished) with
    | .error e => .error e
    | .ok t => runAll n roots t.visited t.finished

end

section

variable (expand : α → Except ε (List α))

/-- `b` is among the successors of `a`. -/
def Edge (a b : α) : Prop := ∃ ds, expand a = .ok ds ∧ b ∈ ds

/-- `b` is reachable from `a`. -/
def Reach : α → α → Prop := Relation.ReflTransGen (Edge expand)

def Closed (nodes : List α) : Prop := ∀ a ∈ nodes, ∃ ds, expand a = .ok ds ∧ ∀ d ∈ ds, d ∈ nodes

variable {expand}

lemma closed_nil : Closed expand [] := by
  intro a ha
  cases ha

lemma Closed.mem_of_reach {nds : List α} (hcl : Closed expand nds) {a b : α}
    (ha : a ∈ nds) (hab : Reach expand a b) : b ∈ nds := by
  induction hab with
  | refl => exact ha
  | tail _ hed ih =>
    obtain ⟨ds, hds, hmem⟩ := hed
    obtain ⟨ds', hds', hall⟩ := hcl _ ih
    obtain rfl : ds' = ds := ok.inj (hds'.symm.trans hds)
    exact hall _ hmem

end

/-! ### What one iteration can do -/

section

variable [DecidableEq α] {expand : α → Except ε (List α)}

lemma step_ok_cases {t t' : Traversal α} (h : step expand t = .ok t') (hne : t.stack ≠ []) :
    (∃ a rest, t.stack = (a, true) :: rest ∧ t' = ⟨rest, t.visited, t.finished ++ [a]⟩) ∨
    (∃ a rest, t.stack = (a, false) :: rest ∧ a ∈ t.visited ∧ t' = ⟨rest, t.visited, t.finished⟩) ∨
    (∃ a rest ds, t.stack = (a, false) :: rest ∧ a ∉ t.visited ∧ expand a = .ok ds ∧
      t' = ⟨ds.map (·, false) ++ (a, true) :: rest, a :: t.visited, t.finished⟩) := by
  unfold step at h
  split at h
  · next hnil => exact absurd hnil hne
  · next a rest hsk => exact .inl ⟨a, rest, hsk, (ok.inj h).symm⟩
  · next a rest hsk =>
    split_ifs at h with hmem
    · exact .inr (.inl ⟨a, rest, hsk, hmem, (ok.inj h).symm⟩)
    · split at h
      · cases h
      · next ds hds => exact .inr (.inr ⟨a, rest, ds, hsk, hmem, hds, (ok.inj h).symm⟩)

lemma step_error_cases {t : Traversal α} {e : ε} (h : step expand t = .error e) :
    ∃ a rest, t.stack = (a, false) :: rest ∧ a ∉ t.visited ∧ expand a = .error e := by
  unfold step at h
  split at h
  · cases h
  · cases h
  · next a rest hsk =>
    split_ifs at h with hmem
    split at h
    · next e' he => exact ⟨a, rest, hsk, hmem, by rw [he, error.inj h]⟩
    · cases h

lemma run_ok_induct {P : Traversal α → Prop}
    (hs : ∀ t t', t.stack ≠ [] → step expand t = .ok t' → P t → P t') :
    ∀ {n : ℕ} {t t' : Traversal α}, run expand n t = .ok t' → P t → P t'
  | 0, t, t', h, ht => by
    obtain rfl : t = t' := ok.inj h
    exact ht
  | n + 1, t, t', h, ht => by
    unfold run at h
    split at h
    · obtain rfl : t = t' := ok.inj h
      exact ht
    · next hsk =>
      split at h
      · cases h
      · next t₁ h₁ => exact run_ok_induct hs h (hs t t₁ (by simp [hsk]) h₁ ht)

lemma run_error_induct {P : Traversal α → Prop}
    (hs : ∀ t t', t.stack ≠ [] → step expand t = .ok t' → P t → P t') :
    ∀ {n : ℕ} {t : Traversal α} {e : ε}, run expand n t = .error e → P t →
      ∃ t', P t' ∧ step expand t' = .error e
  | 0, t, e, h, _ => by cases h
  | n + 1, t, e, h, ht => by
    unfold run at h
    split at h
    · cases h
    · next hsk =>
      split at h
      · next e' he =>
        obtain rfl : e' = e := error.inj h
        exact ⟨t, ht, he⟩
      · next t₁ h₁ => exact run_error_induct hs h (hs t t₁ (by simp [hsk]) h₁ ht)

end

/-! ### Enough iterations -/

section

variable [DecidableEq α] {expand : α → Except ε (List α)} {univ : List α} {w : α → ℕ}
  (hw : ∀ a ds, expand a = .ok ds → a ∈ univ ∧ ds.length ≤ w a)

/-- The iterations that the nodes of `univ` which are still to be visited can cost: one for each
node and one for each of its at most `w` successors. -/
def pending (univ : List α) (w : α → ℕ) (visited : List α) : ℕ :=
  ((univ.filter (· ∉ visited)).map fun a => w a + 1).sum

lemma pending_le (univ : List α) (w : α → ℕ) (vis : List α) :
    pending univ w vis ≤ (univ.map fun a => w a + 1).sum :=
  List.Sublist.sum_le_sum (filter_sublist.map _) fun _ _ => Nat.zero_le _

lemma pending_cons_le (univ : List α) (w : α → ℕ) (vis : List α) (a : α) :
    pending univ w (a :: vis) ≤ pending univ w vis := by
  refine List.Sublist.sum_le_sum (List.Sublist.map _ ?_) fun _ _ => Nat.zero_le _
  refine monotone_filter_right univ fun b hb => ?_
  simp only [mem_cons, not_or, decide_eq_true_eq] at hb ⊢
  exact hb.2

/-- Visiting a node of `univ` pays for the node and its successors. -/
lemma pending_cons_add_le {univ : List α} (w : α → ℕ) {vis : List α} {a : α}
    (ha : a ∈ univ) (hnew : a ∉ vis) :
    pending univ w (a :: vis) + (w a + 1) ≤ pending univ w vis := by
  induction univ with
  | nil => cases ha
  | cons b univ ih =>
    by_cases hba : b = a
    · subst hba
      have hle := pending_cons_le univ w vis b
      simp only [pending, filter_cons, hnew, not_false_eq_true, decide_true, if_true,
        mem_cons, true_or, not_true_eq_false, decide_false, Bool.false_eq_true, if_false,
        map_cons, sum_cons] at hle ⊢
      omega
    · have ih := ih ((mem_cons.mp ha).resolve_left (Ne.symm hba))
      by_cases hb : b ∈ vis
      · simpa only [pending, filter_cons, mem_cons, hb, or_true, not_true_eq_false,
          decide_false, Bool.false_eq_true, if_false] using ih
      · simp only [pending, filter_cons, mem_cons, hba, hb, or_false, not_false_eq_true,
          decide_true, if_true, map_cons, sum_cons] at ih ⊢
        omega

include hw in
lemma step_potential_lt {t t' : Traversal α} (h : step expand t = .ok t') (hne : t.stack ≠ []) :
    t'.stack.length + pending univ w t'.visited < t.stack.length + pending univ w t.visited := by
  obtain ⟨a, rest, hsk, rfl⟩ | ⟨a, rest, hsk, -, rfl⟩ | ⟨a, rest, ds, hsk, hnew, hds, rfl⟩ :=
    step_ok_cases h hne
  · simp [hsk]
  · simp [hsk]
  · obtain ⟨ha, hlen⟩ := hw a ds hds
    have hpay := pending_cons_add_le w ha hnew
    simp only [hsk, length_append, length_map, length_cons]
    omega

include hw in
/-- **Enough iterations empty the stack.** The bound counts the stack, and one iteration for
each node that can still be visited and for each of its successors. -/
lemma run_stack_eq_nil : ∀ {n : ℕ} {t t' : Traversal α}, run expand n t = .ok t' →
    t.stack.length + pending univ w t.visited ≤ n → t'.stack = []
  | 0, t, t', h, hn => by
    obtain rfl : t = t' := ok.inj h
    exact eq_nil_of_length_eq_zero (by omega)
  | n + 1, t, t', h, hn => by
    unfold run at h
    split at h
    · next hnil =>
      obtain rfl : t = t' := ok.inj h
      exact hnil
    · next hsk =>
      split at h
      · cases h
      · next t₁ h₁ =>
        have hlt := step_potential_lt hw h₁ (by simp [hsk])
        exact run_stack_eq_nil h (by omega)

include hw in
lemma run_start_stack_eq_nil {n : ℕ} {root : α} {vis fin : List α} {t : Traversal α}
    (h : run expand n (start root vis fin) = .ok t)
    (hn : 1 + (univ.map fun a => w a + 1).sum ≤ n) : t.stack = [] := by
  refine run_stack_eq_nil hw h ?_
  have := pending_le univ w vis
  simp only [start, length_cons, length_nil]
  omega

end

/-! ### What a traversal visits -/

section

variable [DecidableEq α] {expand : α → Except ε (List α)}

/-- What holds of a traversal from `root` that began with `seen` and `done`. -/
structure Progress (expand : α → Except ε (List α)) (root : α) (seen done : List α)
    (t : Traversal α) : Prop where
  stack_reach : ∀ a b, (a, b) ∈ t.stack → Reach expand root a
  root_seen : root ∈ t.visited ∨ (root, false) ∈ t.stack
  visited_split : ∀ a, a ∈ t.visited ↔
    a ∈ seen ∨ a ∉ seen ∧ ((a, true) ∈ t.stack ∨ a ∈ t.finished.drop done.length)
  finished_prefix : t.finished.take done.length = done
  finished_reach : ∀ a ∈ t.finished.drop done.length, Reach expand root a
  expanded : ∀ a ∈ t.visited, a ∉ seen →
    ∃ ds, expand a = .ok ds ∧ ∀ d ∈ ds, d ∈ t.visited ∨ (d, false) ∈ t.stack

omit [DecidableEq α] in
lemma progress_start (root : α) (seen done : List α) :
    Progress expand root seen done (start root seen done) where
  stack_reach a b h := by
    simp only [start, mem_singleton, Prod.mk.injEq] at h
    obtain ⟨rfl, -⟩ := h
    exact Relation.ReflTransGen.refl
  root_seen := .inr (by simp [start])
  visited_split a := by simp [start]
  finished_prefix := by simp [start]
  finished_reach a h := by simp [start] at h
  expanded a ha hnew := absurd ha hnew

variable {root : α} {seen done : List α} {t : Traversal α}

omit [DecidableEq α] in
lemma Progress.drop_append (h : Progress expand root seen done t) (l : List α) :
    (t.finished ++ l).drop done.length = t.finished.drop done.length ++ l := by
  refine drop_append_of_le_length ?_
  have := congrArg List.length h.finished_prefix
  rw [length_take] at this
  omega

/-- One iteration keeps `Progress`. -/
lemma Progress.step {t' : Traversal α} (hne : t.stack ≠ []) (hs : Graph.step expand t = .ok t')
    (h : Progress expand root seen done t) : Progress expand root seen done t' := by
  obtain ⟨a, rest, hsk, rfl⟩ | ⟨a, rest, hsk, hmem, rfl⟩ |
    ⟨a, rest, ds, hsk, hnew, hds, rfl⟩ := step_ok_cases hs hne
  · -- A node with the flag `true` is finished; it is visited already.
    have hre := h.stack_reach a true (by simp [hsk])
    have hma : ∀ d, (d, false) ∈ t.stack → (d, false) ∈ rest := by
      intro d hd
      simpa [hsk] using hd
    refine ⟨fun b c hb => h.stack_reach b c (by simp [hsk, hb]), ?_, ?_, ?_, ?_, ?_⟩
    · exact h.root_seen.imp_right (hma root)
    · intro b
      rw [h.visited_split, h.drop_append, hsk]
      simp only [mem_cons, Prod.mk.injEq, mem_append]
      tauto
    · rw [take_append_of_le_length, h.finished_prefix]
      have := congrArg List.length h.finished_prefix
      rw [length_take] at this
      omega
    · intro b hb
      rw [h.drop_append, mem_append, mem_singleton] at hb
      rcases hb with hb | rfl
      · exact h.finished_reach b hb
      · exact hre
    · intro b hb hb₀
      obtain ⟨ds, hds, hall⟩ := h.expanded b hb hb₀
      exact ⟨ds, hds, fun d hd => (hall d hd).imp_right (hma d)⟩
  · -- A node that was visited before is dropped.
    have hma : ∀ d, (d, false) ∈ t.stack → d ∈ t.visited ∨ (d, false) ∈ rest := by
      intro d hd
      rw [hsk, mem_cons] at hd
      rcases hd with hd | hd
      · obtain ⟨rfl, -⟩ := Prod.mk.inj hd
        exact .inl hmem
      · exact .inr hd
    refine ⟨fun b c hb => h.stack_reach b c (by simp [hsk, hb]), ?_, ?_, h.finished_prefix,
      h.finished_reach, ?_⟩
    · exact h.root_seen.elim .inl (hma root)
    · intro b
      rw [h.visited_split, hsk]
      simp
    · intro b hb hb₀
      obtain ⟨ds, hds, hall⟩ := h.expanded b hb hb₀
      exact ⟨ds, hds, fun d hd => (hall d hd).elim .inl (hma d)⟩
  · -- A new node is visited; its successors stand above it on the stack.
    have hre := h.stack_reach a false (by simp [hsk])
    have hnew₀ : a ∉ seen := fun ha => hnew ((h.visited_split a).mpr (.inl ha))
    have hk : ∀ d, d ∈ t.visited ∨ (d, false) ∈ t.stack →
        d ∈ a :: t.visited ∨ (d, false) ∈ ds.map (·, false) ++ (a, true) :: rest := by
      rintro d (hd | hd)
      · exact .inl (mem_cons_of_mem _ hd)
      · rw [hsk, mem_cons] at hd
        rcases hd with hd | hd
        · obtain ⟨rfl, -⟩ := Prod.mk.inj hd
          exact .inl mem_cons_self
        · exact .inr (by simp [hd])
    refine ⟨?_, hk root h.root_seen, ?_, h.finished_prefix, h.finished_reach, ?_⟩
    · intro b c hb
      simp only [mem_append, mem_map, mem_cons] at hb
      rcases hb with ⟨d, hd, rfl, -⟩ | ⟨rfl, -⟩ | hb
      · exact hre.tail ⟨ds, hds, hd⟩
      · exact hre
      · exact h.stack_reach b c (by simp [hsk, hb])
    · intro b
      have hsp := h.visited_split b
      rw [hsk] at hsp
      simp only [mem_cons, mem_append, mem_map, Prod.mk.injEq, Bool.false_eq_true,
        and_false, exists_false, and_true, false_or, Bool.true_eq_false] at hsp ⊢
      rw [hsp]
      constructor
      · rintro (rfl | hb | hb)
        · exact .inr ⟨hnew₀, .inl (.inl rfl)⟩
        · exact .inl hb
        · exact .inr ⟨hb.1, hb.2.imp_left .inr⟩
      · rintro (hb | ⟨hb₀, (rfl | hb) | hb⟩)
        · exact .inr (.inl hb)
        · exact .inl rfl
        · exact .inr (.inr ⟨hb₀, .inl hb⟩)
        · exact .inr (.inr ⟨hb₀, .inr hb⟩)
    · intro b hb hb₀
      rcases mem_cons.mp hb with rfl | hb
      · exact ⟨ds, hds, fun d hd => .inr (by simp [hd])⟩
      · obtain ⟨ds', hds', hall⟩ := h.expanded b hb hb₀
        exact ⟨ds', hds', fun d hd => hk d (hall d hd)⟩

variable {n : ℕ}

/-- **What a traversal visits.** A traversal that empties its stack has visited, besides the
nodes it began with, exactly the nodes it finished; these are reachable from the root, they
expand, and their successors are visited. -/
lemma run_ok_spec (h : run expand n (start root seen done) = .ok t)
    (hnil : t.stack = []) : ∃ new, t.finished = done ++ new ∧ root ∈ t.visited ∧
      (∀ a, a ∈ t.visited ↔ a ∈ seen ∨ a ∉ seen ∧ a ∈ new) ∧
      (∀ a ∈ new, Reach expand root a) ∧
      ∀ a ∈ t.visited, a ∉ seen → ∃ ds, expand a = .ok ds ∧ ∀ d ∈ ds, d ∈ t.visited := by
  have hp : Progress expand root seen done t :=
    run_ok_induct (fun _ _ hne hs hp => hp.step hne hs) h (progress_start ..)
  refine ⟨t.finished.drop done.length, ?_, ?_, ?_, hp.finished_reach, ?_⟩
  · conv_lhs => rw [← take_append_drop done.length t.finished, hp.finished_prefix]
  · simpa [hnil] using hp.root_seen
  · simpa [hnil] using hp.visited_split
  · simpa [hnil] using hp.expanded

lemma run_error_spec {e : ε} (h : run expand n (start root seen done) = .error e) :
    ∃ a, Reach expand root a ∧ expand a = .error e := by
  obtain ⟨t, hp, hs⟩ := run_error_induct (fun _ _ hne hs hp => hp.step hne hs) h (progress_start ..)
  obtain ⟨a, rest, hsk, -, he⟩ := step_error_cases hs
  exact ⟨a, hp.stack_reach a false (by simp [hsk]), he⟩

lemma run_ok_closed (h : run expand n (start root seen done) = .ok t)
    (hnil : t.stack = []) (hcl : Closed expand seen) : Closed expand t.visited ∧
      ∀ a, a ∈ t.visited ↔ a ∈ seen ∨ Reach expand root a := by
  obtain ⟨new, -, hro, hvi, hre, hexp⟩ := run_ok_spec h hnil
  have hold : ∀ a ∈ seen, a ∈ t.visited := fun a ha => (hvi a).mpr (.inl ha)
  have hcl' : Closed expand t.visited := by
    intro a ha
    by_cases ha₀ : a ∈ seen
    · obtain ⟨ds, hds, hall⟩ := hcl a ha₀
      exact ⟨ds, hds, fun d hd => hold d (hall d hd)⟩
    · exact hexp a ha ha₀
  refine ⟨hcl', fun a => ⟨fun ha => ?_, fun ha => ?_⟩⟩
  · exact ((hvi a).mp ha).imp_right fun h => hre a h.2
  · exact ha.elim (hold a) (hcl'.mem_of_reach hro)

lemma run_isOk_iff (done : List α)
    (hfuel : ∀ t, run expand n (start root seen done) = .ok t → t.stack = [])
    (hcl : Closed expand seen) : (∃ t, run expand n (start root seen done) = .ok t) ↔
      ∀ a, Reach expand root a → ∃ ds, expand a = .ok ds := by
  constructor
  · rintro ⟨t, h⟩ a ha
    obtain ⟨hcl', hmem⟩ := run_ok_closed h (hfuel t h) hcl
    obtain ⟨ds, hds, -⟩ := hcl' a ((hmem a).mpr (.inr ha))
    exact ⟨ds, hds⟩
  · intro hall
    cases h : run expand n (start root seen done) with
    | ok t => exact ⟨t, rfl⟩
    | error e =>
      obtain ⟨a, ha, he⟩ := run_error_spec h
      obtain ⟨ds, hds⟩ := hall a ha
      rw [he] at hds
      cases hds

end

/-! ### Several roots -/

section

variable [DecidableEq α] {expand : α → Except ε (List α)} {n : ℕ}
  (hfuel : ∀ root visited finished t,
    run expand n (start root visited finished) = .ok t → t.stack = [])

include hfuel in
lemma runAll_ok_spec : ∀ {rts seen done vis fin : List α},
    runAll expand n rts seen done = .ok (vis, fin) → Closed expand seen →
    Closed expand vis ∧ (∀ a, a ∈ vis ↔ a ∈ seen ∨ ∃ root ∈ rts, Reach expand root a) ∧
      (∀ a ∈ done, a ∈ fin) ∧ (∀ a ∈ fin, a ∈ done ∨ ∃ root ∈ rts, Reach expand root a) ∧
      ∀ a ∈ vis, a ∈ seen ∨ a ∈ fin
  | [], seen, done, vis, fin, h, hcl => by
    obtain ⟨rfl, rfl⟩ := Prod.mk.inj (ok.inj h)
    exact ⟨hcl, by simp, by simp, fun a ha => .inl ha, fun a ha => .inl ha⟩
  | root :: rts, seen, done, vis, fin, h, hcl => by
    unfold runAll at h
    split at h
    · cases h
    next t ht =>
    have hnil := hfuel _ _ _ _ ht
    obtain ⟨hcl₁, hmem₁⟩ := run_ok_closed ht hnil hcl
    obtain ⟨new, hnew, -, hvi, hre, -⟩ := run_ok_spec ht hnil
    obtain ⟨hcl₂, hmem₂, hold₂, hfin₂, hdo₂⟩ := runAll_ok_spec h hcl₁
    rw [hnew, forall_mem_append] at hold₂
    refine ⟨hcl₂, fun a => ?_, hold₂.1, fun a ha => ?_, fun a ha => ?_⟩
    · rw [hmem₂, hmem₁]
      simp only [mem_cons, exists_eq_or_imp, or_assoc]
    · rcases hfin₂ a ha with h₁ | ⟨r, hr, h₂⟩
      · rw [hnew, mem_append] at h₁
        exact h₁.imp_right fun h₁ => ⟨root, mem_cons_self, hre a h₁⟩
      · exact .inr ⟨r, mem_cons_of_mem _ hr, h₂⟩
    · rcases hdo₂ a ha with h₁ | h₁
      · exact ((hvi a).mp h₁).imp_right fun h₂ => hold₂.2 a h₂.2
      · exact .inr h₁

include hfuel in
/-- **Several roots.** From nothing, the traversals finish exactly what is reachable from one of
their roots. -/
lemma mem_runAll_finished {rts vis fin : List α}
    (h : runAll expand n rts [] [] = .ok (vis, fin)) (a : α) :
    a ∈ fin ↔ ∃ root ∈ rts, Reach expand root a := by
  obtain ⟨-, hmem, -, hfin, hdo⟩ := runAll_ok_spec hfuel h closed_nil
  constructor
  · intro ha
    exact (hfin a ha).resolve_left not_mem_nil
  · intro ha
    exact (hdo a ((hmem a).mpr (.inr ha))).resolve_left not_mem_nil

include hfuel in
lemma runAll_isOk_iff : ∀ {roots seen : List α} (done : List α),
    Closed expand seen → ((∃ r, runAll expand n roots seen done = .ok r) ↔
      ∀ root ∈ roots, ∀ a, Reach expand root a → ∃ ds, expand a = .ok ds)
  | [], seen, done, _ => by simp [runAll]
  | root :: roots, seen, done, hcl => by
    have hone := run_isOk_iff done (hfuel root seen done) hcl
    rw [forall_mem_cons, ← hone]
    unfold runAll
    cases ht : run expand n (start root seen done) with
    | error e => simp
    | ok t =>
      obtain ⟨hcl₁, -⟩ := run_ok_closed ht (hfuel _ _ _ _ ht) hcl
      simpa using runAll_isOk_iff t.finished hcl₁

end

/-!
### The order in which a traversal finishes

A traversal finishes each node once. When a node is finished, each of its successors is finished
already or waits for its own successors on the stack; a node that waits reaches everything above it.
-/

open Collections

variable {expand : α → Except ε (List α)}

def waiting (stack : List (α × Bool)) : List α := (stack.filter (·.2)).map (·.1)

@[simp] lemma waiting_nil : waiting ([] : List (α × Bool)) = [] := rfl

@[simp] lemma waiting_cons_true (a : α) (stack : List (α × Bool)) :
    waiting ((a, true) :: stack) = a :: waiting stack := rfl

@[simp] lemma waiting_cons_false (a : α) (stack : List (α × Bool)) :
    waiting ((a, false) :: stack) = waiting stack := rfl

@[simp] lemma waiting_append (s t : List (α × Bool)) :
    waiting (s ++ t) = waiting s ++ waiting t := by
  simp [waiting]

@[simp] lemma waiting_map_false (l : List α) : waiting (l.map (·, false)) = [] := by
  simp [waiting]

lemma mem_waiting {a : α} {stack : List (α × Bool)} : a ∈ waiting stack ↔ (a, true) ∈ stack := by
  simp [waiting]

def FinishOrder (expand : α → Except ε (List α)) (finished : List α) : Prop :=
  ∀ p ∈ finished, ∀ q, Edge expand p q → Precedes q p finished ∨ Reach expand q p

/-- The nodes that are finished or wait are the visited ones, each of them once. A node that waits
reaches what is above it, and its successors are visited or above it. -/
structure Arranged (expand : α → Except ε (List α)) (t : Traversal α) : Prop where
  nodup : (t.finished ++ waiting t.stack).Nodup
  visited_iff : ∀ a, a ∈ t.visited ↔ a ∈ t.finished ++ waiting t.stack
  reaches : t.stack.Pairwise fun above below => below.2 = true → Reach expand below.1 above.1
  successors : ∀ above p below, t.stack = above ++ (p, true) :: below → ∀ q, Edge expand p q →
    q ∈ t.visited ∨ (q, false) ∈ above
  finishOrder : FinishOrder expand t.finished

structure Settled (expand : α → Except ε (List α)) (visited finished : List α) : Prop where
  nodup : finished.Nodup
  visited_iff : ∀ a, a ∈ visited ↔ a ∈ finished
  finishOrder : FinishOrder expand finished

lemma settled_nil : Settled expand [] [] := ⟨nodup_nil, fun _ => .rfl, fun p hp => by cases hp⟩

lemma Settled.arranged_start {vis fin : List α} (h : Settled expand vis fin)
    (root : α) : Arranged expand (start root vis fin) where
  nodup := by simpa [start] using h.nodup
  visited_iff := by simpa [start] using h.visited_iff
  reaches := pairwise_singleton _ _
  successors above p below hsp := by
    have hmem : (p, true) ∈ [(root, false)] := by
      rw [show [(root, false)] = above ++ (p, true) :: below from hsp]
      simp
    simp at hmem
  finishOrder := h.finishOrder

lemma Arranged.settled {t : Traversal α} (h : Arranged expand t) (hnil : t.stack = []) :
    Settled expand t.visited t.finished :=
  ⟨by simpa [hnil] using h.nodup, by simpa [hnil] using h.visited_iff, h.finishOrder⟩

lemma FinishOrder.concat {fin : List α} (h : FinishOrder expand fin) {a : α}
    (ha : ∀ q, Edge expand a q → q ∈ fin ∨ Reach expand q a) : FinishOrder expand (fin ++ [a]) := by
  intro p hp q hq
  rw [mem_append, mem_singleton] at hp
  rcases hp with hp | rfl
  · exact (h p hp q hq).imp_left fun hbe => hbe.append [a]
  · exact (ha q hq).imp_left precedes_concat

/-- Where a node waits once `a` does and its successors are above it. -/
lemma eq_or_exists_of_map_append {ds : List α} {a p : α} {rest abv bel : List (α × Bool)}
    (h : ds.map (·, false) ++ (a, true) :: rest = abv ++ (p, true) :: bel) :
    (a = p ∧ abv = ds.map (·, false) ∧ bel = rest) ∨
      ∃ mid, abv = ds.map (·, false) ++ (a, true) :: mid ∧ rest = mid ++ (p, true) :: bel := by
  induction ds generalizing abv with
  | nil => cases abv <;> simp_all
  | cons d ds ih => cases abv <;> simp_all

variable [DecidableEq α]

lemma Arranged.step {t t' : Traversal α} (hne : t.stack ≠ []) (hs : Graph.step expand t = .ok t')
    (h : Arranged expand t) : Arranged expand t' := by
  obtain ⟨a, rest, hsk, rfl⟩ | ⟨a, rest, hsk, hmem, rfl⟩ |
    ⟨a, rest, ds, hsk, hnew, hds, rfl⟩ := step_ok_cases hs hne
  · -- A node that waited is finished; its successors are visited, since nothing is above it.
    have hwa : waiting t.stack = a :: waiting rest := by rw [hsk, waiting_cons_true]
    have hrch := h.reaches
    rw [hsk, pairwise_cons] at hrch
    refine ⟨?_, fun b => ?_, hrch.2, fun abv p bel hsp q hq => ?_, ?_⟩
    · simpa [hwa] using h.nodup
    · simpa [hwa] using h.visited_iff b
    · have hsc := h.successors ((a, true) :: abv) p bel
        (hsk.trans (congrArg (List.cons (a, true)) hsp)) q hq
      simpa using hsc
    · refine h.finishOrder.concat fun q hq => ?_
      have hsc := h.successors [] a rest hsk q hq
      simp only [not_mem_nil, or_false] at hsc
      rw [h.visited_iff, hwa, mem_append, mem_cons] at hsc
      rcases hsc with hfin | rfl | hwts
      · exact .inl hfin
      · exact .inr .refl
      · exact .inr (hrch.1 (q, true) (mem_waiting.mp hwts) rfl)
  · -- A node that was visited before is dropped.
    have hwa : waiting t.stack = waiting rest := by rw [hsk, waiting_cons_false]
    have hrch := h.reaches
    rw [hsk, pairwise_cons] at hrch
    refine ⟨?_, fun b => ?_, hrch.2, fun abv p bel hsp q hq => ?_, h.finishOrder⟩
    · simpa [hwa] using h.nodup
    · simpa [hwa] using h.visited_iff b
    · have hsc := h.successors ((a, false) :: abv) p bel
        (hsk.trans (congrArg (List.cons (a, false)) hsp)) q hq
      rw [mem_cons] at hsc
      rcases hsc with hvi | ⟨rfl, -⟩ | hab
      · exact .inl hvi
      · exact .inl hmem
      · exact .inr hab
  · -- A new node waits, and its successors are put above it.
    have hwa : waiting (ds.map (·, false) ++ (a, true) :: rest) = a :: waiting t.stack := by
      rw [hsk, waiting_append, waiting_map_false, waiting_cons_true, waiting_cons_false, nil_append]
    have hrch := h.reaches
    rw [hsk, pairwise_cons] at hrch
    have hbel : ∀ x ∈ rest, x.2 = true → Reach expand x.1 a := hrch.1
    refine ⟨?_, fun b => ?_, ?_, fun abv p bel hsp q hq => ?_, h.finishOrder⟩
    · have hnew' := hnew
      rw [h.visited_iff] at hnew'
      rw [hwa, nodup_middle, nodup_cons]
      exact ⟨hnew', h.nodup⟩
    · rw [hwa, mem_cons, h.visited_iff]
      simp only [mem_append, mem_cons]
      tauto
    · rw [pairwise_append, pairwise_cons]
      refine ⟨?_, ⟨hbel, hrch.2⟩, fun x hx y hy hfg => ?_⟩
      · refine List.Pairwise.map _ (fun _ _ _ hfg => ?_) (pairwise_of_forall fun _ _ => trivial)
        cases hfg
      · obtain ⟨d, hd, rfl⟩ := mem_map.mp hx
        have hed : Edge expand a d := ⟨ds, hds, hd⟩
        rcases mem_cons.mp hy with rfl | hy
        · exact .single hed
        · exact (hbel y hy hfg).tail hed
    · -- The node that waits is the new one, or one further below.
      rcases eq_or_exists_of_map_append hsp with ⟨rfl, rfl, rfl⟩ | ⟨mid, rfl, hr⟩
      · obtain ⟨ds', hds', hq'⟩ := hq
        obtain rfl := Except.ok.inj (hds.symm.trans hds')
        exact .inr (by simp [hq'])
      · have hsc := h.successors ((a, false) :: mid) p bel (hsk.trans (congrArg _ hr)) q hq
        rw [mem_cons] at hsc
        rcases hsc with hvi | ⟨rfl, -⟩ | hab
        · exact .inl (mem_cons_of_mem _ hvi)
        · exact .inl mem_cons_self
        · exact .inr (by simp [hab])

lemma run_settled {n : ℕ} {root : α} {vis fin : List α} {t : Traversal α}
    (h : run expand n (start root vis fin) = .ok t) (hnil : t.stack = [])
    (hset : Settled expand vis fin) : Settled expand t.visited t.finished :=
  (run_ok_induct (fun _ _ hne hs ht => Arranged.step hne hs ht) h
    (hset.arranged_start root)).settled hnil

/-- **The order of several traversals.** Each node is finished once, and a successor of a node is
finished before it unless it reaches the node. -/
lemma runAll_settled {n : ℕ} (hfu : ∀ root vis fin t,
      run expand n (start root vis fin) = .ok t → t.stack = []) :
    ∀ {rts vis₀ fin₀ vis fin : List α}, runAll expand n rts vis₀ fin₀ = .ok (vis, fin) →
      Settled expand vis₀ fin₀ → Settled expand vis fin
  | [], vis₀, fin₀, vis, fin, h, hset => by
    obtain ⟨rfl, rfl⟩ := Prod.mk.inj (Except.ok.inj h)
    exact hset
  | root :: rts, vis₀, fin₀, vis, fin, h, hset => by
    unfold runAll at h
    split at h
    · cases h
    next t ht =>
    exact runAll_settled hfu h (run_settled ht (hfu _ _ _ _ ht) hset)

end Omg.Graph
