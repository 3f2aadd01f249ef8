import Mathlib.Data.List.Dedup
import Omg.Debian.Resolver

/-!
# The order of the plan

The topological sort is a traversal of the recorded edges within the packages that are sorted,
from the packages in the order of their names. It returns exactly these packages, and it does not
depend on the order in which they are given.
-/

namespace Omg.Debian.DependencyResolver

open List Relation Omg.Graph ReflTransGen

variable {hostArch : Text} {r r' : DependencyResolver} {packages ps qs : List Text}

/-! ### The sort as a traversal -/

/-- The graph of the sort: the sorted edges of a package among `packages`. -/
def sortExpand (r : DependencyResolver) (packages : List Text) (package : Text) :
    Except Unit (List Text) :=
  if package ∈ packages then .ok (r.sortedDependencies packages package) else .error ()

lemma mem_sortedRoots (pkg : Text) : pkg ∈ sortedRoots packages ↔ pkg ∈ packages := by
  rw [sortedRoots, mem_insertionSort, mem_dedup]

lemma mem_packages_of_mem_sortedDependencies {pkg dep : Text}
    (h : dep ∈ r.sortedDependencies packages pkg) : dep ∈ packages := by
  rw [sortedDependencies, mem_dedup, mem_insertionSort, mem_filter] at h
  exact of_decide_eq_true h.2

/-- A state of the sort and a traversal are at the same point: a package has a mark exactly when
it is visited, and a package waiting for its dependencies is marked as being visited. -/
structure Simulates (packages : List Text) (s : SortState) (t : Graph.Traversal Text) : Prop where
  stack_eq : s.stack = t.stack
  result_eq : s.result = t.finished
  marked_iff : ∀ p, s.states.lookup p ≠ none ↔ p ∈ t.visited
  visiting : ∀ p, (p, true) ∈ s.stack → s.states.lookup p = some .visiting
  nodup : (s.stack.filter (·.2)).Nodup
  mem_packages : ∀ p b, (p, b) ∈ s.stack → p ∈ packages

lemma lookup_cons_ne_none {β : Type*} {l : List (Text × β)} {k p : Text} {v : β} :
    List.lookup p ((k, v) :: l) ≠ none ↔ p = k ∨ l.lookup p ≠ none := by
  by_cases h : p = k
  · simp [h]
  · simp [h]

lemma filter_flag_map_false (l : List Text) :
    (l.map (·, false)).filter (fun x : Text × Bool => x.2) = [] := by
  simp

lemma orderLoop_simulates (n : ℕ) {s : SortState} {t : Graph.Traversal Text}
    (h : Simulates packages s t) : ∃ t', run (r.sortExpand packages) n t = .ok t' ∧
      Simulates packages (r.orderLoop packages n s) t' := by
  induction n generalizing s t with
  | zero => exact ⟨t, rfl, h⟩
  | succ n ih =>
    obtain ⟨stack, sts, res⟩ := s
    obtain ⟨tstack, vis, fin⟩ := t
    obtain ⟨hsk, hres, hma, hvg, hnd, hmem⟩ := h
    subst hsk hres
    match stack with
    | [] => exact ⟨_, rfl, ⟨rfl, rfl, hma, hvg, hnd, hmem⟩⟩
    | (p, true) :: rest =>
      have hp := hvg p mem_cons_self
      simp only [filter_cons, if_true, nodup_cons, mem_filter, and_true] at hnd
      simp only [orderLoop, hp]
      refine ih ⟨rfl, rfl, fun q => ?_, fun q hq => ?_, hnd.2,
        fun q b hq => hmem q b (mem_cons_of_mem _ hq)⟩
      · rw [lookup_cons_ne_none, ← hma q]
        refine ⟨?_, .inr⟩
        rintro (rfl | hq)
        · simp [hp]
        · exact hq
      · have hne : q ≠ p := by
          rintro rfl
          exact hnd.1 hq
        rw [lookup_cons, beq_eq_false_iff_ne.mpr hne]
        exact hvg q (mem_cons_of_mem _ hq)
    | (p, false) :: rest =>
      have hpk := hmem p false mem_cons_self
      cases hp : sts.lookup p with
      | some mark =>
        have hvi : p ∈ vis := (hma p).mp (by simp [hp])
        simp only [orderLoop, run, step, hp, hvi]
        exact ih ⟨rfl, rfl, hma, fun q hq => hvg q (mem_cons_of_mem _ hq), hnd,
          fun q b hq => hmem q b (mem_cons_of_mem _ hq)⟩
      | none =>
        have hvi : p ∉ vis := fun hv => (hma p).mpr hv hp
        have hnew : (p, true) ∉ rest := by
          intro hq
          have := hvg p (mem_cons_of_mem _ hq)
          rw [hp] at this
          cases this
        simp only [orderLoop, run, step, hp, hvi, sortExpand, hpk]
        refine ih ⟨rfl, rfl, fun q => ?_, fun q hq => ?_, ?_, fun q b hq => ?_⟩
        · rw [lookup_cons_ne_none, hma, mem_cons]
        · simp only [mem_append, mem_map, Prod.mk.injEq, Bool.false_eq_true, and_false,
            exists_false, false_or, mem_cons, and_true] at hq
          rcases hq with rfl | hq
          · simp
          · have hne : q ≠ p := by
              rintro rfl
              exact hnew hq
            rw [lookup_cons, beq_eq_false_iff_ne.mpr hne]
            exact hvg q (mem_cons_of_mem _ hq)
        · rw [filter_append, filter_flag_map_false, nil_append, filter_cons,
            if_pos rfl, nodup_cons, mem_filter]
          exact ⟨fun hq => hnew hq.1, hnd⟩
        · simp only [mem_append, mem_map, mem_cons] at hq
          rcases hq with ⟨d, hd, rfl, -⟩ | ⟨rfl, -⟩ | hq
          · exact mem_packages_of_mem_sortedDependencies hd
          · exact hpk
          · exact hmem q b (mem_cons_of_mem _ hq)

lemma sortExpand_eq_ok {pkg : Text} {ds : List Text} (h : r.sortExpand packages pkg = .ok ds) :
    pkg ∈ packages ∧ ds = r.sortedDependencies packages pkg := by
  unfold sortExpand at h
  split_ifs at h with hmem
  exact ⟨hmem, (Except.ok.inj h).symm⟩

lemma run_sortExpand_stack (root : Text) (vis fin : List Text) (t : Graph.Traversal Text)
    (h : run (r.sortExpand packages) (r.orderBound packages)
      (start root vis fin) = .ok t) : t.stack = [] := by
  have hexp : ∀ p ds, r.sortExpand packages p = .ok ds →
      p ∈ sortedRoots packages ∧ ds.length ≤ (r.sortedDependencies packages p).length := by
    intro p ds hds
    obtain ⟨hp, rfl⟩ := sortExpand_eq_ok hds
    exact ⟨(mem_sortedRoots p).mpr hp, le_rfl⟩
  exact run_start_stack_eq_nil hexp h le_rfl

lemma foldl_orderRoot_simulates : ∀ (rts : List Text), (∀ p ∈ rts, p ∈ packages) →
    ∀ (sts : List (Text × Mark)) (vis res : List Text), (∀ p, sts.lookup p ≠ none ↔ p ∈ vis) →
    ∃ vis', runAll (r.sortExpand packages) (r.orderBound packages) rts vis res =
      .ok (vis', (rts.foldl (r.orderRoot packages) (sts, res)).2)
  | [], _, _, vis, _, _ => ⟨vis, rfl⟩
  | root :: rts, hroo, sts, vis, res, hma => by
    obtain ⟨hro, hroo⟩ := forall_mem_cons.mp hroo
    have hsim : Simulates packages ⟨[(root, false)], sts, res⟩ (start root vis res) :=
      ⟨rfl, rfl, hma, by simp, by simp, by simp [hro]⟩
    obtain ⟨t, ht, hsim'⟩ := orderLoop_simulates (r.orderBound packages) hsim
    rw [foldl_cons]
    unfold runAll orderRoot
    rw [ht]
    split_ifs with hord
    · -- A root that is ordered already is visited, and its traversal ends at once.
      have hvi : root ∈ vis := (hma root).mp (by simp [hord])
      have hsk : run (r.sortExpand packages) (r.orderBound packages)
          (start root vis res) = .ok ⟨[], vis, res⟩ := by
        obtain ⟨m, hm⟩ : ∃ m, r.orderBound packages = m + 1 := ⟨_, Nat.add_comm 1 _⟩
        rw [hm]
        simp only [start, run, step, hvi]
        cases m <;> rfl
      obtain rfl : t = ⟨[], vis, res⟩ := Except.ok.inj (ht.symm.trans hsk)
      exact foldl_orderRoot_simulates rts hroo sts vis res hma
    · dsimp only
      rw [hsim'.result_eq]
      exact foldl_orderRoot_simulates rts hroo _ t.visited _ hsim'.marked_iff

/-- **Nothing is lost or added.** The sort returns exactly the packages it is given. -/
lemma mem_topologicalSort (p : Text) : p ∈ r.topologicalSort packages ↔ p ∈ packages := by
  obtain ⟨vis, hrun⟩ := foldl_orderRoot_simulates (sortedRoots packages)
    (fun p => (mem_sortedRoots p).mp) [] [] [] (by simp)
  rw [topologicalSort, mem_runAll_finished run_sortExpand_stack hrun]
  constructor
  · rintro ⟨root, hro, hre⟩
    rcases cases_tail hre with rfl | ⟨q, -, ds, hds, hp⟩
    · exact (mem_sortedRoots _).mp hro
    · obtain ⟨-, rfl⟩ := sortExpand_eq_ok hds
      exact mem_packages_of_mem_sortedDependencies hp
  · intro hp
    exact ⟨p, (mem_sortedRoots p).mpr hp, refl⟩

/-! ### The order of the result -/

def EdgeWithin (r : DependencyResolver) (packages : List Text) (p q : Text) : Prop :=
  p ∈ packages ∧ q ∈ packages ∧ q ∈ (r.depGraph.lookup p).getD []

lemma edge_sortExpand_iff {p q : Text} :
    Graph.Edge (r.sortExpand packages) p q ↔ r.EdgeWithin packages p q := by
  constructor
  · rintro ⟨ds, hds, hq⟩
    obtain ⟨hp, rfl⟩ := sortExpand_eq_ok hds
    simp only [sortedDependencies, mem_dedup, mem_insertionSort, mem_filter,
      decide_eq_true_eq] at hq
    exact ⟨hp, hq.2, hq.1⟩
  · rintro ⟨hp, hq, hed⟩
    refine ⟨r.sortedDependencies packages p, if_pos hp, ?_⟩
    simp only [sortedDependencies, mem_dedup, mem_insertionSort, mem_filter, decide_eq_true_eq]
    exact ⟨hed, hq⟩

lemma orderLoop_stack_eq_nil {root : Text} (hro : root ∈ packages)
    (sts : List (Text × Mark)) (res : List Text) :
    (r.orderLoop packages (r.orderBound packages) ⟨[(root, false)], sts, res⟩).stack = [] := by
  have hma : ∀ p, sts.lookup p ≠ none ↔ p ∈ sts.map Prod.fst := by
    intro p
    induction sts with
    | nil => simp
    | cons e sts ih => rw [lookup_cons_ne_none, ih, map_cons, mem_cons]
  have hsim : Simulates packages ⟨[(root, false)], sts, res⟩ (start root (sts.map Prod.fst) res) :=
    ⟨rfl, rfl, hma, by simp, by simp, by simp [hro]⟩
  obtain ⟨t, ht, hsim'⟩ := orderLoop_simulates (r.orderBound packages) hsim
  rw [hsim'.stack_eq]
  exact run_sortExpand_stack root _ _ t ht

/-- **The topological sort.** On every graph the sort ends, returns each of the packages once and
nothing else, and puts a package behind the ones it depends on, unless it is reachable from them
within the packages. -/
theorem topologicalSort_spec (r : DependencyResolver) (packages : List Text) :
    (∀ root ∈ packages, ∀ states result, (r.orderLoop packages (r.orderBound packages)
      ⟨[(root, false)], states, result⟩).stack = []) ∧
    (r.topologicalSort packages).Nodup ∧
    (∀ p, p ∈ r.topologicalSort packages ↔ p ∈ packages) ∧
    ∀ p q, r.EdgeWithin packages p q → ¬ Relation.ReflTransGen (r.EdgeWithin packages) q p →
      Collections.Precedes q p (r.topologicalSort packages) := by
  obtain ⟨vis, hrun⟩ := foldl_orderRoot_simulates (sortedRoots packages)
    (fun p => (mem_sortedRoots p).mp) [] [] [] (by simp)
  have hset := runAll_settled run_sortExpand_stack hrun settled_nil
  refine ⟨fun root hro => orderLoop_stack_eq_nil hro, hset.nodup, mem_topologicalSort,
    fun p q hed hre => ?_⟩
  have hp : p ∈ r.topologicalSort packages := (mem_topologicalSort p).mpr hed.1
  refine (hset.finishOrder p hp q (edge_sortExpand_iff.mpr hed)).resolve_right fun hqp => ?_
  exact hre (mono (fun _ _ => edge_sortExpand_iff.mp) _ _ hqp)

def cyclicGraph : DependencyResolver where
  available := []
  installed := []
  selected := []
  selected_nodup := nodup_nil
  depGraph := [("a", ["b"]), ("b", ["c"]), ("c", ["b"])]

lemma not_reach_of_cyclicGraph : ¬ ReflTransGen
      (cyclicGraph.EdgeWithin ["a", "b", "c"]) "b" "a" := by
  intro h
  have hcl : ∀ p, ReflTransGen
      (cyclicGraph.EdgeWithin ["a", "b", "c"]) "b" p →
      p = "b" ∨ p = "c" := by
    intro p hp
    induction hp with
    | refl => exact .inl rfl
    | tail _ hed ih =>
      rcases ih with rfl | rfl
      · exact .inr (mem_singleton.mp hed.2.2)
      · exact .inl (mem_singleton.mp hed.2.2)
  have hfls := hcl _ h
  revert hfls
  decide

theorem topologicalSort_spec_of_cycle : Collections.Precedes "b".toList "a".toList
      (cyclicGraph.topologicalSort ["a".toList, "b".toList, "c".toList]) :=
  (topologicalSort_spec cyclicGraph ["a", "b", "c"]).2.2.2 _ _
    ⟨by decide, by decide, mem_singleton.mpr rfl⟩ not_reach_of_cyclicGraph

/-! ### The sort depends on sets only -/

lemma eq_of_pairwise_le_of_mem_iff {l l' : List Text} (hl : l.Pairwise (· ≤ ·))
    (hl' : l'.Pairwise (· ≤ ·)) (hd : l.Nodup) (hd' : l'.Nodup) (h : ∀ p, p ∈ l ↔ p ∈ l') :
    l = l' :=
  List.Perm.eq_of_pairwise (fun _ _ _ _ hab hba => le_antisymm hab hba) hl hl'
    ((perm_ext_iff_of_nodup hd hd').mpr h)

lemma sortedRoots_congr (h : ∀ p, p ∈ ps ↔ p ∈ qs) :
    sortedRoots ps = sortedRoots qs := by
  refine eq_of_pairwise_le_of_mem_iff (pairwise_insertionSort _ _)
    (pairwise_insertionSort _ _) ?_ ?_ fun p => ?_
  · exact (perm_insertionSort _ _).nodup_iff.mpr (nodup_dedup ps)
  · exact (perm_insertionSort _ _).nodup_iff.mpr (nodup_dedup qs)
  · rw [mem_sortedRoots, mem_sortedRoots, h]

lemma sortedDependencies_congr (h : ∀ p, p ∈ ps ↔ p ∈ qs)
    (heds : ∀ p d, d ∈ (r.depGraph.lookup p).getD [] ↔ d ∈ (r'.depGraph.lookup p).getD []) :
    r.sortedDependencies ps = r'.sortedDependencies qs := by
  funext p
  refine eq_of_pairwise_le_of_mem_iff ((pairwise_insertionSort _ _).sublist
    (dedup_sublist _)) ((pairwise_insertionSort _ _).sublist (dedup_sublist _))
    (nodup_dedup _) (nodup_dedup _) fun d => ?_
  simp only [sortedDependencies, mem_dedup, mem_insertionSort, mem_filter, h, heds]

lemma orderLoop_congr (h : r.sortedDependencies ps = r'.sortedDependencies qs) (n : ℕ)
    (s : SortState) : r.orderLoop ps n s = r'.orderLoop qs n s := by
  induction n generalizing s with
  | zero => rfl
  | succ n ih =>
    unfold orderLoop
    simp only [ih, h]

/-- **The order is a function of sets.** The sort depends on the set of packages and on the sets
of their recorded edges, not on the order in which either is enumerated. -/
lemma topologicalSort_congr (h : ∀ p, p ∈ ps ↔ p ∈ qs)
    (heds : ∀ p d, d ∈ (r.depGraph.lookup p).getD [] ↔ d ∈ (r'.depGraph.lookup p).getD []) :
    r.topologicalSort ps = r'.topologicalSort qs := by
  have hdp := sortedDependencies_congr h heds
  have hro : r.orderRoot ps = r'.orderRoot qs := by
    funext acc root
    simp only [orderRoot, orderLoop_congr hdp, orderBound, sortedRoots_congr h, hdp]
  simp only [topologicalSort, sortedRoots_congr h, hro]

/-! ### Recording the edges -/

/-- The edges that recording gives to a package: none unless it is available and all of its
dependencies parse. -/
def recordedEdges (hostArch : Text) (r : DependencyResolver) (name : Text) :
    Option (List Text) :=
  (r.available.lookup name).bind fun package =>
    (r.dependencyEdges hostArch name package.depends).toOption

lemma recordDependencyEdges_spec : ∀ (packages : List Text) (gr : List (Text × List Text)),
    (∀ name ∈ packages, ∀ pkg, r.available.lookup name = some pkg →
      ∃ edges, r.dependencyEdges hostArch name pkg.depends = .ok edges) →
    ∃ gr', r.recordDependencyEdges hostArch packages gr = (.ok (), gr') ∧
      ∀ p, gr'.lookup p = (gr.lookup p).or
        (if p ∈ packages then r.recordedEdges hostArch p else none)
  | [], gr, _ => ⟨gr, rfl, by simp⟩
  | name :: packages, gr, hok => by
    obtain ⟨hn, hok⟩ := forall_mem_cons.mp hok
    unfold recordDependencyEdges
    split_ifs with hrec
    · obtain ⟨gr', hgp', hlk⟩ := recordDependencyEdges_spec packages gr hok
      refine ⟨gr', hgp', fun p => ?_⟩
      rw [hlk p]
      obtain ⟨edges, heds⟩ := Option.isSome_iff_exists.mp hrec
      by_cases hp : p = name
      · simp [hp, heds]
      · simp [hp]
    · rw [Bool.not_eq_true, Option.isSome_eq_false_iff, Option.isNone_iff_eq_none] at hrec
      cases hava : r.available.lookup name with
      | none =>
        obtain ⟨gr', hgp', hlk⟩ := recordDependencyEdges_spec packages gr hok
        refine ⟨gr', hgp', fun p => ?_⟩
        rw [hlk p]
        by_cases hp : p = name
        · simp [hp, recordedEdges, hava]
        · simp [hp]
      | some pkg =>
        obtain ⟨edges, heds⟩ := hn pkg hava
        obtain ⟨gr', hgp', hlk⟩ := recordDependencyEdges_spec packages ((name, edges) :: gr) hok
        simp only [heds]
        refine ⟨gr', hgp', fun p => ?_⟩
        rw [hlk p, lookup_cons]
        by_cases hp : p = name
        · simp [hp, recordedEdges, hava, heds, hrec, Except.toOption]
        · simp [hp, beq_eq_false_iff_ne.mpr hp]

lemma dependencyEdges_isOk {name : Text} {dps : List Text}
    (h : ∀ raw ∈ dps, ∃ dep, parseDependency hostArch raw = .ok dep) :
    ∃ edges, r.dependencyEdges hostArch name dps = .ok edges := by
  unfold dependencyEdges
  generalize [] = edges
  induction dps generalizing edges with
  | nil => exact ⟨edges, rfl⟩
  | cons raw dps ih =>
    obtain ⟨⟨dep, hdep⟩, h⟩ := forall_mem_cons.mp h
    rw [foldlM_cons, parseDependencyOf, hdep]
    exact ih h _

end Omg.Debian.DependencyResolver
