import Omg.Aur.ParallelBuildSafety
import Omg.Graph.Kahn

/-!
# The number of a wave

The waves of a build are found for every list of jobs, unless a base depends on itself in some
steps.

A later job of a base takes the place of an earlier one, as in the map that `build_dependency_graph`
fills. The builder refuses such lists of jobs before.

Source: `src/package_managers/aur/parallel_build.rs`.
-/

namespace Omg.Aur

open Omg.Graph Text List

variable {graph : List (Text × List Text)} {debugTexts : List Text → Text}

def DependsOn (jobs : List BuildJob) (package dependency : Text) : Prop :=
  (∃ job, findJob jobs.reverse package = some job ∧ dependency ∈ job.dependencies) ∧
    dependency ∈ jobs.map BuildJob.package

structure Represents (graph : List (Text × List Text)) (R : Text → Text → Prop) : Prop where
  ready_iff : ∀ satisfied p, p ∈ graph.map Prod.fst →
    (isReady graph satisfied p = true ↔ ∀ q, R p q → q ∈ satisfied)
  mem_keys : ∀ p q, R p q → p ∈ graph.map Prod.fst ∧ q ∈ graph.map Prod.fst

/-- The waves that are found so far hold the bases with chains of less than `n` steps. -/
structure WavesBefore (graph : List (Text × List Text)) (R : Text → Text → Prop) (n : ℕ)
    (remaining satisfied : List Text) : Prop where
  mem_satisfied : ∀ p, p ∈ satisfied ↔ p ∈ graph.map Prod.fst ∧ ShorterThan R n p
  mem_remaining : ∀ p, p ∈ remaining ↔ p ∈ graph.map Prod.fst ∧ ¬ShorterThan R n p

section

variable {R : Text → Text → Prop} {n rounds : ℕ} {remaining satisfied : List Text}

section

variable (hR : Represents graph R) (h : WavesBefore graph R n remaining satisfied)

include hR h

lemma Represents.ready_iff_shorterThan {p : Text} (hp : p ∈ graph.map Prod.fst) :
    isReady graph satisfied p ↔ ShorterThan R (n + 1) p := by
  rw [hR.ready_iff satisfied p hp, shorterThan_succ_iff]
  refine forall_congr' fun q => imp_congr_right fun hpq => ?_
  rw [h.mem_satisfied, and_iff_right (hR.mem_keys p q hpq).2]

lemma Represents.mem_currentLevel_iff {p : Text} :
    p ∈ currentLevel graph remaining satisfied ↔
      p ∈ graph.map Prod.fst ∧ ShorterThan R (n + 1) p ∧ ¬ShorterThan R n p := by
  rw [mem_currentLevel, h.mem_remaining]
  constructor
  · rintro ⟨⟨hp, hn⟩, hrdy⟩
    exact ⟨hp, (hR.ready_iff_shorterThan h hp).mp hrdy, hn⟩
  · rintro ⟨hp, hsh, hn⟩
    exact ⟨⟨hp, hn⟩, (hR.ready_iff_shorterThan h hp).mpr hsh⟩

lemma WavesBefore.next :
    WavesBefore graph R (n + 1) (remaining.filter (· ∉ currentLevel graph remaining satisfied))
      (satisfied ++ currentLevel graph remaining satisfied) where
  mem_satisfied p := by
    rw [mem_append, h.mem_satisfied, hR.mem_currentLevel_iff h]
    tauto
  mem_remaining p := by
    rw [mem_filter, h.mem_remaining, decide_eq_true_eq, hR.mem_currentLevel_iff h]
    have hsc : ShorterThan R n p → ShorterThan R (n + 1) p := ShorterThan.succ
    tauto

end

lemma length_filter_currentLevel_lt (hlv : currentLevel graph remaining satisfied ≠ []) :
    (remaining.filter (· ∉ currentLevel graph remaining satisfied)).length < remaining.length := by
  obtain ⟨p, hp⟩ := exists_mem_of_ne_nil _ hlv
  exact length_filter_lt_length_iff_exists.mpr ⟨p, (mem_currentLevel.mp hp).1, by simpa using hp⟩

lemma levelsFrom_eq_of_le {rds' : ℕ} (h : remaining.length ≤ rounds) (hle : rounds ≤ rds') :
    levelsFrom graph debugTexts rds' remaining satisfied =
      levelsFrom graph debugTexts rounds remaining satisfied := by
  induction rounds generalizing rds' remaining satisfied with
  | zero =>
    obtain rfl := length_eq_zero_iff.mp (Nat.le_zero.mp h)
    cases rds' <;> rfl
  | succ rounds ih =>
    obtain ⟨rds', rfl⟩ := Nat.exists_eq_add_of_lt hle
    simp only [levelsFrom]
    split_ifs with hrem hlv
    · rfl
    · rfl
    · have hlt := length_filter_currentLevel_lt hlv
      rw [ih (by omega) (by omega)]

lemma levelsFrom_heights (hR : Represents graph R) {lvs : List (List Text)}
    (hinv : WavesBefore graph R n remaining satisfied)
    (h : levelsFrom graph debugTexts rounds remaining satisfied = .ok lvs) :
    ∀ i lv, lvs[i]? = some lv → lv ≠ [] ∧ lv.Pairwise (· ≤ ·) ∧
      ∀ p ∈ lv, IsGreatest (chainLengths R p) (n + i) := by
  induction rounds generalizing n remaining satisfied lvs with
  | zero =>
    cases h
    simp
  | succ rounds ih =>
    unfold levelsFrom at h
    split_ifs at h with hrem hlv
    · cases h
      simp
    · cases h
    · obtain ⟨ltr, hla, h⟩ := Control.bind_eq_ok.mp h
      cases h
      rintro (_ | i) lv hi
      · obtain rfl := Option.some.inj hi
        refine ⟨hlv, pairwise_insertionSort _ _, fun p hp => ?_⟩
        obtain ⟨-, hsh, hn⟩ := (hR.mem_currentLevel_iff hinv).mp hp
        exact isGreatest_chainLengths hsh hn
      · rw [show n + (i + 1) = n + 1 + i by omega]
        exact ih (hinv.next hR) hla i lv hi

lemma exists_cycle_of_levelsFrom (hR : Represents graph R) {e : AnyhowError}
    (hinv : WavesBefore graph R n remaining satisfied)
    (h : levelsFrom graph debugTexts rounds remaining satisfied = .error e) :
    ∃ p, Relation.TransGen R p p := by
  induction rounds generalizing n remaining satisfied e with
  | zero => cases h
  | succ rounds ih =>
    unfold levelsFrom at h
    split_ifs at h with hrem hlv
    · by_contra hacy
      obtain ⟨p, hp, hno⟩ := exists_no_successor (finite_toSet remaining)
        (exists_mem_of_ne_nil _ hrem) (fun a ha => hacy ⟨a, ha⟩)
      obtain ⟨hkey, -⟩ := (hinv.mem_remaining p).mp hp
      have hrdy : isReady graph satisfied p = true := by
        refine (hR.ready_iff satisfied p hkey).mpr fun q hpq => ?_
        have hq : q ∉ remaining := fun hq => hno q hq hpq
        have hqk := (hR.mem_keys p q hpq).2
        rw [hinv.mem_remaining, not_and_not_right] at hq
        exact (hinv.mem_satisfied q).mpr ⟨hqk, hq hqk⟩
      exact not_mem_nil (hlv ▸ mem_currentLevel.mpr ⟨hp, hrdy⟩)
    · cases hla : levelsFrom graph debugTexts rounds
        (remaining.filter (· ∉ currentLevel graph remaining satisfied))
        (satisfied ++ currentLevel graph remaining satisfied) with
      | error e' => exact ih (hinv.next hR) hla
      | ok ltr =>
        dsimp only at h
        rw [hla] at h
        cases h

end

lemma represents_buildDependencyGraph (jobs : List BuildJob) :
    Represents (buildDependencyGraph jobs) (DependsOn jobs) := by
  have hlk : ∀ p, (buildDependencyGraph jobs).lookup p = (findJob jobs.reverse p).map
      fun job => job.dependencies.filter (· ∈ jobs.map BuildJob.package) := by
    intro p
    rw [buildDependencyGraph, (foldl_insertEntry _).2.2, ← map_reverse, findJob]
    induction jobs.reverse with
    | nil => rfl
    | cons job rest ih =>
      rw [map_cons, lookup_cons, find?_cons]
      by_cases hp : job.package = p
      · simp [hp]
      · rw [beq_false_of_ne (Ne.symm hp), decide_eq_false hp]
        exact ih
  constructor
  · intro satisfied p hp
    rw [isReady, hlk]
    constructor
    · rintro hall q ⟨⟨job, hjob, hq⟩, hmem⟩
      rw [hjob] at hall
      have hfil : q ∈ job.dependencies.filter (· ∈ jobs.map BuildJob.package) :=
        mem_filter.mpr ⟨hq, by simpa using hmem⟩
      simpa using all_eq_true.mp hall q hfil
    · intro hall
      cases hjob : findJob jobs.reverse p with
      | none => rfl
      | some job =>
        refine all_eq_true.mpr fun q hq => ?_
        obtain ⟨hq, hmem⟩ := mem_filter.mp hq
        exact decide_eq_true (hall q ⟨⟨job, hjob, hq⟩, of_decide_eq_true hmem⟩)
  · rintro p q ⟨⟨job, hjob, -⟩, hq⟩
    obtain ⟨hmem, rfl⟩ := findJob_eq_some hjob
    exact ⟨mem_buildDependencyGraph.mpr (mem_map_of_mem (mem_reverse.mp hmem)),
      mem_buildDependencyGraph.mpr hq⟩

/-- **Waves by longest chains.** For every list of jobs the loop ends. It fails exactly if some base
depends on itself in one or more steps. Otherwise the waves have every base once, none of them is
empty, they are sorted, and the number of the wave of a base is the length of its longest chain of
dependencies. -/
theorem topologicalLevels_spec (debugTexts : List Text → Text) (jobs : List BuildJob) :
    (∀ rounds ≥ (buildDependencyGraph jobs).length,
      levelsFrom (buildDependencyGraph jobs) debugTexts rounds
        ((buildDependencyGraph jobs).map Prod.fst) [] =
          topologicalLevels debugTexts (buildDependencyGraph jobs)) ∧
    ((∃ e, topologicalLevels debugTexts (buildDependencyGraph jobs) = .error e) ↔
      ∃ p, Relation.TransGen (DependsOn jobs) p p) ∧
    ∀ levels, topologicalLevels debugTexts (buildDependencyGraph jobs) = .ok levels →
      levels.flatten.Nodup ∧ (∀ p, p ∈ levels.flatten ↔ p ∈ jobs.map BuildJob.package) ∧
      ∀ i level, levels[i]? = some level → level ≠ [] ∧ level.Pairwise (· ≤ ·) ∧
        ∀ p ∈ level, IsGreatest (chainLengths (DependsOn jobs) p) i := by
  have hR := represents_buildDependencyGraph jobs
  have hst : WavesBefore (buildDependencyGraph jobs) (DependsOn jobs) 0
      ((buildDependencyGraph jobs).map Prod.fst) [] :=
    ⟨fun p => by simp [not_shorterThan_zero], fun p => by simp [not_shorterThan_zero]⟩
  have hpe : ∀ levels, topologicalLevels debugTexts (buildDependencyGraph jobs) = .ok levels →
      levels.flatten.Perm ((buildDependencyGraph jobs).map Prod.fst) := fun levels h =>
    (levelsFrom_spec (by simp) h).1
  have hhei : ∀ levels, topologicalLevels debugTexts (buildDependencyGraph jobs) = .ok levels →
      ∀ i level, levels[i]? = some level → level ≠ [] ∧ level.Pairwise (· ≤ ·) ∧
        ∀ p ∈ level, IsGreatest (chainLengths (DependsOn jobs) p) i := fun levels h i level hi => by
    simpa using levelsFrom_heights hR hst h i level hi
  refine ⟨fun rounds hrnd => levelsFrom_eq_of_le (by simp) hrnd, ⟨?_, ?_⟩, ?_⟩
  · rintro ⟨e, he⟩
    exact exists_cycle_of_levelsFrom hR hst he
  · rintro ⟨p, hcy⟩
    cases hlvs : topologicalLevels debugTexts (buildDependencyGraph jobs) with
    | error e => exact ⟨e, rfl⟩
    | ok levels =>
      obtain ⟨q, hpq, -⟩ := Relation.TransGen.head'_iff.mp hcy
      have hp : p ∈ levels.flatten := (hpe levels hlvs).mem_iff.mpr (hR.mem_keys p q hpq).1
      obtain ⟨level, hlv, hp⟩ := mem_flatten.mp hp
      obtain ⟨i, hi⟩ := mem_iff_getElem?.mp hlv
      have hgre := (hhei levels hlvs i level hi).2.2 p hp
      have hsh : ShorterThan (DependsOn jobs) (i + 1) p := fun k hk =>
        Nat.lt_succ_of_le (hgre.2 hk)
      exact absurd hcy hsh.not_transGen_self
  · intro levels hlvs
    have hp := hpe levels hlvs
    refine ⟨hp.nodup_iff.mpr (nodup_buildDependencyGraph jobs), fun p => ?_, hhei levels hlvs⟩
    rw [hp.mem_iff, mem_buildDependencyGraph]

end Omg.Aur
