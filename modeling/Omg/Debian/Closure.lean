import Omg.Debian.Resolver

/-!
# What the resolver collects

The walk over the dependency closures collects the packages that are reachable from a selected
package along the dependencies that the installed state does not satisfy. It fails exactly when a
reachable package is broken: missing from the repository, or with a dependency that does not parse
or that nothing satisfies.
-/

namespace Omg.Debian.DependencyResolver

open List Text Relation Except Omg.Graph

variable (hostArch : Text) (r : DependencyResolver)

/-- A dependency of `a` is satisfied by adding the available package `b`. -/
def DependsOn (a b : Text) : Prop :=
  ∃ package, r.available.lookup a = some package ∧ ∃ raw ∈ package.depends, ∃ dep,
    parseDependency hostArch raw = .ok dep ∧ r.dependencyTarget dep = some (.available b)

/-- A package is missing from the repository, or has a dependency that does not parse or that
has no satisfiable alternative. -/
def Broken (a : Text) : Prop :=
  r.available.lookup a = none ∨
  ∃ package, r.available.lookup a = some package ∧ ∃ raw ∈ package.depends,
    (∃ e, parseDependency hostArch raw = .error e) ∨
    ∃ dep, parseDependency hostArch raw = .ok dep ∧ r.dependencyTarget dep = none

def Reachable (a : Text) : Prop := ∃ root ∈ r.selected, ReflTransGen (r.DependsOn hostArch) root a

variable {hostArch r} {name a b : Text} {l : List Text}

/-! ### One package -/

lemma parseDependencyOf_eq_ok (name : Text) {raw : Text} {dep : Dependency} :
    parseDependencyOf hostArch name raw = .ok dep ↔ parseDependency hostArch raw = .ok dep :=
  withContext_eq_ok

lemma pushDependency_eq_ok {raw : Text} {psh psh' : List Text} :
    r.pushDependency hostArch name psh raw = .ok psh' ↔
      ∃ dep, parseDependency hostArch raw = .ok dep ∧
        (r.dependencyTarget dep = some .installed ∧ psh' = psh ∨
          ∃ b, r.dependencyTarget dep = some (.available b) ∧ psh' = b :: psh) := by
  unfold pushDependency
  cases hpr : parseDependencyOf hostArch name raw with
  | error e =>
    have hno : ∀ dep, parseDependency hostArch raw ≠ .ok dep := by
      intro dep h
      rw [← parseDependencyOf_eq_ok name, hpr] at h
      cases h
    simp [hno, bind, Except.bind]
  | ok dep =>
    rw [parseDependencyOf_eq_ok] at hpr
    cases ht : r.dependencyTarget dep with
    | none => simp [hpr, ht, resolveDependencyTarget, bail, withContext, bind, Except.bind]
    | some tgt =>
      cases tgt <;>
        simp [hpr, ht, resolveDependencyTarget, withContext, bind, Except.bind, pure,
          Except.pure, eq_comm]

lemma foldlM_pushDependency_ok : ∀ {raws psh psh' : List Text},
    raws.foldlM (r.pushDependency hostArch name) psh = .ok psh' →
    (∀ raw ∈ raws, ∃ dep, parseDependency hostArch raw = .ok dep ∧ r.dependencyTarget dep ≠ none) ∧
    (∀ b, b ∈ psh' ↔ b ∈ psh ∨ ∃ raw ∈ raws, ∃ dep,
      parseDependency hostArch raw = .ok dep ∧ r.dependencyTarget dep = some (.available b)) ∧
    psh'.length ≤ psh.length + raws.length
  | [], psh, psh', h => by
    obtain rfl : psh = psh' := ok.inj h
    simp
  | raw :: raws, psh, psh', h => by
    rw [foldlM_cons] at h
    cases hpu : r.pushDependency hostArch name psh raw with
    | error e =>
      rw [hpu] at h
      cases h
    | ok pushed₁ =>
      rw [hpu] at h
      change raws.foldlM (r.pushDependency hostArch name) pushed₁ = .ok psh' at h
      obtain ⟨hall, hmem, hlen⟩ := foldlM_pushDependency_ok h
      obtain ⟨dep, hdep, ht⟩ := pushDependency_eq_ok.mp hpu
      refine ⟨?_, ?_, ?_⟩
      · refine forall_mem_cons.mpr ⟨⟨dep, hdep, ?_⟩, hall⟩
        rcases ht with ⟨h₁, -⟩ | ⟨b, h₁, -⟩ <;> simp [h₁]
      · intro b
        simp only [hmem, mem_cons, exists_eq_or_imp, hdep, ok.injEq, exists_eq_left']
        rcases ht with ⟨h₁, rfl⟩ | ⟨c, h₁, rfl⟩
        · simp [h₁]
        · simp only [h₁, mem_cons, Option.some.injEq, DependencyTarget.available.injEq,
            or_assoc, eq_comm (a := b)]
          tauto
      · rcases ht with ⟨-, rfl⟩ | ⟨b, -, rfl⟩ <;> simp only [length_cons] at * <;> omega

lemma foldlM_pushDependency_isOk : ∀ {raws : List Text} (psh : List Text),
    (∀ raw ∈ raws, ∃ dep, parseDependency hostArch raw = .ok dep ∧ r.dependencyTarget dep ≠ none) →
    ∃ psh', raws.foldlM (r.pushDependency hostArch name) psh = .ok psh'
  | [], psh, _ => ⟨psh, rfl⟩
  | raw :: raws, psh, h => by
    obtain ⟨⟨dep, hdep, htar⟩, hr⟩ := forall_mem_cons.mp h
    have hpu : ∃ pushed₁, r.pushDependency hostArch name psh raw = .ok pushed₁ := by
      cases ht : r.dependencyTarget dep with
      | none => exact absurd ht htar
      | some tgt =>
        cases tgt with
        | installed => exact ⟨psh, pushDependency_eq_ok.mpr ⟨dep, hdep, .inl ⟨ht, rfl⟩⟩⟩
        | available b => exact ⟨b :: psh, pushDependency_eq_ok.mpr ⟨dep, hdep, .inr ⟨b, ht, rfl⟩⟩⟩
    obtain ⟨pushed₁, h₁⟩ := hpu
    obtain ⟨psh', h₂⟩ := foldlM_pushDependency_isOk pushed₁ hr
    exact ⟨psh', by rw [foldlM_cons, h₁]; exact h₂⟩

lemma expandPackage_isOk_iff (a : Text) :
    (∃ ds, r.expandPackage hostArch a = .ok ds) ↔ ¬ r.Broken hostArch a := by
  unfold expandPackage Broken
  cases hpkg : r.available.lookup a with
  | none => simp [bail]
  | some pkg =>
    simp only [Option.some.injEq, exists_eq_left', reduceCtorEq, false_or, not_exists, not_and,
      not_or]
    constructor
    · rintro ⟨ds, h⟩ raw hraw
      obtain ⟨dep, hdep, ht⟩ := (foldlM_pushDependency_ok h).1 raw (mem_reverse.mpr hraw)
      refine ⟨fun e he => ?_, fun dep' hdep' => ?_⟩
      · rw [hdep] at he
        cases he
      · obtain rfl : dep = dep' := ok.inj (hdep.symm.trans hdep')
        exact ht
    · intro h
      refine foldlM_pushDependency_isOk [] fun raw hraw => ?_
      obtain ⟨herr, hok⟩ := h raw (mem_reverse.mp hraw)
      cases hdep : parseDependency hostArch raw with
      | error e => exact absurd hdep (herr e)
      | ok dep => exact ⟨dep, rfl, hok dep hdep⟩

lemma expandPackage_ok_spec {ds : List Text} (h : r.expandPackage hostArch a = .ok ds) :
    a ∈ r.available.map Prod.fst ∧ ds.length ≤ (r.dependsOf a).length ∧
      ∀ b, b ∈ ds ↔ r.DependsOn hostArch a b := by
  unfold expandPackage at h
  cases hpkg : r.available.lookup a with
  | none =>
    rw [hpkg] at h
    cases h
  | some pkg =>
    rw [hpkg] at h
    obtain ⟨-, hmem, hlen⟩ := foldlM_pushDependency_ok h
    refine ⟨?_, ?_, fun b => ?_⟩
    · obtain ⟨l₁, l₂, hl, -⟩ := lookup_eq_some_iff.mp hpkg
      simp [hl]
    · simpa [dependsOf, hpkg] using hlen
    · rw [hmem]
      simp [DependsOn, hpkg]

/-! ### Reachability along dependencies and along the walk -/

lemma dependsOn_of_edge (h : Graph.Edge (r.expandPackage hostArch) a b) :
    r.DependsOn hostArch a b := by
  obtain ⟨ds, hds, hb⟩ := h
  exact ((expandPackage_ok_spec hds).2.2 b).mp hb

lemma edge_of_dependsOn (ha : ¬ r.Broken hostArch a) (h : r.DependsOn hostArch a b) :
    Graph.Edge (r.expandPackage hostArch) a b := by
  obtain ⟨ds, hds⟩ := (expandPackage_isOk_iff a).mpr ha
  exact ⟨ds, hds, ((expandPackage_ok_spec hds).2.2 b).mpr h⟩

lemma reach_of_reflTransGen
    (hg : ∀ c, Graph.Reach (r.expandPackage hostArch) a c → ¬ r.Broken hostArch c)
    (h : ReflTransGen (r.DependsOn hostArch) a b) : Graph.Reach (r.expandPackage hostArch) a b := by
  induction h with
  | refl => exact ReflTransGen.refl
  | tail _ hdep ih => exact ih.tail (edge_of_dependsOn (hg _ ih) hdep)

lemma reflTransGen_of_reach (h : Graph.Reach (r.expandPackage hostArch) a b) :
    ReflTransGen (r.DependsOn hostArch) a b :=
  ReflTransGen.mono (fun _ _ => dependsOn_of_edge) _ _ h

/-- The walk from `a` meets no broken package exactly when the dependencies do not. -/
lemma reach_expands_iff (a : Text) : (∀ c, Graph.Reach (r.expandPackage hostArch) a c →
      ∃ ds, r.expandPackage hostArch c = .ok ds) ↔
    ∀ c, ReflTransGen (r.DependsOn hostArch) a c → ¬ r.Broken hostArch c := by
  simp only [expandPackage_isOk_iff]
  constructor
  · intro h c hc
    exact h c (reach_of_reflTransGen h hc)
  · intro h c hc
    exact h c (reflTransGen_of_reach hc)

/-! ### The collected packages -/

lemma run_expandPackage_stack (root : Text) (vis fin : List Text) (t : Graph.Traversal Text)
    (h : run (r.expandPackage hostArch) r.walkBound (start root vis fin) = .ok t) : t.stack = [] :=
  run_start_stack_eq_nil
    (fun _ _ hds => ⟨(expandPackage_ok_spec hds).1, (expandPackage_ok_spec hds).2.1⟩) h le_rfl

lemma resolveClosure_isOk_iff (a : Text) : (∃ clo, r.resolveClosure hostArch a = .ok clo) ↔
      ∀ c, ReflTransGen (r.DependsOn hostArch) a c → ¬ r.Broken hostArch c := by
  rw [← reach_expands_iff, ← run_isOk_iff [] (run_expandPackage_stack a [] []) closed_nil]
  unfold resolveClosure resolvePackage
  cases run (r.expandPackage hostArch) r.walkBound (start a [] []) <;> simp

lemma mem_resolveClosure {clo : List Text} (h : r.resolveClosure hostArch a = .ok clo)
    (b : Text) : b ∈ clo ↔ ReflTransGen (r.DependsOn hostArch) a b := by
  have hg := (reach_expands_iff a).mpr ((resolveClosure_isOk_iff a).mp ⟨clo, h⟩)
  unfold resolveClosure resolvePackage at h
  cases ht : run (r.expandPackage hostArch) r.walkBound (start a [] []) with
  | error e =>
    rw [ht] at h
    cases h
  | ok t =>
    rw [ht] at h
    obtain rfl : t.finished = clo := ok.inj h
    have hnil := run_expandPackage_stack _ _ _ _ ht
    obtain ⟨new, hnew, -, hvi, -, -⟩ := run_ok_spec ht hnil
    have hre := (run_ok_closed ht hnil closed_nil).2 b
    rw [nil_append] at hnew
    simp only [hvi, not_mem_nil, false_or, not_false_eq_true, true_and] at hre
    rw [hnew, hre]
    exact ⟨reflTransGen_of_reach,
      reach_of_reflTransGen fun c hc => (expandPackage_isOk_iff c).mp (hg c hc)⟩

lemma mem_mergeClosure (b : Text) : ∀ (clo toInstall : List Text),
    b ∈ mergeClosure toInstall clo ↔ b ∈ toInstall ∨ b ∈ clo
  | [], toInstall => by simp [mergeClosure]
  | c :: clo, toInstall => by
    have ih := mem_mergeClosure b clo
    unfold mergeClosure at ih ⊢
    rw [foldl_cons, ih]
    split_ifs with hc
    · simp only [mem_cons]
      constructor
      · exact fun h => h.imp_right .inr
      · rintro (h | rfl | h)
        · exact .inl h
        · exact .inl hc
        · exact .inr h
    · simp only [mem_append, mem_cons, or_assoc]
      tauto

lemma mergeClosures_isOk_iff : ∀ (ress : List (Result (List Text)))
    (toInstall : List Text), (∃ l, mergeClosures ress toInstall = .ok l) ↔
      ∀ res ∈ ress, ∃ clo, res = .ok clo
  | [], toInstall => by simp [mergeClosures]
  | .error e :: ress, toInstall => by simp [mergeClosures]
  | .ok clo :: ress, toInstall => by
    simpa [mergeClosures] using mergeClosures_isOk_iff ress (mergeClosure toInstall clo)

lemma mem_mergeClosures (b : Text) : ∀ (ress : List (Result (List Text)))
    {toInstall l : List Text}, mergeClosures ress toInstall = .ok l →
      (b ∈ l ↔ b ∈ toInstall ∨ ∃ clo, .ok clo ∈ ress ∧ b ∈ clo)
  | [], toInstall, l, h => by
    obtain rfl : toInstall = l := ok.inj h
    simp
  | .error e :: ress, toInstall, l, h => by cases h
  | .ok clo :: ress, toInstall, l, h => by
    rw [mem_mergeClosures b ress h, mem_mergeClosure]
    simp only [mem_cons, ok.injEq, or_and_right, exists_or, exists_eq_left, or_assoc]

/-- **When the independent walks succeed.** -/
lemma collectParallel_isOk_iff : (∃ l, r.collectParallel hostArch = .ok l) ↔
      ∀ a, r.Reachable hostArch a → ¬ r.Broken hostArch a := by
  unfold collectParallel
  rw [mergeClosures_isOk_iff]
  simp only [forall_mem_map, resolveClosure_isOk_iff]
  exact ⟨fun h a ⟨root, hro, ha⟩ => h root hro a ha, fun h root hro a ha => h a ⟨root, hro, ha⟩⟩

lemma mem_collectParallel (h : r.collectParallel hostArch = .ok l) (b : Text) :
    b ∈ l ↔ r.Reachable hostArch b := by
  rw [mem_mergeClosures b _ h]
  simp only [not_mem_nil, false_or, mem_map]
  constructor
  · rintro ⟨clo, ⟨root, hro, hclo⟩, hb⟩
    exact ⟨root, hro, (mem_resolveClosure hclo b).mp hb⟩
  · rintro ⟨root, hro, hb⟩
    have hg := collectParallel_isOk_iff.mp ⟨l, h⟩
    obtain ⟨clo, hclo⟩ : ∃ clo, r.resolveClosure hostArch root = .ok clo :=
      (resolveClosure_isOk_iff root).mpr fun c hc => hg c ⟨root, hro, hc⟩
    exact ⟨clo, ⟨root, hro, hclo⟩, (mem_resolveClosure hclo b).mpr hb⟩

/-- **When the walks with shared visited packages succeed.** -/
lemma collectSequential_isOk_iff : (∃ l, r.collectSequential hostArch = .ok l) ↔
      ∀ a, r.Reachable hostArch a → ¬ r.Broken hostArch a := by
  have hiff : (∃ l, runAll (r.expandPackage hostArch) r.walkBound r.selected [] [] = .ok l) ↔
      ∀ root ∈ r.selected, ∀ a, Graph.Reach (r.expandPackage hostArch) root a →
        ∃ ds, r.expandPackage hostArch a = .ok ds :=
    runAll_isOk_iff run_expandPackage_stack [] closed_nil
  have hseq : (∃ l, r.collectSequential hostArch = .ok l) ↔
      ∃ l, runAll (r.expandPackage hostArch) r.walkBound r.selected [] [] = .ok l := by
    unfold collectSequential
    cases runAll (r.expandPackage hostArch) r.walkBound r.selected [] [] <;> simp
  simp only [hseq, hiff, reach_expands_iff]
  exact ⟨fun h a ⟨root, hro, ha⟩ => h root hro a ha, fun h root hro a ha => h a ⟨root, hro, ha⟩⟩

lemma mem_collectSequential (h : r.collectSequential hostArch = .ok l) (b : Text) :
    b ∈ l ↔ r.Reachable hostArch b := by
  have hg := collectSequential_isOk_iff.mp ⟨l, h⟩
  unfold collectSequential at h
  split at h
  · cases h
  · next vis toInstall hrun =>
    obtain rfl : toInstall = l := ok.inj h
    rw [mem_runAll_finished run_expandPackage_stack hrun]
    refine exists_congr fun root => and_congr_right fun hro => ?_
    exact ⟨reflTransGen_of_reach, reach_of_reflTransGen fun c hc =>
      hg c ⟨root, hro, reflTransGen_of_reach hc⟩⟩

/-- **When the collection succeeds.** It fails exactly when a package reachable from a selected
one is broken. -/
lemma collect_isOk_iff :
    (∃ l, r.collect hostArch = .ok l) ↔ ∀ a, r.Reachable hostArch a → ¬ r.Broken hostArch a := by
  unfold collect
  split_ifs
  · exact collectParallel_isOk_iff
  · exact collectSequential_isOk_iff

lemma mem_collect (h : r.collect hostArch = .ok l) (b : Text) : b ∈ l ↔ r.Reachable hostArch b := by
  unfold collect at h
  split_ifs at h
  · exact mem_collectParallel h b
  · exact mem_collectSequential h b

end Omg.Debian.DependencyResolver
