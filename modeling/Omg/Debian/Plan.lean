import Omg.Control.Except
import Omg.Debian.Closure
import Omg.Debian.Order

/-!
# What a plan leaves installed

A plan is judged by the state it leaves behind: the installed versions, overwritten with the
available versions of the packages that it installs or upgrades. The resolver judges it by another
state, in which every package of the closure has its available version, also a package that stays at
a newer installed version. The two states give the same verdict unless a dependency group rests on
such a package alone.

Source: `src/package_managers/debian_db/resolver.rs`.
-/

namespace Omg.Debian.DependencyResolver

open List Except

open Control (forM_eq_ok_iff exists_error_iff)

variable (hostArch : Text) (r : DependencyResolver)

/-! ### The state after the plan -/

def plannedNames (res : ResolutionResult) : List Text := res.toInstall ++ res.toUpgrade.map Prod.fst

def leftBehind (res : ResolutionResult) : List (Text × Text) := r.projected (plannedNames res)

/-- The package is available and each of its dependency groups parses and has a candidate that
`versions` satisfies. -/
def GroupsMet (versions : Text → Option Text) (name : Text) : Prop :=
  ∃ package, r.available.lookup name = some package ∧ ∀ raw ∈ package.depends, ∃ dep,
    parseDependency hostArch raw = .ok dep ∧
      ∃ candidate ∈ dep.candidates, candidate.metBy versions = true

/-- After the plan, the dependencies of the selected packages and of the packages in the plan are
satisfied. -/
def PlanSatisfies (res : ResolutionResult) : Prop :=
  ∀ name, name ∈ r.selected ∨ name ∈ plannedNames res →
    r.GroupsMet hostArch ((r.leftBehind res).lookup ·) name

open Classical in
/-- The versions that the resolver checks against: the available version of every package of the
closure, and the installed version of every other package. -/
noncomputable def closureVersions (name : Text) : Option Text :=
  if r.Reachable hostArch name then
    ((r.available.lookup name).map DebianPackage.version).or (r.installed.lookup name)
  else r.installed.lookup name

/-- A package of the closure that is installed in a version newer than the available one, so that
the plan leaves it alone. -/
def KeptNewer (name : Text) : Prop :=
  r.Reachable hostArch name ∧ ∃ version package, r.installed.lookup name = some version ∧
    r.available.lookup name = some package ∧ compareDebVersions version package.version = .gt

/-- A dependency group that the checked versions satisfy only through packages that the plan keeps
at a newer version, while no kept version satisfies it. -/
def Masked (dep : Dependency) : Prop :=
  (∀ candidate ∈ dep.candidates, candidate.metBy (r.closureVersions hostArch) = true →
    r.KeptNewer hostArch candidate.name) ∧
  ∀ candidate ∈ dep.candidates, r.KeptNewer hostArch candidate.name →
    candidate.metBy (r.installed.lookup ·) = false

def Outdated (name : Text) : Prop :=
  ∃ package, r.available.lookup name = some package ∧
    ∀ version, r.installed.lookup name = some version →
      compareDebVersions version package.version = .lt

/-- A package whose dependencies the plan has to satisfy: a selected package, or an outdated
package of the closure. -/
def Required (name : Text) : Prop := name ∈ r.selected ∨ r.Reachable hostArch name ∧ r.Outdated name

def withSelected (selected : List Text) (h : r.selected.Perm selected) : DependencyResolver :=
  { r with selected := selected, selected_nodup := h.nodup_iff.mp r.selected_nodup }

def isMissing (name : Text) : Bool :=
  (r.available.lookup name).isSome && (r.installed.lookup name).isNone

def upgradeOf (name : Text) : Option (Text × Text × Text) :=
  match r.available.lookup name, r.installed.lookup name with
  | some package, some old =>
    if compareDebVersions old package.version = .lt then some (name, old, package.version) else none
  | _, _ => none

variable {hostArch r}

/-! ### The phases of `resolve` -/

lemma lookup_foldl_projected (p : Text) : ∀ (ps : List Text) (vers : List (Text × Text)),
    (ps.foldl (fun vers name => match r.available.lookup name with
      | some pkg => (name, pkg.version) :: vers
      | none => vers) vers).lookup p =
    if p ∈ ps then ((r.available.lookup p).map DebianPackage.version).or (vers.lookup p)
    else vers.lookup p
  | [], vers => rfl
  | name :: ps, vers => by
    rw [foldl_cons, lookup_foldl_projected p ps]
    by_cases hp : p = name
    · subst hp
      cases r.available.lookup p <;> simp
    · have hne : (p == name) = false := beq_eq_false_iff_ne.mpr hp
      cases r.available.lookup name <;> simp [hp, hne, lookup_cons]

lemma lookup_projected (ps : List Text) (p : Text) : (r.projected ps).lookup p =
      if p ∈ ps then ((r.available.lookup p).map DebianPackage.version).or (r.installed.lookup p)
      else r.installed.lookup p :=
  lookup_foldl_projected p ps r.installed

lemma checkProjected_eq_ok {vers : List (Text × Text)} {name raw : Text} :
    checkProjected hostArch vers name raw = .ok () ↔ ∃ dep, parseDependency hostArch raw = .ok dep ∧
        ∃ cand ∈ dep.candidates, cand.metBy (vers.lookup ·) = true := by
  unfold checkProjected
  cases hpr : parseDependencyOf hostArch name raw with
  | error e =>
    have hnot : ∀ dep, parseDependency hostArch raw ≠ .ok dep := fun dep hdep => by
      rw [(parseDependencyOf_eq_ok name).mpr hdep] at hpr
      cases hpr
    simp [bind, Except.bind, hnot]
  | ok dep =>
    rw [parseDependencyOf_eq_ok] at hpr
    simp [bind, Except.bind, hpr]

lemma validateProjectedDependencies_eq_ok {ps : List Text}
    (hava : ∀ p ∈ ps, ∃ pkg, r.available.lookup p = some pkg) :
    r.validateProjectedDependencies hostArch ps = .ok () ↔
      ∀ p ∈ ps, r.GroupsMet hostArch ((r.projected ps).lookup ·) p := by
  unfold validateProjectedDependencies
  rw [forM_eq_forM, forM_eq_ok_iff]
  refine forall₂_congr fun p hp => ?_
  obtain ⟨pkg, hpk⟩ := hava p hp
  simp [GroupsMet, hpk, forM_eq_ok_iff, checkProjected_eq_ok]

lemma foldl_planPackage (srt : List Text) (plan : ResolutionResult) :
    (srt.foldl r.planPackage plan).toInstall = plan.toInstall ++ srt.filter r.isMissing ∧
    (srt.foldl r.planPackage plan).toUpgrade = plan.toUpgrade ++ srt.filterMap r.upgradeOf ∧
    (srt.foldl r.planPackage plan).toRemove = plan.toRemove := by
  induction srt generalizing plan with
  | nil => simp
  | cons name srt ih =>
    rw [foldl_cons, (ih _).1, (ih _).2.1, (ih _).2.2]
    cases hav : r.available.lookup name <;> cases hins : r.installed.lookup name <;>
      simp [planPackage, isMissing, upgradeOf, hav, hins]
    split_ifs with hlt <;> simp [upgradeOf, hav, hins, hlt]

lemma mem_planOf (srt : List Text) (p : Text) :
    p ∈ plannedNames (r.planOf srt) ↔ p ∈ srt ∧ r.Outdated p := by
  obtain ⟨hin, hup, -⟩ := foldl_planPackage (r := r) srt ⟨[], [], [], 0, 0⟩
  simp only [plannedNames, planOf, hin, hup, nil_append, mem_append, mem_filter, mem_map,
    mem_filterMap]
  cases hav : r.available.lookup p <;> cases hins : r.installed.lookup p <;>
    grind [Outdated, isMissing, upgradeOf]

lemma exists_package_of_not_broken {p : Text} (h : ¬ r.Broken hostArch p) :
    ∃ pkg, r.available.lookup p = some pkg ∧ ∀ raw ∈ pkg.depends,
      ∃ dep, parseDependency hostArch raw = .ok dep := by
  unfold Broken at h
  push Not at h
  obtain ⟨pkg, hpk⟩ := Option.ne_none_iff_exists'.mp h.1
  refine ⟨pkg, hpk, fun raw hraw => ?_⟩
  cases hpr : parseDependency hostArch raw with
  | error e => exact absurd hpr ((h.2 pkg hpk raw hraw).1 e)
  | ok dep => exact ⟨dep, rfl⟩

def planOrder (hostArch : Text) (r : DependencyResolver) (l : List Text) : List Text :=
  topologicalSort { r with depGraph := (r.recordDependencyEdges hostArch l r.depGraph).2 } l

lemma mem_planOrder {l : List Text} (p : Text) : p ∈ r.planOrder hostArch l ↔ p ∈ l :=
  mem_topologicalSort p

lemma nodup_planOrder (l : List Text) : (r.planOrder hostArch l).Nodup := by
  obtain ⟨_, hrun⟩ := foldl_orderRoot_simulates (sortedRoots l)
    (fun p => (mem_sortedRoots p).mp) [] [] [] (by simp)
  exact (Graph.runAll_settled run_sortExpand_stack hrun Graph.settled_nil).nodup

section

variable {l l' : List Text} (hgood : ∀ p ∈ l, ¬ r.Broken hostArch p)

include hgood

lemma recordDependencyEdges_of_good :
    ∃ gr, r.recordDependencyEdges hostArch l r.depGraph = (.ok (), gr) ∧
      ∀ p, gr.lookup p = (r.depGraph.lookup p).or
        (if p ∈ l then r.recordedEdges hostArch p else none) := by
  refine recordDependencyEdges_spec l r.depGraph fun p hp pkg hpk => ?_
  obtain ⟨pkg', hpk', hpr⟩ := exists_package_of_not_broken (hgood p hp)
  obtain rfl : pkg = pkg' := Option.some.inj (hpk.symm.trans hpk')
  exact dependencyEdges_isOk hpr

lemma resolveCollected_of_good : (r.resolveCollected hostArch (.ok l)).1 =
      match r.validateProjectedDependencies hostArch (r.planOrder hostArch l) with
      | .error e => .error e
      | .ok () => .ok (r.planOf (r.planOrder hostArch l)) := by
  obtain ⟨gr, hgp, -⟩ := recordDependencyEdges_of_good hgood
  simp only [resolveCollected, planOrder, hgp]
  generalize topologicalSort { r with depGraph := gr } l = srt
  have hche : validateProjectedDependencies hostArch { r with depGraph := gr } srt =
      r.validateProjectedDependencies hostArch srt := rfl
  rw [hche]
  cases r.validateProjectedDependencies hostArch srt <;> rfl

lemma planOrder_congr (h : ∀ p, p ∈ l ↔ p ∈ l') :
    r.planOrder hostArch l = r.planOrder hostArch l' := by
  obtain ⟨gr, hgp, hlk⟩ := recordDependencyEdges_of_good hgood
  obtain ⟨gr', hgp', hlk'⟩ := recordDependencyEdges_of_good fun p hp => hgood p ((h p).mpr hp)
  unfold planOrder
  rw [hgp, hgp']
  refine topologicalSort_congr h fun p d => ?_
  simp only [hlk, hlk', h]

lemma resolveCollected_congr (h : ∀ p, p ∈ l ↔ p ∈ l') :
    (r.resolveCollected hostArch (.ok l)).1 = (r.resolveCollected hostArch (.ok l')).1 := by
  rw [resolveCollected_of_good hgood,
    resolveCollected_of_good fun p hp => hgood p ((h p).mpr hp), planOrder_congr hgood h]

end

lemma closureVersions_eq_projected {l : List Text} (h : ∀ p, p ∈ l ↔ r.Reachable hostArch p) :
    (fun p => (r.projected l).lookup p) = r.closureVersions hostArch := by
  classical
  funext p
  rw [lookup_projected]
  exact if_congr (h p) rfl rfl

lemma reachable_of_mem_selected {p : Text} (h : p ∈ r.selected) : r.Reachable hostArch p :=
  ⟨p, h, Relation.ReflTransGen.refl⟩

lemma resolveCollected_eq_ok {l : List Text} {res : ResolutionResult}
    (h : ∀ p, p ∈ l ↔ r.Reachable hostArch p)
    (hgood : ∀ p, r.Reachable hostArch p → ¬ r.Broken hostArch p) :
    (r.resolveCollected hostArch (.ok l)).1 = .ok res ↔
      (∀ p, r.Reachable hostArch p → r.GroupsMet hostArch (r.closureVersions hostArch) p) ∧
        res = r.planOf (r.planOrder hostArch l) := by
  have hmem : ∀ p, p ∈ r.planOrder hostArch l ↔ r.Reachable hostArch p := fun p =>
    (mem_planOrder p).trans (h p)
  have hava : ∀ p ∈ r.planOrder hostArch l, ∃ pkg, r.available.lookup p = some pkg := by
    intro p hp
    obtain ⟨pkg, hpk, -⟩ := exists_package_of_not_broken (hgood p ((hmem p).mp hp))
    exact ⟨pkg, hpk⟩
  have hche : r.validateProjectedDependencies hostArch (r.planOrder hostArch l) = .ok () ↔
      ∀ p, r.Reachable hostArch p → r.GroupsMet hostArch (r.closureVersions hostArch) p := by
    rw [validateProjectedDependencies_eq_ok hava, closureVersions_eq_projected hmem]
    simp only [hmem]
  rw [resolveCollected_of_good fun p hp => hgood p ((h p).mp hp), ← hche]
  cases r.validateProjectedDependencies hostArch (r.planOrder hostArch l) with
  | error e => simp
  | ok _ => simp [eq_comm]

/-- **Success and result of a resolution.** -/
lemma resolve_eq_ok_iff {res : ResolutionResult} : (r.resolve hostArch).1 = .ok res ↔
      (∀ p, r.Reachable hostArch p → ¬ r.Broken hostArch p) ∧
      (∀ p, r.Reachable hostArch p → r.GroupsMet hostArch (r.closureVersions hostArch) p) ∧
      ∃ l, r.collect hostArch = .ok l ∧ res = r.planOf (r.planOrder hostArch l) := by
  unfold resolve
  cases hco : r.collect hostArch with
  | error e => simp [resolveCollected]
  | ok l =>
    have hgood := collect_isOk_iff.mp ⟨l, hco⟩
    rw [resolveCollected_eq_ok (mem_collect hco) hgood]
    simp only [ok.injEq, exists_eq_left']
    exact (and_iff_right hgood).symm

/-! ### Dependencies after the plan -/

section

variable {res : ResolutionResult} (h : (r.resolve hostArch).1 = .ok res)

include h

lemma mem_plannedNames_of_ok (p : Text) :
    p ∈ plannedNames res ↔ r.Reachable hostArch p ∧ r.Outdated p := by
  obtain ⟨-, -, l, hl, rfl⟩ := resolve_eq_ok_iff.mp h
  rw [mem_planOf, mem_planOrder, mem_collect hl]

lemma metBy_leftBehind (c : Dependency) : c.metBy ((r.leftBehind res).lookup ·) = true ↔
      c.metBy (r.closureVersions hostArch) = true ∧ ¬ r.KeptNewer hostArch c.name ∨
        r.KeptNewer hostArch c.name ∧ c.metBy (r.installed.lookup ·) = true := by
  classical
  unfold Dependency.metBy leftBehind closureVersions
  simp only [lookup_projected, mem_plannedNames_of_ok h]
  by_cases hre : r.Reachable hostArch c.name
  · obtain ⟨hgood, -, -⟩ := resolve_eq_ok_iff.mp h
    obtain ⟨pkg, hpk, -⟩ := exists_package_of_not_broken (hgood c.name hre)
    cases hins : r.installed.lookup c.name with
    | none => simp [Outdated, KeptNewer, hpk, hins]
    | some ver =>
      cases hcmp : compareDebVersions ver pkg.version with
      | lt => simp [Outdated, KeptNewer, hpk, hins, hcmp]
      | eq =>
        -- The versions differ at most in their spelling, so the constraint cannot tell them apart.
        have hsm := c.accepts_congr hcmp
        simp [hre, Outdated, KeptNewer, hpk, hins, hcmp, hsm]
      | gt => simp [hre, Outdated, KeptNewer, hpk, hins, hcmp]
  · simp [hre, KeptNewer]

lemma exists_metBy_leftBehind_iff (dep : Dependency) :
    (∃ c ∈ dep.candidates, c.metBy ((r.leftBehind res).lookup ·) = true) ↔
      ¬ r.Masked hostArch dep := by
  simp only [metBy_leftBehind h]
  constructor
  · rintro ⟨c, hc, ⟨hmet, hk⟩ | ⟨hk, hmet⟩⟩ ⟨hlf, hri⟩
    · exact hk (hlf c hc hmet)
    · rw [hri c hc hk] at hmet
      exact Bool.false_ne_true hmet
  · intro hmas
    by_contra hno
    push Not at hno
    refine hmas ⟨fun c hc hmet => ?_, fun c hc hk => ?_⟩
    · by_contra hk
      exact hk ((hno c hc).1 hmet)
    · exact Bool.eq_false_iff.mpr ((hno c hc).2 hk)

lemma required_iff (p : Text) : r.Required hostArch p ↔ p ∈ r.selected ∨ p ∈ plannedNames res := by
  rw [Required, mem_plannedNames_of_ok h]

/-- **Dependencies after a plan.** A successful resolution leaves the dependencies of the selected
packages and of the packages of its plan satisfied exactly when none of their groups is masked. -/
theorem resolve_planSatisfies_iff : r.PlanSatisfies hostArch res ↔
      ∀ name package raw dep, r.Required hostArch name → r.available.lookup name = some package →
        raw ∈ package.depends → parseDependency hostArch raw = .ok dep →
          ¬ r.Masked hostArch dep := by
  obtain ⟨hgood, -, -⟩ := resolve_eq_ok_iff.mp h
  unfold PlanSatisfies
  simp only [← required_iff h]
  constructor
  · intro hsat name package raw dep hn hpk hraw hdep
    obtain ⟨pkg', hpk', hmet⟩ := hsat name hn
    obtain rfl : package = pkg' := Option.some.inj (hpk.symm.trans hpk')
    obtain ⟨dep', hdep', hcan⟩ := hmet raw hraw
    obtain rfl : dep = dep' := ok.inj (hdep.symm.trans hdep')
    exact (exists_metBy_leftBehind_iff h dep).mp hcan
  · intro hmas name hn
    have hre : r.Reachable hostArch name := hn.elim reachable_of_mem_selected And.left
    obtain ⟨package, hpk, hpr⟩ := exists_package_of_not_broken (hgood name hre)
    refine ⟨package, hpk, fun raw hraw => ?_⟩
    obtain ⟨dep, hdep⟩ := hpr raw hraw
    exact ⟨dep, hdep, (exists_metBy_leftBehind_iff h dep).mpr
      (hmas name package raw dep hn hpk hraw hdep)⟩

/-- **The plan.** Of the packages of the closure, each of them once, those are installed that are
not, and those upgraded that are older than the available ones. Nothing is removed. -/
theorem resolve_plan : ∃ order : List Text, order.Nodup ∧
      (∀ name, name ∈ order ↔ r.Reachable hostArch name) ∧
      res.toInstall = order.filter (fun name => (r.installed.lookup name).isNone) ∧
      res.toUpgrade = order.filterMap r.upgradeOf ∧ res.toRemove = [] := by
  obtain ⟨hgood, -, l, hl, rfl⟩ := resolve_eq_ok_iff.mp h
  obtain ⟨hin, hup, hrem⟩ := foldl_planPackage (r := r) (r.planOrder hostArch l) ⟨[], [], [], 0, 0⟩
  have hmem : ∀ p, p ∈ r.planOrder hostArch l ↔ r.Reachable hostArch p := fun p => by
    rw [mem_planOrder, mem_collect hl]
  refine ⟨_, nodup_planOrder l, hmem, hin.trans (filter_congr fun p hp => ?_), hup, hrem⟩
  obtain ⟨pkg, hpk, -⟩ := exists_package_of_not_broken (hgood p ((hmem p).mp hp))
  simp [isMissing, hpk]

end

/-- A resolver with `lib` installed at 3.0, while the repository offers `lib` 2.0 and an `app` that
depends on a `lib` before 3. -/
def keptLibrary : DependencyResolver where
  available := [("lib", ⟨"lib", "2.0", [], 10, 20⟩),
    ("app", ⟨"app", "1.0", ["lib (<< 3)"], 10, 20⟩)]
  installed := [("lib", "3.0")]
  selected := ["app"]
  selected_nodup := nodup_singleton _
  depGraph := []

/-- The plan installs `app` and leaves `lib` at 3.0. -/
lemma resolve_keptLibrary : (keptLibrary.resolve "amd64").1 = .ok ⟨["app"], [], [], 10, 20⟩ := by
  decide +kernel

theorem resolve_planSatisfies_iff_keptLibrary :
    (keptLibrary.PlanSatisfies "amd64".toList ⟨["app".toList], [], [], 10, 20⟩ ↔
      ∀ name package raw dep, keptLibrary.Required "amd64".toList name →
        keptLibrary.available.lookup name = some package →
        raw ∈ package.depends → parseDependency "amd64".toList raw = .ok dep →
          ¬ keptLibrary.Masked "amd64".toList dep) :=
  resolve_planSatisfies_iff resolve_keptLibrary

theorem resolve_plan_keptLibrary : ∃ order : List Text, order.Nodup ∧
    ["app".toList] = order.filter (fun name => (keptLibrary.installed.lookup name).isNone) :=
  (resolve_plan resolve_keptLibrary).imp fun _ h => ⟨h.1, h.2.2.1⟩

/-- A successful resolution can leave a selected package with a dependency that is not met. -/
theorem exists_plan_not_satisfying : ∃ (r : DependencyResolver) (res : ResolutionResult),
      (r.resolve "amd64".toList).1 = .ok res ∧ ¬ r.PlanSatisfies "amd64".toList res := by
  refine ⟨keptLibrary, _, resolve_keptLibrary, fun hsat => ?_⟩
  obtain ⟨pkg, hpk, hmet⟩ := hsat "app" (.inl (mem_singleton.mpr rfl))
  obtain rfl : (⟨"app", "1.0", ["lib (<< 3)"], 10, 20⟩ : DebianPackage) =
    pkg := Option.some.inj hpk
  obtain ⟨dep, hdep, c, hc, hcm⟩ := hmet _ (mem_singleton.mpr rfl)
  obtain rfl : (⟨"lib", some ⟨.lt, "3"⟩, []⟩ : Dependency) = dep := ok.inj hdep
  obtain rfl := mem_singleton.mp hc
  exact absurd hcm (by decide +kernel)

/-! ### The order of the selected packages -/

def SameOutcome (x y : Result ResolutionResult) : Prop :=
  (∃ e e', x = .error e ∧ y = .error e') ∨ ∃ res, x = .ok res ∧ y = .ok res

lemma sameOutcome_resolveCollected {c c' : Result (List Text)}
    (hok : (∃ l, c = .ok l) ↔ ∃ l, c' = .ok l)
    (hmem : ∀ l l', c = .ok l → c' = .ok l' → ∀ p, p ∈ l ↔ p ∈ l')
    (hgood : ∀ l, c = .ok l → ∀ p ∈ l, ¬ r.Broken hostArch p) :
    SameOutcome (r.resolveCollected hostArch c).1 (r.resolveCollected hostArch c').1 := by
  cases c with
  | error e =>
    cases c' with
    | error e' => exact .inl ⟨e, e', rfl, rfl⟩
    | ok l' => simpa using hok.mpr ⟨l', rfl⟩
  | ok l =>
    obtain ⟨l', rfl⟩ := hok.mp ⟨l, rfl⟩
    rw [← resolveCollected_congr (hgood l rfl) (hmem l l' rfl rfl)]
    cases (r.resolveCollected hostArch (.ok l)).1 with
    | error e => exact .inl ⟨e, e, rfl, rfl⟩
    | ok res => exact .inr ⟨res, rfl, rfl⟩

section

variable {selected : List Text} (h : r.selected.Perm selected)

lemma reachable_withSelected (p : Text) :
    (r.withSelected selected h).Reachable hostArch p ↔ r.Reachable hostArch p :=
  exists_congr fun _ => and_congr_left' h.mem_iff.symm

lemma recordDependencyEdges_withSelected (l : List Text) (gr : List (Text × List Text)) :
    (r.withSelected selected h).recordDependencyEdges hostArch l gr =
      r.recordDependencyEdges hostArch l gr := by
  induction l generalizing gr with
  | nil => rfl
  | cons name l ih =>
    unfold recordDependencyEdges
    simp only [ih]
    rfl

lemma planOrder_withSelected (l : List Text) :
    (r.withSelected selected h).planOrder hostArch l = r.planOrder hostArch l := by
  unfold planOrder
  rw [recordDependencyEdges_withSelected]
  exact topologicalSort_congr (fun _ => Iff.rfl) fun _ _ => Iff.rfl

lemma resolveCollected_withSelected {l : List Text} (hgood : ∀ p ∈ l, ¬ r.Broken hostArch p) :
    ((r.withSelected selected h).resolveCollected hostArch (.ok l)).1 =
      (r.resolveCollected hostArch (.ok l)).1 := by
  rw [resolveCollected_of_good hgood, ← planOrder_withSelected h]
  exact resolveCollected_of_good hgood

lemma resolve_withSelected : ((r.withSelected selected h).resolve hostArch).1 =
      (r.resolveCollected hostArch ((r.withSelected selected h).collect hostArch)).1 := by
  unfold resolve
  cases hco : (r.withSelected selected h).collect hostArch with
  | error e => rfl
  | ok l =>
    refine resolveCollected_withSelected h fun p hp => ?_
    exact collect_isOk_iff.mp ⟨l, hco⟩ p ((mem_collect hco p).mp hp)

end

lemma resolve_isOk_iff : (∃ res, (r.resolve hostArch).1 = .ok res) ↔ ∀ p, r.Reachable hostArch p →
      ¬ r.Broken hostArch p ∧ r.GroupsMet hostArch (r.closureVersions hostArch) p := by
  simp only [resolve_eq_ok_iff]
  constructor
  · rintro ⟨res, hgood, hmet, -⟩ p hp
    exact ⟨hgood p hp, hmet p hp⟩
  · intro h
    have hgood : ∀ p, r.Reachable hostArch p → ¬ r.Broken hostArch p := fun p hp => (h p hp).1
    obtain ⟨l, hl⟩ := collect_isOk_iff.mpr hgood
    exact ⟨_, hgood, fun p hp => (h p hp).2, l, hl, rfl⟩

/-- **The plan is a function of the set of selected packages.** For any two orders in which the
selected packages are enumerated the resolution fails twice or returns one plan; closures that are
walked independently and merged lead to the outcome of one walk with shared visited packages.
Collecting the closure fails exactly when a reachable package is broken, and the resolution
fails exactly when a reachable package is broken or has a dependency that the versions of the
closure do not satisfy. -/
theorem resolve_order_irrelevant (hostArch : Text) (r : DependencyResolver) (selected : List Text)
    (h : r.selected.Perm selected) :
    SameOutcome (r.resolve hostArch).1 ((r.withSelected selected h).resolve hostArch).1 ∧
    SameOutcome (r.resolveCollected hostArch (r.collectParallel hostArch)).1
      (r.resolveCollected hostArch (r.collectSequential hostArch)).1 ∧
    ((∃ e, r.collectParallel hostArch = .error e) ↔
      ∃ p, r.Reachable hostArch p ∧ r.Broken hostArch p) ∧
    ((∃ e, (r.resolve hostArch).1 = .error e) ↔ ∃ p, r.Reachable hostArch p ∧
      (r.Broken hostArch p ∨ ¬ r.GroupsMet hostArch (r.closureVersions hostArch) p)) := by
  refine ⟨?_, ?_, ?_, ?_⟩
  · rw [resolve_withSelected]
    refine sameOutcome_resolveCollected ?_ (fun l l' hl hl' p => ?_) fun l hl p hp => ?_
    · rw [collect_isOk_iff, collect_isOk_iff]
      exact forall_congr' fun p => imp_congr (reachable_withSelected h p).symm Iff.rfl
    · rw [mem_collect hl, mem_collect hl', reachable_withSelected]
    · exact collect_isOk_iff.mp ⟨l, hl⟩ p ((mem_collect hl p).mp hp)
  · refine sameOutcome_resolveCollected ?_ (fun l l' hl hl' p => ?_) fun l hl p hp => ?_
    · rw [collectParallel_isOk_iff, collectSequential_isOk_iff]
    · rw [mem_collectParallel hl, mem_collectSequential hl']
    · exact collectParallel_isOk_iff.mp ⟨l, hl⟩ p ((mem_collectParallel hl p).mp hp)
  · rw [exists_error_iff, collectParallel_isOk_iff]
    push Not
    rfl
  · rw [exists_error_iff, resolve_isOk_iff]
    simp only [not_forall, not_and_or, not_not, exists_prop]

/-- A resolver that upgrades `shared` for one selected package although the other one needs the
installed version. -/
def brokenUpgrade : DependencyResolver where
  available := [("shared", ⟨"shared", "3.0", [], 10, 20⟩),
    ("needs-new", ⟨"needs-new", "1.0", ["shared (>= 2.0)"], 10, 20⟩),
    ("needs-old", ⟨"needs-old", "1.0", ["shared (<< 2.0)"], 10, 20⟩)]
  installed := [("shared", "1.0")]
  selected := ["needs-new", "needs-old"]
  selected_nodup := by decide
  depGraph := []

theorem resolve_order_irrelevant_brokenUpgrade :
    SameOutcome (brokenUpgrade.resolve "amd64".toList).1
      ((brokenUpgrade.withSelected ["needs-old".toList, "needs-new".toList]
        (.swap _ _ _)).resolve "amd64".toList).1 :=
  (resolve_order_irrelevant "amd64" brokenUpgrade _ _).1

/-- The resolution can fail although no package that is reachable is broken. -/
theorem exists_failure_without_broken : ∃ r : DependencyResolver, 1 < r.selected.length ∧
      (∃ e, (r.resolve "amd64".toList).1 = .error e) ∧
      ∀ p, r.Reachable "amd64".toList p → ¬ r.Broken "amd64".toList p := by
  exact ⟨brokenUpgrade, by decide, ⟨_, rfl⟩, collectParallel_isOk_iff.mp ⟨_, rfl⟩⟩

end Omg.Debian.DependencyResolver
