import Mathlib.Data.Char
import Mathlib.Data.List.Lex
import Omg.Collections.SortedMap
import Omg.Control.Except
import Omg.Graph.Worklist
import Omg.Text.Basic

/-!
# The outputs and dependencies of a build of split packages

A base of packages builds several outputs. The outputs that are asked for are completed with the
outputs of the same base that they depend on at run time.

The reader of `.SRCINFO`, the reader of dependencies and the comparison of versions are parameters.
The loop is modelled with a number of rounds, and indexing a map with a key that it does not have is
a failure of its own, so that both are seen not to happen.

Source: `src/package_managers/aur_deps.rs` and `src/package_managers/aur/utils.rs`.
-/

namespace Omg.Aur

open Collections Control Omg.Graph Text List Except Worklist SortedMap

/-- The elements of a `BTreeSet`, in their order. -/
def inOrder (s : Finset Text) : List Text :=
  Quot.liftOn s.1 (fun l => l.insertionSort (· ≤ ·)) fun _ _ h =>
    (((perm_insertionSort _ _).trans h).trans
      (perm_insertionSort _ _).symm).eq_of_pairwise
        (fun _ _ _ _ hab hba => le_antisymm hab hba)
        (pairwise_insertionSort _ _) (pairwise_insertionSort _ _)

lemma coe_inOrder (s : Finset Text) : (inOrder s : Multiset Text) = s.1 := by
  obtain ⟨⟨l⟩, hl⟩ := s
  exact Multiset.coe_eq_coe.mpr (perm_insertionSort _ l)

@[simp] lemma mem_inOrder {s : Finset Text} {a : Text} : a ∈ inOrder s ↔ a ∈ s := by
  rw [← Multiset.mem_coe, coe_inOrder, Finset.mem_val]

@[simp] lemma length_inOrder (s : Finset Text) : (inOrder s).length = s.card := by
  rw [← Multiset.coe_card, coe_inOrder, Finset.card_val]

/-! ### Source information -/

inductive SystemArchitecture
  | x86_64
  | aarch64
  | arm
  | i686
deriving DecidableEq

/-- `architecture_for_rust_target`. -/
def architectureForRustTarget (target : Text) : Option SystemArchitecture :=
  if target = "x86_64" then some .x86_64
  else if target = "aarch64" then some .aarch64
  else if target = "arm" then some .arm
  else if target = "x86" then some .i686
  else none

structure OutputPackage where
  name : Text
  version : Text
  dependencies : List Text
  makeDependencies : List Text
  checkDependencies : List Text
deriving DecidableEq

/-- `SourceInfoV1`: the names of the outputs, and the outputs that an architecture has. -/
structure SourceInfo where
  packages : List Text
  packagesForArchitecture : SystemArchitecture → List OutputPackage
  name_mem : ∀ arch, ∀ p ∈ packagesForArchitecture arch, p.name ∈ packages

/-- `alpm::DepMod`. -/
inductive DepMod
  | any
  | eq
  | ge
  | le
  | gt
  | lt
deriving DecidableEq

/-- The parts of `libalpm` that are used. -/
structure Alpm where
  /-- `alpm::Depend::new(..).version()`. -/
  dependVersion : Text → Option Text
  /-- `alpm::Depend::new(..).depmod()`. -/
  depmod : Text → DepMod
  vercmp : Text → Text → Ordering

/-- `dependency_name`. -/
def dependencyName (dependency : Text) : Text :=
  dependency.takeWhile fun c => c ∉ ['>', '<', '=']

inductive PlanFailure
  | panicked
  | refused (error : AnyhowError)
deriving DecidableEq

def refuse {α : Type} (message : Text) : Except PlanFailure α := .error (.refused [message])

lemma refuse_ne_panicked {α : Type} (msg : Text) :
    (refuse msg : Except PlanFailure α) ≠ .error .panicked := by
  intro h
  cases h

lemma refuse_ne_ok {α : Type} (msg : Text) {a : α} : refuse msg ≠ .ok a := by
  intro h
  cases h

namespace Alpm

variable (x : Alpm) (info : SourceInfo) (packages : SortedMap Text OutputPackage)

/-- `output_version_satisfies`. -/
def outputVersionSatisfies (dependency candidate : Text) : Bool :=
  match x.dependVersion dependency with
  | none => true
  | some required =>
    let comparison := x.vercmp candidate required
    match x.depmod dependency with
    | .any => true
    | .eq => comparison.isEq
    | .ge => !comparison.isLT
    | .le => !comparison.isGT
    | .gt => comparison.isGT
    | .lt => comparison.isLT

/-! ### The plan -/

def requireDependency (output : Text) (w : Worklist Text) (dependency : Text) :
    Except PlanFailure (Worklist Text) :=
  let name := dependencyName dependency
  match packages.get name with
  | some sibling =>
    if x.outputVersionSatisfies dependency sibling.version then .ok (w.add name)
    else refuse ("Same-base runtime dependency '" ++ dependency ++
      "' cannot be satisfied by output '" ++ name ++ "' at version " ++
      sibling.version ++ "; correct the recipe's dependency or output version")
  | none =>
    if name ∈ info.packages then
      refuse ("Same-base runtime output '" ++ name ++ "' required by '" ++ output ++
        "' is unavailable for the host architecture")
    else .ok w

def closeOutputs : ℕ → Worklist Text → Option (Except PlanFailure (Finset Text))
  | 0, _ => none
  | n + 1, w =>
    match w.pending with
    | [] => some (.ok w.seen)
    | output :: rest =>
      match packages.get output with
      | none => some (.error .panicked)
      | some package =>
        match package.dependencies.foldlM (x.requireDependency info packages output)
            ⟨w.seen, rest⟩ with
        | .error e => some (.error e)
        | .ok w' => closeOutputs n w'

def outputDependencies (allOutputs : Finset Text) (output : Text) :
    Except PlanFailure (List Text) :=
  match packages.get output with
  | none => .error .panicked
  | some package => .ok
      ((package.dependencies.filter fun dependency => dependencyName dependency ∉ allOutputs) ++
        package.makeDependencies ++ package.checkDependencies)

def hostOutputs (arch : SystemArchitecture) : SortedMap Text OutputPackage :=
  .ofList ((info.packagesForArchitecture arch).map fun package => (package.name, package))

def firstOutputs (requested : List Text) : Finset Text :=
  if requested = [] then packages.keys.toFinset else requested.toFinset

/-- `dependency_plan`: the external dependencies and the selected outputs. -/
def dependencyPlan (target : Text) (requested : List Text) :
    Option (Except PlanFailure (List Text × List Text)) :=
  match architectureForRustTarget target with
  | none => some (refuse
      "Unsupported host architecture for AUR dependency resolution")
  | some arch =>
    let packages := hostOutputs info arch
    let allOutputs := packages.keys.toFinset
    let selected := firstOutputs packages requested
    match (inOrder selected).find? fun output => output ∉ allOutputs with
    | some output =>
      some (refuse ("Requested output '" ++ output ++ "' is absent from .SRCINFO"))
    | none =>
      (x.closeOutputs info packages (allOutputs.card + 1)
        ⟨selected, (inOrder selected).reverse⟩).map fun closed => do
          let selected ← closed
          let dependencies ← (inOrder selected).mapM (outputDependencies packages allOutputs)
          pure ((dependencies.flatten.insertionSort (· ≤ ·)).dedup, inOrder selected)

/-! ### The loop closes a set -/

def siblingOf (output dependency : Text) : Except PlanFailure (List Text) :=
  (x.requireDependency info packages output ⟨∅, []⟩ dependency).map Worklist.pending

def siblings (output : Text) : Except PlanFailure (List Text) :=
  match packages.get output with
  | none => .error .panicked
  | some package =>
    (package.dependencies.mapM (x.siblingOf info packages output)).map List.flatten

variable {x info packages}

lemma requireDependency_eq (out dep : Text) (w : Worklist Text) :
    x.requireDependency info packages out w dep = (x.siblingOf info packages out dep).map fun ns =>
        ns.foldl add w := by
  simp only [siblingOf, requireDependency]
  cases packages.get (dependencyName dep) with
  | none =>
    by_cases hn : dependencyName dep ∈ info.packages
    · simp only [if_pos hn]
      rfl
    · simp only [if_neg hn]
      rfl
  | some sib =>
    by_cases hver : x.outputVersionSatisfies dep sib.version = true
    · simp only [if_pos hver]
      rfl
    · simp only [if_neg hver]
      rfl

lemma foldlM_requireDependency (out : Text) (deps : List Text) (w : Worklist Text) :
    deps.foldlM (x.requireDependency info packages out) w =
      (deps.mapM (x.siblingOf info packages out)).map fun ns => ns.flatten.foldl add w := by
  induction deps generalizing w with
  | nil => rfl
  | cons dep deps ih =>
    rw [foldlM_cons, mapM_cons, requireDependency_eq]
    cases x.siblingOf info packages out dep with
    | error e => rfl
    | ok ns =>
      simp only [Except.map, bind, Except.bind]
      rw [ih]
      cases deps.mapM (x.siblingOf info packages out) with
      | error e => rfl
      | ok rest => simp [Except.map, pure, Except.pure]

lemma closeOutputs_eq_run (n : ℕ) (w : Worklist Text) :
    x.closeOutputs info packages n w = w.run (x.siblings info packages) n := by
  induction n generalizing w with
  | zero => rfl
  | succ n ih =>
    unfold closeOutputs Worklist.run
    cases w.pending with
    | nil => rfl
    | cons out rest =>
      simp only [siblings]
      cases packages.get out with
      | none => rfl
      | some pkg =>
        simp only [foldlM_requireDependency]
        cases pkg.dependencies.mapM (x.siblingOf info packages out) with
        | error e => rfl
        | ok ns => exact ih _

/-! ### Dependencies inside the base -/

lemma siblingOf_ok {out dep : Text} {ns : List Text}
    (h : x.siblingOf info packages out dep = .ok ns) :
    (∃ sib, packages.get (dependencyName dep) = some sib ∧
        x.outputVersionSatisfies dep sib.version ∧ ns = [dependencyName dep]) ∨
      packages.get (dependencyName dep) = none ∧ dependencyName dep ∉ info.packages ∧ ns = [] := by
  simp only [siblingOf, requireDependency] at h
  cases hget : packages.get (dependencyName dep) with
  | none =>
    simp only [hget] at h
    by_cases hn : dependencyName dep ∈ info.packages
    · simp only [if_pos hn] at h
      cases h
    · simp only [if_neg hn] at h
      cases h
      exact .inr ⟨rfl, hn, rfl⟩
  | some sib =>
    simp only [hget] at h
    by_cases hver : x.outputVersionSatisfies dep sib.version = true
    · simp only [if_pos hver] at h
      cases h
      exact .inl ⟨sib, rfl, hver, rfl⟩
    · simp only [if_neg hver] at h
      cases h

lemma siblings_ok {out : Text} {ns : List Text} (h : x.siblings info packages out = .ok ns) :
    ∃ pkg, packages.get out = some pkg ∧
      (∀ dep ∈ pkg.dependencies, (∃ sib, packages.get (dependencyName dep) = some sib ∧
          x.outputVersionSatisfies dep sib.version ∧ dependencyName dep ∈ ns) ∨
        packages.get (dependencyName dep) = none ∧ dependencyName dep ∉ info.packages) ∧
      ∀ name ∈ ns, ∃ dep ∈ pkg.dependencies, dependencyName dep = name ∧
        ∃ sib, packages.get name = some sib := by
  unfold siblings at h
  cases hget : packages.get out with
  | none => simp [hget] at h
  | some pkg =>
    rw [hget] at h
    obtain ⟨lists, hlss, rfl⟩ := map_eq_ok.mp h
    refine ⟨pkg, rfl, fun dep hdep => ?_, fun name hn => ?_⟩
    · obtain ⟨fd, hfo, hsib⟩ := exists_of_mapM hlss dep hdep
      rcases siblingOf_ok hsib with ⟨sib, hget, hver, rfl⟩ | ⟨hget, hout, -⟩
      · exact .inl ⟨sib, hget, hver, mem_flatten.mpr ⟨_, hfo, mem_singleton_self _⟩⟩
      · exact .inr ⟨hget, hout⟩
    · obtain ⟨fd, hfo, hmem⟩ := mem_flatten.mp hn
      obtain ⟨dep, hdep, hsib⟩ := forall_of_mapM hlss (fun _ _ _ hb => hb) fd hfo
      rcases siblingOf_ok hsib with ⟨sib, hget, -, rfl⟩ | ⟨-, -, rfl⟩
      · obtain rfl := mem_singleton.mp hmem
        exact ⟨dep, hdep, rfl, sib, hget⟩
      · cases hmem

lemma mem_keys {name : Text} : name ∈ packages.keys ↔ ∃ pkg, packages.get name = some pkg := by
  rw [SortedMap.keys, mem_map]
  constructor
  · rintro ⟨⟨_, pkg⟩, hmem, rfl⟩
    exact ⟨pkg, mem_iff_get.mp hmem⟩
  · rintro ⟨pkg, hget⟩
    exact ⟨(name, pkg), mem_iff_get.mpr hget, rfl⟩

lemma mem_packages_of_get {arch : SystemArchitecture} {name : Text} {pkg : OutputPackage}
    (h : (hostOutputs info arch).get name = some pkg) : name ∈ info.packages := by
  have hmem := (ofList_subperm _).subset (mem_iff_get.mpr h)
  obtain ⟨p, hp, heq⟩ := mem_map.mp hmem
  obtain ⟨rfl, -⟩ := Prod.mk.inj heq
  exact info.name_mem arch p hp

/-! ### What a plan is -/

/-- The selected outputs are the least ones that hold the first outputs and the outputs of the base
that they depend on. Dependencies on outputs of the base are met. The reported dependencies are
sorted, and are the other ones of the selected outputs. -/
structure Plans (x : Alpm) (info : SourceInfo) (packages : SortedMap Text OutputPackage)
    (requested external selected : List Text) : Prop where
  least : IsLeast {outputs : Set Text | (∀ output ∈ firstOutputs packages requested,
      output ∈ outputs) ∧
      ∀ output ∈ outputs, ∀ package, packages.get output = some package →
        ∀ dependency ∈ package.dependencies, dependencyName dependency ∈ info.packages →
          dependencyName dependency ∈ outputs}
    {output | output ∈ selected}
  available : ∀ output ∈ selected, ∃ package, packages.get output = some package
  satisfied : ∀ output ∈ selected, ∀ package, packages.get output = some package →
    ∀ dependency ∈ package.dependencies, dependencyName dependency ∈ info.packages →
      ∃ sibling, packages.get (dependencyName dependency) = some sibling ∧
        x.outputVersionSatisfies dependency sibling.version = true
  sorted : external.Pairwise (· < ·)
  mem_external : ∀ dependency, dependency ∈ external ↔
    ∃ output ∈ selected, ∃ package, packages.get output = some package ∧
      (dependency ∈ package.dependencies ∧ dependencyName dependency ∉ info.packages ∨
        dependency ∈ package.makeDependencies ∨ dependency ∈ package.checkDependencies)

lemma exists_of_mapM_error {α β ε : Type} {f : α → Except ε β} {l : List α} {e : ε}
    (h : l.mapM f = .error e) : ∃ a ∈ l, f a = .error e := by
  induction l with
  | nil => cases h
  | cons a l ih =>
    rw [mapM_cons] at h
    cases ha : f a with
    | error e' =>
      rw [ha] at h
      cases h
      exact ⟨a, mem_cons_self, ha⟩
    | ok b =>
      rw [ha] at h
      cases hl : l.mapM f with
      | error e' =>
        obtain ⟨a', ha', hf⟩ := ih (by rw [hl]; rw [hl] at h; cases h; rfl)
        exact ⟨a', mem_cons_of_mem a ha', hf⟩
      | ok rest =>
        rw [hl] at h
        cases h

lemma siblingOf_ne_panicked (out dep : Text) :
    x.siblingOf info packages out dep ≠ .error .panicked := by
  intro h
  simp only [siblingOf, requireDependency] at h
  cases hget : packages.get (dependencyName dep) with
  | none =>
    simp only [hget] at h
    split_ifs at h <;> cases h
  | some sib =>
    simp only [hget] at h
    split_ifs at h <;> cases h

lemma siblings_ne_panicked {out : Text} (h : out ∈ packages.keys) :
    x.siblings info packages out ≠ .error .panicked := by
  obtain ⟨pkg, hget⟩ := mem_keys.mp h
  intro hpnk
  simp only [siblings, hget] at hpnk
  cases hlss : pkg.dependencies.mapM (x.siblingOf info packages out) with
  | ok lists =>
    rw [hlss] at hpnk
    cases hpnk
  | error e =>
    rw [hlss] at hpnk
    cases hpnk
    obtain ⟨dep, -, hfa⟩ := exists_of_mapM_error hlss
    exact siblingOf_ne_panicked out dep hfa

lemma succClosed_keys :
    SuccClosed (x.siblings info packages) (packages.keys.toFinset : Set Text) := by
  intro out _ ns hns name hn
  obtain ⟨_, -, -, hfo⟩ := siblings_ok hns
  obtain ⟨_, -, -, hget⟩ := hfo name hn
  simpa using mem_keys.mpr hget

lemma invariant_first (first : Finset Text) :
    Worklist.Invariant (x.siblings info packages) ⟨first, (inOrder first).reverse⟩ where
  pending output h := by simpa using h
  closed output h hnot := absurd (by simpa using h) hnot

lemma mem_reported {allOutputs : Finset Text} {sel : List Text} {lists : List (List Text)}
    (h : sel.mapM (outputDependencies packages allOutputs) = .ok lists) {dep : Text} :
    dep ∈ (lists.flatten.insertionSort (· ≤ ·)).dedup ↔
      ∃ out ∈ sel, ∃ pkg, packages.get out = some pkg ∧
        (dep ∈ pkg.dependencies ∧ dependencyName dep ∉ allOutputs ∨
          dep ∈ pkg.makeDependencies ∨ dep ∈ pkg.checkDependencies) := by
  have hout : ∀ out fd, outputDependencies packages allOutputs out = .ok fd →
      ∃ pkg, packages.get out = some pkg ∧ (dep ∈ fd ↔
        dep ∈ pkg.dependencies ∧ dependencyName dep ∉ allOutputs ∨
          dep ∈ pkg.makeDependencies ∨ dep ∈ pkg.checkDependencies) := by
    intro out fd hfo
    unfold outputDependencies at hfo
    cases hget : packages.get out with
    | none =>
      rw [hget] at hfo
      cases hfo
    | some pkg =>
      rw [hget] at hfo
      cases hfo
      refine ⟨pkg, rfl, ?_⟩
      simp only [mem_append, mem_filter, decide_eq_true_eq, or_assoc]
  rw [mem_dedup, mem_insertionSort, mem_flatten]
  constructor
  · rintro ⟨fd, hfo, hmem⟩
    obtain ⟨out, hmem', hok⟩ := forall_of_mapM h (fun _ _ _ hb => hb) fd hfo
    obtain ⟨pkg, hget, hiff⟩ := hout out fd hok
    exact ⟨out, hmem', pkg, hget, hiff.mp hmem⟩
  · rintro ⟨out, hmem, pkg, hget, hcas⟩
    obtain ⟨fd, hfo, hok⟩ := exists_of_mapM h out hmem
    obtain ⟨pkg', hget', hiff⟩ := hout out fd hok
    obtain rfl : pkg' = pkg := Option.some.inj (hget'.symm.trans hget)
    exact ⟨fd, hfo, hiff.mpr hcas⟩

lemma plans_of_run {arch : SystemArchitecture} {rqd : List Text} {n : ℕ}
    {sel : Finset Text} {lists : List (List Text)}
    (hrun : run (x.siblings info (hostOutputs info arch)) n
      ⟨firstOutputs (hostOutputs info arch) rqd,
        (inOrder (firstOutputs (hostOutputs info arch) rqd)).reverse⟩ = some (.ok sel))
    (hlss : (inOrder sel).mapM (outputDependencies (hostOutputs info arch)
      (hostOutputs info arch).keys.toFinset) = .ok lists) : x.Plans info (hostOutputs info arch) rqd
      (lists.flatten.insertionSort (· ≤ ·)).dedup (inOrder sel) := by
  obtain ⟨hf, hcl, hlea⟩ := run_ok (invariant_first _) hrun
  -- A dependency on an output of the base is one on an output that the host has.
  have hed : ∀ out ∈ sel, ∀ pkg,
      (hostOutputs info arch).get out = some pkg → ∀ dep ∈ pkg.dependencies,
      dependencyName dep ∈ info.packages → dependencyName dep ∈ sel ∧
        ∃ sib, (hostOutputs info arch).get (dependencyName dep) = some sib ∧
          x.outputVersionSatisfies dep sib.version = true := by
    intro out hotp pkg hget dep hdep hn
    obtain ⟨ns, hns, hsub⟩ := hcl out hotp
    obtain ⟨pkg', hget', hall, -⟩ := siblings_ok hns
    obtain rfl : pkg' = pkg := Option.some.inj (hget'.symm.trans hget)
    rcases hall dep hdep with ⟨sib, hsib, hver, hmem⟩ | ⟨-, hout⟩
    · exact ⟨hsub _ hmem, sib, hsib, hver⟩
    · exact absurd hn hout
  refine ⟨⟨⟨fun out hotp => ?_, fun out hotp pkg hget dep hdep
      hn => ?_⟩, ?_⟩, fun out hotp => ?_, fun out hotp => ?_, ?_,
      fun dep => ?_⟩
  · exact mem_inOrder.mpr (hf out hotp)
  · exact mem_inOrder.mpr (hed out (mem_inOrder.mp hotp) pkg hget dep hdep hn).1
  · rintro outs ⟨hsub, hsc⟩ out hotp
    refine hlea outs hsub ?_ out (mem_inOrder.mp hotp)
    intro oth hot ns hns name hn
    obtain ⟨pkg, hget, -, hfo⟩ := siblings_ok hns
    obtain ⟨dep, hdep, rfl, sib, hsib⟩ := hfo name hn
    exact hsc oth hot pkg hget dep hdep (mem_packages_of_get hsib)
  · obtain ⟨ns, hns, -⟩ := hcl out (mem_inOrder.mp hotp)
    obtain ⟨pkg, hget, -, -⟩ := siblings_ok hns
    exact ⟨pkg, hget⟩
  · intro pkg hget dep hdep hn
    exact (hed out (mem_inOrder.mp hotp) pkg hget dep hdep hn).2
  · have hsor : ((lists.flatten.insertionSort (· ≤ ·)).dedup).Pairwise (· ≤ ·) :=
      (pairwise_insertionSort _ _).sublist (dedup_sublist _)
    have hnd : ((lists.flatten.insertionSort (· ≤ ·)).dedup).Nodup := nodup_dedup _
    exact hsor.imp₂ (fun _ _ hle hne => lt_of_le_of_ne hle hne) hnd
  · rw [mem_reported hlss]
    refine exists_congr fun out => and_congr_right fun hotp => exists_congr fun pkg =>
      and_congr_right fun hget => or_congr_left (and_congr_right fun hdep => ?_)
    rw [not_iff_not]
    constructor
    · intro hkey
      obtain ⟨sib, hsib⟩ := mem_keys.mp (mem_toFinset.mp hkey)
      exact mem_packages_of_get hsib
    · intro hn
      obtain ⟨-, sib, hsib, -⟩ := hed out (mem_inOrder.mp hotp) pkg hget dep hdep hn
      exact mem_toFinset.mpr (mem_keys.mpr ⟨sib, hsib⟩)

/-- **The plan of a build.** For each source information and each request the plan is made, without
a panic, and if it is not refused then its outputs are the least ones with the requested ones and
those they depend on, with the versions that they need, and its dependencies are the other ones. -/
theorem dependencyPlan_spec (x : Alpm) (info : SourceInfo) (target : Text) (requested : List Text) :
    ∃ result, x.dependencyPlan info target requested = some result ∧
      result ≠ .error .panicked ∧
      ∀ external selected, result = .ok (external, selected) →
        ∃ arch, architectureForRustTarget target = some arch ∧
          x.Plans info (hostOutputs info arch) requested external selected := by
  unfold dependencyPlan
  cases har : architectureForRustTarget target with
  | none => exact ⟨_, rfl, refuse_ne_panicked _, fun _ _ h => absurd h (refuse_ne_ok _)⟩
  | some arch =>
    simp only
    cases hfn : (inOrder (firstOutputs (hostOutputs info arch) requested)).find? fun out =>
        out ∉ (hostOutputs info arch).keys.toFinset with
    | some out => exact ⟨_, rfl, refuse_ne_panicked _, fun _ _ h => absurd h (refuse_ne_ok _)⟩
    | none =>
      have hkno : ∀ out ∈ firstOutputs (hostOutputs info arch) requested,
          out ∈ (hostOutputs info arch).keys.toFinset := by
        intro out hout
        have hall := find?_eq_none.mp hfn out (mem_inOrder.mpr hout)
        simpa using hall
      have hmea : Worklist.measure (hostOutputs info arch).keys.toFinset
          ⟨firstOutputs (hostOutputs info arch) requested,
            (inOrder (firstOutputs (hostOutputs info arch) requested)).reverse⟩ <
          (hostOutputs info arch).keys.toFinset.card + 1 := by
        simp only [Worklist.measure, length_reverse, length_inOrder]
        rw [Finset.card_sdiff_add_card_eq_card hkno]
        exact Nat.lt_succ_self _
      have hsc : SuccClosed (x.siblings info (hostOutputs info arch))
          ((hostOutputs info arch).keys.toFinset : Set Text) := succClosed_keys
      obtain ⟨closed, hrun⟩ := Worklist.exists_run hsc
        (fun out hout => hkno out (by simpa using hout)) hmea
      simp only [closeOutputs_eq_run, hrun, Option.map_some]
      cases closed with
      | error e =>
        refine ⟨.error e, rfl, fun hpnk => ?_, fun _ _ h => by cases h⟩
        cases hpnk
        obtain ⟨out, hout, hfa⟩ := Worklist.exists_of_run_error hkno hsc
          (fun out hout => by simpa using hout) hrun
        exact siblings_ne_panicked (by simpa using hout) hfa
      | ok selected =>
        obtain ⟨-, hcl, -⟩ := Worklist.run_ok (invariant_first _) hrun
        have hlss : ∀ out ∈ inOrder selected, ∃ fd, outputDependencies
            (hostOutputs info arch) (hostOutputs info arch).keys.toFinset out = .ok fd := by
          intro out hout
          obtain ⟨ns, hns, -⟩ := hcl out (mem_inOrder.mp hout)
          obtain ⟨pkg, hget, -, -⟩ := siblings_ok hns
          exact ⟨_, by rw [outputDependencies, hget]⟩
        obtain ⟨lists, hlss⟩ := exists_mapM hlss
        refine ⟨.ok ((lists.flatten.insertionSort (· ≤ ·)).dedup, inOrder selected), ?_, ?_, ?_⟩
        · simp only [bind, Except.bind, hlss]
          rfl
        · intro h
          cases h
        · intro external outs h
          cases h
          exact ⟨arch, rfl, plans_of_run hrun hlss⟩

/-- Dependencies that are bare names or have `>=` in front of a version. -/
def sampleAlpm : Alpm where
  dependVersion dependency := (splitOnce '=' dependency).map Prod.snd
  depmod dependency := if '=' ∈ dependency then .ge else .any
  vercmp := compare

/-- A split base whose two outputs depend on each other. -/
def cyclicBase : SourceInfo where
  packages := ["a", "b"]
  packagesForArchitecture _ := [⟨"a", "2", ["b>=1"], [], []⟩, ⟨"b", "2", ["a", "c"], ["d"], []⟩]
  name_mem _ := by decide

theorem dependencyPlan_spec_cyclicBase :
    sampleAlpm.dependencyPlan cyclicBase "x86_64" ["a"] = some (.ok (["c", "d"], ["a", "b"])) ∧
      sampleAlpm.Plans cyclicBase (hostOutputs cyclicBase .x86_64) ["a"] ["c", "d"] ["a", "b"] := by
  have hplan : sampleAlpm.dependencyPlan cyclicBase "x86_64" ["a"] =
      some (.ok (["c", "d"], ["a", "b"])) := by decide +kernel
  obtain ⟨result, hresult, -, hplans⟩ := dependencyPlan_spec sampleAlpm cyclicBase "x86_64" ["a"]
  cases hplan.symm.trans hresult
  obtain ⟨arch, harch, hspec⟩ := hplans _ _ rfl
  cases harch
  exact ⟨hplan, hspec⟩

end Alpm

end Omg.Aur
