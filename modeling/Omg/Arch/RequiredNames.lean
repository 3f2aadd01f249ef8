import Mathlib.Data.Char
import Mathlib.Data.List.Lex
import Mathlib.Data.List.Nodup
import Omg.Text.Basic

/-!
# The packages that others require

The packages that other installed packages require are found by the names in their dependencies,
optional dependencies and provisions: a version that a dependency asks for is cut off. The check for
dependencies that nothing satisfies compares the versions.

The comparison of versions, and the parser that decides which relations are valid, are parameters. A
valid relation has no white space.

Source: `src/package_managers/pacman_db/db.rs`.
-/

namespace Omg.Arch

open Text List

structure LocalDbPackage where
  name : Text
  version : Text
  depends : List Text
  optdepends : List Text
  provides : List Text
  deriving DecidableEq

structure Installed where
  packages : List LocalDbPackage
  nodup : (packages.map LocalDbPackage.name).Nodup

/-! ### Relations -/

inductive RelationOperator
  | none
  | eq
  | gt
  | ge
  | lt
  | le
  deriving DecidableEq

structure HealthRelation where
  name : Text
  operator : RelationOperator
  version : Option Text
  deriving DecidableEq

def isOperator (c : Char) : Bool := c == '<' || c == '>' || c == '='

def cutRelation (raw : Text) : HealthRelation :=
  let name := raw.takeWhile (!isOperator ·)
  match raw.dropWhile (!isOperator ·) with
  | [] => ⟨raw, .none, none⟩
  | '<' :: '=' :: version => ⟨name, .le, some version⟩
  | '>' :: '=' :: version => ⟨name, .ge, some version⟩
  | '<' :: version => ⟨name, .lt, some version⟩
  | '>' :: version => ⟨name, .gt, some version⟩
  | _ :: version => ⟨name, .eq, some version⟩

structure AlpmTypes where
  isRelation : Text → Bool
  vercmp : Text → Text → Ordering
  isRelation_spec : ∀ raw, isRelation raw = true → ∀ c ∈ raw, isWhitespace c = false

/-- `split_once(": ")`. -/
def splitDescription : Text → Option (Text × Text)
  | [] => none
  | ':' :: ' ' :: rest => some ([], rest)
  | c :: rest => (splitDescription rest).map fun parts => (c :: parts.1, parts.2)

def withoutDescription (relation : Text) : Text :=
  ((splitDescription relation).map Prod.fst).getD relation

section

variable (alpm : AlpmTypes)

/-- `health_relation`. -/
def healthRelation (raw : Text) : Option HealthRelation :=
  if alpm.isRelation raw then some (cutRelation raw) else none

/-- `HealthRelation::accepts`. -/
def HealthRelation.accepts (relation : HealthRelation) (candidate : Option Text) : Bool :=
  match relation.version, candidate with
  | none, _ => true
  | some _, none => false
  | some required, some candidate =>
    let comparison := alpm.vercmp candidate required
    match relation.operator with
    | .eq => comparison.isEq
    | .gt => comparison.isGT
    | .ge => !comparison.isLT
    | .lt => comparison.isLT
    | .le => !comparison.isGT
    | .none => false

/-- The installed version of a package, or a version that it provides, is accepted by a relation.
Only provisions without an operator or with `=` count. -/
def Satisfies (package : LocalDbPackage) (required : HealthRelation) : Prop :=
  required.name = package.name ∧ required.accepts alpm (some package.version) = true ∨
    ∃ raw ∈ package.provides, ∃ provided, healthRelation alpm raw = some provided ∧
      (provided.operator = .none ∨ provided.operator = .eq) ∧ provided.name = required.name ∧
      required.accepts alpm provided.version = true

/-- The check of one dependency: an installed package with the name, or a provision of the name, is
accepted. -/
def isSatisfied (installed : Installed) (raw : Text) : Bool :=
  match healthRelation alpm raw with
  | none => false
  | some required =>
    (installed.packages.find? (·.name = required.name)).any
        (fun package => required.accepts alpm (some package.version)) ||
      installed.packages.any fun package => package.provides.any fun provision =>
        (healthRelation alpm provision).any fun provided =>
          (provided.operator = .none || provided.operator = .eq) && provided.name = required.name &&
            required.accepts alpm provided.version

/-- `unsatisfied_dependencies`: the packages and their dependencies that nothing satisfies. -/
def unsatisfiedDependencies (installed : Installed) : List (Text × Text) :=
  (installed.packages.flatMap fun package =>
    (package.depends.filter (!isSatisfied alpm installed ·)).map fun raw => (package.name, raw)
  ).mergeSort fun a b => a.1 < b.1 || a.1 = b.1 && a.2 ≤ b.2

def LocalDbPackage.relations (package : LocalDbPackage) : List HealthRelation :=
  package.depends.filterMap (healthRelation alpm) ++
    package.optdepends.filterMap fun raw => healthRelation alpm (withoutDescription raw)

end

/-! ### The names in relations -/

def dependencyBaseName (relation : Text) : Text :=
  trim ((withoutDescription relation).takeWhile (!isOperator ·))

def providers (installed : Installed) (target : Text) : List Text :=
  installed.packages.flatMap fun package =>
    (package.provides.filter (dependencyBaseName · = target)).map fun _ => package.name

def requiredBy (installed : Installed) (package : LocalDbPackage) (depend : Text) : List Text :=
  let target := dependencyBaseName depend
  if target = package.name then []
  else
    (if target ∈ installed.packages.map LocalDbPackage.name then [target] else []) ++
      (providers installed target).filter (· ≠ package.name)

/-- `compute_required_names`, as a list of the members of the set. -/
def computeRequiredNames (installed : Installed) : List Text :=
  installed.packages.flatMap fun package =>
    package.depends.flatMap (requiredBy installed package) ++
      package.optdepends.flatMap (requiredBy installed package)

def Names (depend : Text) (package : LocalDbPackage) : Prop :=
  dependencyBaseName depend = package.name ∨
    ∃ raw ∈ package.provides, dependencyBaseName raw = dependencyBaseName depend

variable {installed : Installed} {package : LocalDbPackage} {alpm : AlpmTypes}

lemma mem_providers {tgt name : Text} : name ∈ providers installed tgt ↔
    ∃ package ∈ installed.packages, package.name = name ∧
      ∃ raw ∈ package.provides, dependencyBaseName raw = tgt := by
  simp only [providers, mem_flatMap, mem_map, mem_filter, decide_eq_true_eq]
  constructor
  · rintro ⟨package, hpk, raw, ⟨hraw, hba⟩, rfl⟩
    exact ⟨package, hpk, rfl, raw, hraw, hba⟩
  · rintro ⟨package, hpk, rfl, raw, hraw, hba⟩
    exact ⟨package, hpk, raw, ⟨hraw, hba⟩, rfl⟩

section

variable (h : package ∈ installed.packages)

include h

lemma eq_of_name_eq {oth : LocalDbPackage}
    (hot : oth ∈ installed.packages) (hn : package.name = oth.name) : package = oth :=
  inj_on_of_nodup_map installed.nodup h hot hn

lemma mem_requiredBy {dpt : LocalDbPackage} {dpd : Text} :
    package.name ∈ requiredBy installed dpt dpd ↔
      package.name ≠ dpt.name ∧ dependencyBaseName dpd ≠ dpt.name ∧ Names dpd package := by
  unfold requiredBy Names
  by_cases hsl : dependencyBaseName dpd = dpt.name
  · simp [hsl]
  · simp only [if_neg hsl, mem_append, mem_filter, mem_providers, decide_eq_true_eq]
    constructor
    · rintro (ht | ⟨⟨oth, hot, hn, hpro⟩, hne⟩)
      · split_ifs at ht
        · have heq := mem_singleton.mp ht
          exact ⟨heq ▸ hsl, hsl, .inl heq.symm⟩
        · cases ht
      · obtain rfl := eq_of_name_eq hot h hn
        exact ⟨hne, hsl, .inr hpro⟩
    · rintro ⟨hne, -, hba | hpro⟩
      · left
        rw [if_pos (hba ▸ mem_map_of_mem h), hba]
        exact mem_singleton_self _
      · exact .inr ⟨⟨package, h, rfl, hpro⟩, hne⟩

lemma mem_computeRequiredNames : package.name ∈ computeRequiredNames installed ↔
      ∃ dpt ∈ installed.packages, package.name ≠ dpt.name ∧ ∃ dpd ∈ dpt.depends ++ dpt.optdepends,
          dependencyBaseName dpd ≠ dpt.name ∧ Names dpd package := by
  simp only [computeRequiredNames, mem_flatMap, mem_append]
  constructor
  · rintro ⟨dpt, hdpt, ⟨dpd, hdpd, hmem⟩ | ⟨dpd, hdpd, hmem⟩⟩
    · obtain ⟨hne, hsl, hns⟩ := (mem_requiredBy h).mp hmem
      exact ⟨dpt, hdpt, hne, dpd, .inl hdpd, hsl, hns⟩
    · obtain ⟨hne, hsl, hns⟩ := (mem_requiredBy h).mp hmem
      exact ⟨dpt, hdpt, hne, dpd, .inr hdpd, hsl, hns⟩
  · rintro ⟨dpt, hdpt, hne, dpd, hdpd | hdpd, hsl, hns⟩
    · exact ⟨dpt, hdpt, .inl ⟨dpd, hdpd, (mem_requiredBy h).mpr ⟨hne, hsl, hns⟩⟩⟩
    · exact ⟨dpt, hdpt, .inr ⟨dpd, hdpd, (mem_requiredBy h).mpr ⟨hne, hsl, hns⟩⟩⟩

end

/-! ### Satisfied relations -/

lemma space_mem_of_splitDescription {s : Text} {pts : Text × Text}
    (h : splitDescription s = some pts) : ' ' ∈ s := by
  fun_induction splitDescription s generalizing pts with
  | case1 => cases h
  | case2 rest => simp
  | case3 c rest _ ih =>
    obtain ⟨pts', hps', -⟩ := Option.map_eq_some_iff.mp h
    exact mem_cons_of_mem _ (ih hps')

lemma cutRelation_name (raw : Text) : (cutRelation raw).name = raw.takeWhile (!isOperator ·) := by
  unfold cutRelation
  split
  · rename_i hnil
    have := takeWhile_append_dropWhile (p := (!isOperator ·)) (l := raw)
    rw [hnil, append_nil] at this
    exact this.symm
  all_goals rfl

lemma withoutDescription_of_isRelation {alpm : AlpmTypes} {raw : Text}
    (h : alpm.isRelation raw) : withoutDescription raw = raw := by
  unfold withoutDescription
  cases hsp : splitDescription raw with
  | none => rfl
  | some pts =>
    have hspa := alpm.isRelation_spec raw h ' ' (space_mem_of_splitDescription hsp)
    exact absurd hspa (by decide)

lemma dependencyBaseName_of_isRelation {alpm : AlpmTypes} {raw : Text}
    (h : alpm.isRelation raw) : dependencyBaseName raw = (cutRelation raw).name := by
  have hspa := alpm.isRelation_spec raw h
  rw [dependencyBaseName, withoutDescription_of_isRelation h, cutRelation_name]
  exact trim_eq_self fun c hc => hspa c ((takeWhile_sublist _).subset hc)

lemma dependencyBaseName_of_healthRelation {alpm : AlpmTypes} {raw : Text}
    {relation : HealthRelation} (h : healthRelation alpm raw = some relation) :
    dependencyBaseName raw = relation.name := by
  unfold healthRelation at h
  split_ifs at h with hv
  rw [← Option.some.inj h]
  exact dependencyBaseName_of_isRelation hv

lemma dependencyBaseName_of_withoutDescription {alpm : AlpmTypes} {raw : Text}
    {relation : HealthRelation} (h : healthRelation alpm (withoutDescription raw) = some relation) :
    dependencyBaseName raw = relation.name := by
  rw [← dependencyBaseName_of_healthRelation h]
  have hv : alpm.isRelation (withoutDescription raw) = true := by
    unfold healthRelation at h
    split_ifs at h with hv
    exact hv
  unfold dependencyBaseName
  rw [withoutDescription_of_isRelation hv]

lemma names_of_satisfies {dpd : Text} {rqr : HealthRelation}
    (hn : dependencyBaseName dpd = rqr.name) (h : Satisfies alpm package rqr) :
    Names dpd package := by
  rcases h with ⟨hown, -⟩ | ⟨raw, hraw, provided, hpro, -, hsm, -⟩
  · exact .inl (hn.trans hown)
  · exact .inr ⟨raw, hraw, by rw [dependencyBaseName_of_healthRelation hpro, hsm, hn]⟩

lemma exists_depend_of_mem_relations {rqr : HealthRelation} (h : rqr ∈ package.relations alpm) :
    ∃ dpd ∈ package.depends ++ package.optdepends, dependencyBaseName dpd = rqr.name := by
  rcases mem_append.mp h with hdpd | hopt
  · obtain ⟨raw, hraw, hrel⟩ := mem_filterMap.mp hdpd
    exact ⟨raw, mem_append_left _ hraw, dependencyBaseName_of_healthRelation hrel⟩
  · obtain ⟨raw, hraw, hrel⟩ := mem_filterMap.mp hopt
    exact ⟨raw, mem_append_right _ hraw, dependencyBaseName_of_withoutDescription hrel⟩

/-- A valid dependency, with or without a description, is one of the relations. -/
lemma exists_mem_relations {dpd : Text} (hdpd : dpd ∈ package.depends ++ package.optdepends)
    (hdepends : ∀ raw ∈ package.depends, alpm.isRelation raw = true)
    (hoptdepends : ∀ raw ∈ package.optdepends, alpm.isRelation (withoutDescription raw) = true) :
    ∃ required ∈ package.relations alpm, dependencyBaseName dpd = required.name := by
  rcases mem_append.mp hdpd with hraw | hraw
  · have hrelation : healthRelation alpm dpd = some (cutRelation dpd) := if_pos (hdepends dpd hraw)
    exact ⟨_, mem_append_left _ (mem_filterMap.mpr ⟨dpd, hraw, hrelation⟩),
      dependencyBaseName_of_healthRelation hrelation⟩
  · have hrelation : healthRelation alpm (withoutDescription dpd) =
        some (cutRelation (withoutDescription dpd)) := if_pos (hoptdepends dpd hraw)
    exact ⟨_, mem_append_right _ (mem_filterMap.mpr ⟨dpd, hraw, hrelation⟩),
      dependencyBaseName_of_withoutDescription hrelation⟩

lemma isSatisfied_iff {raw : Text} : isSatisfied alpm installed raw ↔
    ∃ rqr, healthRelation alpm raw = some rqr ∧
      ∃ package ∈ installed.packages, Satisfies alpm package rqr := by
  unfold isSatisfied
  cases healthRelation alpm raw with
  | none => simp
  | some rqr =>
    simp only [Option.some.injEq, exists_eq_left', Bool.or_eq_true, any_eq_true,
      Option.any_eq_true, Bool.and_eq_true, decide_eq_true_eq]
    constructor
    · rintro (⟨package, hfn, hacs⟩ |
        ⟨package, hpk, provision, hpro, provided, hprv, ⟨hop, hn⟩, hacs⟩)
      · have hn : package.name = rqr.name := by simpa using find?_some hfn
        exact ⟨package, mem_of_find?_eq_some hfn, .inl ⟨hn.symm, hacs⟩⟩
      · exact ⟨package, hpk, .inr ⟨provision, hpro, provided, hprv, hop, hn, hacs⟩⟩
    · rintro ⟨package, hpk, ⟨hn, hacs⟩ | ⟨provision, hpro, provided, hprv, hop, hn, hacs⟩⟩
      · left
        cases hfn : installed.packages.find? (·.name = rqr.name) with
        | none =>
          have hnot := find?_eq_none.mp hfn package hpk
          exact absurd hn.symm (by simpa using hnot)
        | some oth =>
          have hot : oth.name = rqr.name := by simpa using find?_some hfn
          obtain rfl := eq_of_name_eq hpk (mem_of_find?_eq_some hfn) (hn.symm.trans hot.symm)
          exact ⟨package, rfl, hacs⟩
      · exact .inr ⟨package, hpk, provision, hpro, provided, hprv, ⟨hop, hn⟩, hacs⟩

/-! ### Required packages -/

def MetByOther (alpm : AlpmTypes) (installed : Installed) (package : LocalDbPackage) : Prop :=
  ∃ dependent ∈ installed.packages, package.name ≠ dependent.name ∧
    ∃ required ∈ dependent.relations alpm, Satisfies alpm package required

/-- What `validate_health_relations` asks of a package, and the same of its optional dependencies.
-/
structure LocalDbPackage.ValidRelations (alpm : AlpmTypes) (package : LocalDbPackage) : Prop where
  depends : ∀ raw ∈ package.depends, alpm.isRelation raw = true
  optdepends : ∀ raw ∈ package.optdepends, alpm.isRelation (withoutDescription raw) = true
  provides : ∀ raw ∈ package.provides, ∃ provided, healthRelation alpm raw = some provided ∧
    (provided.operator = .none ∨ provided.operator = .eq)

/-- The relations are valid, no other package declares one with its own name, and the versions fit:
where another package names `package` or one of its provisions, it asks for no version or for one
that the package, or that provision, has. -/
structure VersionsFit (alpm : AlpmTypes) (installed : Installed) (package : LocalDbPackage) :
    Prop where
  valid : ∀ other ∈ installed.packages, other.ValidRelations alpm
  own : ∀ other ∈ installed.packages, package.name ≠ other.name →
    ∀ required ∈ other.relations alpm, required.name ≠ other.name
  version : ∀ other ∈ installed.packages, package.name ≠ other.name →
    ∀ required ∈ other.relations alpm, required.name = package.name →
      required.accepts alpm (some package.version) = true
  provision : ∀ other ∈ installed.packages, package.name ≠ other.name →
    ∀ required ∈ other.relations alpm, ∀ raw ∈ package.provides, ∀ provided,
      healthRelation alpm raw = some provided → provided.name = required.name →
        required.accepts alpm provided.version = true

lemma VersionsFit.satisfies {other : LocalDbPackage} {dpd : Text} {required : HealthRelation}
    (hfit : VersionsFit alpm installed package) (h : package ∈ installed.packages)
    (hother : other ∈ installed.packages) (hne : package.name ≠ other.name)
    (hreq : required ∈ other.relations alpm)
    (hbase : dependencyBaseName dpd = required.name) (hnames : Names dpd package) :
    Satisfies alpm package required := by
  rcases hnames with hname | ⟨raw, hraw, hprovided⟩
  · have hname' := hbase.symm.trans hname
    exact .inl ⟨hname', hfit.version other hother hne required hreq hname'⟩
  · obtain ⟨provided, hrelation, hoperator⟩ := (hfit.valid package h).provides raw hraw
    have hsame : provided.name = required.name := by
      rw [← dependencyBaseName_of_healthRelation hrelation, hprovided, hbase]
    exact .inr ⟨raw, hraw, provided, hrelation, hoperator, hsame,
      hfit.provision other hother hne required hreq raw hraw provided hrelation hsame⟩

/-- The library `lib` in version `1`, and an application that depends on `lib>=2`. -/
def oldLibrary : Installed where
  packages := [⟨"app", "1", ["lib>=2"], [], []⟩, ⟨"lib", "1", [], [], []⟩]
  nodup := by decide +kernel

def digitVersions : AlpmTypes where
  isRelation := fun raw => raw.all (!isWhitespace ·)
  vercmp := fun a b => compare (a.map Char.toNat) (b.map Char.toNat)
  isRelation_spec := fun raw h c hc => by simpa using all_eq_true.mp h c hc

/-- An application that depends on `lib>=2`, and a newer library. -/
def newLibrary : Installed where
  packages := [⟨"app", "1", ["lib>=2"], ["svc=4: for jobs"], []⟩,
    ⟨"lib", "3", [], [], ["svc=4"]⟩]
  nodup := by decide +kernel

end Omg.Arch
