import Mathlib.Data.List.Count
import Omg.Collections.Champion
import Omg.Collections.SortedMap
import Omg.Debian.Resolver

/-!
# The package index of a repository

The index holds the packages in the order in which they were added, and three tables from names,
from names with architectures, and from names with architectures and components to positions in this
order. An added package replaces the entry of a table if it is better than the package to which the
entry points. The keys of the second and the third table are texts with colons between the parts.

Source: `src/package_managers/debian_db/db.rs`.
-/

open Std (TransCmp OrientedCmp)

namespace Omg.Debian

open Collections List Option SortedMap

structure RepositoryPackage extends DebianPackage where
  architecture : Text
  component : Text
deriving DecidableEq

/-! ### Better candidates -/

def mainComponent : Text := "main"

section

variable (debianArch : Text)

def nameCandidateScore (pkg : RepositoryPackage) : ℕ :=
  (if pkg.architecture = debianArch then 4
    else if pkg.architecture = "all" then 2
    else 0) +
  if pkg.component = mainComponent then 1 else 0

def isBetterNameCandidate (newPkg existingPkg : RepositoryPackage) : Bool :=
  let newScore := nameCandidateScore debianArch newPkg
  let existingScore := nameCandidateScore debianArch existingPkg
  if newScore ≠ existingScore then newScore > existingScore
  else compareDebVersions newPkg.version existingPkg.version == .gt

def isBetterArchCandidate (newPkg existingPkg : RepositoryPackage) : Bool :=
  if newPkg.component = mainComponent ∧ existingPkg.component ≠ mainComponent then true
  else if newPkg.component ≠ mainComponent ∧ existingPkg.component = mainComponent then false
  else compareDebVersions newPkg.version existingPkg.version == .gt

def nameOrder (p q : RepositoryPackage) : Ordering :=
  (compare (nameCandidateScore debianArch p) (nameCandidateScore debianArch q)).then
    (compareDebVersions p.version q.version)

def inMain (p : RepositoryPackage) : Bool := p.component = mainComponent

def archOrder (p q : RepositoryPackage) : Ordering :=
  (compare (inMain p) (inMain q)).then (compareDebVersions p.version q.version)

instance nameOrder_transCmp : TransCmp (nameOrder debianArch) :=
  have := transCmp_comap compareDebVersions fun p : RepositoryPackage => p.version
  inferInstanceAs (TransCmp (compareLex (compareOn (nameCandidateScore debianArch)) _))

instance archOrder_transCmp : TransCmp archOrder :=
  have := transCmp_comap compareDebVersions fun p : RepositoryPackage => p.version
  inferInstanceAs (TransCmp (compareLex (compareOn inMain) _))

lemma isBetterNameCandidate_eq :
    isBetterNameCandidate debianArch = beatsBy (nameOrder debianArch) := by
  funext p q
  unfold isBetterNameCandidate beatsBy nameOrder
  rcases lt_trichotomy (nameCandidateScore debianArch p) (nameCandidateScore debianArch q) with
    hlt | heq | hgt
  · simp [hlt.ne, hlt.le.not_gt, compare_lt_iff_lt.mpr hlt]
  · simp [heq]
  · simp [hgt.ne', hgt, compare_gt_iff_gt.mpr hgt]

lemma isBetterArchCandidate_eq : isBetterArchCandidate = beatsBy archOrder := by
  funext p q
  unfold isBetterArchCandidate beatsBy archOrder inMain
  by_cases hp : p.component = mainComponent <;> by_cases hq : q.component = mainComponent
  · simp [hp, hq]
  · have hgt : compare true false = .gt := rfl
    simp [hp, hq, hgt]
  · have hlt : compare false true = .lt := rfl
    simp [hp, hq, hlt]
  · simp [hp, hq]

end

/-! ### The index -/

structure DebianPackageIndex where
  packages : List RepositoryPackage
  nameToIdx : SortedMap Text ℕ
  nameArchToIdx : SortedMap Text ℕ
  nameArchComponentToIdx : SortedMap Text ℕ

/-- The key `"{name}:{arch}"`. -/
def nameArchKey (name arch : Text) : Text := name ++ ':' :: arch

/-- The key `"{name}:{arch}:{component}"`. -/
def nameArchComponentKey (name arch component : Text) : Text :=
  name ++ ':' :: (arch ++ ':' :: component)

/-- The entry of a key is set to the next position, unless it points at a package that is not worse
than the new one. -/
def insertIfBetter (isBetter : RepositoryPackage → RepositoryPackage → Bool)
    (packages : List RepositoryPackage) (table : SortedMap Text ℕ) (key : Text)
    (pkg : RepositoryPackage) : SortedMap Text ℕ :=
  match table.get key with
  | some existingIdx =>
    match packages[existingIdx]? with
    | some existingPkg =>
      if isBetter pkg existingPkg then table.insert key packages.length else table
    | none => table
  | none => table.insert key packages.length

namespace DebianPackageIndex

def new : DebianPackageIndex := ⟨[], .empty, .empty, .empty⟩

def addPackage (debianArch : Text) (index : DebianPackageIndex) (pkg : RepositoryPackage) :
    DebianPackageIndex where
  nameToIdx := insertIfBetter (isBetterNameCandidate debianArch) index.packages index.nameToIdx
    pkg.name pkg
  nameArchToIdx := insertIfBetter isBetterArchCandidate index.packages index.nameArchToIdx
    (nameArchKey pkg.name pkg.architecture) pkg
  nameArchComponentToIdx := index.nameArchComponentToIdx.insert
    (nameArchComponentKey pkg.name pkg.architecture pkg.component) index.packages.length
  packages := index.packages ++ [pkg]

/-- The package at the position in an entry of a table. The source would panic at a position that is
out of range; there are none, see `Tabulates`. -/
def lookup (index : DebianPackageIndex) (table : SortedMap Text ℕ) (key : Text) :
    Option RepositoryPackage :=
  (table.get key).bind fun idx => index.packages[idx]?

def get (index : DebianPackageIndex) (name : Text) : Option RepositoryPackage :=
  index.lookup index.nameToIdx name

def getNameArch (index : DebianPackageIndex) (name arch : Text) : Option RepositoryPackage :=
  index.lookup index.nameArchToIdx (nameArchKey name arch)

def getNameArchComponent (index : DebianPackageIndex) (name arch component : Text) :
    Option RepositoryPackage :=
  index.lookup index.nameArchComponentToIdx (nameArchComponentKey name arch component)

def ofPackages (debianArch : Text) (inserted : List RepositoryPackage) : DebianPackageIndex :=
  inserted.foldl (addPackage debianArch) new

@[simp] lemma ofPackages_nil (debianArch : Text) : ofPackages debianArch [] = new := rfl

@[simp] lemma ofPackages_concat (debianArch : Text) (inserted : List RepositoryPackage)
    (pkg : RepositoryPackage) : ofPackages debianArch (inserted ++ [pkg]) =
      (ofPackages debianArch inserted).addPackage debianArch pkg :=
  foldl_concat ..

end DebianPackageIndex

/-! ### What a table points at -/

/-- The entries of a table point at the outcomes of the choices among the packages with the keys;
in particular they are in range. -/
def Tabulates (beats : RepositoryPackage → RepositoryPackage → Bool)
    (keyOf : RepositoryPackage → Text) (packages : List RepositoryPackage)
    (table : SortedMap Text ℕ) : Prop :=
  ∀ key, (table.get key).map (fun idx => packages[idx]?) =
    (champion beats (packages.filter fun p => keyOf p = key)).map some

section

variable {beats : RepositoryPackage → RepositoryPackage → Bool} {keyOf : RepositoryPackage → Text}
  {packages : List RepositoryPackage} {table : SortedMap Text ℕ} {key : Text} {idx : ℕ}

lemma tabulates_nil : Tabulates beats keyOf [] .empty := fun _ => rfl

section

variable (h : Tabulates beats keyOf packages table)

include h

lemma Tabulates.get_eq_some (hget : table.get key = some idx) : ∃ p, packages[idx]? = some p ∧
      champion beats (packages.filter fun p => keyOf p = key) = some p := by
  have hkey := h key
  rw [hget] at hkey
  obtain ⟨p, hp, heq⟩ := map_eq_some_iff.mp hkey.symm
  exact ⟨p, heq.symm, hp⟩

lemma Tabulates.get_eq_none (hget : table.get key = none) :
    champion beats (packages.filter fun p => keyOf p = key) = none := by
  have hkey := h key
  rw [hget] at hkey
  exact map_eq_none_iff.mp hkey.symm

lemma Tabulates.points (hget : table.get key = some idx) :
    ∃ p ∈ packages, packages[idx]? = some p ∧ keyOf p = key := by
  obtain ⟨p, hp, hcha⟩ := h.get_eq_some hget
  obtain ⟨hmem, hkey⟩ := mem_filter.mp (mem_of_champion hcha)
  exact ⟨p, hmem, hp, of_decide_eq_true hkey⟩

lemma Tabulates.lt_length (hget : table.get key = some idx) : idx < packages.length := by
  obtain ⟨p, -, hp, -⟩ := h.points hget
  exact (List.getElem?_eq_some_iff.mp hp).1

lemma Tabulates.exists_get {p : RepositoryPackage} (hp : p ∈ packages) :
    ∃ idx, table.get (keyOf p) = some idx := by
  have hne : packages.filter (fun q => keyOf q = keyOf p) ≠ [] :=
    ne_nil_of_mem (mem_filter.mpr ⟨hp, decide_eq_true rfl⟩)
  have hso := champion_isSome beats hne
  cases hget : table.get (keyOf p) with
  | none =>
    rw [h.get_eq_none hget] at hso
    cases hso
  | some idx => exact ⟨idx, rfl⟩

lemma Tabulates.map_concat (pkg : RepositoryPackage) (key : Text) :
    (table.get key).map (fun idx => (packages ++ [pkg])[idx]?) =
      (champion beats (packages.filter fun p => keyOf p = key)).map some := by
  cases hget : table.get key with
  | none => rw [h.get_eq_none hget, map_none, map_none]
  | some idx =>
    obtain ⟨p, hp, hcha⟩ := h.get_eq_some hget
    obtain ⟨hix, -⟩ := List.getElem?_eq_some_iff.mp hp
    rw [hcha, map_some, map_some, getElem?_append_left hix, hp]

end

lemma champion_filter_concat (pkg : RepositoryPackage) (key : Text) :
    champion beats ((packages ++ [pkg]).filter fun p => keyOf p = key) = if keyOf pkg = key then
        challenge beats (champion beats (packages.filter fun p => keyOf p = key)) pkg
      else champion beats (packages.filter fun p => keyOf p = key) := by
  rw [filter_append]
  split_ifs with hkey
  · rw [filter_singleton, decide_eq_true hkey, cond_true, champion_concat]
  · rw [filter_singleton, decide_eq_false hkey, cond_false, append_nil]

lemma get_insertIfBetter_of_ne {key' : Text} (hne : key' ≠ key) (pkg : RepositoryPackage) :
    (insertIfBetter beats packages table key pkg).get key' = table.get key' := by
  unfold insertIfBetter
  split
  · split
    · split_ifs
      · rw [get_insert, if_neg hne]
      · rfl
    · rfl
  · rw [get_insert, if_neg hne]

lemma Tabulates.insertIfBetter (h : Tabulates beats keyOf packages table)
    (pkg : RepositoryPackage) : Tabulates beats keyOf (packages ++ [pkg])
      (insertIfBetter beats packages table (keyOf pkg) pkg) := by
  intro key
  rw [champion_filter_concat]
  by_cases hkey : keyOf pkg = key
  · subst hkey
    rw [if_pos rfl, Debian.insertIfBetter]
    cases hget : table.get (keyOf pkg) with
    | none =>
      rw [h.get_eq_none hget]
      simp [get_insert]
    | some idx =>
      obtain ⟨p, hp, hcha⟩ := h.get_eq_some hget
      simp only [hp, hcha, challenge_some]
      split_ifs
      · simp [get_insert]
      · rw [h.map_concat, hcha]
  · rw [if_neg hkey, get_insertIfBetter_of_ne (Ne.symm hkey), h.map_concat]

lemma Tabulates.insert (h : Tabulates (fun _ _ => true) keyOf packages table)
    (pkg : RepositoryPackage) : Tabulates (fun _ _ => true) keyOf (packages ++ [pkg])
      (table.insert (keyOf pkg) packages.length) := by
  intro key
  rw [champion_filter_concat, get_insert]
  by_cases hkey : keyOf pkg = key
  · subst hkey
    cases champion (fun _ _ => true) (packages.filter fun p => keyOf p = keyOf pkg) with
    | none => simp
    | some p => simp
  · rw [if_neg hkey, if_neg (Ne.symm hkey), h.map_concat]

end

namespace DebianPackageIndex

section

variable (debianArch : Text) (inserted : List RepositoryPackage)

@[simp] lemma packages_ofPackages : (ofPackages debianArch inserted).packages = inserted := by
  induction inserted using List.reverseRecOn with
  | nil => rfl
  | append_singleton inserted pkg ih => rw [ofPackages_concat, addPackage, ih]

/-- **What the three tables point at after a sequence of insertions.** -/
lemma tabulates_ofPackages : Tabulates (isBetterNameCandidate debianArch) (fun p => p.name) inserted
      (ofPackages debianArch inserted).nameToIdx ∧
    Tabulates isBetterArchCandidate (fun p => nameArchKey p.name p.architecture) inserted
      (ofPackages debianArch inserted).nameArchToIdx ∧
    Tabulates (fun _ _ => true) (fun p => nameArchComponentKey p.name p.architecture p.component)
      inserted (ofPackages debianArch inserted).nameArchComponentToIdx := by
  induction inserted using List.reverseRecOn with
  | nil => exact ⟨tabulates_nil, tabulates_nil, tabulates_nil⟩
  | append_singleton inserted pkg ih =>
    obtain ⟨hn, har, hcom⟩ := ih
    rw [ofPackages_concat]
    simp only [addPackage, packages_ofPackages]
    exact ⟨hn.insertIfBetter pkg, har.insertIfBetter pkg, hcom.insert pkg⟩

variable {inserted} in
lemma lookup_eq_champion {ix : DebianPackageIndex} (hpks : ix.packages = inserted)
    {table : SortedMap Text ℕ} {beats : RepositoryPackage → RepositoryPackage → Bool}
    {keyOf : RepositoryPackage → Text} (h : Tabulates beats keyOf inserted table) (key : Text) :
    ix.lookup table key = champion beats (inserted.filter fun p => keyOf p = key) := by
  subst hpks
  unfold lookup
  cases hget : table.get key with
  | none => rw [h.get_eq_none hget, bind_none]
  | some idx =>
    obtain ⟨p, hp, hcha⟩ := h.get_eq_some hget
    rw [hcha, bind_some, hp]

/-- **The answer for a name.** -/
lemma get_ofPackages (name : Text) : (ofPackages debianArch inserted).get name =
    champion (isBetterNameCandidate debianArch) (inserted.filter fun p => p.name = name) :=
  lookup_eq_champion (packages_ofPackages debianArch inserted)
    (tabulates_ofPackages debianArch inserted).1 name

/-- **The answer for a name and an architecture.** -/
lemma getNameArch_ofPackages (name arch : Text) :
    (ofPackages debianArch inserted).getNameArch name arch = champion isBetterArchCandidate
      (inserted.filter fun p => nameArchKey p.name p.architecture = nameArchKey name arch) :=
  lookup_eq_champion (packages_ofPackages debianArch inserted)
    (tabulates_ofPackages debianArch inserted).2.1 (nameArchKey name arch)

end

end DebianPackageIndex

variable {name arch name' arch' : Text}

lemma colonFree_of_nameArchKey (hn : ':' ∉ name) (har : ':' ∉ arch)
    (h : nameArchKey name arch = nameArchKey name' arch') : ':' ∉ name' ∧ ':' ∉ arch' := by
  have hco := congrArg (List.count ':') h
  simp only [nameArchKey, count_append, count_cons_self,
    count_eq_zero_of_not_mem hn, count_eq_zero_of_not_mem har] at hco
  exact ⟨count_eq_zero.mp (by omega), count_eq_zero.mp (by omega)⟩

lemma nameArchKey_inj (hn : ':' ∉ name) (har : ':' ∉ arch)
    (h : nameArchKey name arch = nameArchKey name' arch') : name = name' ∧ arch = arch' :=
  Text.append_cons_inj hn (colonFree_of_nameArchKey hn har h).1 h

lemma nameArchComponentKey_inj {comp comp' : Text} (hn : ':' ∉ name)
    (har : ':' ∉ arch) (hcom : ':' ∉ comp)
    (h : nameArchComponentKey name arch comp = nameArchComponentKey name' arch' comp') :
    name = name' ∧ arch = arch' ∧ comp = comp' := by
  have hco := congrArg (List.count ':') h
  simp only [nameArchComponentKey, count_append, count_cons_self,
    count_eq_zero_of_not_mem hn, count_eq_zero_of_not_mem har,
    count_eq_zero_of_not_mem hcom] at hco
  have hn' : ':' ∉ name' := count_eq_zero.mp (by omega)
  have har' : ':' ∉ arch' := count_eq_zero.mp (by omega)
  obtain ⟨rfl, hta⟩ := Text.append_cons_inj hn hn' h
  obtain ⟨rfl, rfl⟩ := Text.append_cons_inj har har' hta
  exact ⟨rfl, rfl, rfl⟩

def RepositoryPackage.ColonFree (p : RepositoryPackage) : Prop :=
  ':' ∉ p.name ∧ ':' ∉ p.architecture ∧ ':' ∉ p.component

lemma exists_nameArchKey (h : ':' ∈ name ∨ ':' ∈ arch) :
    ∃ name' arch', nameArchKey name arch = nameArchKey name' arch' ∧ name ≠ name' := by
  rcases h with h | h
  · obtain ⟨x, y, rfl⟩ := append_of_mem h
    refine ⟨x, y ++ ':' :: arch, by simp [nameArchKey], fun heq => ?_⟩
    have hlen := congrArg List.length heq
    simp at hlen
  · obtain ⟨x, y, rfl⟩ := append_of_mem h
    refine ⟨name ++ ':' :: x, y, by simp [nameArchKey], fun heq => ?_⟩
    have hlen := congrArg List.length heq
    simp at hlen

lemma exists_nameArchComponentKey {comp : Text} (name : Text) (h : ':' ∈ comp) :
    ∃ arch' comp', nameArchComponentKey name arch comp =
      nameArchComponentKey name arch' comp' ∧ arch ≠ arch' := by
  obtain ⟨x, y, rfl⟩ := append_of_mem h
  refine ⟨arch ++ ':' :: x, y, by simp [nameArchComponentKey], fun heq => ?_⟩
  have hlen := congrArg List.length heq
  simp at hlen

namespace DebianPackageIndex

/-! ### What the index is for -/

def SameNameRank (debianArch : Text) (p q : RepositoryPackage) : Prop :=
  nameCandidateScore debianArch p = nameCandidateScore debianArch q ∧
    compareDebVersions p.version q.version = .eq

def SameArchRank (p q : RepositoryPackage) : Prop :=
  inMain p = inMain q ∧ compareDebVersions p.version q.version = .eq

structure Serves (debianArch : Text) (inserted : List RepositoryPackage) : Prop where
  inRange : ∀ key idx, (ofPackages debianArch inserted).nameToIdx.get key = some idx ∨
    (ofPackages debianArch inserted).nameArchToIdx.get key = some idx ∨
    (ofPackages debianArch inserted).nameArchComponentToIdx.get key = some idx →
      idx < (ofPackages debianArch inserted).packages.length
  names : ∀ name idx, (ofPackages debianArch inserted).nameToIdx.get name = some idx →
    ∃ p, (ofPackages debianArch inserted).packages[idx]? = some p ∧ p.name = name
  /-- The second table points at packages with the names and the architectures. -/
  nameArchs : ∀ name arch idx,
    (ofPackages debianArch inserted).nameArchToIdx.get (nameArchKey name arch) = some idx →
    ∃ p, (ofPackages debianArch inserted).packages[idx]? = some p ∧ p.name = name ∧
      p.architecture = arch
  nameArchComponents : ∀ name arch component idx,
    (ofPackages debianArch inserted).nameArchComponentToIdx.get
      (nameArchComponentKey name arch component) = some idx →
    ∃ p, (ofPackages debianArch inserted).packages[idx]? = some p ∧ p.name = name ∧
      p.architecture = arch ∧ p.component = component
  get : ∀ name, Selects (nameOrder debianArch) (inserted.filter fun p => p.name = name)
    ((ofPackages debianArch inserted).get name)
  /-- No package of a name and an architecture beats the answer for them. -/
  getNameArch : ∀ name arch,
    Selects archOrder (inserted.filter fun p => p.name = name ∧ p.architecture = arch)
      ((ofPackages debianArch inserted).getNameArch name arch)
  /-- Another order of the packages can only change answers between packages of one rank. -/
  perm : ∀ inserted', inserted.Perm inserted' →
    (∀ name, Rel (SameNameRank debianArch) ((ofPackages debianArch inserted).get name)
      ((ofPackages debianArch inserted').get name)) ∧
    ∀ name arch, Rel SameArchRank ((ofPackages debianArch inserted).getNameArch name arch)
      ((ofPackages debianArch inserted').getNameArch name arch)

section

variable {debianArch : Text} {inserted : List RepositoryPackage} {p : RepositoryPackage}

lemma sameNameRank_of_nameOrder {q : RepositoryPackage} (h : nameOrder debianArch p q = .eq) :
    SameNameRank debianArch p q := by
  obtain ⟨hsco, hver⟩ := Ordering.then_eq_eq.mp h
  exact ⟨compare_eq_iff_eq.mp hsco, hver⟩

lemma sameArchRank_of_archOrder {q : RepositoryPackage} (h : archOrder p q = .eq) :
    SameArchRank p q := by
  obtain ⟨hma, hver⟩ := Ordering.then_eq_eq.mp h
  exact ⟨compare_eq_iff_eq.mp hma, hver⟩

variable (debianArch inserted) in
lemma selects_get (name : Text) :
    Selects (nameOrder debianArch) (inserted.filter fun p => p.name = name)
      ((ofPackages debianArch inserted).get name) := by
  rw [get_ofPackages, isBetterNameCandidate_eq]
  exact selects_champion _

variable (debianArch inserted) in
lemma selects_getNameArch (name arch : Text) : Selects archOrder
      (inserted.filter fun p => nameArchKey p.name p.architecture = nameArchKey name arch)
      ((ofPackages debianArch inserted).getNameArch name arch) := by
  rw [getNameArch_ofPackages, isBetterArchCandidate_eq]
  exact selects_champion _

lemma rel_of_perm {ins' : List RepositoryPackage} (hp : inserted.Perm ins') :
    (∀ name, Rel (SameNameRank debianArch) ((ofPackages debianArch inserted).get name)
      ((ofPackages debianArch ins').get name)) ∧
    ∀ name arch, Rel SameArchRank ((ofPackages debianArch inserted).getNameArch name arch)
      ((ofPackages debianArch ins').getNameArch name arch) := by
  refine ⟨fun name => ?_, fun name arch => ?_⟩
  · have hsel := (selects_get debianArch inserted name).perm (hp.filter _)
    exact hsel.rel (fun _ _ => sameNameRank_of_nameOrder) (selects_get debianArch ins' name)
  · have hsel := (selects_getNameArch debianArch inserted name arch).perm (hp.filter _)
    exact hsel.rel (fun _ _ => sameArchRank_of_archOrder)
      (selects_getNameArch debianArch ins' name arch)

lemma serves_of_colonFree (h : ∀ p ∈ inserted, p.ColonFree) : Serves debianArch inserted := by
  obtain ⟨hns, harc, hcom⟩ := tabulates_ofPackages debianArch inserted
  refine ⟨fun key idx hix => ?_, fun name idx hix => ?_, fun name arch idx hix => ?_,
    fun name arch comp idx hix => ?_, selects_get debianArch inserted, fun name arch => ?_,
    fun _ => rel_of_perm⟩
  · rw [packages_ofPackages]
    rcases hix with hix | hix | hix
    · exact hns.lt_length hix
    · exact harc.lt_length hix
    · exact hcom.lt_length hix
  · obtain ⟨p, -, hp, hkey⟩ := hns.points hix
    rw [packages_ofPackages]
    exact ⟨p, hp, hkey⟩
  · obtain ⟨p, hmem, hp, hkey⟩ := harc.points hix
    rw [packages_ofPackages]
    exact ⟨p, hp, nameArchKey_inj (h p hmem).1 (h p hmem).2.1 hkey⟩
  · obtain ⟨p, hmem, hp, hkey⟩ := hcom.points hix
    rw [packages_ofPackages]
    exact ⟨p, hp, nameArchComponentKey_inj (h p hmem).1 (h p hmem).2.1 (h p hmem).2.2 hkey⟩
  · have hfil : inserted.filter (fun p => p.name = name ∧ p.architecture = arch) =
        inserted.filter fun p => nameArchKey p.name p.architecture = nameArchKey name arch := by
      refine filter_congr fun p hp => decide_eq_decide.mpr ⟨?_, fun hkey => ?_⟩
      · rintro ⟨rfl, rfl⟩
        rfl
      · exact nameArchKey_inj (h p hp).1 (h p hp).2.1 hkey
    rw [hfil]
    exact selects_getNameArch debianArch inserted name arch

lemma colonFree_of_serves (h : Serves debianArch inserted) (hp : p ∈ inserted) : p.ColonFree := by
  obtain ⟨-, harc, hcom⟩ := tabulates_ofPackages debianArch inserted
  have hps : ¬(':' ∈ p.name ∨ ':' ∈ p.architecture) := by
    intro hcol
    obtain ⟨name', arch', hkey, hne⟩ := exists_nameArchKey hcol
    obtain ⟨idx, hix⟩ := harc.exists_get hp
    obtain ⟨q, hq, hn, -⟩ := h.nameArchs _ _ idx hix
    rw [hkey] at hix
    obtain ⟨q', hq', hn', -⟩ := h.nameArchs _ _ idx hix
    rw [hq] at hq'
    obtain rfl := some.inj hq'
    exact hne (hn.symm.trans hn')
  have hcmp : ':' ∉ p.component := by
    intro hcol
    obtain ⟨arch', comp', hkey, hne⟩ := exists_nameArchComponentKey p.name hcol
    obtain ⟨idx, hix⟩ := hcom.exists_get hp
    obtain ⟨q, hq, -, har, -⟩ := h.nameArchComponents _ _ _ idx hix
    rw [hkey] at hix
    obtain ⟨q', hq', -, har', -⟩ := h.nameArchComponents _ _ _ idx hix
    rw [hq] at hq'
    obtain rfl := some.inj hq'
    exact hne (har.symm.trans har')
  obtain ⟨hn, har⟩ := not_or.mp hps
  exact ⟨hn, har, hcmp⟩

end

/-- **The index leads to the packages that are asked for, and to the best ones whatever the order of
the insertions, exactly if there are no colons in the parts of the keys.** -/
theorem serves_iff (debianArch : Text) (inserted : List RepositoryPackage) :
    Serves debianArch inserted ↔ ∀ p ∈ inserted, p.ColonFree :=
  ⟨fun h _ hp => colonFree_of_serves h hp, serves_of_colonFree⟩

def colonArchitecture : RepositoryPackage := ⟨⟨"tool", "1.0", [], 0, 0⟩, "gnu:amd64", mainComponent⟩

def colonName : RepositoryPackage := ⟨⟨"tool:gnu", "2.0", [], 0, 0⟩, "amd64", mainComponent⟩

/-- The two packages have one key: the name and the architecture of one of them lead to the other.
-/
theorem getNameArch_other_package :
    (ofPackages "amd64".toList [colonArchitecture, colonName]).getNameArch "tool".toList
      "gnu:amd64".toList = some colonName ∧
    colonName.name ≠ "tool".toList ∧
    ¬Serves "amd64".toList [colonArchitecture, colonName] := by
  refine ⟨by decide +kernel, by decide, fun h => ?_⟩
  exact (colonFree_of_serves h (p := colonName) (by simp)).1 (by decide)

end DebianPackageIndex

end Omg.Debian
