import Mathlib.Data.List.Infix
import Mathlib.Data.List.TakeWhile
import Omg.Debian.Index

/-!
# Queries with an architecture and a component

A query `name:architecture:component` is looked up in the three tables of the index, from the most
special one to the most general one. The two general tables keep the better one of two packages.

Source: `src/package_managers/debian_db/db.rs`.
-/

namespace Omg.Debian

open Collections List Text

lemma champion_true {α : Type} (l : List α) : champion (fun _ _ => true) l = l.getLast? := by
  induction l using List.reverseRecOn with
  | nil => rfl
  | append_singleton l a ih =>
    rw [champion_concat, getLast?_concat]
    cases champion (fun _ _ => true) l with
    | none => rfl
    | some b => rfl

namespace DebianPackageIndex

def getQuery (index : DebianPackageIndex) (query : Text) : Option RepositoryPackage :=
  match splitOnce ':' query with
  | some (name, rest) =>
    match splitOnce ':' rest with
    | some (arch, component) =>
      ((index.getNameArchComponent name arch component).or (index.getNameArch name arch)).or
        (index.get name)
    | none => (index.getNameArch name rest).or (index.get name)
  | none => index.get query

section

variable (debianArch : Text) (inserted : List RepositoryPackage) (name arch component : Text)

def componentKey (p : RepositoryPackage) : Text :=
  nameArchComponentKey p.name p.architecture p.component

lemma getNameArchComponent_ofPackages :
    (ofPackages debianArch inserted).getNameArchComponent name arch component =
      (inserted.filter fun p =>
        componentKey p = nameArchComponentKey name arch component).getLast? := by
  have hlk := lookup_eq_champion (packages_ofPackages debianArch inserted)
    (tabulates_ofPackages debianArch inserted).2.2 (nameArchComponentKey name arch component)
  rw [getNameArchComponent, hlk, champion_true]
  rfl

lemma exists_splitOnce_nameArchComponentKey : ∃ name' rest arch' comp',
      splitOnce ':' (nameArchComponentKey name arch component) = some (name', rest) ∧
      splitOnce ':' rest = some (arch', comp') ∧
      nameArchComponentKey name' arch' comp' = nameArchComponentKey name arch component := by
  have hcol : 2 ≤ (nameArchComponentKey name arch component).count ':' := by
    simp only [nameArchComponentKey, count_append, count_cons_self]
    omega
  have hmem : ':' ∈ nameArchComponentKey name arch component := count_pos_iff.mp (by omega)
  obtain ⟨name', rest, hkey, hn'⟩ := eq_append_cons_of_mem hmem
  rw [hkey, count_append, count_cons_self, count_eq_zero_of_not_mem hn'] at hcol
  have hr : ':' ∈ rest := count_pos_iff.mp (by omega)
  obtain ⟨arch', comp', rfl, har'⟩ := eq_append_cons_of_mem hr
  exact ⟨name', _, arch', comp', hkey ▸ splitOnce_append hn' _, splitOnce_append har' _, hkey.symm⟩

lemma getQuery_component
    (h : ∃ p ∈ inserted, componentKey p = nameArchComponentKey name arch component) :
    (ofPackages debianArch inserted).getQuery (nameArchComponentKey name arch component) =
      (inserted.filter fun p =>
        componentKey p = nameArchComponentKey name arch component).getLast? := by
  obtain ⟨name', rest, arch', comp', hf, hsec, hkey⟩ :=
    exists_splitOnce_nameArchComponentKey name arch component
  obtain ⟨p, hp, hpk⟩ := h
  have hmem : p ∈ inserted.filter fun p =>
      componentKey p = nameArchComponentKey name arch component :=
    mem_filter.mpr ⟨hp, decide_eq_true hpk⟩
  rw [getQuery]
  simp only [hf, hsec]
  rw [getNameArchComponent_ofPackages, hkey]
  cases hla : (inserted.filter fun p =>
      componentKey p = nameArchComponentKey name arch component).getLast? with
  | none =>
    rw [getLast?_eq_none_iff.mp hla] at hmem
    cases hmem
  | some last => rfl

end

/-! ### The newest package -/

def HasParts (name arch component : Text) (p : RepositoryPackage) : Prop :=
  p.name = name ∧ p.architecture = arch ∧ p.component = component

/-- The answer is a package with the parts of the query, and no package with these parts has a
greater version. -/
def AnswersNewest (debianArch : Text) (inserted : List RepositoryPackage)
    (name arch component : Text) : Prop :=
  ∃ p, (ofPackages debianArch inserted).getQuery (nameArchComponentKey name arch component) =
      some p ∧
    p ∈ inserted ∧ HasParts name arch component p ∧
    ∀ q ∈ inserted, HasParts name arch component q → compareDebVersions q.version p.version ≠ .gt

/-- **The newest package.** If there is a package with the parts of a query then the answer is the
newest one exactly if the last package with the key of the query has these parts, and is the newest
one. -/
theorem getQuery_newest_iff (debianArch : Text) (inserted : List RepositoryPackage)
    (name arch component : Text) (h : ∃ p ∈ inserted, HasParts name arch component p) :
    AnswersNewest debianArch inserted name arch component ↔
      ∀ before p after, inserted = before ++ p :: after →
        componentKey p = nameArchComponentKey name arch component →
        (∀ q ∈ after, componentKey q ≠ nameArchComponentKey name arch component) →
        HasParts name arch component p ∧ ∀ q ∈ before, HasParts name arch component q →
          compareDebVersions q.version p.version ≠ .gt := by
  have hkyd : ∀ p, HasParts name arch component p →
      componentKey p = nameArchComponentKey name arch component := by
    rintro p ⟨rfl, rfl, rfl⟩
    rfl
  have hans := getQuery_component debianArch inserted name arch component (by
    obtain ⟨p, hp, hps⟩ := h
    exact ⟨p, hp, hkyd p hps⟩)
  -- The last package with the key, with what stands before and behind it.
  have hla : ∀ before p after, inserted = before ++ p :: after →
      componentKey p = nameArchComponentKey name arch component →
      (∀ q ∈ after, componentKey q ≠ nameArchComponentKey name arch component) →
      (ofPackages debianArch inserted).getQuery (nameArchComponentKey name arch component) =
        some p := by
    intro before p after hsp hp haf
    have hno : after.filter (fun p =>
        componentKey p = nameArchComponentKey name arch component) = [] :=
      filter_eq_nil_iff.mpr (by simpa using haf)
    rw [hans, hsp, filter_append, filter_cons_of_pos (by simpa using hp), hno, getLast?_concat]
  constructor
  · rintro ⟨p, hp, -, hps, hmax⟩ before q after hsp hq haf
    obtain rfl : q = p := Option.some.inj ((hla before q after hsp hq haf).symm.trans hp)
    refine ⟨hps, fun r hr => hmax r ?_⟩
    rw [hsp]
    exact mem_append_left _ hr
  · intro hco
    cases hp : (ofPackages debianArch inserted).getQuery
        (nameArchComponentKey name arch component) with
    | none =>
      obtain ⟨p, hmem, hps⟩ := h
      rw [hans, getLast?_eq_none_iff, filter_eq_nil_iff] at hp
      exact absurd (decide_eq_true (hkyd p hps)) (hp p hmem)
    | some p =>
      rw [hans] at hp
      obtain ⟨ft, hfil⟩ := getLast?_eq_some_iff.mp hp
      obtain ⟨before, rest, hsp, -, hre⟩ := filter_eq_append_iff.mp hfil
      obtain ⟨skp, after, rfl, -, hkey, haf⟩ := filter_eq_cons_iff.mp hre
      rw [← append_assoc] at hsp
      have hno : ∀ q ∈ after, componentKey q ≠ nameArchComponentKey name arch component := by
        intro q hq heq
        exact filter_eq_nil_iff.mp haf q hq (decide_eq_true heq)
      obtain ⟨hps, hmax⟩ := hco _ p after hsp (of_decide_eq_true hkey) hno
      refine ⟨p, by rw [← hp, hans], by rw [hsp]; simp, hps, fun q hq hqpa => ?_⟩
      rw [hsp] at hq
      rcases mem_append.mp hq with hq | hq
      · exact hmax q hq hqpa
      · rcases mem_cons.mp hq with rfl | hq
        · have hsl : compareDebVersions q.version q.version = .eq := Std.ReflCmp.compare_self
          rw [hsl]
          decide
        · exact absurd (hkyd q hqpa) (hno q hq)

def libraryVersion (version : String) : RepositoryPackage :=
  ⟨⟨"libc6", version.toList, [], 0, 0⟩, "amd64", mainComponent⟩

theorem getQuery_newest_last :
    HasParts "libc6".toList "amd64".toList mainComponent (libraryVersion "2.1") ∧
    AnswersNewest "amd64".toList [libraryVersion "2.1", libraryVersion "2.2"] "libc6".toList
      "amd64".toList mainComponent := by
  refine ⟨⟨rfl, rfl, rfl⟩, (getQuery_newest_iff _ _ _ _ _
    ⟨libraryVersion "2.1", by simp, rfl, rfl, rfl⟩).mpr fun pre p aft hsp _ haf => ?_⟩
  rcases pre with _ | ⟨first, _ | ⟨second, pre⟩⟩
  · cases hsp
    exact absurd rfl (haf (libraryVersion "2.2") (by simp))
  · cases hsp
    refine ⟨⟨rfl, rfl, rfl⟩, fun q hq _ => ?_⟩
    rw [mem_singleton.mp hq]
    decide +kernel
  · have hlen := congrArg List.length hsp
    simp at hlen

/-- The version of the second suite replaces the newer one of the first suite. -/
theorem getQuery_not_newest :
    HasParts "libc6".toList "amd64".toList mainComponent (libraryVersion "2.2") ∧
      ¬AnswersNewest "amd64".toList [libraryVersion "2.2", libraryVersion "2.1"] "libc6".toList
        "amd64".toList mainComponent := by
  refine ⟨⟨rfl, rfl, rfl⟩, ?_⟩
  rintro ⟨p, hp, -, -, hmax⟩
  have hans : (ofPackages "amd64" [libraryVersion "2.2", libraryVersion "2.1"]).getQuery
      (nameArchComponentKey "libc6" "amd64" mainComponent) =
        some (libraryVersion "2.1") := by
    decide +kernel
  obtain rfl := Option.some.inj (hans.symm.trans hp)
  exact hmax (libraryVersion "2.2") (by simp) ⟨rfl, rfl, rfl⟩ (by decide +kernel)

end DebianPackageIndex

/-!
### Searching the sorted map of names

The names of an index, in lower case, are the keys of a sorted map to the positions of the packages.
A search looks for the query itself, then for keys that begin with it, then for keys that have it
somewhere.

Unicode lower case is a parameter. The library of the map is a sorted map, and texts are compared as
their bytes are.
-/

open Option SortedMap DebianPackageIndex

/-- `sorted_fst_entries`: names that are equal in lower case share the greatest position. -/
def sortedFstEntries (toLowercase : Text → Text) (names : List (Text × ℕ)) : SortedMap Text ℕ :=
  names.foldl (fun entries name =>
    let key := toLowercase name.1
    entries.insert key (((entries.get key).map (max · name.2)).getD name.2)) .empty

/-- `DebianMmapIndex::get`. -/
def mmapGet (index : DebianPackageIndex) (query : Text) : Option RepositoryPackage :=
  let idx :=
    match splitOnce ':' query with
    | some (name, rest) =>
      match splitOnce ':' rest with
      | some (architecture, _) =>
        ((index.nameArchComponentToIdx.get query).or
          (index.nameArchToIdx.get (nameArchKey name architecture))).or (index.nameToIdx.get name)
      | none => (index.nameArchToIdx.get query).or (index.nameToIdx.get name)
    | none => index.nameToIdx.get query
  idx.bind (index.packages[·]?)

def fstSearchBy (resolve : Text → ℕ → Option RepositoryPackage) (fstMap : SortedMap Text ℕ)
    (query : Text) (installed : Text → Bool) : List (RepositoryPackage × Bool) :=
  let found := fun entries : List (Text × ℕ) =>
    (entries.filterMap fun e => (resolve e.1 e.2).map fun pkg => (pkg, installed pkg.name)).take 100
  match (fstMap.get query).bind (resolve query) with
  | some pkg => [(pkg, installed pkg.name)]
  | none =>
    let starting := found ((fstMap.entries.filter (query ≤ ·.1)).takeWhile (query <+: ·.1))
    if starting ≠ [] then starting else found (fstMap.entries.filter (query <:+: ·.1))

/-- `fst_search`. -/
def fstSearch (fstMap : SortedMap Text ℕ) (index : DebianPackageIndex) :=
  fstSearchBy (fun _ idx => index.packages[idx]?) fstMap

/-- `fst_mmap_search`. -/
def fstMmapSearch (fstMap : SortedMap Text ℕ) (index : DebianPackageIndex) :=
  fstSearchBy (fun key _ => mmapGet index key) fstMap

section

variable {resolve resolve' : Text → ℕ → Option RepositoryPackage} {fstMap : SortedMap Text ℕ}
  {query : Text} {installed : Text → Bool}

lemma fstSearchBy_congr
    (h : ∀ e ∈ fstMap.entries, query <:+: e.1 → resolve e.1 e.2 = resolve' e.1 e.2) :
    fstSearchBy resolve fstMap query installed = fstSearchBy resolve' fstMap query installed := by
  have hexact : (fstMap.get query).bind (resolve query) =
      (fstMap.get query).bind (resolve' query) := by
    cases hget : fstMap.get query with
    | none => rfl
    | some idx => exact h (query, idx) (mem_iff_get.mpr hget) infix_rfl
  have hfound : ∀ entries : List (Text × ℕ),
      (∀ e ∈ entries, e ∈ fstMap.entries ∧ query <:+: e.1) →
      (entries.filterMap fun e => (resolve e.1 e.2).map fun pkg => (pkg, installed pkg.name)) =
        entries.filterMap fun e => (resolve' e.1 e.2).map fun pkg => (pkg, installed pkg.name) := by
    intro entries hes
    exact filterMap_congr fun e he => by rw [h e (hes e he).1 (hes e he).2]
  unfold fstSearchBy
  simp only [hexact]
  have hstarts : ∀ e ∈ (fstMap.entries.filter (query ≤ ·.1)).takeWhile (query <+: ·.1),
      query <+: e.1 := fun e he => by simpa using mem_takeWhile_imp he
  rw [hfound _ fun e he => ⟨mem_of_mem_filter ((takeWhile_sublist _).subset he),
      (hstarts e he).isInfix⟩,
    hfound _ fun e he => ⟨mem_of_mem_filter he, of_decide_eq_true (mem_filter.mp he).2⟩]

/-- What a search returns was resolved from an entry of the map. -/
lemma exists_resolve_of_mem_fstSearchBy {found : RepositoryPackage × Bool}
    (h : found ∈ fstSearchBy resolve fstMap query installed) :
    ∃ e ∈ fstMap.entries, resolve e.1 e.2 = some found.1 := by
  have hmem : ∀ entries : List (Text × ℕ), (∀ e ∈ entries, e ∈ fstMap.entries) →
      found ∈ (entries.filterMap fun e =>
        (resolve e.1 e.2).map fun pkg => (pkg, installed pkg.name)).take 100 →
      ∃ e ∈ fstMap.entries, resolve e.1 e.2 = some found.1 := by
    intro entries hes hfound
    obtain ⟨e, he, hpkg⟩ := mem_filterMap.mp (mem_of_mem_take hfound)
    obtain ⟨pkg, hres, rfl⟩ := map_eq_some_iff.mp hpkg
    exact ⟨e, hes e he, hres⟩
  unfold fstSearchBy at h
  dsimp only at h
  split at h
  next pkg hexact =>
    obtain ⟨idx, hget, hres⟩ := bind_eq_some_iff.mp hexact
    rw [mem_singleton.mp h]
    exact ⟨(query, idx), mem_iff_get.mpr hget, hres⟩
  next =>
    split_ifs at h
    · exact hmem _ (fun e he => mem_of_mem_filter ((takeWhile_sublist _).subset he)) h
    · exact hmem _ (fun e he => mem_of_mem_filter he) h

lemma fstSearchBy_of_get {idx : ℕ} {pkg : RepositoryPackage} (hget : fstMap.get query = some idx)
    (hres : resolve query idx = some pkg) :
    fstSearchBy resolve fstMap query installed = [(pkg, installed pkg.name)] := by
  simp [fstSearchBy, hget, hres]

end

lemma max?_concat (rows : List ℕ) (row : ℕ) :
    (rows ++ [row]).max? = some ((rows.max?.map (max · row)).getD row) := by
  cases rows <;> simp [max?]

/-- The row of a key is the greatest one among the names that are the key in lower case. -/
lemma get_sortedFstEntries (toLowercase : Text → Text) (names : List (Text × ℕ)) (key : Text) :
    (sortedFstEntries toLowercase names).get key =
      ((names.filter (toLowercase ·.1 = key)).map (·.2)).max? := by
  induction names using List.reverseRecOn with
  | nil => rfl
  | append_singleton names name ih =>
    rw [sortedFstEntries, foldl_append, foldl_cons, foldl_nil, ← sortedFstEntries,
      SortedMap.get_insert, filter_append, map_append]
    split_ifs with hkey
    · subst hkey
      rw [ih, filter_cons_of_pos (by simp), filter_nil, map_singleton, max?_concat]
    · rw [ih, filter_cons_of_neg (by simpa using Ne.symm hkey), filter_nil, map_nil, append_nil]

lemma splitOnce_eq_none {c : Char} {s : Text} (h : c ∉ s) : splitOnce c s = none := by
  induction s with
  | nil => rfl
  | cons x s ih =>
    rw [mem_cons, not_or] at h
    have hx : (x == c) = false := beq_eq_false_iff_ne.mpr fun heq => h.1 heq.symm
    simp [splitOnce, hx, ih h.2]

lemma mmapGet_of_colonFree (index : DebianPackageIndex) {key : Text} (h : ':' ∉ key) :
    mmapGet index key = (index.nameToIdx.get key).bind (index.packages[·]?) := by
  simp only [mmapGet, splitOnce_eq_none h]

section

variable {toLowercase : Text → Text} {debianArch : Text} {inserted : List RepositoryPackage}

lemma nameToIdx_points {name : Text} {row : ℕ}
    (hget : (ofPackages debianArch inserted).nameToIdx.get name = some row) :
    ∃ p ∈ inserted, (ofPackages debianArch inserted).packages[row]? = some p ∧ p.name = name := by
  rw [packages_ofPackages]
  exact (tabulates_ofPackages debianArch inserted).1.points hget

/-- An entry of the sorted map is the last row of the names that it stands for. -/
lemma sortedFstEntries_spec {key : Text} {row : ℕ}
    (h : (sortedFstEntries toLowercase (ofPackages debianArch inserted).nameToIdx.entries).get
      key = some row) :
    (∃ name, toLowercase name = key ∧
      (ofPackages debianArch inserted).nameToIdx.get name = some row) ∧
    ∀ name row', toLowercase name = key →
      (ofPackages debianArch inserted).nameToIdx.get name = some row' → row' ≤ row := by
  rw [get_sortedFstEntries, max?_eq_some_iff] at h
  obtain ⟨hmem, hmax⟩ := h
  obtain ⟨e, he, rfl⟩ := mem_map.mp hmem
  obtain ⟨he, hkey⟩ := mem_filter.mp he
  refine ⟨⟨e.1, of_decide_eq_true hkey, mem_iff_get.mp he⟩, fun name row' hname hget => ?_⟩
  exact hmax row' (mem_map.mpr ⟨(name, row'), mem_filter.mpr ⟨mem_iff_get.mpr hget,
    decide_eq_true hname⟩, rfl⟩)

variable (toLowercase) in
lemma exists_get_sortedFstEntries {name : Text} {row : ℕ}
    (h : (ofPackages debianArch inserted).nameToIdx.get name = some row) :
    ∃ last, (sortedFstEntries toLowercase (ofPackages debianArch inserted).nameToIdx.entries).get
      (toLowercase name) = some last := by
  rw [get_sortedFstEntries]
  refine ne_none_iff_exists'.mp fun hnone => ?_
  rw [max?_eq_none_iff, map_eq_nil_iff, filter_eq_nil_iff] at hnone
  exact hnone (name, row) (mem_iff_get.mpr h) (by simp)

end

def namedPackage (name : String) : RepositoryPackage :=
  ⟨⟨name.toList, "1", [], 0, 0⟩, "amd64", "main"⟩

end Omg.Debian
