import Omg.Collections.Occurrences
import Omg.Debian.Index
import Omg.Text.Utf8

/-!
# Searching names and descriptions in one buffer

The names and descriptions of all packages stand in one buffer, in lower case, with a zero byte
behind each package. The buffer is searched for the bytes of a query, and each occurrence leads to
the package in which it lies. The search stops at a hundred packages.

Unicode lower case, which is used for the order only, is a parameter.

Source: `src/package_managers/debian_db/db.rs`.
-/

namespace Omg.Debian

open Collections Text List

structure DescribedPackage extends RepositoryPackage where
  description : Text
  deriving DecidableEq

/-- `u8::to_ascii_lowercase`. -/
def byteToLower (b : UInt8) : UInt8 := if 65 ≤ b ∧ b ≤ 90 then b + 32 else b

def searchedText (package : DescribedPackage) : List UInt8 :=
  (utf8 package.name).map byteToLower ++ 32 :: (utf8 package.description).map byteToLower

def hydrateIndexCache (packages : List DescribedPackage) : List UInt8 × List ℕ :=
  let filled := packages.foldl
    (fun cache package => (cache.1 ++ (searchedText package ++ [0]), cache.2 ++ [cache.1.length]))
    ([], [])
  (filled.1, filled.2 ++ [filled.1.length])

lemma foldl_hydrate (packages : List DescribedPackage) (buffer : List UInt8) (offsets : List ℕ) :
    let filled := packages.foldl
      (fun cache pkg => (cache.1 ++ (searchedText pkg ++ [0]), cache.2 ++ [cache.1.length]))
      (buffer, offsets)
    filled.1 = buffer ++ joined 0 (packages.map searchedText) ∧
      filled.2 ++ [filled.1.length] =
        offsets ++ startsFrom buffer.length (packages.map searchedText) := by
  induction packages generalizing buffer offsets with
  | nil => simp [joined, startsFrom]
  | cons pkg rest ih =>
    obtain ⟨hbuf, hoff⟩ := ih (buffer ++ (searchedText pkg ++ [0])) (offsets ++ [buffer.length])
    refine ⟨hbuf.trans (by simp [joined]), hoff.trans ?_⟩
    simp [startsFrom]

lemma hydrateIndexCache_eq (packages : List DescribedPackage) : hydrateIndexCache packages =
      (joined 0 (packages.map searchedText), startsFrom 0 (packages.map searchedText)) := by
  obtain ⟨hbuf, hoff⟩ := foldl_hydrate packages [] []
  exact Prod.ext hbuf hoff

structure FoundPackages where
  exactMatches : List ℕ
  prefixMatches : List ℕ
  substringMatches : List ℕ

namespace FoundPackages

def empty : FoundPackages := ⟨[], [], []⟩

def all (found : FoundPackages) : List ℕ :=
  found.exactMatches ++ found.prefixMatches ++ found.substringMatches

def total (found : FoundPackages) : ℕ :=
  found.exactMatches.length + found.prefixMatches.length + found.substringMatches.length

def push (found : FoundPackages) (queryLower nameLower : Text) (idx : ℕ) : FoundPackages :=
  if nameLower = queryLower then { found with exactMatches := found.exactMatches ++ [idx] }
  else if queryLower <+: nameLower then
    { found with prefixMatches := found.prefixMatches ++ [idx] }
  else { found with substringMatches := found.substringMatches ++ [idx] }

end FoundPackages

section

variable (toLowercase : Text → Text)

def visit (packages : List DescribedPackage) (queryLower : Text) (seen : List ℕ)
    (found : FoundPackages) (idx : ℕ) : FoundPackages :=
  if idx ∈ seen then found
  else
    match packages[idx]? with
    | some package => found.push queryLower (toLowercase package.name) idx
    | none => found

def searchLoop (packages : List DescribedPackage) (queryLower : Text) :
    List ℕ → List ℕ → FoundPackages → FoundPackages
  | [], _, found => found
  | idx :: rest, seen, found =>
    let found' := visit toLowercase packages queryLower seen found idx
    if 100 ≤ found'.total then found' else searchLoop packages queryLower rest (idx :: seen) found'

/-- The positions of the packages that `simd_search_fallback` returns. -/
def foundIndices (packages : List DescribedPackage) (queryLower : Text) (searchBuffer : List UInt8)
    (packageOffsets : List ℕ) : FoundPackages :=
  searchLoop toLowercase packages queryLower
    ((matchIndices (utf8 queryLower) searchBuffer).map (locate packageOffsets)) [] .empty

/-- `simd_search_fallback`: the packages that are found, with their installed state. -/
def simdSearchFallback (packages : List DescribedPackage) (queryLower : Text)
    (searchBuffer : List UInt8) (packageOffsets : List ℕ) (installedSet : List Text) :
    List (DescribedPackage × Bool) :=
  ((foundIndices toLowercase packages queryLower searchBuffer packageOffsets).all.filterMap
    (packages[·]?)).map fun package => (package, decide (package.name ∈ installedSet))

/-! ### What is found -/

structure Grouped (packages : List DescribedPackage) (queryLower : Text) (found : FoundPackages) :
    Prop where
  nodup : found.all.Nodup
  exact : ∀ idx ∈ found.exactMatches, ∃ package, packages[idx]? = some package ∧
    toLowercase package.name = queryLower
  starts : ∀ idx ∈ found.prefixMatches, ∃ package, packages[idx]? = some package ∧
    toLowercase package.name ≠ queryLower ∧ queryLower <+: toLowercase package.name
  rest : ∀ idx ∈ found.substringMatches, ∃ package, packages[idx]? = some package ∧
    ¬queryLower <+: toLowercase package.name

variable {toLowercase} {packages : List DescribedPackage} {queryLower : Text}
  {found : FoundPackages} {idx : ℕ}

namespace FoundPackages

lemma total_eq (found : FoundPackages) : found.total = found.all.length := by
  simp [total, all, Nat.add_assoc]

lemma mem_push {found : FoundPackages} {nameLower : Text} {idx i : ℕ} :
    i ∈ (found.push queryLower nameLower idx).all ↔ i ∈ found.all ∨ i = idx := by
  unfold push all
  split_ifs <;> simp <;> tauto

lemma nodup_push {found : FoundPackages} {nameLower : Text} {idx : ℕ} (h : found.all.Nodup)
    (hix : idx ∉ found.all) : (found.push queryLower nameLower idx).all.Nodup := by
  have hp : (found.push queryLower nameLower idx).all.Perm (idx :: found.all) := by
    unfold push all
    split_ifs
    · simp only [append_assoc]
      exact perm_middle
    · simp only [append_assoc]
      rw [← append_assoc]
      exact perm_middle.trans (by simp)
    · rw [← append_assoc]
      exact perm_append_singleton _ _
  exact hp.nodup_iff.mpr (nodup_cons.mpr ⟨hix, h⟩)

end FoundPackages

open FoundPackages

section

variable (h : Grouped toLowercase packages queryLower found)

include h

lemma Grouped.push
    {pkg : DescribedPackage} (hpk : packages[idx]? = some pkg) (hix : idx ∉ found.all) :
    Grouped toLowercase packages queryLower (found.push queryLower (toLowercase pkg.name) idx) := by
  refine ⟨FoundPackages.nodup_push h.nodup hix, ?_, ?_, ?_⟩
  · unfold FoundPackages.push
    split_ifs with hn hsta
    · refine fun i hi => (mem_append.mp hi).elim (h.exact i) fun hnew => ?_
      exact ⟨pkg, by rwa [mem_singleton.mp hnew], hn⟩
    · exact h.exact
    · exact h.exact
  · unfold FoundPackages.push
    split_ifs with hn hsta
    · exact h.starts
    · refine fun i hi => (mem_append.mp hi).elim (h.starts i) fun hnew => ?_
      exact ⟨pkg, by rwa [mem_singleton.mp hnew], hn, hsta⟩
    · exact h.starts
  · unfold FoundPackages.push
    split_ifs with hn hsta
    · exact h.rest
    · exact h.rest
    · refine fun i hi => (mem_append.mp hi).elim (h.rest i) fun hnew => ?_
      exact ⟨pkg, by rwa [mem_singleton.mp hnew], hsta⟩

lemma Grouped.visit {seen : List ℕ}
    (hsn : ∀ i, i ∈ seen ↔ i ∈ found.all) (hix : idx < packages.length) :
    Grouped toLowercase packages queryLower (visit toLowercase packages queryLower seen found idx) ∧
      ∀ i, i ∈ (visit toLowercase packages queryLower seen found idx).all ↔
        i ∈ found.all ∨ i = idx := by
  unfold Debian.visit
  by_cases hmem : idx ∈ seen
  · rw [if_pos hmem]
    refine ⟨h, fun i => ⟨.inl, ?_⟩⟩
    rintro (hi | rfl)
    · exact hi
    · exact (hsn i).mp hmem
  · rw [if_neg hmem, getElem?_eq_getElem hix]
    exact ⟨h.push (getElem?_eq_getElem hix) fun hall => hmem ((hsn idx).mpr hall),
      fun i => mem_push⟩

lemma searchLoop_spec {indices seen : List ℕ} (hsn : ∀ i, i ∈ seen ↔ i ∈ found.all)
    (hind : ∀ i ∈ indices, i < packages.length) {res : FoundPackages}
    (hres : searchLoop toLowercase packages queryLower indices seen found = res) :
    Grouped toLowercase packages queryLower res ∧ (∀ i ∈ res.all, i ∈ found.all ∨ i ∈ indices) ∧
      ((∀ i, i ∈ found.all ∨ i ∈ indices → i ∈ res.all) ∨ 100 ≤ res.all.length) := by
  induction indices generalizing seen found with
  | nil =>
    subst hres
    exact ⟨h, fun i hi => .inl hi, .inl fun i hi => hi.elim id fun hnil => absurd hnil not_mem_nil⟩
  | cons idx rest ih =>
    obtain ⟨hix, hr⟩ := forall_mem_cons.mp hind
    obtain ⟨hgro, hmem⟩ := h.visit hsn hix
    simp only [searchLoop] at hres
    generalize visit toLowercase packages queryLower seen found idx = fd' at *
    split_ifs at hres with hma
    · subst hres
      rw [total_eq] at hma
      refine ⟨hgro, fun i hi => ((hmem i).mp hi).imp_right ?_, .inr hma⟩
      rintro rfl
      exact mem_cons_self
    · have hsn' : ∀ i, i ∈ idx :: seen ↔ i ∈ fd'.all := fun i => by
        rw [mem_cons, hsn, hmem, or_comm]
      obtain ⟨hri, hsub, hall⟩ := ih hgro hsn' hr hres
      refine ⟨hri, fun i hi => ?_, hall.imp_left fun heve i hi => heve i ?_⟩
      · rcases hsub i hi with hfo | hin
        · refine ((hmem i).mp hfo).imp_right ?_
          rintro rfl
          exact mem_cons_self
        · exact .inr (mem_cons_of_mem _ hin)
      · rw [hmem]
        rcases hi with hfo | hin
        · exact .inl (.inl hfo)
        · rcases mem_cons.mp hin with rfl | hin
          · exact .inl (.inr rfl)
          · exact .inr hin

end

def qualifying (packages : List DescribedPackage) (queryLower : Text) : List ℕ :=
  (List.range packages.length).filter fun idx =>
    (packages[idx]?).any fun package => decide (utf8 queryLower <:+: searchedText package)

lemma mem_qualifying : idx ∈ qualifying packages queryLower ↔
    ∃ pkg, packages[idx]? = some pkg ∧ utf8 queryLower <:+: searchedText pkg := by
  rw [qualifying, mem_filter, mem_range]
  constructor
  · rintro ⟨hlt, hany⟩
    rw [getElem?_eq_getElem hlt] at hany ⊢
    exact ⟨_, rfl, of_decide_eq_true hany⟩
  · rintro ⟨pkg, hpk, hin⟩
    exact ⟨(List.getElem?_eq_some_iff.mp hpk).1, by rw [hpk]; exact decide_eq_true hin⟩

lemma mem_map_locate_iff (hq : queryLower ≠ []) (hnul : (0 : UInt8) ∉ utf8 queryLower) :
    idx ∈ (matchIndices (utf8 queryLower) (hydrateIndexCache packages).1).map
        (locate (hydrateIndexCache packages).2) ↔ idx ∈ qualifying packages queryLower := by
  have hby := utf8_ne_nil hq
  rw [hydrateIndexCache_eq, mem_map, mem_qualifying]
  have hloc : ∀ pos ∈ matchIndices (utf8 queryLower) (joined 0 (packages.map searchedText)),
      locate (startsFrom 0 (packages.map searchedText)) pos =
        segmentOf (packages.map searchedText) pos := by
    intro pos hpos
    have := locate_startsFrom 0 (isPrefix_of_mem_matchIndices hpos).1
    rwa [Nat.zero_add] at this
  constructor
  · rintro ⟨pos, hpos, rfl⟩
    obtain ⟨seg, hseg, hin⟩ :=
      isInfix_of_isPrefix_drop hnul hby (isPrefix_of_mem_matchIndices hpos).2
    rw [getElem?_map] at hseg
    obtain ⟨pkg, hpk, rfl⟩ := Option.map_eq_some_iff.mp hseg
    rw [hloc pos hpos]
    exact ⟨pkg, hpk, hin⟩
  · rintro ⟨pkg, hpk, hin⟩
    have hseg : (packages.map searchedText)[idx]? = some (searchedText pkg) := by
      rw [getElem?_map, hpk]
      rfl
    obtain ⟨pos, hpos, hsegmentOf⟩ := exists_matchIndices_joined hnul hby hseg hin
    exact ⟨pos, hpos, (hloc pos hpos).trans hsegmentOf⟩

end

/-- The search, with the buffer and the offsets of the index, finds packages whose names and
descriptions have the query, each once, and all of them if there are fewer than a hundred. The
packages whose names are the query come first, then those whose names begin with it, then the
others. -/
theorem simdSearchFallback_spec (toLowercase : Text → Text) (packages : List DescribedPackage)
    (queryLower : Text) (installedSet : List Text) (hquery : queryLower ≠ [])
    (hnul : (0 : UInt8) ∉ utf8 queryLower) :
    ∃ found : FoundPackages,
      simdSearchFallback toLowercase packages queryLower (hydrateIndexCache packages).1
          (hydrateIndexCache packages).2 installedSet =
        ((found.exactMatches ++ found.prefixMatches ++ found.substringMatches).filterMap
          (packages[·]?)).map (fun package => (package, decide (package.name ∈ installedSet))) ∧
      Grouped toLowercase packages queryLower found ∧
      (∀ idx ∈ found.all, idx ∈ qualifying packages queryLower) ∧
      ((qualifying packages queryLower).length < 100 →
        ∀ idx ∈ qualifying packages queryLower, idx ∈ found.all) := by
  have hind : ∀ idx ∈ (matchIndices (utf8 queryLower) (hydrateIndexCache packages).1).map
      (locate (hydrateIndexCache packages).2), idx < packages.length := by
    intro idx hix
    obtain ⟨package, hpk, -⟩ := mem_qualifying.mp ((mem_map_locate_iff hquery hnul).mp hix)
    exact (List.getElem?_eq_some_iff.mp hpk).1
  have hem : Grouped toLowercase packages queryLower .empty :=
    ⟨nodup_nil, fun _ h => absurd h not_mem_nil, fun _ h => absurd h not_mem_nil,
      fun _ h => absurd h not_mem_nil⟩
  obtain ⟨hgro, hsub, hall⟩ := searchLoop_spec hem (fun _ => Iff.rfl) hind rfl
  have hon : ∀ idx ∈ (foundIndices toLowercase packages queryLower (hydrateIndexCache packages).1
      (hydrateIndexCache packages).2).all, idx ∈ qualifying packages queryLower := by
    intro idx hix
    rcases hsub idx hix with hnil | hin
    · exact absurd hnil not_mem_nil
    · exact (mem_map_locate_iff hquery hnul).mp hin
  refine ⟨_, rfl, hgro, hon, fun hfew idx hix => ?_⟩
  rcases hall with heve | hma
  · exact heve idx (.inr ((mem_map_locate_iff hquery hnul).mpr hix))
  · have hlen := (subperm_of_subset hgro.nodup hon).length_le
    exact absurd (hma.trans hlen) (not_le.mpr hfew)

/-- A package whose description has the query. -/
theorem simdSearchFallback_vim :
    let package : DescribedPackage := ⟨⟨⟨"vim".toList, "9".toList, [], 0, 0⟩, "amd64".toList,
      "main".toList⟩, "An Editor".toList⟩
    ("editor".toList ≠ [] ∧ (0 : UInt8) ∉ utf8 "editor".toList) ∧
      ∃ found : FoundPackages,
        Grouped toAsciiLowercase [package] "editor".toList found ∧ 0 ∈ found.all := by
  intro package
  have hq : "editor".toList ≠ [] ∧ (0 : UInt8) ∉ utf8 "editor".toList ∧
      qualifying [package] "editor".toList = [0] := by decide +kernel
  obtain ⟨hne, hnul, hqua⟩ := hq
  obtain ⟨found, -, hgro, -, hall⟩ :=
    simdSearchFallback_spec toAsciiLowercase [package] "editor".toList [] hne hnul
  refine ⟨⟨hne, hnul⟩, found, hgro, hall ?_ 0 ?_⟩
  · rw [hqua]
    decide
  · rw [hqua]
    exact mem_singleton_self 0

end Omg.Debian
