import Mathlib.Data.List.Infix
import Mathlib.Data.String.Basic
import Omg.Collections.SortedMap
import Omg.Daemon.Protocol
import Omg.Text.Utf8

/-!
# The package index of the daemon

The texts of the packages are kept once each, in a pool, and a package has handles to them. A
package is found by its name through a Bloom filter, which never denies a name that was inserted,
and a table of the first package with each name.

Handles have 32 bits. They are exact while the pool has at most `2 ^ 32` texts. The numbers of
packages in the trigram index have 32 bits as well. The hash function of the filter is a parameter.

Source: `src/daemon/index.rs`.
-/

namespace Omg.Daemon

open Collections List Text

/-!
### The trigram index

For each three bytes that follow each other in a name, the numbers of the packages with such names
are listed. A query can only occur in the names that have all its trigrams.
-/

/-- `slice::windows(3)`. -/
def windows : Bytes → List Bytes
  | a :: b :: c :: rest => [a, b, c] :: windows (b :: c :: rest)
  | _ => []

lemma mem_windows_iff {s g : Bytes} : g ∈ windows s ↔ g.length = 3 ∧ g <:+: s := by
  fun_induction windows s with
  | case1 a b c rest ih =>
    rw [mem_cons, ih]
    constructor
    · rintro (rfl | ⟨hlen, hin⟩)
      · exact ⟨rfl, infix_iff_prefix_suffix.mpr ⟨a :: b :: c :: rest, ⟨rest, rfl⟩, suffix_refl _⟩⟩
      · exact ⟨hlen, hin.trans (suffix_cons _ _).isInfix⟩
    · rintro ⟨hlen, hin⟩
      rcases infix_cons_iff.mp hin with hst | hin
      · left
        obtain ⟨more, hmr⟩ := hst
        match g, hlen with
        | [x, y, z], _ =>
          simp only [cons_append, List.cons.injEq] at hmr
          rw [hmr.1, hmr.2.1, hmr.2.2.1]
      · exact .inr ⟨hlen, hin⟩
  | case2 s hsh =>
    simp only [not_mem_nil, false_iff, not_and]
    intro hlen hin
    have hle := hin.length_le
    match s, hsh with
    | [], _ => simp [hlen] at hle
    | [_], _ => simp [hlen] at hle
    | [_, _], _ => simp [hlen] at hle
    | a :: b :: c :: rest, hsh => exact hsh a b c rest rfl

lemma windows_subset_of_isInfix {q s : Bytes} (h : q <:+: s) : ∀ g ∈ windows q, g ∈ windows s := by
  intro g hg
  obtain ⟨hlen, hin⟩ := mem_windows_iff.mp hg
  exact mem_windows_iff.mpr ⟨hlen, hin.trans h⟩

structure TrigramIndex where
  postings : Bytes → Option (List ℕ)

namespace TrigramIndex

def empty : TrigramIndex := ⟨fun _ => none⟩

def posting (index : TrigramIndex) (g : Bytes) : List ℕ := (index.postings g).getD []

/-- The loop of `insert`: each trigram that is not seen yet gets the package. -/
def insertLoop (idx : ℕ) : List Bytes → List Bytes → TrigramIndex → TrigramIndex
  | [], _, index => index
  | g :: rest, seen, index =>
    if seen.contains g then insertLoop idx rest seen index
    else
      insertLoop idx rest (g :: seen)
        ⟨Function.update index.postings g (some (index.posting g ++ [idx]))⟩

def insert (index : TrigramIndex) (nameLower : Bytes) (idx : ℕ) : TrigramIndex :=
  if nameLower.length < 3 then index else insertLoop idx (windows nameLower) [] index

lemma posting_update (ix : TrigramIndex) (g : Bytes) (l : List ℕ) (g' : Bytes) :
    (⟨Function.update ix.postings g (some l)⟩ : TrigramIndex).posting g' =
      if g' = g then l else ix.posting g' := by
  simp only [posting, Function.update_apply]
  split_ifs <;> rfl

lemma posting_insertLoop (idx : ℕ) (gs seen : List Bytes) (ix : TrigramIndex) (g : Bytes) :
    (insertLoop idx gs seen ix).posting g =
      ix.posting g ++ if g ∈ gs ∧ g ∉ seen then [idx] else [] := by
  induction gs generalizing seen ix with
  | nil => simp [insertLoop]
  | cons first rest ih =>
    unfold insertLoop
    by_cases hsn : first ∈ seen
    · rw [if_pos (contains_iff_mem.mpr hsn), ih]
      by_cases heq : g = first
      · simp [heq, hsn]
      · simp [heq]
    · rw [if_neg (mt contains_iff_mem.mp hsn), ih, posting_update]
      by_cases heq : g = first
      · simp [heq, hsn]
      · simp [heq]

lemma posting_insert (ix : TrigramIndex) (nameLower : Bytes) (idx : ℕ) (g : Bytes) :
    (ix.insert nameLower idx).posting g =
      ix.posting g ++ if g ∈ windows nameLower then [idx] else [] := by
  unfold insert
  split_ifs with hsh hmem hmem
  · obtain ⟨hlen, hin⟩ := mem_windows_iff.mp hmem
    have hle := hin.length_le
    omega
  · rw [append_nil]
  · rw [posting_insertLoop, if_pos ⟨hmem, not_mem_nil⟩]
  · rw [posting_insertLoop, if_neg fun h => hmem h.1]

/-- The loop of `candidates`: the lists of the trigrams are intersected. -/
def intersectLoop (index : TrigramIndex) : List Bytes → Option (List ℕ) → Option (List ℕ)
  | [], result => result
  | g :: rest, result =>
    match index.postings g with
    | none => some []
    | some posting =>
      intersectLoop index rest (some (match result with
        | none => posting
        | some previous => previous.filter (· ∈ posting)))

def candidates (index : TrigramIndex) (queryLower : Bytes) : Option (List ℕ) :=
  if queryLower.length < 3 then none else intersectLoop index (windows queryLower) none

lemma intersectLoop_some (ix : TrigramIndex) (gs : List Bytes) (prev : List ℕ) :
    ∃ l, intersectLoop ix gs (some prev) = some l ∧ l.Sublist prev ∧
      ∀ i, i ∈ l ↔ i ∈ prev ∧ ∀ g ∈ gs, i ∈ ix.posting g := by
  induction gs generalizing prev with
  | nil => exact ⟨prev, rfl, List.Sublist.refl _, fun i => by simp⟩
  | cons g rest ih =>
    unfold intersectLoop
    cases hget : ix.postings g with
    | none =>
      refine ⟨[], rfl, nil_sublist _, fun i => ?_⟩
      have hno : ix.posting g = [] := by rw [posting, hget]; rfl
      simp [hno]
    | some posting =>
      have hpos : ix.posting g = posting := by rw [TrigramIndex.posting, hget]; rfl
      obtain ⟨l, hl, hsub, hmem⟩ := ih (prev.filter (· ∈ posting))
      refine ⟨l, hl, hsub.trans filter_sublist, fun i => ?_⟩
      rw [hmem, mem_filter, forall_mem_cons, hpos, decide_eq_true_eq, and_assoc]

lemma candidates_spec (ix : TrigramIndex) {ql : Bytes} (h : 3 ≤ ql.length) :
    ∃ l g, g ∈ windows ql ∧ ix.candidates ql = some l ∧ l.Sublist (ix.posting g) ∧
      ∀ i, i ∈ l ↔ ∀ g ∈ windows ql, i ∈ ix.posting g := by
  unfold candidates
  match ql, h with
  | a :: b :: c :: rest, _ =>
    unfold windows intersectLoop
    cases hget : ix.postings [a, b, c] with
    | none =>
      have hno : ix.posting [a, b, c] = [] := by rw [posting, hget]; rfl
      refine ⟨[], [a, b, c], mem_cons_self, rfl, nil_sublist _, fun i => ?_⟩
      simp [hno]
    | some posting =>
      have hpos : ix.posting [a, b, c] = posting := by rw [TrigramIndex.posting, hget]; rfl
      obtain ⟨l, hl, hsub, hmem⟩ := intersectLoop_some ix (windows (b :: c :: rest)) posting
      refine ⟨l, [a, b, c], mem_cons_self, hl, hpos ▸ hsub, fun i => ?_⟩
      rw [hmem, forall_mem_cons, hpos]

end TrigramIndex

/-! ### The Bloom filter -/

structure PackageBloomFilter where
  bits : List (BitVec 64)
  numBits : ℕ
  numBits_pos : 0 < numBits
  length_bits : bits.length = (numBits + 63) / 64

namespace PackageBloomFilter

def new (expectedItems : ℕ) : PackageBloomFilter where
  bits := List.replicate ((max (expectedItems * 8) 4096 + 63) / 64) 0
  numBits := max (expectedItems * 8) 4096
  numBits_pos := lt_of_lt_of_le (by decide) (le_max_right _ 4096)
  length_bits := length_replicate

def hashPositions (hash : Text → UInt64) (numBits : ℕ) (name : Text) : List ℕ :=
  let h1 := hash name
  let h2 := h1 * 0x9e3779b97f4a7c15
  let h3 := h2 * 0x9e3779b97f4a7c15
  [h1.toNat % numBits, h2.toNat % numBits, h3.toNat % numBits]

def mark (bits : List (BitVec 64)) (pos : ℕ) : List (BitVec 64) :=
  bits.modify (pos / 64) (· ||| 1#64 <<< (pos % 64))

def isMarked (bits : List (BitVec 64)) (pos : ℕ) : Bool :=
  (bits[pos / 64]?).any fun word => word &&& 1#64 <<< (pos % 64) != 0

lemma length_mark (bits : List (BitVec 64)) (pos : ℕ) :
    (mark bits pos).length = bits.length := length_modify _ _ _

lemma length_foldl_mark (poss : List ℕ) (bits : List (BitVec 64)) :
    (poss.foldl mark bits).length = bits.length := by
  induction poss generalizing bits with
  | nil => rfl
  | cons pos rest ih => rw [foldl_cons, ih, length_mark]

def insert (hash : Text → UInt64) (filter : PackageBloomFilter) (name : Text) :
    PackageBloomFilter where
  bits := (hashPositions hash filter.numBits name).foldl mark filter.bits
  numBits := filter.numBits
  numBits_pos := filter.numBits_pos
  length_bits := (length_foldl_mark _ _).trans filter.length_bits

def mightContain (hash : Text → UInt64) (filter : PackageBloomFilter) (name : Text) : Bool :=
  (hashPositions hash filter.numBits name).all (isMarked filter.bits)

lemma and_or_ne_zero {word mask : BitVec 64} (oth : BitVec 64) (h : word &&& mask ≠ 0) :
    (word ||| oth) &&& mask ≠ 0 := by
  intro hz
  refine h (BitVec.eq_of_getLsbD_eq fun i hi => ?_)
  have hbit := congrArg (·.getLsbD i) hz
  simp only [BitVec.getLsbD_and] at hbit ⊢
  cases hw : word.getLsbD i <;> simp_all

variable {bits : List (BitVec 64)} {pos : ℕ}

lemma isMarked_mark_of_isMarked (h : isMarked bits pos) (oth : ℕ) :
    isMarked (mark bits oth) pos := by
  unfold isMarked mark at *
  rw [getElem?_modify]
  cases hw : bits[pos / 64]? with
  | none => simp [hw] at h
  | some word =>
    rw [hw] at h
    have hne : word &&& 1#64 <<< (pos % 64) ≠ 0 := by simpa using h
    by_cases heq : oth / 64 = pos / 64
    · simpa [heq] using and_or_ne_zero _ hne
    · simpa [heq] using hne

lemma isMarked_mark_self (h : pos / 64 < bits.length) : isMarked (mark bits pos) pos := by
  unfold isMarked mark
  rw [getElem?_modify, getElem?_eq_getElem h]
  have hma : 1#64 <<< (pos % 64) ≠ 0 := by
    intro hz
    have hbit := congrArg (·.getLsbD (pos % 64)) hz
    have hlt : pos % 64 < 64 := Nat.mod_lt _ (by decide)
    simp [hlt] at hbit
  have hsl : 1#64 <<< (pos % 64) &&& 1#64 <<< (pos % 64) ≠ 0 := by rwa [BitVec.and_self]
  have := and_or_ne_zero bits[pos / 64] hsl
  rw [BitVec.or_comm] at this
  simpa using this

lemma isMarked_foldl_of_isMarked (poss : List ℕ) (h : isMarked bits pos) :
    isMarked (poss.foldl mark bits) pos := by
  induction poss generalizing bits with
  | nil => exact h
  | cons oth rest ih => exact ih (isMarked_mark_of_isMarked h oth)

lemma isMarked_foldl_of_mem {poss : List ℕ} (hmem : pos ∈ poss)
    (h : pos / 64 < bits.length) : isMarked (poss.foldl mark bits) pos := by
  induction poss generalizing bits with
  | nil => cases hmem
  | cons oth rest ih =>
    rcases mem_cons.mp hmem with rfl | hr
    · exact isMarked_foldl_of_isMarked rest (isMarked_mark_self h)
    · exact ih hr (by rwa [length_mark])

lemma lt_numBits_of_mem {hash : Text → UInt64} {numBits : ℕ} {name : Text} (hpos : 0 < numBits)
    (h : pos ∈ hashPositions hash numBits name) : pos < numBits := by
  simp only [hashPositions, mem_cons, not_mem_nil, or_false] at h
  rcases h with rfl | rfl | rfl <;> exact Nat.mod_lt _ hpos

lemma mightContain_insert_self (hash : Text → UInt64) (filter : PackageBloomFilter)
    (name : Text) : (filter.insert hash name).mightContain hash name := by
  unfold mightContain insert
  rw [all_eq_true]
  intro pos hpos
  refine isMarked_foldl_of_mem hpos ?_
  have hlt := lt_numBits_of_mem filter.numBits_pos hpos
  have hlen := filter.length_bits
  omega

lemma mightContain_insert_of_mightContain {hash : Text → UInt64} {filter : PackageBloomFilter}
    {name : Text} (h : filter.mightContain hash name) (oth : Text) :
    (filter.insert hash oth).mightContain hash name := by
  unfold mightContain insert at *
  rw [all_eq_true] at h ⊢
  intro pos hpos
  exact isMarked_foldl_of_isMarked _ (h pos hpos)

end PackageBloomFilter

/-! ### The pool of texts -/

structure StringPool where
  strings : List Text
  dedup : SortedMap Text ℕ
  dedup_iff : ∀ s handle, dedup.get s = some handle ↔
    ∃ i, strings[i]? = some s ∧ handle = i % 2 ^ 32

namespace StringPool

def default : StringPool where
  strings := []
  dedup := SortedMap.empty
  dedup_iff := fun s handle => by simp [SortedMap.empty, SortedMap.get]

variable {s : Text} {pool pool' : StringPool}

lemma dedup_iff_concat (pool : StringPool) (h : pool.dedup.get s = none) (t : Text) (handle : ℕ) :
    (pool.dedup.insert s (pool.strings.length % 2 ^ 32)).get t = some handle ↔
      ∃ i, (pool.strings ++ [s])[i]? = some t ∧ handle = i % 2 ^ 32 := by
  rw [SortedMap.get_insert]
  by_cases heq : t = s
  · subst heq
    rw [if_pos rfl]
    constructor
    · intro hso
      exact ⟨pool.strings.length, by simp, (Option.some.inj hso).symm⟩
    · rintro ⟨i, hi, rfl⟩
      have hnew : ∀ j, pool.strings[j]? ≠ some t := fun j hj => by
        have := (pool.dedup_iff t (j % 2 ^ 32)).mpr ⟨j, hj, rfl⟩
        rw [h] at this
        cases this
      by_cases hlt : i < pool.strings.length
      · rw [getElem?_append_left hlt] at hi
        exact absurd hi (hnew i)
      · have hle := (List.getElem?_eq_some_iff.mp hi).1
        rw [length_append, length_singleton] at hle
        rw [show i = pool.strings.length by omega]
  · rw [if_neg heq, pool.dedup_iff]
    refine exists_congr fun i => and_congr_left fun _ => ?_
    constructor
    · intro hi
      rwa [getElem?_append_left (List.getElem?_eq_some_iff.mp hi).1]
    · intro hi
      by_cases hlt : i < pool.strings.length
      · rwa [getElem?_append_left hlt] at hi
      · rw [getElem?_append_right (not_lt.mp hlt), getElem?_singleton] at hi
        split_ifs at hi
        exact absurd (Option.some.inj hi).symm heq

/-- `intern`: the handle of a text, which is added if it is new. -/
def intern (pool : StringPool) (s : Text) : StringPool × ℕ :=
  match h : pool.dedup.get s with
  | some handle => (pool, handle)
  | none =>
    let handle := pool.strings.length % 2 ^ 32
    (⟨pool.strings ++ [s], pool.dedup.insert s handle, pool.dedup_iff_concat h⟩, handle)

/-- `get`. The handles of an index have texts. -/
def get (pool : StringPool) (handle : ℕ) : Text := pool.strings.getD handle []

def Le (pool pool' : StringPool) : Prop := pool.strings <+: pool'.strings

lemma Le.refl (pool : StringPool) : pool.Le pool := prefix_refl _

lemma Le.trans {pool'' : StringPool} (h : pool.Le pool') (h' : pool'.Le pool'') :
    pool.Le pool'' := List.IsPrefix.trans h h'

lemma le_intern (pool : StringPool) (s : Text) : pool.Le (pool.intern s).1 := by
  unfold intern
  split
  · exact Le.refl pool
  · exact prefix_append _ _

def Holds (pool : StringPool) (handle : ℕ) (s : Text) : Prop := pool.strings[handle]? = some s

lemma Holds.get_eq {handle : ℕ} (h : pool.Holds handle s) : pool.get handle = s := by
  rw [get, getD_eq_getElem?_getD, show pool.strings[handle]? = some s from h]
  rfl

lemma Holds.mono {handle : ℕ} (h : pool.Holds handle s) (hle : pool.Le pool') :
    pool'.Holds handle s := by
  obtain ⟨rest, hr⟩ := hle
  have hlt := (List.getElem?_eq_some_iff.mp h).1
  rw [Holds, ← hr, getElem?_append_left hlt]
  exact h

/-- In a pool of at most `2 ^ 32` texts the handle of a text stands for it. -/
lemma holds_intern (h : (pool.intern s).1.strings.length ≤ 2 ^ 32) :
    (pool.intern s).1.Holds (pool.intern s).2 s := by
  unfold intern at h ⊢
  split at h
  · rename_i handle hget
    obtain ⟨i, hi, rfl⟩ := (pool.dedup_iff s handle).mp hget
    have hlt := (List.getElem?_eq_some_iff.mp hi).1
    have hmod : i % 2 ^ 32 = i := Nat.mod_eq_of_lt (lt_of_lt_of_le hlt h)
    rw [hmod]
    exact hi
  · simp only [length_append] at h
    have hmod : pool.strings.length % 2 ^ 32 = pool.strings.length := Nat.mod_eq_of_lt h
    show (pool.strings ++ [s])[pool.strings.length % 2 ^ 32]? = some s
    rw [hmod]
    exact getElem?_concat_length

lemma holds_of_intern {interned : StringPool × ℕ} (h : pool.intern s = interned)
    (hle : interned.1.Le pool') (hlen : pool'.strings.length ≤ 2 ^ 32) :
    pool'.Holds interned.2 s := by
  subst h
  exact (holds_intern ((List.IsPrefix.length_le hle).trans hlen)).mono hle

lemma le_of_intern {interned : StringPool × ℕ} (h : pool.intern s = interned)
    (hle : interned.1.Le pool') : pool.Le pool' := by
  subst h
  exact (le_intern pool s).trans hle

end StringPool

/-! ### The index -/

structure PackageRecord where
  name : Text
  version : Text
  description : Text
  url : Text
  size : ℕ
  downloadSize : ℕ
  repo : Text
  depends : List Text
  licenses : List Text
  deriving DecidableEq

/-- `CompactPackageInfo`. -/
structure CompactPackageInfo where
  rpmEligible : Bool
  nameOffset : ℕ
  nameLowerOffset : ℕ
  versionOffset : ℕ
  descriptionOffset : ℕ
  descriptionLowerOffset : ℕ
  urlOffset : ℕ
  size : ℕ
  downloadSize : ℕ
  repoOffset : ℕ
  depends : List Text
  licenses : List Text
  source : WirePackageSource

structure CompactPackageInfo.Holds (pool : StringPool) (item : CompactPackageInfo)
    (record : PackageRecord) : Prop where
  name : pool.Holds item.nameOffset record.name
  nameLower : pool.Holds item.nameLowerOffset record.name.toAsciiLowercase
  version : pool.Holds item.versionOffset record.version
  description : pool.Holds item.descriptionOffset record.description
  descriptionLower : pool.Holds item.descriptionLowerOffset record.description.toAsciiLowercase
  url : pool.Holds item.urlOffset record.url
  repo : pool.Holds item.repoOffset record.repo
  size : item.size = record.size
  downloadSize : item.downloadSize = record.downloadSize
  depends : item.depends = record.depends
  licenses : item.licenses = record.licenses
  source : item.source = .official

lemma CompactPackageInfo.Holds.mono {pool pool' : StringPool} {item : CompactPackageInfo}
    {rec : PackageRecord} (h : item.Holds pool rec) (hle : pool.Le pool') : item.Holds pool' rec :=
  ⟨h.name.mono hle, h.nameLower.mono hle, h.version.mono hle, h.description.mono hle,
    h.descriptionLower.mono hle, h.url.mono hle, h.repo.mono hle, h.size, h.downloadSize, h.depends,
    h.licenses, h.source⟩

def StringPool.compact (pool : StringPool) (record : PackageRecord) :
    StringPool × CompactPackageInfo :=
  let name := pool.intern record.name
  let nameLower := name.1.intern record.name.toAsciiLowercase
  let version := nameLower.1.intern record.version
  let description := version.1.intern record.description
  let descriptionLower := description.1.intern record.description.toAsciiLowercase
  let url := descriptionLower.1.intern record.url
  let repo := url.1.intern record.repo
  (repo.1,
    { rpmEligible := true
      nameOffset := name.2
      nameLowerOffset := nameLower.2
      versionOffset := version.2
      descriptionOffset := description.2
      descriptionLowerOffset := descriptionLower.2
      urlOffset := url.2
      size := record.size
      downloadSize := record.downloadSize
      repoOffset := repo.2
      depends := record.depends
      licenses := record.licenses
      source := .official })

lemma StringPool.compact_spec (pool : StringPool) (rec : PackageRecord) :
    pool.Le (pool.compact rec).1 ∧ ((pool.compact rec).1.strings.length ≤ 2 ^ 32 →
      (pool.compact rec).2.Holds (pool.compact rec).1 rec) := by
  unfold compact
  simp only
  generalize hn : pool.intern rec.name = name
  generalize hnameLower : name.1.intern rec.name.toAsciiLowercase = nameLower
  generalize hver : nameLower.1.intern rec.version = ver
  generalize hde : ver.1.intern rec.description = description
  generalize hdescriptionLower :
    description.1.intern rec.description.toAsciiLowercase = descriptionLower
  generalize hurl : descriptionLower.1.intern rec.url = url
  generalize hre : url.1.intern rec.repo = repo
  -- the last pool has the texts of those before it
  have h7 : repo.1.Le repo.1 := Le.refl _
  have h6 : url.1.Le repo.1 := le_of_intern hre h7
  have h5 : descriptionLower.1.Le repo.1 := le_of_intern hurl h6
  have h4 : description.1.Le repo.1 := le_of_intern hdescriptionLower h5
  have h3 : ver.1.Le repo.1 := le_of_intern hde h4
  have h2 : nameLower.1.Le repo.1 := le_of_intern hver h3
  have h1 : name.1.Le repo.1 := le_of_intern hnameLower h2
  refine ⟨le_of_intern hn h1, fun hlen => ?_⟩
  exact ⟨holds_of_intern hn h1 hlen, holds_of_intern hnameLower h2 hlen,
    holds_of_intern hver h3 hlen, holds_of_intern hde h4 hlen,
    holds_of_intern hdescriptionLower h5 hlen, holds_of_intern hurl h6 hlen,
    holds_of_intern hre h7 hlen, rfl, rfl, rfl, rfl, rfl⟩

def PackageRecord.detailed (record : PackageRecord) : DetailedPackageInfo where
  name := record.name
  version := record.version
  description := record.description
  url := record.url
  size := record.size
  downloadSize := record.downloadSize
  repo := record.repo
  depends := record.depends
  licenses := record.licenses
  source := .official

structure PackageIndex where
  items : List CompactPackageInfo
  pool : StringPool
  nameToIdx : SortedMap Text ℕ
  bloom : PackageBloomFilter
  trigrams : TrigramIndex
  nameToIdx_lt : ∀ name idx, nameToIdx.get name = some idx → idx < items.length

namespace PackageIndex

def withCapacity (capacity : ℕ) : PackageIndex where
  items := []
  pool := .default
  nameToIdx := SortedMap.empty
  bloom := .new capacity
  trigrams := .empty
  nameToIdx_lt := fun name idx h => by simp [SortedMap.empty, SortedMap.get] at h

/-- `entry(name).or_insert(idx)`: the first package with a name stays the one that is found. -/
def orInsert (m : SortedMap Text ℕ) (name : Text) (idx : ℕ) : SortedMap Text ℕ :=
  if (m.get name).isSome then m else m.insert name idx

lemma get_orInsert (m : SortedMap Text ℕ) (name : Text) (idx : ℕ) (name' : Text) :
    (orInsert m name idx).get name' =
      (m.get name').or (if name = name' then some idx else none) := by
  unfold orInsert
  by_cases hn : name = name'
  · subst hn
    cases hget : m.get name with
    | some idx' => simp [hget]
    | none => simp [SortedMap.get_insert]
  · rw [if_neg hn, Option.or_none]
    split_ifs
    · rfl
    · rw [SortedMap.get_insert, if_neg fun heq => hn heq.symm]

/-- `push`. -/
def push (hash : Text → UInt64) (index : PackageIndex) (record : PackageRecord) : PackageIndex where
  items := index.items ++ [(index.pool.compact record).2]
  pool := (index.pool.compact record).1
  nameToIdx := orInsert index.nameToIdx record.name index.items.length
  bloom := index.bloom.insert hash record.name
  trigrams := index.trigrams.insert (utf8 record.name.toAsciiLowercase)
    (index.items.length % 2 ^ 32)
  nameToIdx_lt := by
    intro name idx h
    rw [length_append, length_singleton]
    rw [get_orInsert] at h
    rcases Option.or_eq_some_iff.mp h with hold | ⟨-, hnew⟩
    · exact Nat.lt_succ_of_lt (index.nameToIdx_lt name idx hold)
    · split_ifs at hnew
      rw [← Option.some.inj hnew]
      exact Nat.lt_succ_self _

section

variable (hash : Text → UInt64) (index : PackageIndex) (rec : PackageRecord)

include hash index rec

lemma push_pool : (index.push hash rec).pool = (index.pool.compact rec).1 := by rw [push]

lemma push_trigrams : (index.push hash rec).trigrams = index.trigrams.insert
      (utf8 rec.name.toAsciiLowercase) (index.items.length % 2 ^ 32) := by rw [push]

end

def pushAll (hash : Text → UInt64) (capacity : ℕ) (records : List PackageRecord) : PackageIndex :=
  records.foldl (push hash) (withCapacity capacity)

def detailed (index : PackageIndex) (item : CompactPackageInfo) : DetailedPackageInfo where
  name := index.pool.get item.nameOffset
  version := index.pool.get item.versionOffset
  description := index.pool.get item.descriptionOffset
  url := index.pool.get item.urlOffset
  size := item.size
  downloadSize := item.downloadSize
  repo := index.pool.get item.repoOffset
  depends := item.depends
  licenses := item.licenses
  source := item.source

def get (hash : Text → UInt64) (index : PackageIndex) (name : Text) : Option DetailedPackageInfo :=
  if index.bloom.mightContain hash name then
    match h : index.nameToIdx.get name with
    | none => none
    | some idx => some (index.detailed (index.items.get ⟨idx, index.nameToIdx_lt name idx h⟩))
  else none

/-! ### What an index has -/

def holders (records : List PackageRecord) (g : Bytes) : List ℕ :=
  (records.zipIdx.filter fun entry =>
    (windows (utf8 entry.1.name.toAsciiLowercase)).contains g).map
      fun entry : PackageRecord × ℕ => entry.2 % 2 ^ 32

structure Represents (hash : Text → UInt64) (index : PackageIndex) (records : List PackageRecord) :
    Prop where
  length_items : index.items.length = records.length
  nameToIdx : ∀ name, index.nameToIdx.get name = records.findIdx? (·.name = name)
  bloom : ∀ record ∈ records, index.bloom.mightContain hash record.name = true
  trigrams : ∀ g, index.trigrams.posting g = holders records g
  items : index.pool.strings.length ≤ 2 ^ 32 →
    List.Forall₂ (CompactPackageInfo.Holds index.pool) index.items records

variable {hash : Text → UInt64} {index : PackageIndex} {records : List PackageRecord}

lemma represents_withCapacity (hash : Text → UInt64) (cpy : ℕ) :
    (withCapacity cpy).Represents hash [] :=
  ⟨rfl, fun _ => rfl, fun _ h => absurd h not_mem_nil, fun _ => rfl, fun _ => .nil⟩

lemma Represents.push (h : index.Represents hash records) (rec : PackageRecord) :
    (index.push hash rec).Represents hash (records ++ [rec]) := by
  obtain ⟨hle, hcom⟩ := index.pool.compact_spec rec
  refine ⟨?_, fun name => ?_, fun oth hot => ?_, fun g => ?_, fun hlen => ?_⟩
  · rw [PackageIndex.push, length_append, length_append, h.length_items]
    rfl
  · have hnew : [rec].findIdx? (·.name = name) = if rec.name = name then some 0 else none := by simp
    show (orInsert index.nameToIdx rec.name index.items.length).get name = _
    rw [get_orInsert, findIdx?_append, ← h.nameToIdx, hnew, h.length_items]
    split_ifs <;> simp
  · rcases mem_append.mp hot with hold | hnew
    · exact PackageBloomFilter.mightContain_insert_of_mightContain (h.bloom oth hold) _
    · rw [mem_singleton.mp hnew]
      exact PackageBloomFilter.mightContain_insert_self hash index.bloom rec.name
  · have hpos := index.trigrams.posting_insert (utf8 rec.name.toAsciiLowercase)
      (index.items.length % 2 ^ 32) g
    rw [push_trigrams, hpos, h.trigrams, h.length_items, holders, holders, zipIdx_append,
      filter_append]
    by_cases hg : g ∈ windows (utf8 rec.name.toAsciiLowercase)
    · simp [hg]
    · simp [hg]
  · rw [push_pool] at hlen
    have hold := h.items ((List.IsPrefix.length_le hle).trans hlen)
    have hk : List.Forall₂ (CompactPackageInfo.Holds (index.pool.compact rec).1) index.items
        records := hold.imp fun _ _ hho => hho.mono hle
    rw [push_pool]
    exact rel_append hk (.cons (hcom hlen) .nil)

lemma represents_foldl (h : index.Represents hash records) (more : List PackageRecord) :
    (more.foldl (PackageIndex.push hash) index).Represents hash (records ++ more) := by
  induction more generalizing index records with
  | nil =>
    rw [append_nil]
    exact h
  | cons rec more ih =>
    rw [append_cons]
    exact ih (h.push rec)

lemma represents_pushAll (hash : Text → UInt64) (cpy : ℕ) (records : List PackageRecord) :
    (pushAll hash cpy records).Represents hash records :=
  represents_foldl (represents_withCapacity hash cpy) records

lemma detailed_of_holds {item : CompactPackageInfo} {rec : PackageRecord}
    (h : item.Holds index.pool rec) : index.detailed item = rec.detailed := by
  simp only [detailed, PackageRecord.detailed, h.name.get_eq, h.version.get_eq,
    h.description.get_eq, h.url.get_eq, h.repo.get_eq, h.size, h.downloadSize, h.depends,
    h.licenses, h.source]

lemma get_of_represents (h : index.Represents hash records)
    (hlen : index.pool.strings.length ≤ 2 ^ 32) (name : Text) :
    index.get hash name = (records.find? (·.name = name)).map PackageRecord.detailed := by
  have hix := h.nameToIdx name
  unfold get
  cases hfn : records.findIdx? (·.name = name) with
  | none =>
    have hrc : records.find? (·.name = name) = none := by
      rw [find?_eq_none]
      intro rec hmem
      rw [findIdx?_eq_none_iff.mp hfn rec hmem]
      exact Bool.false_ne_true
    rw [hrc]
    rw [hfn] at hix
    split_ifs
    · split
      · rfl
      · rename_i hso
        rw [hix] at hso
        cases hso
    · rfl
  | some idx =>
    obtain ⟨hlt, hn, hbe⟩ := findIdx?_eq_some_iff_getElem.mp hfn
    rw [hfn] at hix
    have hrc : records.find? (·.name = name) = some records[idx] := by
      rw [find?_eq_some_iff_getElem]
      exact ⟨hn, idx, hlt, rfl, by simpa using hbe⟩
    have hblo := h.bloom _ (getElem_mem hlt)
    rw [decide_eq_true_eq.mp hn] at hblo
    rw [if_pos hblo, hrc]
    split
    · rename_i hno
      rw [hix] at hno
      cases hno
    · rename_i idx' hso
      obtain rfl : idx = idx' := Option.some.inj (hix.symm.trans hso)
      have hho := (h.items hlen).get (h.length_items ▸ hlt) hlt
      exact congrArg some (detailed_of_holds hho)

/-- In an index with fewer than `2 ^ 32` texts a name leads to the first record that was pushed with
it, with all its fields, and to nothing if there is none. -/
theorem get_pushAll (hash : Text → UInt64) (capacity : ℕ) (records : List PackageRecord)
    (name : Text) (h : (pushAll hash capacity records).pool.strings.length < 2 ^ 32) :
    (pushAll hash capacity records).get hash name =
        (records.find? (·.name = name)).map PackageRecord.detailed ∧
      ((pushAll hash capacity records).get hash name = none ↔
        ∀ record ∈ records, record.name ≠ name) := by
  have hrep := represents_pushAll hash capacity records
  have hget := get_of_represents hrep h.le name
  refine ⟨hget, ?_⟩
  rw [hget, Option.map_eq_none_iff, find?_eq_none]
  simp only [decide_eq_true_eq]

/-- Two packages with the name `a`: the first one is found. -/
theorem get_pushAll_twice :
    let first : PackageRecord := ⟨"a".toList, "1".toList, [], [], 0, 0, "core".toList, [], []⟩
    let records := [first, { first with version := "2".toList }]
    (pushAll (fun _ => 7) 2 records).pool.strings.length < 2 ^ 32 ∧
      (pushAll (fun _ => 7) 2 records).get (fun _ => 7) "a".toList = some first.detailed := by
  intro first records
  have hlen : (pushAll (fun _ => 7) 2 records).pool.strings.length < 2 ^ 32 := by decide +kernel
  exact ⟨hlen, (get_pushAll (fun _ => 7) 2 records "a" hlen).1⟩

/-- **The filters in front of a search lose nothing.** The Bloom filter passes every name, and the
candidates for a query contain every record whose name contains the query. -/
theorem filters_keep (hash : Text → UInt64) (capacity : ℕ) (records : List PackageRecord) :
    (∀ record ∈ records,
      (pushAll hash capacity records).bloom.mightContain hash record.name = true) ∧
    ∀ (query : Bytes) (i : ℕ) (record : PackageRecord), 3 ≤ query.length →
      records[i]? = some record → query <:+: utf8 record.name.toAsciiLowercase →
      ∃ l, (pushAll hash capacity records).trigrams.candidates query = some l ∧ i % 2 ^ 32 ∈ l := by
  have hrep := represents_pushAll hash capacity records
  refine ⟨hrep.bloom, fun query i record hlen hi hin => ?_⟩
  obtain ⟨l, _, _, hl, -, hmem⟩ := TrigramIndex.candidates_spec _ hlen
  refine ⟨l, hl, (hmem _).mpr fun g hg => ?_⟩
  rw [hrep.trigrams, holders, mem_map]
  refine ⟨(record, i), mem_filter.mpr ⟨mk_mem_zipIdx_iff_getElem?.mpr hi, ?_⟩, rfl⟩
  exact contains_iff_mem.mpr (windows_subset_of_isInfix hin g hg)

end PackageIndex

end Omg.Daemon
