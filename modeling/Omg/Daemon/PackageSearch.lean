import Omg.Collections.Precedes
import Omg.Daemon.NameMatch
import Omg.Daemon.PackageIndex

/-!
# Searching the package index

A search ranks the packages whose names have the query, found through the trigram index if the query
has three bytes or more, and fills up with packages whose descriptions have it.

The numbers of packages in the matches have 32 bits. Room for twice as many matches as are asked for
is reserved at the beginning, which panics if it is more than an allocation may have.

The names are literal ones. The search in an index of RPM identities, `search_rpm`, is not modelled.

Source: `src/daemon/index.rs`.
-/

namespace Omg.Daemon

open Collections List Text

namespace RelevanceScore

def Le (a b : RelevanceScore) : Prop :=
  a.rank < b.rank ∨ a.rank = b.rank ∧ (a.nameLenRev < b.nameLenRev ∨
    a.nameLenRev = b.nameLenRev ∧ a.idxRev ≤ b.idxRev)

instance : DecidableRel Le := fun a b => by
  unfold Le
  infer_instance

lemma le_total (a b : RelevanceScore) : a.Le b ∨ b.Le a := by
  unfold Le
  omega

lemma le_trans {a b c : RelevanceScore} (h : a.Le b) (h' : b.Le c) : a.Le c := by
  unfold Le at *
  omega

lemma idxRev_eq_of_le_of_le {a b : RelevanceScore} (h : a.Le b) (h' : b.Le a) :
    a.idxRev = b.idxRev := by
  unfold Le at *
  omega

end RelevanceScore

open RelevanceScore

/-! ### The search -/

namespace PackageIndex

/-- A match: its score, and the number of its package in 32 bits. -/
abbrev ScoredMatch : Type := RelevanceScore × ℕ

section

variable (index : PackageIndex) (queryLower : Bytes)

def nameLower (item : CompactPackageInfo) : Bytes := utf8 (index.pool.get item.nameLowerOffset)

def descriptionLower (item : CompactPackageInfo) : Bytes :=
  utf8 (index.pool.get item.descriptionLowerOffset)

/-- `score_name_match` for an item. -/
def nameScore (item : CompactPackageInfo) (idx : ℕ) : Option RelevanceScore :=
  scoreNameMatch .literal (item.rpmEligible && item.source = .official) queryLower
    (index.nameLower item) idx

def descriptionScore (item : CompactPackageInfo) (idx : ℕ) : RelevanceScore :=
  .new RelevanceScore.descriptionOnly (index.nameLower item).length idx

def inDescription (item : CompactPackageInfo) : Bool :=
  decide (queryLower <:+: index.descriptionLower item)

def nameScan (candidates : List ℕ) : List ScoredMatch :=
  candidates.filterMap fun idx =>
    (index.items[idx]?).bind fun item => (index.nameScore queryLower item idx).map (·, idx)

def descriptionScan (limit nameMatchCount : ℕ) :
    List (CompactPackageInfo × ℕ) → List ScoredMatch → List ScoredMatch
  | [], scored => scored
  | (item, idx) :: rest, scored =>
    if limit * 4 % 2 ^ 64 ≤ nameMatchCount + scored.length then scored
    else if index.inDescription queryLower item ∧ index.nameScore queryLower item idx = none then
      descriptionScan limit nameMatchCount rest
        (scored ++ [(index.descriptionScore item idx, idx % 2 ^ 32)])
    else descriptionScan limit nameMatchCount rest scored

def shortScan (limit : ℕ) : List (CompactPackageInfo × ℕ) → ℕ → List ScoredMatch → List ScoredMatch
  | [], _, scored => scored
  | (item, idx) :: rest, nameMatchCount, scored =>
    match index.nameScore queryLower item idx with
    | some score => shortScan limit rest (nameMatchCount + 1) (scored ++ [(score, idx % 2 ^ 32)])
    | none =>
      if nameMatchCount < limit ∧ index.inDescription queryLower item then
        shortScan limit rest nameMatchCount
          (scored ++ [(index.descriptionScore item idx, idx % 2 ^ 32)])
      else shortScan limit rest nameMatchCount scored

def scoredMatches (limit : ℕ) : List ScoredMatch :=
  match index.trigrams.candidates queryLower with
  | some candidates =>
    let scored := index.nameScan queryLower candidates
    if scored.length < limit then
      index.descriptionScan queryLower limit scored.length index.items.zipIdx scored
    else scored
  | none => index.shortScan queryLower limit index.items.zipIdx 0 []

end

def info (index : PackageIndex) (item : CompactPackageInfo) : PackageInfo where
  name := index.pool.get item.nameOffset
  version := index.pool.get item.versionOffset
  description := index.pool.get item.descriptionOffset
  source := item.source

/-- `isize::MAX`, the greatest size of an allocation. -/
def isizeMax : ℕ := 2 ^ 63 - 1

def scoredMatchSize : ℕ := 32

/-- `search` in an index of literal names, or nothing if it panics. Matches with different packages
have different scores, so that the best ones are the first ones of the sorted matches. -/
def search (index : PackageIndex) (query : Text) (limit : ℕ) : Option (List PackageInfo) :=
  if query = [] ∨ limit = 0 then some []
  else if isizeMax < limit * 2 % 2 ^ 64 * scoredMatchSize then none
  else
    let scored := index.scoredMatches (utf8 query.toAsciiLowercase) limit
    some (((scored.insertionSort fun a b => b.1.Le a.1).take limit).filterMap fun entry =>
      (index.items[entry.2]?).map index.info)

end PackageIndex

/-! ### What a search should find -/

def PackageRecord.info (record : PackageRecord) : PackageInfo :=
  ⟨record.name, record.version, record.description, .official⟩

def PackageRecord.nameBytes (record : PackageRecord) : Bytes := utf8 record.name.toAsciiLowercase

def PackageRecord.descriptionBytes (record : PackageRecord) : Bytes :=
  utf8 record.description.toAsciiLowercase

structure Query where
  records : List PackageRecord
  bytes : Bytes

namespace Query

def of (records : List PackageRecord) (query : Text) : Query :=
  ⟨records, utf8 query.toAsciiLowercase⟩

variable (q : Query)

def HasName (i : ℕ) : Prop := ∃ record, q.records[i]? = some record ∧ q.bytes <:+: record.nameBytes

def HasDescription (i : ℕ) : Prop :=
  ∃ record, q.records[i]? = some record ∧ q.bytes <:+: record.descriptionBytes

instance (i : ℕ) : Decidable (q.HasName i) :=
  decidable_of_iff ((q.records[i]?).any fun record => decide (q.bytes <:+: record.nameBytes)) (by
    unfold HasName
    cases q.records[i]? <;> simp)

def nameHits : List ℕ := (List.range q.records.length).filter (q.HasName ·)

def matchScore (i : ℕ) : RelevanceScore :=
  match q.records[i]? with
  | none => .new RelevanceScore.descriptionOnly 0 i
  | some record =>
    (scoreNameMatch .literal true q.bytes record.nameBytes i).getD
      (.new RelevanceScore.descriptionOnly record.nameBytes.length i)

def toMatch (i : ℕ) : PackageIndex.ScoredMatch := (q.matchScore i, i)

def Better (i j : ℕ) : Prop := (q.matchScore j).Le (q.matchScore i)

instance : DecidableRel q.Better := fun i j => by
  unfold Better
  infer_instance

instance : Std.Total q.Better := ⟨fun _ _ => RelevanceScore.le_total _ _⟩

instance : IsTrans ℕ q.Better := ⟨fun _ _ _ h h' => RelevanceScore.le_trans h' h⟩

/-- A search finds packages, by their numbers, each once, at most as many as are asked for. The
first ones are the best of those whose names have the query. The others have it in their
descriptions only. -/
structure Finds (limit : ℕ) (found : List ℕ) : Prop where
  nodup : found.Nodup
  lt : ∀ i ∈ found, i < q.records.length
  length_le : found.length ≤ limit
  names : found.take (min q.nameHits.length limit) =
    (q.nameHits.insertionSort q.Better).take limit
  descriptions : ∀ i ∈ found.drop (min q.nameHits.length limit),
    q.HasDescription i ∧ ¬q.HasName i

def Returns (limit : ℕ) (answer : Option (List PackageInfo)) : Prop :=
  ∃ found, answer = some (found.filterMap fun i => (q.records[i]?).map PackageRecord.info) ∧
    q.Finds limit found

end Query

open Query

/-! ### Scores of names -/

section

variable {queryLower name : Bytes}

lemma rank_pos_of_rankPositions {fd : Bool} {poss : List ℕ} {rank : ℕ}
    (h : rankPositions queryLower name fd poss = some rank) : 0 < rank := by
  induction poss generalizing fd with
  | nil =>
    unfold rankPositions at h
    split_ifs at h
    exact Option.some.inj h ▸ by decide
  | cons pos rest ih =>
    unfold rankPositions at h
    split_ifs at h
    · exact Option.some.inj h ▸ by decide
    · exact Option.some.inj h ▸ by decide
    · exact Option.some.inj h ▸ by decide
    · exact ih h

lemma scoreNameMatch_literal (elg : Bool) (idx : ℕ) :
    scoreNameMatch .literal elg queryLower name idx =
      (rankPositions queryLower name false (matchIndices queryLower name)).map fun rank =>
        .new rank name.length idx := by
  rw [scoreNameMatch, rpmRule_eq_false (fun h => SearchNameKind.noConfusion h.1)]
  rfl

lemma scoreNameMatch_literal_eq_none (hq : queryLower ≠ []) (h : ¬queryLower <:+: name)
    (elg : Bool) (idx : ℕ) : scoreNameMatch .literal elg queryLower name idx = none := by
  have hno : matchIndices queryLower name = [] :=
    not_not.mp fun hne => h ((matchIndices_ne_nil_iff hq).mp hne)
  rw [scoreNameMatch_literal, hno]
  rfl

lemma exists_scoreNameMatch_literal (hq : queryLower ≠ []) (h : queryLower <:+: name)
    (elg : Bool) (idx : ℕ) : ∃ rank, 0 < rank ∧ scoreNameMatch .literal elg queryLower name idx =
      some (.new rank name.length idx) := by
  obtain ⟨rank, hrk, -⟩ := rankPositions_matchIndices hq h
  refine ⟨rank, rank_pos_of_rankPositions hrk, ?_⟩
  rw [scoreNameMatch_literal, hrk]
  rfl

end

section

variable {q : Query} {i : ℕ} {record : PackageRecord}

lemma matchScore_of_hasName (hq : q.bytes ≠ []) (hrc : q.records[i]? = some record)
    (h : q.bytes <:+: record.nameBytes) (elg : Bool) :
    scoreNameMatch .literal elg q.bytes record.nameBytes i =
      some (q.matchScore i) ∧ 0 < (q.matchScore i).rank := by
  obtain ⟨rank, hpos, hsco⟩ := exists_scoreNameMatch_literal hq h true i
  unfold matchScore
  rw [hrc]
  simp only [hsco, Option.getD_some]
  rw [← hsco, scoreNameMatch_literal, scoreNameMatch_literal]
  exact ⟨rfl, hpos⟩

lemma matchScore_of_not_hasName (hq : q.bytes ≠ []) (hrc : q.records[i]? = some record)
    (h : ¬q.bytes <:+: record.nameBytes) : q.matchScore i =
      .new descriptionOnly record.nameBytes.length i := by
  unfold matchScore
  rw [hrc]
  simp only [scoreNameMatch_literal_eq_none hq h, Option.getD_none]

lemma idxRev_matchScore (hq : q.bytes ≠ []) (i : ℕ) : (q.matchScore i).idxRev = usizeMax - i := by
  cases hrc : q.records[i]? with
  | none =>
    unfold matchScore
    rw [hrc]
    rfl
  | some record =>
    by_cases h : q.bytes <:+: record.nameBytes
    · obtain ⟨rank, -, hsco⟩ := exists_scoreNameMatch_literal hq h true i
      unfold matchScore
      rw [hrc]
      simp only [hsco]
      rfl
    · rw [matchScore_of_not_hasName hq hrc h]
      rfl

lemma hasName_iff (h : q.records[i]? = some record) :
    q.HasName i ↔ q.bytes <:+: record.nameBytes := by
  simp [Query.HasName, h]

lemma hasDescription_iff (h : q.records[i]? = some record) :
    q.HasDescription i ↔ q.bytes <:+: record.descriptionBytes := by
  simp [Query.HasDescription, h]

lemma lt_of_hasName (h : q.HasName i) : i < q.records.length := by
  obtain ⟨record, hrc, -⟩ := h
  exact (List.getElem?_eq_some_iff.mp hrc).1

lemma mem_nameHits : i ∈ q.nameHits ↔ q.HasName i := by
  rw [nameHits, mem_filter, mem_range, decide_eq_true_eq]
  exact ⟨fun h => h.2, fun h => ⟨lt_of_hasName h, h⟩⟩

lemma better_of_hasName (hq : q.bytes ≠ []) {j : ℕ} (hi : q.HasName i) (hj : ¬q.HasName j)
    (hlt : j < q.records.length) : q.Better i j := by
  obtain ⟨record, hrc, hin⟩ := hi
  have hrk := (matchScore_of_hasName hq hrc hin true).2
  have hot : q.records[j]? = some q.records[j] := getElem?_eq_getElem hlt
  rw [hasName_iff hot] at hj
  refine .inl ?_
  rw [matchScore_of_not_hasName hq hot hj]
  exact hrk

lemma eq_of_better_of_better (hq : q.bytes ≠ []) {j : ℕ} (hi : i < 2 ^ 32) (hj : j < 2 ^ 32)
    (h : q.Better i j) (h' : q.Better j i) : i = j := by
  have hix := idxRev_eq_of_le_of_le h h'
  rw [idxRev_matchScore hq, idxRev_matchScore hq, usizeMax] at hix
  omega

/-! ### The matches that are ranked -/

namespace PackageIndex

variable {hash : Text → UInt64} {index : PackageIndex} {item : CompactPackageInfo}

def IsEntry (index : PackageIndex) (records : List PackageRecord)
    (entry : CompactPackageInfo × ℕ) : Prop :=
  entry.2 < 2 ^ 32 ∧ ∃ record, records[entry.2]? = some record ∧ entry.1.Holds index.pool record

lemma isEntry_of_mem (h : index.Represents hash q.records) (hrs : q.records.length ≤ 2 ^ 32)
    (hstr : index.pool.strings.length ≤ 2 ^ 32) {e : CompactPackageInfo × ℕ}
    (he : e ∈ index.items.zipIdx) : index.IsEntry q.records e := by
  obtain ⟨item, i⟩ := e
  have hit : index.items[i]? = some item := mem_zipIdx_iff_getElem?.mp he
  obtain ⟨hlt, heq⟩ := List.getElem?_eq_some_iff.mp hit
  have hlt' : i < q.records.length := h.length_items ▸ hlt
  refine ⟨lt_of_lt_of_le hlt' hrs, q.records[i], getElem?_eq_getElem hlt', ?_⟩
  rw [← heq]
  exact (h.items hstr).get hlt hlt'

lemma nameScore_of_isEntry (hq : q.bytes ≠ []) {i : ℕ} (h : index.IsEntry q.records (item, i)) :
    index.nameScore q.bytes item i = if q.HasName i then some (q.matchScore i) else none := by
  obtain ⟨-, record, hrc, hho⟩ := h
  have hn : index.nameLower item = record.nameBytes := by
    rw [nameLower, hho.nameLower.get_eq]
    rfl
  unfold nameScore
  rw [hn]
  by_cases hin : q.HasName i
  · rw [if_pos hin, (matchScore_of_hasName hq hrc ((hasName_iff hrc).mp hin) _).1]
  · rw [if_neg hin, scoreNameMatch_literal_eq_none hq fun h => hin ((hasName_iff hrc).mpr h)]

lemma descriptionScore_of_isEntry (hq : q.bytes ≠ []) {i : ℕ}
    (h : index.IsEntry q.records (item, i)) (hn : ¬q.HasName i) :
    index.descriptionScore item i = q.matchScore i := by
  obtain ⟨-, record, hrc, hho⟩ := h
  have hlow : index.nameLower item = record.nameBytes := by
    rw [nameLower, hho.nameLower.get_eq]
    rfl
  rw [descriptionScore, hlow, matchScore_of_not_hasName hq hrc
    fun h => hn ((hasName_iff hrc).mpr h)]

lemma inDescription_of_isEntry {i : ℕ} (h : index.IsEntry q.records (item, i)) :
    index.inDescription q.bytes item ↔ q.HasDescription i := by
  obtain ⟨-, record, hrc, hho⟩ := h
  have hlow : index.descriptionLower item = record.descriptionBytes := by
    rw [descriptionLower, hho.descriptionLower.get_eq]
    rfl
  rw [inDescription, hlow, hasDescription_iff hrc, decide_eq_true_eq]

lemma shortScan_spec (hq : q.bytes ≠ []) (lim : ℕ)
    {es : List (CompactPackageInfo × ℕ)} (h : ∀ e ∈ es, index.IsEntry q.records e)
    (nameMatchCount : ℕ) (scd : List ScoredMatch) : ∃ l : List ℕ, l.Sublist (es.map Prod.snd) ∧
      index.shortScan q.bytes lim es nameMatchCount scd = scd ++ l.map q.toMatch ∧
      (∀ i ∈ es.map Prod.snd, q.HasName i → i ∈ l) ∧
      ∀ i ∈ l, ¬q.HasName i → q.HasDescription i := by
  induction es generalizing nameMatchCount scd with
  | nil => exact ⟨[], List.Sublist.refl _, by simp [shortScan], by simp, by simp⟩
  | cons en rest ih =>
    obtain ⟨item, i⟩ := en
    obtain ⟨he, hr⟩ := forall_mem_cons.mp h
    have hmod : i % 2 ^ 32 = i := Nat.mod_eq_of_lt he.1
    unfold shortScan
    rw [nameScore_of_isEntry hq he]
    by_cases hn : q.HasName i
    · obtain ⟨l, hsub, heq, hall, hots⟩ := ih hr (nameMatchCount + 1) (scd ++ [q.toMatch i])
      refine ⟨i :: l, hsub.cons_cons i, ?_, ?_, ?_⟩
      · simp only [if_pos hn, hmod]
        exact heq.trans (append_cons _ _ _).symm
      · intro j hj hjn
        rcases mem_cons.mp hj with rfl | hj
        · exact mem_cons_self
        · exact mem_cons_of_mem _ (hall j hj hjn)
      · intro j hj hjn
        rcases mem_cons.mp hj with rfl | hj
        · exact absurd hn hjn
        · exact hots j hj hjn
    · simp only [if_neg hn]
      by_cases hadd : nameMatchCount < lim ∧ index.inDescription q.bytes item = true
      · obtain ⟨l, hsub, heq, hall, hots⟩ := ih hr nameMatchCount (scd ++ [q.toMatch i])
        refine ⟨i :: l, hsub.cons_cons i, ?_, ?_, ?_⟩
        · rw [if_pos hadd, hmod, descriptionScore_of_isEntry hq he hn]
          exact heq.trans (append_cons _ _ _).symm
        · intro j hj hjn
          rcases mem_cons.mp hj with rfl | hj
          · exact absurd hjn hn
          · exact mem_cons_of_mem _ (hall j hj hjn)
        · intro j hj hjn
          rcases mem_cons.mp hj with rfl | hj
          · exact (inDescription_of_isEntry he).mp hadd.2
          · exact hots j hj hjn
      · obtain ⟨l, hsub, heq, hall, hots⟩ := ih hr nameMatchCount scd
        refine ⟨l, hsub.cons i, ?_, ?_, hots⟩
        · rw [if_neg hadd]
          exact heq
        · intro j hj hjn
          rcases mem_cons.mp hj with rfl | hj
          · exact absurd hjn hn
          · exact hall j hj hjn

lemma descriptionScan_spec (hq : q.bytes ≠ []) (lim nameMatchCount : ℕ)
    {es : List (CompactPackageInfo × ℕ)} (h : ∀ e ∈ es, index.IsEntry q.records e)
    (scd : List ScoredMatch) : ∃ l : List ℕ, l.Sublist (es.map Prod.snd) ∧
      index.descriptionScan q.bytes lim nameMatchCount es scd = scd ++ l.map q.toMatch ∧
      ∀ i ∈ l, q.HasDescription i ∧ ¬q.HasName i := by
  induction es generalizing scd with
  | nil => exact ⟨[], List.Sublist.refl _, by simp [descriptionScan], by simp⟩
  | cons en rest ih =>
    obtain ⟨item, i⟩ := en
    obtain ⟨he, hr⟩ := forall_mem_cons.mp h
    have hmod : i % 2 ^ 32 = i := Nat.mod_eq_of_lt he.1
    unfold descriptionScan
    by_cases hfu : lim * 4 % 2 ^ 64 ≤ nameMatchCount + scd.length
    · exact ⟨[], nil_sublist _, by rw [if_pos hfu]; simp, by simp⟩
    rw [if_neg hfu, nameScore_of_isEntry hq he]
    by_cases hadd : q.HasDescription i ∧ ¬q.HasName i
    · obtain ⟨l, hsub, heq, hots⟩ := ih hr (scd ++ [q.toMatch i])
      refine ⟨i :: l, hsub.cons_cons i, ?_, forall_mem_cons.mpr ⟨hadd, hots⟩⟩
      rw [if_pos ⟨(inDescription_of_isEntry he).mpr hadd.1, if_neg hadd.2⟩, hmod,
        descriptionScore_of_isEntry hq he hadd.2]
      exact heq.trans (append_cons _ _ _).symm
    · obtain ⟨l, hsub, heq, hots⟩ := ih hr scd
      refine ⟨l, hsub.cons i, ?_, hots⟩
      rw [if_neg]
      · exact heq
      · rintro ⟨hin, hno⟩
        refine hadd ⟨(inDescription_of_isEntry he).mp hin, fun hn => ?_⟩
        rw [if_pos hn] at hno
        cases hno

lemma nameScan_eq (h : index.Represents hash q.records) (hrs : q.records.length ≤ 2 ^ 32)
    (hstr : index.pool.strings.length ≤ 2 ^ 32) (hq : q.bytes ≠ []) {cands : List ℕ}
    (hcan : ∀ i ∈ cands, i < q.records.length) : index.nameScan q.bytes cands =
      (cands.filter (q.HasName ·)).map q.toMatch := by
  induction cands with
  | nil => rfl
  | cons i rest ih =>
    obtain ⟨hi, hr⟩ := forall_mem_cons.mp hcan
    have hlt : i < index.items.length := h.length_items ▸ hi
    have hit : index.items[i]? = some index.items[i] := getElem?_eq_getElem hlt
    have he : index.IsEntry q.records (index.items[i], i) :=
      isEntry_of_mem h hrs hstr (mem_zipIdx_iff_getElem?.mpr hit)
    have ih := ih hr
    unfold nameScan at ⊢
    rw [filterMap_cons, hit, Option.bind_some, nameScore_of_isEntry hq he]
    by_cases hn : q.HasName i
    · rw [filter_cons_of_pos (by simpa using hn), map_cons, ← ih, if_pos hn]
      rfl
    · rw [filter_cons_of_neg (by simpa using hn), ← ih, if_neg hn]
      rfl

lemma mem_holders_iff (hrs : q.records.length ≤ 2 ^ 32) {g : Bytes} {i : ℕ} :
    i ∈ holders q.records g ↔ ∃ record, q.records[i]? = some record ∧
      g ∈ windows record.nameBytes := by
  simp only [holders, mem_map, mem_filter, contains_iff_mem]
  have hmod : ∀ {record : PackageRecord} {j : ℕ}, q.records[j]? = some record → j % 2 ^ 32 = j := by
    intro record j hj
    exact Nat.mod_eq_of_lt (lt_of_lt_of_le (List.getElem?_eq_some_iff.mp hj).1 hrs)
  constructor
  · rintro ⟨⟨record, j⟩, ⟨hmem, hg⟩, rfl⟩
    have hj := mem_zipIdx_iff_getElem?.mp hmem
    rw [hmod hj]
    exact ⟨record, hj, hg⟩
  · rintro ⟨record, hi, hg⟩
    exact ⟨(record, i), ⟨mem_zipIdx_iff_getElem?.mpr hi, hg⟩, hmod hi⟩

lemma nodup_holders (hrs : q.records.length ≤ 2 ^ 32) (g : Bytes) :
    (holders q.records g).Nodup := by
  have hmap : holders q.records g = (q.records.zipIdx.filter fun e =>
      (windows (utf8 e.1.name.toAsciiLowercase)).contains g).map Prod.snd := by
    refine map_congr_left fun e he => ?_
    have hj := mem_zipIdx_iff_getElem?.mp (mem_filter.mp he).1
    exact Nat.mod_eq_of_lt (lt_of_lt_of_le (List.getElem?_eq_some_iff.mp hj).1 hrs)
  rw [hmap]
  refine List.Nodup.sublist (filter_sublist.map Prod.snd) ?_
  rw [zipIdx_map_snd]
  exact nodup_range'

lemma exists_matches (h : index.Represents hash q.records) (hrs : q.records.length ≤ 2 ^ 32)
    (hstr : index.pool.strings.length ≤ 2 ^ 32) (hq : q.bytes ≠ []) (lim : ℕ) :
    ∃ l : List ℕ, index.scoredMatches q.bytes lim = l.map q.toMatch ∧
      l.Nodup ∧ (∀ i ∈ l, i < q.records.length) ∧ (∀ i, q.HasName i → i ∈ l) ∧
      ∀ i ∈ l, ¬q.HasName i → q.HasDescription i := by
  have hes : ∀ e ∈ index.items.zipIdx, index.IsEntry q.records e := fun e he =>
    isEntry_of_mem h hrs hstr he
  have hnum : index.items.zipIdx.map Prod.snd = List.range q.records.length := by
    rw [zipIdx_map_snd, h.length_items, range_eq_range']
  unfold scoredMatches
  by_cases hsh : q.bytes.length < 3
  · have hno : index.trigrams.candidates q.bytes = none := by
      rw [TrigramIndex.candidates, if_pos hsh]
    obtain ⟨l, hsub, heq, hall, hots⟩ := shortScan_spec hq lim hes 0 []
    rw [hnum] at hsub hall
    rw [hno]
    exact ⟨l, heq, nodup_range.sublist hsub, fun i hi => mem_range.mp (hsub.subset hi),
      fun i hi => hall i (mem_range.mpr (lt_of_hasName hi)) hi, hots⟩
  · obtain ⟨cands, g, hg, hcan, hsub, hmem⟩ := index.trigrams.candidates_spec (not_lt.mp hsh)
    rw [h.trigrams] at hsub
    have hnd := (nodup_holders hrs g).sublist hsub
    have hlt : ∀ i ∈ cands, i < q.records.length := by
      intro i hi
      obtain ⟨record, hrc, -⟩ := (mem_holders_iff hrs).mp (hsub.subset hi)
      exact (List.getElem?_eq_some_iff.mp hrc).1
    have hns : ∀ i, q.HasName i → i ∈ cands := by
      rintro i ⟨record, hrc, hin⟩
      refine (hmem i).mpr fun g' hg' => ?_
      rw [h.trigrams]
      exact (mem_holders_iff hrs).mpr ⟨record, hrc, windows_subset_of_isInfix hin g' hg'⟩
    rw [hcan]
    simp only [nameScan_eq h hrs hstr hq hlt]
    have hfil : ∀ i, i ∈ cands.filter (q.HasName ·) ↔ q.HasName i := by
      intro i
      rw [mem_filter, decide_eq_true_eq]
      exact ⟨fun hi => hi.2, fun hi => ⟨hns i hi, hi⟩⟩
    split_ifs
    · obtain ⟨l, hsub', heq, hots⟩ := descriptionScan_spec hq lim ((cands.filter (q.HasName ·)).map
          q.toMatch).length hes
        ((cands.filter (q.HasName ·)).map q.toMatch)
      rw [hnum] at hsub'
      refine ⟨cands.filter (q.HasName ·) ++ l, ?_, ?_, ?_, ?_, ?_⟩
      · rw [map_append]
        exact heq
      · refine nodup_append.mpr ⟨hnd.filter _, nodup_range.sublist hsub', ?_⟩
        rintro i hi j hj rfl
        exact (hots i hj).2 ((hfil i).mp hi)
      · intro i hi
        rcases mem_append.mp hi with hi | hi
        · exact lt_of_hasName ((hfil i).mp hi)
        · exact mem_range.mp (hsub'.subset hi)
      · exact fun i hi => mem_append_left _ ((hfil i).mpr hi)
      · intro i hi hn
        rcases mem_append.mp hi with hi | hi
        · exact absurd ((hfil i).mp hi) hn
        · exact (hots i hi).1
    · exact ⟨_, rfl, hnd.filter _, fun i hi => lt_of_hasName ((hfil i).mp hi),
        fun i hi => (hfil i).mpr hi, fun i hi hn => absurd ((hfil i).mp hi) hn⟩

lemma finds_of_matches (hq : q.bytes ≠ []) (hrs : q.records.length ≤ 2 ^ 32)
    {l : List ℕ} (hnd : l.Nodup) (hlt : ∀ i ∈ l, i < q.records.length)
    (hns : ∀ i, q.HasName i → i ∈ l) (hots : ∀ i ∈ l, ¬q.HasName i → q.HasDescription i) (lim : ℕ) :
    q.Finds lim ((l.insertionSort q.Better).take lim) := by
  have hp := perm_insertionSort q.Better l
  have hhi : q.nameHits.Nodup := nodup_range.filter _
  have hmem : ∀ i, i ∈ q.nameHits ↔ i ∈ l ∧ q.HasName i := by
    intro i
    rw [mem_nameHits]
    exact ⟨fun h => ⟨hns i h, h⟩, fun h => h.2⟩
  obtain ⟨rest, hsor, hr⟩ := insertionSort_eq_append (r := q.Better)
    (fun i hi j hj => eq_of_better_of_better hq (lt_of_lt_of_le (hlt i hi) hrs)
      (lt_of_lt_of_le (hlt j hj) hrs)) hnd hhi hmem
    fun i _ j hj hi hnot => better_of_hasName hq hi hnot (hlt j hj)
  have hlen : (q.nameHits.insertionSort q.Better).length =
      q.nameHits.length := length_insertionSort _ _
  refine ⟨?_, ?_, length_take_le _ _, ?_, ?_⟩
  · exact (hp.nodup_iff.mpr hnd).sublist (take_sublist _ _)
  · exact fun i hi => hlt i (hp.subset (mem_of_mem_take hi))
  · rw [hsor, take_take, min_eq_left (min_le_right _ _)]
    rcases le_total lim q.nameHits.length with hle | hle
    · rw [min_eq_right hle, take_append_of_le_length (by omega)]
    · rw [take_append_of_le_length (by omega),
        take_of_length_le (by omega), take_of_length_le (by omega)]
  · intro i hi
    rw [hsor] at hi
    have hmem' : i ∈ rest := by
      rcases le_total lim q.nameHits.length with hle | hle
      · rw [min_eq_right hle, drop_take_self] at hi
        cases hi
      · rw [min_eq_left hle, drop_take, ← hlen, drop_left] at hi
        exact mem_of_mem_take hi
    obtain ⟨hl, hn⟩ := hr i hmem'
    exact ⟨hots i hl hn, hn⟩

lemma info_of_holds {record : PackageRecord} (h : item.Holds index.pool record) :
    index.info item = record.info := by
  simp only [info, PackageRecord.info, h.name.get_eq, h.version.get_eq, h.description.get_eq,
    h.source]

lemma map_info_eq (h : index.Represents hash q.records)
    (hstr : index.pool.strings.length ≤ 2 ^ 32) (i : ℕ) :
    (index.items[i]?).map index.info = (q.records[i]?).map PackageRecord.info := by
  by_cases hlt : i < q.records.length
  · have hlt' : i < index.items.length := h.length_items.symm ▸ hlt
    rw [getElem?_eq_getElem hlt, getElem?_eq_getElem hlt']
    exact congrArg some (info_of_holds ((h.items hstr).get hlt' hlt))
  · rw [List.getElem?_eq_none (not_lt.mp hlt),
      List.getElem?_eq_none (h.length_items.symm ▸ not_lt.mp hlt)]
    rfl

end PackageIndex

end

namespace PackageIndex

/-- The search in an index of at most `2 ^ 32` packages and texts, for fewer than `2 ^ 57` packages,
returns packages, none twice and at most as many as are asked for. The first ones are the best of
the packages whose names have the query, and all others have it in their descriptions and not in
their names. -/
theorem search_finds (hash : Text → UInt64) (capacity : ℕ) (records : List PackageRecord)
    (query : Text) (limit : ℕ) (hquery : query ≠ []) (hlimit : 1 ≤ limit) (hlimit' : limit < 2 ^ 57)
    (hrecords : records.length ≤ 2 ^ 32)
    (hstrings : (pushAll hash capacity records).pool.strings.length ≤ 2 ^ 32) :
    (Query.of records query).Returns limit
      ((pushAll hash capacity records).search query limit) := by
  have hrep := represents_pushAll hash capacity records
  have hby : (of records query).bytes ≠ [] :=
    utf8_ne_nil fun hnil => hquery (map_eq_nil_iff.mp hnil)
  obtain ⟨l, hsco, hnd, hlt, hns, hots⟩ :=
    exists_matches hrep hrecords hstrings hby limit
  refine ⟨_, ?_, finds_of_matches hby hrecords hnd hlt hns hots limit⟩
  have hro : ¬isizeMax < limit * 2 % 2 ^ 64 * scoredMatchSize := by
    rw [isizeMax, scoredMatchSize]
    omega
  have hem : ¬(query = [] ∨ limit = 0) := by
    rintro (h | h)
    · exact hquery h
    · omega
  have hso : (l.map (of records query).toMatch).insertionSort (fun a b => b.1.Le a.1) =
      (l.insertionSort (of records query).Better).map (of records query).toMatch :=
    (map_insertionSort (of records query).Better
      (fun a b : ScoredMatch => b.1.Le a.1) _ l fun i _ j _ => Iff.rfl).symm
  have hin := fun i => map_info_eq (q := of records query) hrep hstrings i
  unfold search
  rw [if_neg hem, if_neg hro, show utf8 query.toAsciiLowercase = (of records query).bytes from rfl]
  simp only [hsco]
  rw [hso, ← map_take, filterMap_map]
  simp only [Function.comp_def, toMatch, hin]

/-- A search for `2 ^ 62` packages panics, in every index. -/
theorem search_panics : (withCapacity 0).search ['a'] (2 ^ 62) = none ∧
    ¬(Query.of [] ['a']).Returns (2 ^ 62) ((pushAll (fun _ => 0) 0 []).search ['a'] (2 ^ 62)) := by
  have hno : (withCapacity 0).search ['a'] (2 ^ 62) = none := by
    unfold search
    rw [if_neg (by decide), if_pos (by decide)]
  refine ⟨hno, ?_⟩
  rintro ⟨fd, hso, -⟩
  cases hso

/-- A search among two packages. -/
theorem search_finds_vim : let records : List PackageRecord :=
      [⟨"vim".toList, "9".toList, "Editor".toList, [], 0, 0, "extra".toList, [], []⟩,
        ⟨"nano".toList, "8".toList, "Like vim".toList, [], 0, 0, "core".toList, [], []⟩]
    records.length ≤ 2 ^ 32 ∧ (of records "Vim".toList).Returns 1
      ((pushAll (fun _ => 7) 2 records).search "Vim".toList 1) := by
  intro records
  have hfac : "Vim".toList ≠ [] ∧ records.length ≤ 2 ^ 32 ∧
      (pushAll (fun _ => 7) 2 records).pool.strings.length ≤ 2 ^ 32 := by decide +kernel
  obtain ⟨hq, hrs, hstr⟩ := hfac
  exact ⟨hrs, search_finds (fun _ => 7) 2 records "Vim".toList 1 hq (by decide) (by decide)
    hrs hstr⟩

end PackageIndex

end Omg.Daemon
