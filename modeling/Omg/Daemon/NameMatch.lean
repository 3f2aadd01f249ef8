import Omg.Collections.Occurrences
import Omg.Daemon.Protocol

/-!
# How well a name matches a query

A match of a query with the name of a package has a rank: the name itself, the beginning of the
name, the beginning of a word in it, or any other place.

Names and queries are byte strings, as the search compares bytes.

Source: `src/daemon/index.rs` and `src/package_managers/mod.rs`.
-/

namespace Omg.Daemon

open Collections List Option

/-! ### Scores -/

inductive SearchNameKind
  | literal
  | rpmIdentity
  deriving DecidableEq

/-- `str::rsplit_once` at a byte: the parts before and after its last occurrence. -/
def rsplitOnceByte (b : UInt8) (s : Bytes) : Option (Bytes × Bytes) :=
  let last := (s.reverse.takeWhile (· ≠ b)).reverse
  if last.length < s.length then some (s.take (s.length - last.length - 1), last) else none

/-- `SearchNameKind::exact_key`. -/
def SearchNameKind.exactKey (kind : SearchNameKind) (query name : Bytes) : Option Bytes :=
  if name = query then some name
  else if kind = .rpmIdentity then
    match rsplitOnceByte 46 name with
    | some (basename, architecture) =>
      if basename ≠ [] ∧ architecture ≠ [] ∧ basename = query then some basename else none
    | none => none
  else none

structure RelevanceScore where
  rank : ℕ
  nameLenRev : ℕ
  idxRev : ℕ
  deriving DecidableEq

namespace RelevanceScore

def exactNameMatch : ℕ := 5
def rpmBasenameMatch : ℕ := 4
def prefixMatch : ℕ := 3
def wordBoundaryMatch : ℕ := 2
def substringMatch : ℕ := 1
def descriptionOnly : ℕ := 0

/-- `usize::MAX`. -/
def usizeMax : ℕ := 2 ^ 64 - 1

def new (rank nameLen idx : ℕ) : RelevanceScore := ⟨rank, usizeMax - nameLen, usizeMax - idx⟩

end RelevanceScore

/-- A byte after which a word begins: `-`, `_`, `.` or white space. -/
def isBoundary (b : UInt8) : Bool := b ∈ [45, 95, 46, 32, 9, 10, 12, 13]

def rankPositions (query name : Bytes) : Bool → List ℕ → Option ℕ
  | found, [] => if found then some RelevanceScore.substringMatch else none
  | _, pos :: rest =>
    if pos = 0 ∧ name.length = query.length then some RelevanceScore.exactNameMatch
    else if pos = 0 then some RelevanceScore.prefixMatch
    else if (name[pos - 1]?).any isBoundary then some RelevanceScore.wordBoundaryMatch
    else rankPositions query name true rest

def rpmRule (kind : SearchNameKind) (eligible : Bool) (query name : Bytes) : Bool :=
  name ≠ query && eligible && (kind.exactKey query name).isSome

/-- `score_name_match`. A package is eligible for the rule about architectures if it is an official
one. -/
def scoreNameMatch (kind : SearchNameKind) (eligible : Bool) (query name : Bytes) (idx : ℕ) :
    Option RelevanceScore :=
  if rpmRule kind eligible query name then
    some (.new RelevanceScore.rpmBasenameMatch name.length idx)
  else
    (rankPositions query name false (matchIndices query name)).map fun rank =>
      .new rank name.length idx

/-! ### The rank that a match should have -/

def BeginsWord (query name : Bytes) : Prop :=
  ∃ i b, name[i]? = some b ∧ isBoundary b = true ∧ query <+: name.drop (i + 1)

structure RightRank (query name : Bytes) (rank : ℕ) : Prop where
  exact_iff : rank = RelevanceScore.exactNameMatch ↔ name = query
  prefix_iff : name ≠ query → (rank = RelevanceScore.prefixMatch ↔ query <+: name)
  word_iff : ¬query <+: name → (rank = RelevanceScore.wordBoundaryMatch ↔ BeginsWord query name)
  substring : ¬query <+: name → ¬BeginsWord query name → rank = RelevanceScore.substringMatch

def VisitsWord (query name : Bytes) : Prop :=
  ∃ i ∈ matchIndices query name, (name[i - 1]?).any isBoundary = true

open RelevanceScore

variable {query name : Bytes}

lemma rightRank_of_isPrefix (h : query <+: name) {rank : ℕ} : RightRank query name rank ↔ rank =
      if name.length = query.length then exactNameMatch else prefixMatch := by
  have hlng : name.length = query.length ↔ name = query :=
    ⟨fun heq => (h.eq_of_length heq.symm).symm, fun heq => by rw [heq]⟩
  by_cases heq : name = query
  · rw [if_pos (hlng.mpr heq)]
    exact ⟨fun hri => hri.exact_iff.mpr heq, fun hrk => ⟨by simp [hrk, heq],
      (absurd heq), absurd h, absurd h⟩⟩
  · rw [if_neg fun hlen => heq (hlng.mp hlen)]
    refine ⟨fun hri => (hri.prefix_iff heq).mpr h, ?_⟩
    rintro rfl
    exact ⟨by simp [heq, prefixMatch, exactNameMatch], fun _ => by simp [h], absurd h, absurd h⟩

lemma rightRank_of_not_isPrefix (h : ¬query <+: name) {rank : ℕ} :
    RightRank query name rank ↔ rank = wordBoundaryMatch ∧ BeginsWord query name ∨
      rank = substringMatch ∧ ¬BeginsWord query name := by
  have hne : name ≠ query := by
    rintro rfl
    exact h (prefix_refl _)
  constructor
  · intro hri
    by_cases hw : BeginsWord query name
    · exact .inl ⟨(hri.word_iff h).mpr hw, hw⟩
    · exact .inr ⟨hri.substring h hw, hw⟩
  · rintro (⟨rfl, hw⟩ | ⟨rfl, hw⟩)
    · exact ⟨by simp [hne, wordBoundaryMatch, exactNameMatch],
        fun _ => by simp [h, wordBoundaryMatch, prefixMatch],
        fun _ => by simp [hw], fun _ hnot => absurd hw hnot⟩
    · exact ⟨by simp [hne, substringMatch, exactNameMatch],
        fun _ => by simp [h, substringMatch, prefixMatch],
        fun _ => by simp [hw, substringMatch, wordBoundaryMatch],
        fun _ _ => rfl⟩

lemma RightRank.ne_rpmBasenameMatch {rank : ℕ} (h : RightRank query name rank) :
    rank ≠ rpmBasenameMatch := by
  rintro rfl
  by_cases hst : query <+: name
  · have hrk := (rightRank_of_isPrefix hst).mp h
    split_ifs at hrk <;> exact absurd hrk (by decide)
  · rcases (rightRank_of_not_isPrefix hst).mp h with ⟨hrk, -⟩ | ⟨hrk, -⟩
    · exact absurd hrk (by decide)
    · exact absurd hrk (by decide)

lemma rankPositions_of_pos {poss : List ℕ} (h : ∀ i ∈ poss, i ≠ 0) (fd : Bool) :
    rankPositions query name fd poss = if ∃ i ∈ poss, (name[i - 1]?).any isBoundary = true then
        some wordBoundaryMatch else if fd ∨ poss ≠ [] then some substringMatch else none := by
  induction poss generalizing fd with
  | nil => cases fd <;> simp [rankPositions]
  | cons pos rest ih =>
    obtain ⟨hpos, hr⟩ := forall_mem_cons.mp h
    unfold rankPositions
    rw [if_neg (fun hz => hpos hz.1), if_neg hpos, ih hr]
    by_cases hbo : (name[pos - 1]?).any isBoundary = true
    · simp [hbo]
    · simp [hbo]

lemma rankPositions_matchIndices (hq : query ≠ []) (h : query <:+: name) :
    ∃ rank, rankPositions query name false (matchIndices query name) = some rank ∧
      (RightRank query name rank ↔
        (BeginsWord query name → query <+: name ∨ VisitsWord query name)) := by
  by_cases hst : query <+: name
  · obtain ⟨rest, hr⟩ := matchIndices_of_isPrefix hq hst
    rw [hr, rankPositions]
    by_cases hlen : name.length = query.length
    · exact ⟨_, if_pos ⟨rfl, hlen⟩, iff_of_true
        ((rightRank_of_isPrefix hst).mpr (if_pos hlen).symm) fun _ => .inl hst⟩
    · rw [if_neg fun hbth => hlen hbth.2]
      exact ⟨_, rfl, iff_of_true
        ((rightRank_of_isPrefix hst).mpr (if_neg hlen).symm) fun _ => .inl hst⟩
  · have hpos : ∀ i ∈ matchIndices query name, i ≠ 0 := by
      rintro i hi rfl
      exact hst (isPrefix_of_mem_matchIndices hi).2
    have hfo := (matchIndices_ne_nil_iff hq).mpr h
    rw [rankPositions_of_pos hpos]
    by_cases hvis : ∃ i ∈ matchIndices query name, (name[i - 1]?).any isBoundary = true
    · rw [if_pos hvis]
      refine ⟨_, rfl, iff_of_true ?_ fun _ => .inr hvis⟩
      obtain ⟨i, hi, hbo⟩ := hvis
      obtain ⟨b, hb, hbou⟩ : ∃ b, name[i - 1]? = some b ∧ isBoundary b = true := by
        simpa only [Option.any_eq_true] using hbo
      refine (rightRank_of_not_isPrefix hst).mpr (.inl ⟨rfl, i - 1, b, hb, hbou, ?_⟩)
      rw [Nat.sub_add_cancel (Nat.one_le_iff_ne_zero.mpr (hpos i hi))]
      exact (isPrefix_of_mem_matchIndices hi).2
    · rw [if_neg hvis, if_pos (.inr hfo)]
      refine ⟨_, rfl, ?_⟩
      rw [rightRank_of_not_isPrefix hst]
      simp [hst, VisitsWord, hvis, substringMatch, wordBoundaryMatch]

/-! ### Queries that overlap themselves -/

/-- The query begins a word inside itself: behind a byte after which a word begins it goes on as it
begins, and ends. -/
def WordOverlap (query : Bytes) : Prop :=
  ∃ u b v w, isBoundary b = true ∧ v ≠ [] ∧ query = u ++ b :: v ∧ query = v ++ w

lemma visitsWord_of_beginsWord (hq : query ≠ []) (hove : ¬WordOverlap query)
    (h : BeginsWord query name) : VisitsWord query name := by
  obtain ⟨i, b, hb, hbo, hocc⟩ := h
  obtain ⟨j, hj, hle, hlt⟩ := exists_matchIndices hq hocc
  rcases Nat.lt_or_eq_of_le hle with hbe | rfl
  · -- the occurrence lies inside the visited one, so that the query goes on as it begins
    refine absurd ?_ hove
    obtain ⟨rest, hr⟩ := (isPrefix_of_mem_matchIndices hj).2
    obtain ⟨k, rfl⟩ : ∃ k, i = j + k := ⟨i - j, by omega⟩
    have hk : k < query.length := by omega
    have hat : query[k] = b := by
      have hget : (name.drop j)[k]? = some b := by rw [getElem?_drop, hb]
      rw [← hr, getElem?_append_left hk, getElem?_eq_getElem hk] at hget
      exact some.inj hget
    have hsp : query = query.take k ++ b :: query.drop (k + 1) := by
      rw [← hat, cons_getElem_drop_succ, take_append_drop]
    have hbor : query.drop (k + 1) <+: query := by
      refine prefix_of_prefix_length_le ?_ hocc (by simp)
      have hdr : name.drop (j + k + 1) = (name.drop j).drop (k + 1) := by
        rw [drop_drop, Nat.add_assoc]
      rw [hdr, ← hr, drop_append_of_le_length hk]
      exact prefix_append _ _
    obtain ⟨w, hw⟩ := hbor
    refine ⟨query.take k, b, query.drop (k + 1), w, hbo, ?_, hsp, hw.symm⟩
    rw [Ne, drop_eq_nil_iff]
    omega
  · refine ⟨i + 1, hj, ?_⟩
    rw [Nat.add_sub_cancel, hb]
    exact hbo

lemma exists_not_visitsWord (hove : WordOverlap query) :
    ∃ name, query <:+: name ∧ BeginsWord query name ∧ ¬query <+: name ∧ ¬VisitsWord query name := by
  obtain ⟨u, b, v, w, hbo, hv, hq, hbor⟩ := hove
  have hne : query ≠ [] := by simp [hq]
  obtain ⟨c, hc, hh⟩ : ∃ c, isBoundary c = false ∧ query.head? ≠ some c := by
    by_cases hx : query.head? = some 120
    · exact ⟨121, by decide, by rw [hx]; decide⟩
    · exact ⟨120, by decide, hx⟩
  have hst : ¬query <+: c :: (query ++ w) := by
    intro h
    rw [prefix_cons_iff] at h
    rcases h with h | ⟨t, ht, -⟩
    · exact hne h
    · exact hh (by rw [ht]; rfl)
  have hz : ∀ i ∈ matchIndices query (c :: (query ++ w)), i ≠ 0 := by
    rintro i hi rfl
    exact hst (isPrefix_of_mem_matchIndices hi).2
  have hone : 1 ∈ matchIndices query (c :: (query ++ w)) := by
    have hocc : query <+: (c :: (query ++ w)).drop 1 := prefix_append _ _
    obtain ⟨j, hj, hle, -⟩ := exists_matchIndices hne hocc
    have := hz j hj
    rwa [show j = 1 by omega] at hj
  have hlen : query.length = v.length + w.length := by
    conv_lhs => rw [hbor]
    exact length_append
  have hvp := length_pos_iff.mpr hv
  refine ⟨c :: (query ++ w), ⟨[c], w, rfl⟩, ⟨1 + u.length, b, ?_, hbo, ?_⟩, hst, ?_⟩
  · rw [hq, Nat.add_comm]
    simp
  · rw [hq, Nat.add_comm 1, drop_succ_cons, append_assoc, cons_append, drop_append]
    rw [drop_of_length_le (by omega), Nat.add_sub_cancel_left, nil_append,
      drop_succ_cons, drop_zero, ← hbor, hq]
  · rintro ⟨i, hi, hany⟩
    -- behind the first occurrence there is no room for another one
    have hi' : i = 1 := by
      by_contra hot
      have hpos := hz i hi
      have hfar := le_of_mem_matchIndices hone hi (by omega)
      have hro := (isPrefix_of_mem_matchIndices hi).2.length_le
      simp only [length_drop, length_cons, length_append] at hro
      omega
    rw [hi'] at hany
    exact absurd (show isBoundary c = true from hany) (by simp [hc])

/-! ### The score -/

def ScoresRight (kind : SearchNameKind) (eligible : Bool) (query name : Bytes) (idx : ℕ) : Prop :=
  ∃ score, scoreNameMatch kind eligible query name idx = some score ∧
    RightRank query name score.rank

lemma scoresRight_iff {kind : SearchNameKind} {elg : Bool} {idx : ℕ} (hq : query ≠ [])
    (h : query <:+: name) :
    ScoresRight kind elg query name idx ↔ rpmRule kind elg query name = false ∧
      (BeginsWord query name → query <+: name ∨ VisitsWord query name) := by
  unfold ScoresRight scoreNameMatch
  cases hru : rpmRule kind elg query name with
  | true =>
    simp only [if_true, some.injEq, exists_eq_left', Bool.true_eq_false, false_and, iff_false]
    exact fun hri => hri.ne_rpmBasenameMatch rfl
  | false =>
    obtain ⟨rank, hrk, hri⟩ := rankPositions_matchIndices hq h
    simp only [Bool.false_eq_true, if_false, hrk, map_some, some.injEq, exists_eq_left', true_and]
    exact hri

lemma rpmRule_dot (hq : query ≠ []) :
    rpmRule .rpmIdentity true query (query ++ [46, 120]) = true := by
  have hsp : rsplitOnceByte 46 (query ++ [46, 120]) = some (query, [120]) := by
    simp [rsplitOnceByte]
  simp [rpmRule, SearchNameKind.exactKey, hsp, hq]

lemma rpmRule_eq_false {kind : SearchNameKind} {elg : Bool}
    (h : ¬(kind = .rpmIdentity ∧ elg)) : rpmRule kind elg query name = false := by
  cases elg with
  | false => simp [rpmRule]
  | true =>
    have hki : kind ≠ .rpmIdentity := fun heq => h ⟨heq, rfl⟩
    by_cases hn : name = query
    · simp [rpmRule, hn]
    · simp [rpmRule, SearchNameKind.exactKey, hki]

/-- A name that has the query is scored by the best place at which the query occurs, exactly if it
is not scored by its architecture, and some visited occurrence begins a word if the name does not
begin with the query and some occurrence begins a word. All names that have the query are scored
like this exactly if no architectures are compared and the query does not overlap itself behind a
byte after which a word begins. -/
theorem scoreNameMatch_right_iff (kind : SearchNameKind) (eligible : Bool) (query : Bytes)
    (hquery : query ≠ []) :
    (∀ name idx, query <:+: name →
      (ScoresRight kind eligible query name idx ↔ rpmRule kind eligible query name = false ∧
        (BeginsWord query name → query <+: name ∨ VisitsWord query name))) ∧
    ((∀ name idx, query <:+: name → ScoresRight kind eligible query name idx) ↔
      ¬(kind = .rpmIdentity ∧ eligible = true) ∧ ¬WordOverlap query) := by
  refine ⟨fun name idx h => scoresRight_iff hquery h, fun h => ⟨?_, ?_⟩, ?_⟩
  · rintro ⟨rfl, rfl⟩
    have hri := h (query ++ [46, 120]) 0 (prefix_append _ _).isInfix
    have hru := ((scoresRight_iff hquery (prefix_append _ _).isInfix).mp hri).1
    exact absurd (rpmRule_dot hquery) (by simp [hru])
  · intro hove
    obtain ⟨name, hin, hw, hst, hvis⟩ := exists_not_visitsWord hove
    rcases ((scoresRight_iff hquery hin).mp (h name 0 hin)).2 hw with hf | hvi
    · exact hst hf
    · exact hvis hvi
  · rintro ⟨hrpm, hove⟩ name idx hin
    exact (scoresRight_iff hquery hin).mpr ⟨rpmRule_eq_false hrpm, fun hw =>
      .inr (visitsWord_of_beginsWord hquery hove hw)⟩

/-- The query `a-a` in the name `xa-a-a`: the second occurrence begins a word, and lies inside the
first one. -/
theorem scoreNameMatch_overlap : [97, 45, 97] <:+: ([120, 97, 45, 97, 45, 97] : Bytes) ∧
      BeginsWord [97, 45, 97] [120, 97, 45, 97, 45, 97] ∧
      scoreNameMatch .literal true [97, 45, 97] [120, 97, 45, 97, 45, 97] 0 =
        some (.new RelevanceScore.substringMatch 6 0) ∧
      ¬ScoresRight .literal true [97, 45, 97] [120, 97, 45, 97, 45, 97] 0 := by
  have hw : BeginsWord [97, 45, 97] [120, 97, 45, 97, 45, 97] :=
    ⟨2, 45, by decide, by decide, by decide⟩
  have hsco : scoreNameMatch .literal true [97, 45, 97] [120, 97, 45, 97, 45, 97] 0 =
      some (.new RelevanceScore.substringMatch 6 0) := by decide
  refine ⟨by decide, hw, hsco, ?_⟩
  rintro ⟨score, hso, hri⟩
  obtain rfl := some.inj (hsco.symm.trans hso)
  exact absurd ((hri.word_iff (by decide)).mpr hw) (by decide)

/-- The condition for names that have the query `lib`. -/
theorem scoreNameMatch_right_lib : ([108, 105, 98] : Bytes) ≠ [] ∧
      ((∀ name idx, [108, 105, 98] <:+: name →
          ScoresRight .literal true [108, 105, 98] name idx) ↔
        ¬(SearchNameKind.literal = .rpmIdentity ∧ true = true) ∧ ¬WordOverlap [108, 105, 98]) :=
  ⟨by decide, (scoreNameMatch_right_iff .literal true [108, 105, 98] (by decide)).2⟩

end Omg.Daemon
