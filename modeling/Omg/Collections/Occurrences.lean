import Mathlib.Data.List.Infix

/-!
# Occurrences that do not overlap

A search from left to right goes on behind each occurrence that it finds. It does not visit all
occurrences of a pattern that overlaps itself, but every occurrence overlaps one that is visited and
that does not start behind it.
-/

namespace Omg.Collections

open List

variable {α : Type} [DecidableEq α] {pattern s : List α}

def scan (pattern : List α) : ℕ → ℕ → List α → List ℕ
  | _, _, [] => []
  | skip + 1, pos, _ :: rest => scan pattern skip (pos + 1) rest
  | 0, pos, a :: rest =>
    if pattern <+: a :: rest then pos :: scan pattern (pattern.length - 1) (pos + 1) rest
    else scan pattern 0 (pos + 1) rest

/-- The positions of the occurrences of a pattern that a search from left to right finds, each
behind the end of the one before. The pattern is not empty. -/
def matchIndices (pattern s : List α) : List ℕ := scan pattern 0 0 s

lemma mem_scan {skip pos i : ℕ} (h : i ∈ scan pattern skip pos s) :
    ∃ k, i = pos + k ∧ skip ≤ k ∧ k < s.length ∧ pattern <+: s.drop k := by
  induction s generalizing skip pos with
  | nil => cases h
  | cons a s ih =>
    cases skip with
    | succ skip =>
      obtain ⟨k, rfl, hsk, hk, hpx⟩ := ih h
      exact ⟨k + 1, by omega, by omega, by simpa using hk, hpx⟩
    | zero =>
      unfold scan at h
      split_ifs at h with hhe
      · rcases mem_cons.mp h with rfl | h
        · exact ⟨0, rfl, le_rfl, by simp, hhe⟩
        · obtain ⟨k, rfl, -, hk, hpx⟩ := ih h
          exact ⟨k + 1, by omega, by omega, by simpa using hk, hpx⟩
      · obtain ⟨k, rfl, -, hk, hpx⟩ := ih h
        exact ⟨k + 1, by omega, by omega, by simpa using hk, hpx⟩

lemma exists_scan (hpat : pattern ≠ []) {skip pos k : ℕ} (hsk : skip ≤ k)
    (h : pattern <+: s.drop k) :
    ∃ j ∈ scan pattern skip pos s, j ≤ pos + k ∧ pos + k < j + pattern.length := by
  induction s generalizing skip pos k with
  | nil =>
    rw [drop_nil] at h
    exact absurd (prefix_nil.mp h) hpat
  | cons a s ih =>
    cases skip with
    | succ skip =>
      obtain ⟨k, rfl⟩ : ∃ k', k = k' + 1 := ⟨k - 1, by omega⟩
      obtain ⟨j, hj, hle, hlt⟩ : ∃ j ∈ scan pattern skip (pos + 1) s,
          j ≤ pos + 1 + k ∧ pos + 1 + k < j + pattern.length := ih (by omega) h
      exact ⟨j, hj, by omega, by omega⟩
    | zero =>
      unfold scan
      split_ifs with hhe
      · by_cases hin : k < pattern.length
        · exact ⟨pos, mem_cons_self, by omega, by omega⟩
        · have hlen := length_pos_iff.mpr hpat
          obtain ⟨k, rfl⟩ : ∃ k', k = k' + 1 := ⟨k - 1, by omega⟩
          obtain ⟨j, hj, hle, hlt⟩ : ∃ j ∈ scan pattern (pattern.length - 1) (pos + 1) s,
              j ≤ pos + 1 + k ∧ pos + 1 + k < j + pattern.length := ih (by omega) h
          exact ⟨j, mem_cons_of_mem _ hj, by omega, by omega⟩
      · have hk : k ≠ 0 := by
          rintro rfl
          exact hhe h
        obtain ⟨k, rfl⟩ : ∃ k', k = k' + 1 := ⟨k - 1, by omega⟩
        obtain ⟨j, hj, hle, hlt⟩ : ∃ j ∈ scan pattern 0 (pos + 1) s,
            j ≤ pos + 1 + k ∧ pos + 1 + k < j + pattern.length := ih (by omega) h
        exact ⟨j, hj, by omega, by omega⟩

lemma isPrefix_of_mem_matchIndices {i : ℕ} (h : i ∈ matchIndices pattern s) :
    i < s.length ∧ pattern <+: s.drop i := by
  obtain ⟨k, rfl, -, hk, hpx⟩ := mem_scan h
  rw [Nat.zero_add]
  exact ⟨hk, hpx⟩

lemma exists_matchIndices (hpat : pattern ≠ []) {i : ℕ} (h : pattern <+: s.drop i) :
    ∃ j ∈ matchIndices pattern s, j ≤ i ∧ i < j + pattern.length := by
  obtain ⟨j, hj, hle, hlt⟩ : ∃ j ∈ scan pattern 0 0 s, j ≤ 0 + i ∧ 0 + i < j + pattern.length :=
    exists_scan hpat (Nat.zero_le i) h
  rw [Nat.zero_add] at hle hlt
  exact ⟨j, hj, hle, hlt⟩

lemma le_of_mem_scan {skip pos i j : ℕ} (hi : i ∈ scan pattern skip pos s)
    (hj : j ∈ scan pattern skip pos s) (hlt : i < j) : i + pattern.length ≤ j := by
  induction s generalizing skip pos with
  | nil => cases hi
  | cons a s ih =>
    cases skip with
    | succ skip => exact ih hi hj
    | zero =>
      unfold scan at hi hj
      split_ifs at hi hj with hhe
      · rcases mem_cons.mp hj with rfl | hj
        · rcases mem_cons.mp hi with rfl | hi
          · exact absurd hlt (lt_irrefl _)
          · obtain ⟨k, rfl, -⟩ := mem_scan hi
            omega
        · rcases mem_cons.mp hi with rfl | hi
          · obtain ⟨k, rfl, hsk, -⟩ := mem_scan hj
            omega
          · exact ih hi hj
      · exact ih hi hj

lemma le_of_mem_matchIndices {i j : ℕ} (hi : i ∈ matchIndices pattern s)
    (hj : j ∈ matchIndices pattern s) (hlt : i < j) : i + pattern.length ≤ j :=
  le_of_mem_scan hi hj hlt

lemma matchIndices_ne_nil_iff (hpat : pattern ≠ []) :
    matchIndices pattern s ≠ [] ↔ pattern <:+: s := by
  constructor
  · intro h
    obtain ⟨i, hi⟩ := exists_mem_of_ne_nil _ h
    exact (isPrefix_of_mem_matchIndices hi).2.isInfix.trans (drop_suffix i s).isInfix
  · rintro ⟨ft, back, rfl⟩
    have hpx : pattern <+: (ft ++ pattern ++ back).drop ft.length := by
      rw [append_assoc, drop_left]
      exact prefix_append _ _
    obtain ⟨j, hj, -, -⟩ := exists_matchIndices hpat hpx
    exact ne_nil_of_mem hj

lemma matchIndices_of_isPrefix (hpat : pattern ≠ []) (h : pattern <+: s) :
    ∃ rest, matchIndices pattern s = 0 :: rest := by
  cases s with
  | nil => exact absurd (prefix_nil.mp h) hpat
  | cons a s =>
    rw [matchIndices, scan, if_pos h]
    exact ⟨_, rfl⟩

/-!
### Searching segments in one text

Segments are put into one text, each with a mark behind it. An occurrence of a pattern without the
mark lies in one segment. It is found by the positions at which the segments start, and a search
that does not visit overlapping occurrences still visits every segment that has the pattern.
-/

variable {α : Type} (mark : α)

def joined : List (List α) → List α
  | [] => []
  | segment :: rest => segment ++ mark :: joined rest

def startsFrom : ℕ → List (List α) → List ℕ
  | pos, [] => [pos]
  | pos, segment :: rest => pos :: startsFrom (pos + (segment.length + 1)) rest

def segmentOf : List (List α) → ℕ → ℕ
  | [], _ => 0
  | segment :: rest, pos =>
    if pos ≤ segment.length then 0 else segmentOf rest (pos - (segment.length + 1)) + 1

/-- A binary search in increasing positions: the number of the position itself, or else of the last
one before it. -/
def locate (starts : List ℕ) (pos : ℕ) : ℕ :=
  let i := (starts.takeWhile (· < pos)).length
  if starts[i]? = some pos then i else i - 1

variable {mark} {segs : List (List α)} {pat : List α}

lemma locate_cons_self (starts : List ℕ) (pos : ℕ) : locate (pos :: starts) pos = 0 := by
  simp [locate]

lemma locate_cons_of_lt {st pos : ℕ} (h : st < pos) {starts : List ℕ} {next : ℕ}
    (hh : starts.head? = some next) :
    locate (st :: starts) pos = if pos < next then 0 else locate starts pos + 1 := by
  obtain ⟨rest, rfl⟩ : ∃ rest, starts = next :: rest := head?_eq_some_iff.mp hh
  unfold locate
  rw [takeWhile_cons_of_pos (by simpa using h)]
  simp only [length_cons, getElem?_cons_succ]
  rcases Nat.lt_trichotomy pos next with hlt | rfl | hgt
  · rw [if_pos hlt, takeWhile_cons_of_neg (by simpa using Nat.le_of_lt hlt)]
    simp [Nat.ne_of_gt hlt]
  · simp
  · rw [if_neg (Nat.not_lt.mpr (Nat.le_of_lt hgt)), takeWhile_cons_of_pos (by simpa using hgt)]
    split_ifs <;> rfl

lemma head?_startsFrom (pos : ℕ) (segs : List (List α)) :
    (startsFrom pos segs).head? = some pos := by
  cases segs <;> rfl

lemma locate_startsFrom (base : ℕ) {pos : ℕ} (h : pos < (joined mark segs).length) :
    locate (startsFrom base segs) (base + pos) = segmentOf segs pos := by
  induction segs generalizing base pos with
  | nil => exact absurd h (Nat.not_lt_zero _)
  | cons seg rest ih =>
    unfold startsFrom segmentOf
    rcases Nat.eq_zero_or_pos pos with rfl | hpos
    · simp [locate_cons_self]
    · rw [locate_cons_of_lt (by omega) (head?_startsFrom _ _)]
      by_cases hin : pos ≤ seg.length
      · rw [if_pos (by omega), if_pos hin]
      · rw [if_neg (by omega), if_neg hin]
        rw [joined, length_append, length_cons] at h
        have hr := ih (base + (seg.length + 1))
          (show pos - (seg.length + 1) < (joined mark rest).length by omega)
        rw [show base + (seg.length + 1) + (pos - (seg.length + 1)) = base + pos by omega] at hr
        rw [hr]

/-! ### Patterns without the mark -/

lemma isPrefix_drop_of_append {ft back : List α} {k : ℕ} (hma : mark ∉ pat) (hk : k ≤ ft.length)
    (h : pat <+: (ft ++ mark :: back).drop k) : pat <+: ft.drop k := by
  rw [drop_append_of_le_length hk] at h
  rcases Nat.lt_or_ge (ft.drop k).length pat.length with hlo | hsh
  · -- a longer pattern would have the mark
    refine absurd ?_ hma
    obtain ⟨tail, hta⟩ : ft.drop k ++ [mark] <+: pat := by
      refine prefix_of_prefix_length_le ?_ h ?_
      · exact ⟨back, by simp⟩
      · rw [length_append]
        exact hlo
    rw [← hta]
    simp
  · exact prefix_of_prefix_length_le h (prefix_append _ _) hsh

lemma joined_drop_of_lt {seg : List α} {rest : List (List α)} {pos : ℕ} (h : seg.length < pos) :
    (joined mark (seg :: rest)).drop pos = (joined mark rest).drop (pos - (seg.length + 1)) := by
  obtain ⟨k, rfl⟩ : ∃ k, pos = seg.length + (k + 1) := ⟨pos - seg.length - 1, by omega⟩
  rw [joined, drop_append, drop_of_length_le (by omega), nil_append,
    Nat.add_sub_cancel_left, drop_succ_cons]
  congr 1
  omega

lemma isInfix_of_isPrefix_drop (hma : mark ∉ pat) (hpat : pat ≠ []) {pos : ℕ}
    (h : pat <+: (joined mark segs).drop pos) :
    ∃ seg, segs[segmentOf segs pos]? = some seg ∧ pat <:+: seg := by
  induction segs generalizing pos with
  | nil =>
    rw [joined, drop_nil] at h
    exact absurd (prefix_nil.mp h) hpat
  | cons seg rest ih =>
    unfold segmentOf
    by_cases hin : pos ≤ seg.length
    · rw [if_pos hin]
      exact ⟨seg, rfl, (isPrefix_drop_of_append hma hin h).isInfix.trans (drop_suffix _ _).isInfix⟩
    · rw [if_neg hin]
      rw [joined_drop_of_lt (not_le.mp hin)] at h
      exact ih h

lemma segmentOf_eq_of_isPrefix_drop (hma : mark ∉ pat) {i j : ℕ}
    (h : pat <+: (joined mark segs).drop j) (hle : j ≤ i) (hlt : i < j + pat.length) :
    segmentOf segs i = segmentOf segs j := by
  induction segs generalizing i j with
  | nil => rfl
  | cons seg rest ih =>
    unfold segmentOf
    by_cases hin : j ≤ seg.length
    · have hlen := (isPrefix_drop_of_append hma hin h).length_le
      rw [length_drop] at hlen
      rw [if_pos hin, if_pos (by omega)]
    · rw [joined_drop_of_lt (not_le.mp hin)] at h
      rw [if_neg hin, if_neg (by omega), ih h (by omega) (by omega)]

lemma exists_isPrefix_drop {n : ℕ} {seg : List α} (hseg : segs[n]? = some seg)
    (h : pat <:+: seg) : ∃ pos, pat <+: (joined mark segs).drop pos ∧ segmentOf segs pos = n := by
  induction segs generalizing n with
  | nil => simp at hseg
  | cons first rest ih =>
    cases n with
    | zero =>
      obtain rfl : first = seg := by simpa using hseg
      obtain ⟨ft, back, rfl⟩ := h
      refine ⟨ft.length, ?_, ?_⟩
      · rw [joined, append_assoc, append_assoc, drop_left]
        exact prefix_append _ _
      · rw [segmentOf, if_pos (by simp only [length_append]; omega)]
    | succ n =>
      obtain ⟨pos, hpos, hn⟩ := ih hseg
      refine ⟨pos + (first.length + 1), ?_, ?_⟩
      · rwa [joined_drop_of_lt (by omega), Nat.add_sub_cancel]
      · rw [segmentOf, if_neg (by omega), Nat.add_sub_cancel, hn]

lemma exists_matchIndices_joined [DecidableEq α] (hma : mark ∉ pat)
    (hpat : pat ≠ []) {n : ℕ} {seg : List α} (hseg : segs[n]? = some seg) (h : pat <:+: seg) :
    ∃ pos ∈ matchIndices pat (joined mark segs), segmentOf segs pos = n := by
  obtain ⟨i, hi, rfl⟩ : ∃ i, pat <+: (joined mark segs).drop i ∧
      segmentOf segs i = n := exists_isPrefix_drop hseg h
  obtain ⟨j, hj, hle, hlt⟩ := exists_matchIndices hpat hi
  have hocc := (isPrefix_of_mem_matchIndices hj).2
  exact ⟨j, hj, (segmentOf_eq_of_isPrefix_drop hma hocc hle hlt).symm⟩

end Omg.Collections
