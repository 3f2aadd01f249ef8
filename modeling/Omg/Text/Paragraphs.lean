import Mathlib.Data.List.Infix
import Mathlib.Data.List.TakeWhile
import Omg.Text.Basic

/-!
# Paragraphs, lines and words

A text can be cut into paragraphs at pairs of line feeds, from the left, into lines, and into words
at white space.
-/

namespace Omg.Text

open List

/-- `str::split` at `"\n\n"`. -/
def splitBlank : Text → List Text
  | [] => [[]]
  | '\n' :: '\n' :: rest => [] :: splitBlank rest
  | c :: rest => (splitBlank rest).modifyHead (c :: ·)

/-- `str::split_whitespace`. -/
def splitWhitespace (s : Text) : List Text := (s.splitOnP isWhitespace).filter (· ≠ [])

/-- `str::starts_with` with a character. -/
def startsWithAny (cs : List Char) (s : Text) : Bool := s.head?.any (· ∈ cs)

/-! ### White space -/

lemma trim_eq_nil_iff {s : Text} : trim s = [] ↔ ∀ c ∈ s, isWhitespace c := by
  rw [trim, trimEnd, reverse_eq_nil_iff, dropWhile_eq_nil_iff]
  simp only [mem_reverse]
  constructor
  · intro h c hc
    rw [← takeWhile_append_dropWhile (l := s)] at hc
    rcases mem_append.mp hc with hc | hc
    · exact all_eq_true.mp all_takeWhile c hc
    · exact h c hc
  · exact fun h c hc => h c (dropWhile_subset _ hc)

lemma trim_append_of_blank_left {s : Text} (h : trim s = []) (t : Text) :
    trim (s ++ t) = trim t := by
  rw [trim, trim, trimStart, trimStart, dropWhile_append_of_pos (trim_eq_nil_iff.mp h)]

lemma trimEnd_append_of_blank_right {t : Text} (h : trim t = []) (s : Text) :
    trimEnd (s ++ t) = trimEnd s := by
  rw [trimEnd, trimEnd, reverse_append, dropWhile_append_of_pos]
  exact fun c hc => trim_eq_nil_iff.mp h c (mem_reverse.mp hc)

lemma trimStart_append {s : Text} (h : trim s ≠ []) (t : Text) :
    trimStart (s ++ t) = trimStart s ++ t := by
  rw [trimStart, trimStart, dropWhile_append, if_neg]
  intro hem
  exact h (by rw [trim, trimStart, isEmpty_iff.mp hem]; rfl)

lemma trimEnd_append {t : Text} (h : trim t ≠ []) (s : Text) :
    trimEnd (s ++ t) = s ++ trimEnd t := by
  rw [trimEnd, trimEnd, reverse_append, dropWhile_append, if_neg, reverse_append, reverse_reverse]
  intro hem
  refine h (trim_eq_nil_iff.mpr fun c hc => ?_)
  exact dropWhile_eq_nil_iff.mp (isEmpty_iff.mp hem) c (mem_reverse.mpr hc)

lemma trim_append_of_blank_right {t : Text} (h : trim t = []) (s : Text) :
    trim (s ++ t) = trim s := by
  by_cases hs : trim s = []
  · rw [trim_append_of_blank_left hs, h, hs]
  · rw [trim, trimStart_append hs, trimEnd_append_of_blank_right h, trim]

end Omg.Text
