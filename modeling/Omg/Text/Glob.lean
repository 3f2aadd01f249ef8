import Mathlib.Data.List.Forall2
import Mathlib.Data.List.Infix
import Omg.Text.Basic

/-!
# Patterns with stars

A star stands for any text, every other character for itself. A pattern with one star at its end is
a test for a prefix, one with a star in front a test for a suffix.
-/

namespace Omg.Text

open List

def glob : Text → Text → Bool
  | [], s => s.isEmpty
  | c :: pattern, s =>
    if c = '*' then s.tails.any fun rest => glob pattern rest
    else s.head? = some c && glob pattern s.tail

lemma glob_star_cons (pat s : Text) : glob ('*' :: pat) s ↔ ∃ rest, rest <:+ s ∧ glob pat rest := by
  have hgl : glob ('*' :: pat) s = s.tails.any fun rest => glob pat rest := rfl
  simp [hgl]

lemma glob_cons_of_ne {c : Char} (hc : c ≠ '*') (pat s : Text) :
    glob (c :: pat) s ↔ ∃ s', s = c :: s' ∧ glob pat s' := by
  have hgl : glob (c :: pat) s = (s.head? = some c && glob pat s.tail) := if_neg hc
  rw [hgl, Bool.and_eq_true]
  cases s with
  | nil => simp
  | cons d s => simp

lemma glob_append {st : Text} (h : '*' ∉ st) (pat s : Text) :
    glob (st ++ pat) s ↔ ∃ s', s = st ++ s' ∧ glob pat s' := by
  induction st generalizing s with
  | nil => simp
  | cons c st ih =>
    rw [mem_cons, not_or] at h
    simp only [cons_append, glob_cons_of_ne (Ne.symm h.1), ih h.2]
    grind

lemma glob_literal {pat : Text} (h : '*' ∉ pat) (s : Text) : glob pat s ↔ s = pat := by
  have hgl := glob_append h [] s
  simpa [glob] using hgl

lemma glob_star (s : Text) : glob ['*'] s := (glob_star_cons [] s).mpr ⟨[], nil_suffix, rfl⟩

lemma glob_star_end {st : Text} (h : '*' ∉ st) (s : Text) : glob (st ++ ['*']) s ↔ st <+: s := by
  rw [glob_append h]
  simp [glob_star, IsPrefix, eq_comm]

lemma glob_star_start {rest : Text} (h : '*' ∉ rest) (s : Text) :
    glob ('*' :: rest) s ↔ rest <:+ s := by
  simp [glob_star_cons, glob_literal h]

lemma glob_star_append {st : Text} (h : '*' ∉ st) (pat s : Text) :
    glob ('*' :: (st ++ pat)) s ↔ ∃ s', st ++ s' <:+ s ∧ glob pat s' := by
  simp only [glob_star_cons, glob_append h]
  grind

lemma glob_star_of_suffix {pat s t : Text} (hst : t <:+ s) (h : glob ('*' :: pat) t) :
    glob ('*' :: pat) s := by
  rw [glob_star_cons] at h ⊢
  obtain ⟨rest, hrest, hgl⟩ := h
  exact ⟨rest, hrest.trans hst, hgl⟩

/-- A pattern matches a text that is made of one piece for each of its characters. -/
lemma glob_iff_pieces (pat s : Text) : glob pat s ↔ ∃ pieces : List Text, pieces.flatten = s ∧
    Forall₂ (fun c piece => c = '*' ∨ piece = [c]) pat pieces := by
  induction pat generalizing s with
  | nil => simp [glob, @eq_comm _ []]
  | cons c pat ih =>
    simp only [forall₂_cons_left_iff]
    by_cases hc : c = '*'
    · subst hc
      simp only [glob_star_cons, ih, IsSuffix]
      aesop
    · simp only [glob_cons_of_ne hc, ih]
      aesop

end Omg.Text
