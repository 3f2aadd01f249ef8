import Omg.Text.Glob

/-!
# Patterns of redactions

A pattern names the variables whose values are masked. It is split at its stars: the first part is
taken off the name, the parts in the middle are searched from the left, one after the other, and the
last part is compared with the end of what is left.

Source: `src/config/mise_env.rs`.
-/

namespace Omg.Env

open List Text

/-- What follows the first occurrence of `part`, as `str::find` finds it. -/
def afterFirst (part s : Text) : Option Text := s.tails.findSome? (stripPrefix part)

/-- The loop over the parts behind the first one: what is left of the name for the last part. -/
def searchParts : List Text → Text → Option Text
  | [], rest => some rest
  | part :: parts, rest =>
    if part = [] then searchParts parts rest
    else if parts = [] then some rest
    else (afterFirst part rest).bind (searchParts parts)

/-- `glob_match`. -/
def globMatch (pattern name : Text) : Bool :=
  if pattern = ['*'] then true
  else
    let parts := pattern.splitOn '*'
    if parts.length = 1 then pattern = name
    else
      let stripped := if pattern.head? = some '*' then some name
        else stripPrefix (parts.headD []) name
      match stripped.bind (searchParts parts.tail) with
      | none => false
      | some rest => pattern.getLast? = some '*' || (parts.getLastD []).isSuffixOf rest

/-- If longer rests are at least as good, then the first occurrence is as good as any. -/
lemma exists_afterFirst_iff {P : Text → Prop} (hP : ∀ u v, v <:+ u → P v → P u) (part s : Text) :
    (∃ u ∈ afterFirst part s, P u) ↔ ∃ v, part ++ v <:+ s ∧ P v := by
  induction s with
  | nil => cases part <;> simp [afterFirst, stripPrefix]
  | cons c s ih =>
    cases h : stripPrefix part (c :: s) with
    | none =>
      have hne : ∀ v, part ++ v ≠ c :: s := fun v heq => by simp [← heq] at h
      have htail : afterFirst part (c :: s) = afterFirst part s := by simp [afterFirst, h]
      simp only [htail, ih, suffix_cons_iff, hne, false_or]
    | some u =>
      have hfirst : afterFirst part (c :: s) = some u := by simp [afterFirst, h]
      rw [hfirst, ← isPrefixOf?_eq_some_iff_append_eq.mp h]
      constructor
      · rintro ⟨_, ⟨⟩, hu⟩
        exact ⟨u, suffix_rfl, hu⟩
      · rintro ⟨v, hv, hPv⟩
        have hlen : v.length ≤ u.length := by simpa using hv.length_le
        exact ⟨u, rfl, hP u v (suffix_of_suffix_length_le ((suffix_append part v).trans hv)
          (suffix_append part u) hlen) hPv⟩

lemma searchParts_cons (part : Text) {parts : List Text} (hne : parts ≠ []) (s : Text) :
    searchParts (part :: parts) s = (afterFirst part s).bind (searchParts parts) := by
  cases part with
  | nil => cases s <;> rfl
  | cons c part => simp [searchParts, hne]

lemma getLastD_cons_splitOn (part pat : Text) :
    (part :: pat.splitOn '*').getLastD [] = (pat.splitOn '*').getLastD [] := by
  obtain ⟨first, parts, hparts⟩ := exists_cons_of_ne_nil (splitOn_ne_nil '*' pat)
  rw [hparts, getLastD_cons, getLastD_cons, getLastD_cons]

/-- A pattern that ends in a star needs no last part. -/
lemma searchParts_iff (pat s : Text) : glob ('*' :: pat) s ↔
    ∃ rest ∈ searchParts (pat.splitOn '*') s,
      ('*' :: pat).getLast? = some '*' ∨ (pat.splitOn '*').getLastD [] <:+ rest := by
  by_cases hmem : '*' ∈ pat
  · obtain ⟨part, next, rfl, hpart⟩ := eq_append_cons_of_mem hmem
    have ih := searchParts_iff next
    have hmono : ∀ u v, v <:+ u → glob ('*' :: next) v → glob ('*' :: next) u :=
      fun _ _ => glob_star_of_suffix
    have hend : ('*' :: (part ++ '*' :: next)).getLast? = ('*' :: next).getLast? :=
      getLast?_append_of_ne_nil ('*' :: part) (cons_ne_nil _ _)
    rw [splitOn_append_cons_self_of_not_mem hpart, hend, searchParts_cons part (splitOn_ne_nil _ _),
      glob_star_append hpart, ← exists_afterFirst_iff hmono, getLastD_cons_splitOn]
    cases afterFirst part s with
    | none => simp
    | some u => simpa using ih u
  · have hlast : ('*' :: pat).getLast? = some '*' → pat <:+ s := by
      cases pat with
      | nil => exact fun _ => nil_suffix
      | cons c pat => exact fun h => absurd (mem_of_getLast? (getLast?_cons_cons ▸ h)) hmem
    cases pat with
    | nil => simp [searchParts, glob_star_start]
    | cons c pat => simpa [splitOn_eq_singleton hmem, searchParts, glob_star_start hmem] using hlast
termination_by pat.length

/-- **Names that match a pattern.** They are made of pieces, one for each character of the pattern:
any text for a star, and the character itself for every other one. -/
theorem globMatch_iff (pattern name : Text) : globMatch pattern name ↔
    ∃ pieces : List Text, pieces.flatten = name ∧
      Forall₂ (fun c piece => c = '*' ∨ piece = [c]) pattern pieces := by
  rw [← glob_iff_pieces]
  by_cases hstar : pattern = ['*']
  · simp [globMatch, hstar, glob_star]
  simp only [globMatch, if_neg hstar]
  by_cases hmem : '*' ∈ pattern
  · obtain ⟨first, pat, rfl, hfirst⟩ := eq_append_cons_of_mem hmem
    have hstrip : (if (first ++ '*' :: pat).head? = some '*' then some name
        else stripPrefix first name) = stripPrefix first name := by
      cases first with
      | nil => exact ite_self _
      | cons c first => exact if_neg fun h => hfirst (by simp_all)
    rw [splitOn_append_cons_self_of_not_mem hfirst, if_neg (by simp [splitOn_ne_nil]), headD_cons,
      hstrip, tail_cons, getLastD_cons_splitOn, glob_append hfirst]
    simp only [searchParts_iff]
    cases hs : stripPrefix first name with
    | none =>
      refine iff_of_false nofun ?_
      rintro ⟨s, rfl, -⟩
      simp at hs
    | some s =>
      obtain rfl := isPrefixOf?_eq_some_iff_append_eq.mp hs
      simp only [append_cancel_left_eq, exists_eq_left', Option.bind_some]
      cases searchParts (pat.splitOn '*') s <;> simp
  · simp [splitOn_eq_singleton hmem, glob_literal hmem, eq_comm]

end Omg.Env
