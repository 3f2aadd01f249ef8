import Mathlib.Data.List.DropRight
import Omg.Text.Basic

/-!
# Lines of a file

The lines of a file as `BufRead::lines` returns them, and the last line that is not blank, which can
be found from the end of the file. A reader of lines that ignores a carriage return at the end of a
line reads the same either way.
-/

namespace Omg.Text

open List

def newline : UInt8 := 10

def carriageReturn : UInt8 := 13

def isLineEnd (b : UInt8) : Bool := b == newline || b == carriageReturn

def stripCarriageReturn (line : Bytes) : Bytes :=
  if line.getLast? = some carriageReturn then line.dropLast else line

/-- `BufRead::lines`: a final end of line adds no line, and a line that has its end loses a carriage
return before it. -/
def byteLines (content : Bytes) : List Bytes :=
  let parts := content.splitOn newline
  parts.dropLast.map stripCarriageReturn ++ parts.getLast?.toList.filter (· ≠ [])

def lastLine (content : Bytes) : Bytes := (content.rdropWhile isLineEnd).rtakeWhile (· ≠ newline)

def EndsLine (content : Bytes) : Prop := content = [] ∨ ∃ s, content = s ++ [newline]

variable {c line : Bytes} {α : Type*} {p : α → Bool} {s t : List α}

lemma endsLine_iff_getLast? : EndsLine c ↔ c.getLast? = none ∨ c.getLast? = some newline := by
  rw [getLast?_eq_none_iff, getLast?_eq_some_iff]
  rfl

lemma byteLines_nil : byteLines [] = [] := by decide

lemma byteLines_append_newline (s t : Bytes) :
    byteLines (s ++ newline :: t) = (s.splitOn newline).map stripCarriageReturn ++ byteLines t := by
  have hne : t.splitOn newline ≠ [] := splitOn_ne_nil _ _
  simp only [byteLines, splitOn_append_cons_self, dropLast_append_of_ne_nil hne,
    getLast?_append_of_ne_nil _ hne, map_append, append_assoc]

lemma byteLines_of_notMem {s : Bytes} (hne : s ≠ []) (h : newline ∉ s) : byteLines s = [s] := by
  simp [byteLines, splitOn_eq_singleton h, hne]

lemma byteLines_append (hc : EndsLine c) (t : Bytes) :
    byteLines (c ++ t) = byteLines c ++ byteLines t := by
  rcases hc with rfl | ⟨s, rfl⟩
  · rw [byteLines_nil, nil_append, nil_append]
  · rw [append_assoc, singleton_append, byteLines_append_newline,
      byteLines_append_newline, byteLines_nil, append_nil]

lemma byteLines_line (h : newline ∉ line) :
    byteLines (line ++ [newline]) = [stripCarriageReturn line] := by
  rw [byteLines_append_newline, splitOn_eq_singleton h]
  rfl

lemma endsLine_rdropWhile (c : Bytes) : EndsLine (c.rdropWhile (· ≠ newline)) := by
  rcases eq_nil_or_concat' (c.rdropWhile (· ≠ newline)) with hnil | ⟨s, b, hs⟩
  · exact .inl hnil
  · have hne : c.rdropWhile (· ≠ newline) ≠ [] := by rw [hs]; exact concat_ne_nil _ _
    have hla := rdropWhile_last_not (· ≠ newline) c hne
    simp only [hs, getLast_append_singleton, decide_eq_true_eq, not_not] at hla
    exact .inr ⟨s, by rw [hs, hla]⟩

lemma exists_unfinished (hc : ¬EndsLine c) :
    ∃ p line, c = p ++ line ∧ EndsLine p ∧ newline ∉ line ∧ line ≠ [] := by
  have hsp : c.rdropWhile (· ≠ newline) ++ c.rtakeWhile (· ≠ newline) = c :=
    rdropWhile_append_rtakeWhile
  refine ⟨_, _, hsp.symm, endsLine_rdropWhile c, ?_, ?_⟩
  · intro hmem
    simpa using mem_rtakeWhile_imp hmem
  · intro hnil
    rw [hnil, append_nil] at hsp
    exact hc (hsp ▸ endsLine_rdropWhile c)

lemma byteLines_ne_nil (h : c ≠ []) : byteLines c ≠ [] := by
  by_cases hc : EndsLine c
  · obtain ⟨s, rfl⟩ := hc.resolve_left h
    rw [byteLines_append_newline]
    simp
  · obtain ⟨p, line, rfl, hp, hl, hne⟩ := exists_unfinished hc
    rw [byteLines_append hp, byteLines_of_notMem hne hl]
    simp

lemma stripCarriageReturn_concat (line : Bytes) :
    stripCarriageReturn (line ++ [carriageReturn]) = line := by
  simp [stripCarriageReturn]

lemma stripCarriageReturn_of_ne (h : line.getLast? ≠ some carriageReturn) :
    stripCarriageReturn line = line := if_neg h

section

variable {α : Type*} {f : Bytes → α}

lemma apply_stripCarriageReturn (hf : ∀ line, f (line ++ [carriageReturn]) = f line)
    (line : Bytes) : f (stripCarriageReturn line) = f line := by
  rcases eq_nil_or_concat' line with rfl | ⟨line, b, rfl⟩
  · rfl
  by_cases hb : b = carriageReturn
  · rw [hb, stripCarriageReturn_concat, hf]
  · rw [stripCarriageReturn_of_ne (by simpa using hb)]

lemma map_byteLines_newline (hf : ∀ line, f (line ++ [carriageReturn]) = f line) {c : Bytes}
    (hc : ¬EndsLine c) : (byteLines (c ++ [newline])).map f = (byteLines c).map f := by
  obtain ⟨p, line, rfl, hp, hl, hne⟩ := exists_unfinished hc
  rw [append_assoc, byteLines_append hp, byteLines_append hp, byteLines_line hl,
    byteLines_of_notMem hne hl]
  simp [apply_stripCarriageReturn hf]

lemma apply_rdropWhile (hf : ∀ line, f (line ++ [carriageReturn]) = f line) {line : Bytes}
    (h : newline ∉ line) : f (line.rdropWhile isLineEnd) = f line := by
  induction line using List.reverseRecOn with
  | nil => rfl
  | append_singleton line b ih =>
    rw [mem_append, not_or] at h
    by_cases hb : isLineEnd b = true
    · have hcr : b = carriageReturn := by
        simp only [isLineEnd, Bool.or_eq_true, beq_iff_eq] at hb
        exact hb.resolve_left fun hb' => h.2 (by simp [hb'])
      rw [rdropWhile_concat_pos _ _ _ hb, ih h.1, hcr, hf]
    · rw [rdropWhile_concat_neg _ _ _ hb]

end

/-! ### The last line -/

lemma mem_of_mem_rdropWhile {a : α} (ha : a ∈ s.rdropWhile p) : a ∈ s := by
  have hbegins : s.rdropWhile p <+: s := rdropWhile_prefix p s
  exact hbegins.subset ha

lemma rdropWhile_append (h : t.rdropWhile p ≠ []) :
    (s ++ t).rdropWhile p = s ++ t.rdropWhile p := by
  rw [List.rdropWhile, List.rdropWhile, reverse_append, dropWhile_append, if_neg]
  · simp
  · simpa using h

lemma rtakeWhile_append {x : α} (hx : x ∈ t) (hp : ¬p x) :
    (s ++ t).rtakeWhile p = t.rtakeWhile p := by
  rw [List.rtakeWhile, List.rtakeWhile, reverse_append, takeWhile_append, if_neg]
  intro hlen
  have hbegins : t.reverse.takeWhile p <+: t.reverse := takeWhile_prefix p
  have hall := hbegins.eq_of_length hlen
  exact hp (takeWhile_eq_self_iff.mp hall x (mem_reverse.mpr hx))

lemma rtakeWhile_after {x : α} (hx : ¬p x) (ht : ∀ y ∈ t, p y) :
    (s ++ x :: t).rtakeWhile p = t := by
  rw [rtakeWhile, reverse_append, reverse_cons, append_assoc, takeWhile_append_of_pos,
    singleton_append, takeWhile_cons_of_neg hx, append_nil, reverse_reverse]
  exact fun y hy => ht y (mem_reverse.mp hy)

lemma lastLine_eq {p : Bytes} (hp : EndsLine p) (hl : newline ∉ line)
    (hbl : line.rdropWhile isLineEnd ≠ []) {rest : Bytes} (hr : ∀ b ∈ rest, isLineEnd b) :
    lastLine (p ++ line ++ rest) = line.rdropWhile isLineEnd := by
  have hk : (p ++ line ++ rest).rdropWhile isLineEnd = p ++ line.rdropWhile isLineEnd := by
    have hdr : (p ++ line ++ rest).rdropWhile isLineEnd = (p ++ line).rdropWhile isLineEnd := by
      induction rest using List.reverseRecOn with
      | nil => rw [append_nil]
      | append_singleton rest b ih =>
        rw [← append_assoc, rdropWhile_concat_pos _ _ _ (hr b (by simp)),
          ih fun b' hb' => hr b' (by simp [hb'])]
    rw [hdr, rdropWhile_append hbl]
  have hall : ∀ b ∈ line.rdropWhile isLineEnd, decide (b ≠ newline) = true := by
    intro b hb
    rw [decide_eq_true_eq]
    rintro rfl
    exact hl (mem_of_mem_rdropWhile hb)
  rw [lastLine, hk]
  rcases hp with rfl | ⟨s, rfl⟩
  · rw [nil_append, rtakeWhile_eq_self_iff.mpr hall]
  · rw [append_assoc, singleton_append, rtakeWhile_after (by simp) hall]

lemma apply_lastLine {f : Bytes → α} (hf : ∀ line, f (line ++ [carriageReturn]) = f line)
    {l : Bytes} {ls : List Bytes} (h : byteLines c = ls ++ [l]) (hl : f l ≠ f []) :
    f (lastLine c) = f l := by
  have hfo : ∀ (rest : Bytes) {p line : Bytes}, EndsLine p → newline ∉ line → f line = f l →
      (∀ b ∈ rest, isLineEnd b) → f (lastLine (p ++ line ++ rest)) = f l := by
    intro rest p line hp hli hsm hr
    have hdr := (apply_rdropWhile hf hli).trans hsm
    have hbl : line.rdropWhile isLineEnd ≠ [] := fun hnil => hl (by rw [← hdr, hnil])
    rw [lastLine_eq hp hli hbl hr, hdr]
  by_cases hc : EndsLine c
  · rcases hc with rfl | ⟨s, rfl⟩
    · rw [byteLines_nil] at h
      simp at h
    by_cases hs : EndsLine s
    · -- The last line is empty.
      rw [byteLines_append hs] at h
      have hem : byteLines [newline] = [[]] := by decide
      rw [hem] at h
      obtain ⟨-, hnil⟩ := append_inj' h rfl
      exact absurd (by rw [← singleton_inj.mp hnil]) hl
    · obtain ⟨p, line, rfl, hp, hli, -⟩ := exists_unfinished hs
      rw [append_assoc, byteLines_append hp, byteLines_line hli] at h
      obtain ⟨-, hla⟩ := append_inj' h rfl
      refine hfo [newline] hp hli ?_ (by simp [isLineEnd])
      rw [← singleton_inj.mp hla, apply_stripCarriageReturn hf]
  · obtain ⟨p, line, rfl, hp, hli, hne⟩ := exists_unfinished hc
    rw [byteLines_append hp, byteLines_of_notMem hne hli] at h
    obtain ⟨-, hla⟩ := append_inj' h rfl
    have hsm := hfo [] hp hli (by rw [singleton_inj.mp hla]) (by simp)
    rwa [append_nil] at hsm

lemma lastLine_window {pre window : Bytes} (hne : window.rdropWhile isLineEnd ≠ [])
    (h : pre = [] ∨ newline ∈ window.rdropWhile isLineEnd) :
    (window.rdropWhile isLineEnd).rtakeWhile (· ≠ newline) = lastLine (pre ++ window) := by
  rw [lastLine, rdropWhile_append hne]
  rcases h with rfl | h
  · rfl
  · rw [rtakeWhile_append h (by simp)]

end Omg.Text
