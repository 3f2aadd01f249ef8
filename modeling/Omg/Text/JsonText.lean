import Mathlib.Data.List.DropRight
import Mathlib.Data.List.Lex
import Mathlib.Data.List.Sort
import Mathlib.Tactic.IntervalCases
import Omg.Text.Utf8

/-!
# Compact JSON texts

The text that `serde_json` writes for an object of strings and numbers. A string is escaped, so that
its text ends at the first quotation mark that is not escaped and has no control characters; the
text of a string of `n` bytes has at most `6 n + 2` bytes.
-/

namespace Omg.Text

open List

def escapeControl (n : ℕ) : Text :=
  match n with
  | 8 => ['\\', 'b']
  | 9 => ['\\', 't']
  | 10 => ['\\', 'n']
  | 12 => ['\\', 'f']
  | 13 => ['\\', 'r']
  | n => ['\\', 'u', '0', '0', hexDigit (n / 16), hexDigit (n % 16)]

def escapeChar (c : Char) : Text :=
  if c = '"' then ['\\', '"']
  else if c = '\\' then ['\\', '\\']
  else if c.toNat < 32 then escapeControl c.toNat
  else [c]

def jsonString (s : Text) : Text := '"' :: (s.flatMap escapeChar ++ ['"'])

inductive JsonScalar
  | string (s : Text)
  | number (n : ℕ)
  | rendered (t : Text)

def JsonScalar.render : JsonScalar → Text
  | .string s => jsonString s
  | .number n => decimal n
  | .rendered t => t

def jsonMember (m : Text × JsonScalar) : Text := jsonString m.1 ++ ':' :: m.2.render

def jsonObject : List (Text × JsonScalar) → Text
  | [] => ['\x7b', '\x7d']
  | m :: ms => '\x7b' :: (jsonMember m ++ ((ms.flatMap fun m => ',' :: jsonMember m) ++ ['\x7d']))

/-! ### Reading back -/

def unescapeShort : Char → Char
  | 'b' => Char.ofNat 8
  | 't' => '\t'
  | 'n' => '\n'
  | 'f' => Char.ofNat 12
  | 'r' => '\r'
  | c => c

def unescape : Text → Option (Char × Text)
  | '\\' :: 'u' :: _ :: _ :: high :: low :: rest =>
      some (Char.ofNat ((hexValue high).getD 0 * 16 + (hexValue low).getD 0), rest)
  | '\\' :: c :: rest => some (unescapeShort c, rest)
  | c :: rest => if c = '"' then none else some (c, rest)
  | [] => none

variable {n : ℕ} {s t x y : Text} {ms : List (Text × JsonScalar)}

lemma unescape_escapeControl (h : n < 32) (rest : Text) :
    unescape (escapeControl n ++ rest) = some (Char.ofNat n, rest) := by
  interval_cases n <;> rfl

lemma unescape_escapeChar (c : Char) (rest : Text) :
    unescape (escapeChar c ++ rest) = some (c, rest) := by
  unfold escapeChar
  split_ifs with hquo hbac hcon
  · rw [hquo]
    rfl
  · rw [hbac]
    rfl
  · rw [unescape_escapeControl hcon, Char.ofNat_toNat]
  · unfold unescape
    split <;> simp_all

lemma escaped_append_inj
    (h : s.flatMap escapeChar ++ '"' :: x = t.flatMap escapeChar ++ '"' :: y) : s = t ∧ x = y := by
  induction s generalizing t with
  | nil =>
    cases t with
    | nil => exact ⟨rfl, (List.cons.inj h).2⟩
    | cons d t =>
      have hrd := congrArg unescape h
      rw [flatMap_cons, append_assoc, unescape_escapeChar] at hrd
      cases hrd
  | cons c s ih =>
    cases t with
    | nil =>
      have hrd := congrArg unescape h
      rw [flatMap_cons, append_assoc, unescape_escapeChar] at hrd
      cases hrd
    | cons d t =>
      have hrd := congrArg unescape h
      simp only [flatMap_cons, append_assoc, unescape_escapeChar, Option.some.injEq,
        Prod.mk.injEq] at hrd
      obtain ⟨rfl, hr⟩ := hrd
      obtain ⟨rfl, hxy⟩ := ih hr
      exact ⟨rfl, hxy⟩

lemma jsonString_append_inj (h : jsonString s ++ x = jsonString t ++ y) : s = t ∧ x = y := by
  simp only [jsonString, cons_append, append_assoc, List.cons.injEq, true_and] at h
  exact escaped_append_inj h

def SameShape (m m' : Text × JsonScalar) : Prop :=
  m = m' ∨ ∃ key s t, m = (key, .string s) ∧ m' = (key, .string t)

lemma jsonMember_append_inj {m m' : Text × JsonScalar} (hsp : SameShape m m')
    (h : jsonMember m ++ x = jsonMember m' ++ y) : m = m' ∧ x = y := by
  rcases hsp with rfl | ⟨key, s, t, rfl, rfl⟩
  · exact ⟨rfl, append_cancel_left h⟩
  · simp only [jsonMember, append_assoc] at h
    obtain ⟨-, hval⟩ := jsonString_append_inj h
    obtain ⟨rfl, hr⟩ := jsonString_append_inj (List.cons.inj hval).2
    exact ⟨rfl, hr⟩

lemma members_append_inj {ms' : List (Text × JsonScalar)} (hsp : List.Forall₂ SameShape ms ms')
    (h : (ms.flatMap fun m => ',' :: jsonMember m) ++ x = (ms'.flatMap fun m => ',' :: jsonMember m)
      ++ y) : ms = ms' ∧ x = y := by
  induction hsp with
  | nil => exact ⟨rfl, h⟩
  | cons hh _ ih =>
    simp only [flatMap_cons, cons_append, append_assoc, List.cons.injEq, true_and] at h
    obtain ⟨rfl, hr⟩ := jsonMember_append_inj hh h
    obtain ⟨rfl, hxy⟩ := ih hr
    exact ⟨rfl, hxy⟩

lemma jsonObject_append_inj {ms' : List (Text × JsonScalar)}
    (hsp : List.Forall₂ SameShape ms ms') (h : jsonObject ms ++ x = jsonObject ms' ++ y) :
    ms = ms' ∧ x = y := by
  cases hsp with
  | nil => exact ⟨rfl, append_cancel_left h⟩
  | cons hh hta =>
    simp only [jsonObject, cons_append, append_assoc, List.cons.injEq, true_and] at h
    obtain ⟨rfl, hr⟩ := jsonMember_append_inj hh h
    obtain ⟨rfl, hend⟩ := members_append_inj hta hr
    exact ⟨rfl, (List.cons.inj hend).2⟩

/-! ### Sizes and characters -/

lemma byteLen_cons (c : Char) (s : Text) : byteLen (c :: s) = c.utf8Size + byteLen s := by
  simp [byteLen]

lemma byteLen_escapeControl_le (h : n < 32) : byteLen (escapeControl n) ≤ 6 := by
  interval_cases n <;> decide

lemma byteLen_escapeChar_le (c : Char) : byteLen (escapeChar c) ≤ 6 * c.utf8Size := by
  have hpos := c.utf8Size_pos
  unfold escapeChar
  split_ifs with hquo hbac hcon
  · have hsh : byteLen ['\\', '"'] = 2 := by decide
    omega
  · have hsh : byteLen ['\\', '\\'] = 2 := by decide
    omega
  · have hle := byteLen_escapeControl_le hcon
    omega
  · rw [byteLen_cons]
    have hnil : byteLen [] = 0 := rfl
    omega

lemma byteLen_jsonString_le (s : Text) : byteLen (jsonString s) ≤ 6 * byteLen s + 2 := by
  have hesc : byteLen (s.flatMap escapeChar) ≤ 6 * byteLen s := by
    induction s with
    | nil => exact le_refl _
    | cons c s ih =>
      have hc := byteLen_escapeChar_le c
      rw [flatMap_cons, byteLen_append, byteLen_cons]
      omega
  have hquo : byteLen ['"'] = 1 := by decide
  have hsz : '"'.utf8Size = 1 := by decide
  rw [jsonString, byteLen_cons, byteLen_append]
  omega

def Printable (t : Text) : Prop := ∀ c ∈ t, 32 ≤ c.toNat

lemma printable_iff_all : Printable t ↔ (t.all fun c => 32 ≤ c.toNat) = true := by
  simp [Printable]

lemma printable_escapeControl (h : n < 32) : Printable (escapeControl n) := by
  rw [printable_iff_all]
  interval_cases n <;> decide

lemma printable_jsonString (s : Text) : Printable (jsonString s) := by
  have hesc : ∀ c, Printable (escapeChar c) := by
    intro c
    unfold escapeChar
    split_ifs with hquo hbac hcon
    · exact printable_iff_all.mpr (by decide)
    · exact printable_iff_all.mpr (by decide)
    · exact printable_escapeControl hcon
    · intro d hd
      rw [mem_singleton.mp hd]
      omega
  intro c hc
  simp only [jsonString, mem_cons, mem_append, mem_flatMap, not_mem_nil, or_false] at hc
  rcases hc with rfl | ⟨d, -, hd⟩ | rfl
  · decide
  · exact hesc d c hd
  · decide

lemma Printable.append (hs : Printable s) (ht : Printable t) : Printable (s ++ t) :=
  fun c hc => (mem_append.mp hc).elim (hs c) (ht c)

lemma Printable.cons {c : Char} (hc : 32 ≤ c.toNat) (ht : Printable t) :
    Printable (c :: t) := fun _ hd => (mem_cons.mp hd).elim (fun h => h ▸ hc) (ht _)

lemma Printable.rdropWhile_carriageReturn (h : Printable t) : t.rdropWhile (· = '\r') = t := by
  rw [rdropWhile_eq_self_iff]
  intro hne hla
  have hmem := getLast_mem hne
  rw [decide_eq_true_eq] at hla
  rw [hla] at hmem
  exact absurd (h _ hmem) (by decide)

lemma printable_decimal (n : ℕ) : Printable (decimal n) := by
  intro c hc
  have hdig := isDigit_of_mem_decimal hc
  have hbou := toNat_of_isAlphanum (c := c) (by simp [Char.isAlphanum, hdig])
  omega

lemma printable_jsonMember {m : Text × JsonScalar}
    (h : ∀ t, m.2 = .rendered t → Printable t) : Printable (jsonMember m) := by
  refine (printable_jsonString m.1).append (.cons (by decide) ?_)
  obtain ⟨key, val⟩ := m
  cases val with
  | string s => exact printable_jsonString s
  | number n => exact printable_decimal n
  | rendered t => exact h t rfl

lemma printable_jsonObject (h : ∀ m ∈ ms, ∀ t, m.2 = .rendered t → Printable t) :
    Printable (jsonObject ms) := by
  have hcl : Printable ['\x7d'] := .cons (by decide) nofun
  cases ms with
  | nil => exact .cons (by decide) hcl
  | cons m ms =>
    refine .cons (by decide) ((printable_jsonMember (h m (by simp))).append (.append ?_ hcl))
    intro c hc
    obtain ⟨m', hm', hc⟩ := mem_flatMap.mp hc
    exact Printable.cons (by decide) (printable_jsonMember (h m' (by simp [hm']))) c hc

lemma Printable.le_of_mem_utf8 (h : Printable t) {b : UInt8} (hb : b ∈ utf8 t) : 32 ≤ b.toNat := by
  by_contra hlow
  obtain ⟨c, hc, hbc⟩ := mem_flatMap.mp hb
  obtain ⟨-, hco⟩ := encode_of_mem hbc (by omega)
  have hpri := h c hc
  omega

/-!
### Canonical JSON texts

The canonical form that RFC 8785 gives an object of strings and numbers: no blanks, and the members
in the order of the UTF-16 code units of their keys. Strings are escaped as in `jsonString`. A
number is one that a double represents exactly, so that its shortest form is its decimal form.
-/

def utf16 (s : Text) : List ℕ :=
  s.flatMap fun c =>
    if c.toNat < 0x10000 then [c.toNat]
    else [0xD800 + (c.toNat - 0x10000) / 0x400, 0xDC00 + (c.toNat - 0x10000) % 0x400]

def KeyLe (m m' : Text × JsonScalar) : Prop := utf16 m.1 ≤ utf16 m'.1

instance : DecidableRel KeyLe := fun m m' => inferInstanceAs (Decidable (utf16 m.1 ≤ utf16 m'.1))

instance : Std.Total KeyLe := ⟨fun m m' => le_total (utf16 m.1) (utf16 m'.1)⟩

instance : IsTrans (Text × JsonScalar) KeyLe := ⟨fun _ _ _ => le_trans (α := List ℕ)⟩

def canonicalObject (members : List (Text × JsonScalar)) : Text :=
  jsonObject (members.insertionSort KeyLe)

lemma canonicalObject_of_perm {mems srt : List (Text × JsonScalar)}
    (hp : mems.Perm srt) (hsor : srt.Pairwise fun m m' => utf16 m.1 < utf16 m'.1) :
    canonicalObject mems = jsonObject srt := by
  have hso : (mems.insertionSort KeyLe).Perm srt := (perm_insertionSort KeyLe mems).trans hp
  have hle : srt.Pairwise KeyLe := hsor.imp fun h => h.le
  have hnd : (srt.map fun m => utf16 m.1).Nodup := pairwise_map.mpr (hsor.imp fun h => h.ne)
  have heq : mems.insertionSort KeyLe = srt := by
    refine hso.eq_of_pairwise ?_ (pairwise_insertionSort KeyLe mems) hle
    intro m m' hm hm' h h'
    exact inj_on_of_nodup_map hnd (hso.subset hm) hm' (le_antisymm h h')
  rw [canonicalObject, heq]

end Omg.Text
