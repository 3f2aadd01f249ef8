import Mathlib.Algebra.Ring.Nat
import Mathlib.Data.List.Basic

/-!
# Texts and the string operations of the source

A Rust `&str` is read as the list of its characters. This file collects the operations of the Rust
standard library on strings that the modelled functions call, under the library's names.

An error of the `anyhow` crate is the list of its messages, the outermost context first.
-/

namespace Omg

open List Option

/-- A Rust string, as the list of its characters. -/
abbrev Text := List Char

instance : Coe String Text := ⟨String.toList⟩

/-- An `anyhow` error: its messages, the outermost context first. -/
abbrev AnyhowError := List Text

/-- `anyhow::Result`. -/
abbrev Result := Except AnyhowError

namespace Text

/-- Whether a text is a member of a list of texts. -/
instance decidableMem (t : Text) (l : List Text) : Decidable (t ∈ l) := inferInstance

/-- `anyhow::bail!` with a message. -/
def bail {α : Type*} (message : Text) : Result α := .error [message]

/-- `anyhow::ensure!`: fail with the message unless the condition holds. -/
def ensure (condition : Bool) (message : Text) : Result Unit :=
  if condition then .ok () else bail message

@[simp] lemma ensure_eq_ok {condition : Bool} {msg : Text} {u : Unit} :
    ensure condition msg = .ok u ↔ condition := by
  cases condition <;> simp [ensure, bail]

/-- `Context::context` on an optional value. -/
def required {α : Type*} (value : Option α) (message : Text) : Result α :=
  match value with
  | some a => .ok a
  | none => bail message

/-- `Context::with_context`: put a message in front of an error. -/
def withContext {α : Type*} (message : Text) : Result α → Result α
  | .ok a => .ok a
  | .error chain => .error (message :: chain)

@[simp] lemma required_eq_ok {α : Type*} {value : Option α} {message : Text} {a : α} :
    required value message = .ok a ↔ value = some a := by
  cases value <;> simp [required, bail]

@[simp] lemma withContext_eq_ok {α : Type*} {msg : Text} {x : Result α} {a : α} :
    withContext msg x = .ok a ↔ x = .ok a := by
  cases x <;> simp [withContext]

/-- `char::is_whitespace`: the Unicode property `White_Space`. -/
def isWhitespace (c : Char) : Bool :=
  let n := c.toNat
  (9 ≤ n && n ≤ 13) || n == 0x20 || n == 0x85 || n == 0xA0 || n == 0x1680 ||
    (0x2000 ≤ n && n ≤ 0x200A) || n == 0x2028 || n == 0x2029 || n == 0x202F || n == 0x205F ||
    n == 0x3000

/-- `char::is_ascii_whitespace`. -/
def isAsciiWhitespace (c : Char) : Bool :=
  c == ' ' || c == '\t' || c == '\n' || c == '\x0C' || c == '\r'

/-- `str::len`: the number of bytes in UTF-8. -/
def byteLen (s : Text) : ℕ := (s.map fun c => c.utf8Size).sum

@[simp] lemma byteLen_append (s t : Text) : byteLen (s ++ t) = byteLen s + byteLen t := by
  simp [byteLen]

variable {c : Char} {s part : Text} {n : ℕ}

lemma toNat_of_isAlphanum (h : c.isAlphanum) : 48 ≤ c.toNat ∧ c.toNat ≤ 122 := by
  have hval : c.toNat = c.val.toNat := rfl
  unfold Char.isAlphanum Char.isAlpha Char.isUpper Char.isLower Char.isDigit at h
  simp only [Bool.or_eq_true, Bool.and_eq_true, decide_eq_true_eq, UInt32.le_iff_toNat_le,
    Char.reduceVal, UInt32.reduceToNat] at h
  omega

/-- `str::trim_start`. -/
def trimStart (s : Text) : Text := s.dropWhile isWhitespace

/-- `str::trim_end`. -/
def trimEnd (s : Text) : Text := (s.reverse.dropWhile isWhitespace).reverse

/-- `str::trim`. -/
def trim (s : Text) : Text := trimEnd (trimStart s)

lemma trim_eq_self (h : ∀ c ∈ s, isWhitespace c = false) : trim s = s := by
  have hke : ∀ t : Text, (∀ c ∈ t, isWhitespace c = false) → t.dropWhile isWhitespace = t := by
    intro t ht
    cases t with
    | nil => rfl
    | cons c t => simp [ht c mem_cons_self]
  rw [trim, trimStart, hke s h, trimEnd, hke s.reverse (by simpa using h), reverse_reverse]

/-- `str::lines`. A carriage return is removed in front of a line feed only. -/
def strLines (s : Text) : List Text :=
  let parts := s.splitOn '\n'
  (parts.dropLast.map fun line => if line.getLast? = some '\r' then line.dropLast else line) ++
    (parts.getLast?.toList.filter (· ≠ []))

/-- `str::contains` with a text. -/
def containsText (s t : Text) : Bool := s.tails.any fun rest => t.isPrefixOf rest

/-- `str::split_once` at a character: the parts before and after its first occurrence. -/
def splitOnce (c : Char) : Text → Option (Text × Text)
  | [] => none
  | x :: xs => if x == c then some ([], xs) else (splitOnce c xs).map fun p => (x :: p.1, p.2)

/-- `str::splitn` at a character: at most `n` parts, the last of which is not split. -/
def splitN : ℕ → Char → Text → List Text
  | 0, _, _ => []
  | 1, _, s => [s]
  | n + 2, c, s =>
    match splitOnce c s with
    | none => [s]
    | some (part, rest) => part :: splitN (n + 1) c rest

lemma splitOnce_append (hs : c ∉ s) (t : Text) : splitOnce c (s ++ c :: t) = some (s, t) := by
  induction s with
  | nil => simp [splitOnce]
  | cons x s ih =>
    simp only [mem_cons, not_or] at hs
    have hx : (x == c) = false := beq_eq_false_iff_ne.mpr fun h => hs.1 h.symm
    simp [splitOnce, hx, ih hs.2]

lemma splitN_append (hs : c ∉ s) (n : ℕ) (t : Text) :
    splitN (n + 2) c (s ++ c :: t) = s :: splitN (n + 1) c t := by
  rw [splitN, splitOnce_append hs]

lemma notMem_of_splitOnce {rest : Text} (h : splitOnce c s = some (part, rest)) : c ∉ part := by
  induction s generalizing part rest with
  | nil => cases h
  | cons x s ih =>
    unfold splitOnce at h
    split_ifs at h with hx
    · obtain ⟨rfl, -⟩ := Prod.mk.inj (some.inj h)
      simp
    · obtain ⟨⟨part', rest'⟩, hr, hpa⟩ := map_eq_some_iff.mp h
      obtain ⟨rfl, -⟩ := Prod.mk.inj hpa
      have hne : ¬ c = x := fun heq => hx (by simp [heq])
      simp [hne, ih hr]

lemma append_of_splitOnce {c : Char} {s part rest : Text} (h : splitOnce c s = some (part, rest)) :
    s = part ++ c :: rest := by
  induction s generalizing part with
  | nil => cases h
  | cons x s ih =>
    unfold splitOnce at h
    split_ifs at h with hx
    · cases h
      rw [eq_of_beq hx, nil_append]
    · obtain ⟨⟨part', rest'⟩, hr, hpa⟩ := Option.map_eq_some_iff.mp h
      cases hpa
      rw [ih hr, cons_append]

lemma notMem_of_splitOnce_eq_none (h : splitOnce c s = none) : c ∉ s := by
  induction s with
  | nil => simp
  | cons x s ih =>
    unfold splitOnce at h
    split_ifs at h with hx
    have hne : ¬ c = x := fun heq => hx (by simp [heq])
    simp [hne, ih (map_eq_none_iff.mp h)]

/-- No part but the last one that `splitN` may give has the character. -/
lemma notMem_of_splitN {rest : List Text} (h : splitN (n + 2) c s = part :: rest) : c ∉ part := by
  unfold splitN at h
  split at h
  · rename_i hsp
    obtain rfl : s = part := (List.cons.inj h).1
    exact notMem_of_splitOnce_eq_none hsp
  · rename_i hsp
    obtain rfl := (List.cons.inj h).1
    exact notMem_of_splitOnce hsp

lemma splitN_tail {next : Text} {rest : List Text}
    (h : splitN (n + 2) c s = part :: next :: rest) : ∃ s', splitN (n + 1) c s' = next :: rest := by
  unfold splitN at h
  split at h
  · simp at h
  · exact ⟨_, (List.cons.inj h).2⟩

lemma append_cons_inj {t x y : Text} (hs : c ∉ s) (ht : c ∉ t) (h : s ++ c :: x = t ++ c :: y) :
    s = t ∧ x = y := by
  have hsp := congrArg (splitOnce c) h
  rw [splitOnce_append hs, splitOnce_append ht] at hsp
  exact Prod.mk.inj (some.inj hsp)

/-- `str::rsplit_once` at a character: the parts before and after its last occurrence. -/
def rsplitOnce (c : Char) (s : Text) : Option (Text × Text) :=
  (splitOnce c s.reverse).map fun p => (p.2.reverse, p.1.reverse)

/-- `str::strip_prefix`. -/
def stripPrefix (p s : Text) : Option Text := List.isPrefixOf? p s

@[simp] lemma stripPrefix_append (p s : Text) : stripPrefix p (p ++ s) = some s := by
  simp [stripPrefix]

lemma stripPrefix_append_cons {p : Text} (hc : c ∉ p) (s t : Text) :
    stripPrefix p (s ++ c :: t) = (stripPrefix p s).map (· ++ c :: t) := by
  unfold stripPrefix
  induction p generalizing s with
  | nil => cases s <;> rfl
  | cons d p ih =>
    rw [mem_cons, not_or] at hc
    cases s with
    | nil => simp [isPrefixOf?, Ne.symm hc.1]
    | cons e s =>
      by_cases he : d = e
      · simp [isPrefixOf?, he, ih hc.2]
      · simp [isPrefixOf?, he]

/-- `str::strip_suffix` with a character. -/
def stripSuffixChar (c : Char) (s : Text) : Option Text :=
  match s.reverse with
  | [] => none
  | x :: xs => if x == c then some xs.reverse else none

/-- `str::parse` to an unsigned integer below `bound`: an optional `+`, then a nonempty run of
decimal digits. -/
def parseUnsigned (bound : ℕ) (s : Text) : Option ℕ :=
  let digits := (stripPrefix ['+'] s).getD s
  if digits ≠ [] && digits.all Char.isDigit && Nat.ofDigitChars 10 digits 0 < bound then
    some (Nat.ofDigitChars 10 digits 0)
  else none

def decimal (n : ℕ) : Text := Nat.toDigits 10 n

lemma decimal_injective : Function.Injective decimal := fun m n h => by
  simpa [decimal] using congrArg (fun s => Nat.ofDigitChars 10 s 0) h

lemma isDigit_of_mem_decimal (h : c ∈ decimal n) : c.isDigit :=
  Nat.isDigit_of_mem_toDigits (by decide) (by decide) h

lemma parseUnsigned_decimal {bound : ℕ} (h : n < bound) :
    parseUnsigned bound (decimal n) = some n := by
  have hpl : stripPrefix ['+'] (decimal n) = none := by
    cases hdig : decimal n with
    | nil => rfl
    | cons c cs =>
      have hc : c.isDigit = true := isDigit_of_mem_decimal (n := n) (by simp [hdig])
      have hne : ¬ '+' = c := by
        rintro rfl
        simp at hc
      simp [stripPrefix, List.isPrefixOf?, hne]
  have hne : decimal n ≠ [] := Nat.toDigits_ne_nil
  have hall : (decimal n).all Char.isDigit = true := all_eq_true.mpr fun _ => isDigit_of_mem_decimal
  have hval : Nat.ofDigitChars 10 (decimal n) 0 = n := Nat.ofDigitChars_ten_toDigits
  simp [parseUnsigned, hpl, hne, hall, hval, h]

/-- `str::to_ascii_lowercase`. -/
def toAsciiLowercase (s : Text) : Text := s.map Char.toLower

/-- `str::eq_ignore_ascii_case`. -/
def eqIgnoreAsciiCase (s t : Text) : Bool := toAsciiLowercase s == toAsciiLowercase t

end Text

/-!
### JSON values

The values that `serde_json` reads, with the accessors of `serde_json::Value` that the modelled
functions call. A number is kept only as the `u64` it stands for, if it does.
-/

inductive Json
  | null
  | bool (b : Bool)
  | number (u64 : Option ℕ)
  | string (s : Text)
  | array (items : List Json)
  | object (members : List (Text × Json))

namespace Json

/-- `Value::get` with a key. -/
def get : Json → Text → Option Json
  | .object members, key => members.lookup key
  | _, _ => none

/-- `Value::pointer` along keys that are no array indices. -/
def pointer : List Text → Json → Option Json
  | [], value => some value
  | key :: keys, value => (value.get key).bind (pointer keys)

/-- `Value::as_str`. -/
def asStr : Json → Option Text
  | .string s => some s
  | _ => none

/-- `Value::as_u64`. -/
def asU64 : Json → Option ℕ
  | .number u64 => u64
  | _ => none

end Json

/-!
### Bytes, their UTF-8 texts and their hexadecimal texts

Bytes are written as pairs of hexadecimal digits, in lower case; both cases are read back. Reading
undoes writing, and it does not depend on the case of the letters.
-/

abbrev Bytes := List UInt8

namespace Text

/-- `str::as_bytes`: the UTF-8 bytes of a text. -/
def utf8 (s : Text) : Bytes := s.flatMap String.utf8EncodeChar

lemma utf8_injective : Function.Injective utf8 := by
  intro s t h
  have hby : s.utf8Encode = t.utf8Encode := congrArg List.toByteArray h
  have hdc := congrArg ByteArray.utf8Decode? hby
  simpa using hdc

def hexDigit (n : ℕ) : Char := if n < 10 then Char.ofNat (48 + n) else Char.ofNat (87 + n)

def hexValue (c : Char) : Option ℕ :=
  if 48 ≤ c.toNat ∧ c.toNat ≤ 57 then some (c.toNat - 48)
  else if 97 ≤ c.toNat ∧ c.toNat ≤ 102 then some (c.toNat - 87)
  else if 65 ≤ c.toNat ∧ c.toNat ≤ 70 then some (c.toNat - 55)
  else none

/-- `hex::encode`. -/
def hexEncode (bytes : Bytes) : Text :=
  bytes.flatMap fun b => [hexDigit (b.toNat / 16), hexDigit (b.toNat % 16)]

def isAsciiHexdigit (c : Char) : Bool := c.isDigit || ('a' ≤ c && c ≤ 'f') || ('A' ≤ c && c ≤ 'F')

/-- `hex::decode`. -/
def hexDecode : Text → Option Bytes
  | [] => some []
  | [_] => none
  | high :: low :: rest =>
    match hexValue high, hexValue low with
    | some h, some l => (hexDecode rest).map (UInt8.ofNat (16 * h + l) :: ·)
    | _, _ => none

lemma hexValue_hexDigit : ∀ n < 16, hexValue (hexDigit n) = some n := by decide +kernel

lemma hexDecode_hexEncode (bs : Bytes) : hexDecode (hexEncode bs) = some bs := by
  induction bs with
  | nil => rfl
  | cons b bs ih =>
    have hb : b.toNat < 256 := b.toNat_lt
    have hhi := hexValue_hexDigit (b.toNat / 16) (by omega)
    have hlow := hexValue_hexDigit (b.toNat % 16) (by omega)
    have hsp : hexEncode (b :: bs) =
        hexDigit (b.toNat / 16) :: hexDigit (b.toNat % 16) :: hexEncode bs := rfl
    rw [hsp, hexDecode, hhi, hlow, ih]
    have hval : UInt8.ofNat (16 * (b.toNat / 16) + b.toNat % 16) = b := by
      rw [Nat.div_add_mod, UInt8.ofNat_toNat]
    simp [hval]

lemma hexEncode_injective : Function.Injective hexEncode := fun s t h => by
  simpa [hexDecode_hexEncode] using congrArg hexDecode h

lemma isAsciiHexdigit_hexDigit : ∀ n < 16, isAsciiHexdigit (hexDigit n) = true := by
  decide +kernel

lemma isAsciiHexdigit_of_mem_hexEncode {bs : Bytes} {c : Char} (h : c ∈ hexEncode bs) :
    isAsciiHexdigit c := by
  obtain ⟨b, -, hc⟩ := mem_flatMap.mp h
  have hb : b.toNat < 256 := b.toNat_lt
  simp only [mem_cons, not_mem_nil, or_false] at hc
  rcases hc with rfl | rfl <;> exact isAsciiHexdigit_hexDigit _ (by omega)

lemma byteLen_hexEncode (bs : Bytes) : byteLen (hexEncode bs) = 2 * bs.length := by
  induction bs with
  | nil => rfl
  | cons b bs ih =>
    have hdig : ∀ m < 16, (hexDigit m).utf8Size = 1 := by decide +kernel
    have hb : b.toNat < 256 := b.toNat_lt
    have hcn : hexEncode (b :: bs) =
        [hexDigit (b.toNat / 16), hexDigit (b.toNat % 16)] ++ hexEncode bs := rfl
    rw [hcn, byteLen_append, ih, length_cons]
    simp only [byteLen, map_cons, map_nil, sum_cons, sum_nil]
    rw [hdig _ (by omega), hdig _ (by omega)]
    omega

lemma toNat_toLower {c : Char} (h65 : 65 ≤ c.toNat) (h90 : c.toNat ≤ 90) :
    c.toLower.toNat = c.toNat + 32 := by
  have hupp : c.val ≥ 'A'.val ∧ c.val ≤ 'Z'.val := ⟨h65, h90⟩
  have hval : c.toLower.val = c.val + 32 := by
    unfold Char.toLower
    rw [dif_pos hupp]
    rfl
  have hnat : c.val.toNat ≤ 90 := h90
  change c.toLower.val.toNat = c.val.toNat + 32
  rw [hval, UInt32.toNat_add]
  exact Nat.mod_eq_of_lt (by simp only [UInt32.reduceToNat]; omega)

lemma toLower_of_not_upper {c : Char} (h : ¬(65 ≤ c.toNat ∧ c.toNat ≤ 90)) : c.toLower = c :=
  dif_neg fun hupper => h ⟨hupper.1, hupper.2⟩

/-- Only `d` itself has the lower case form `d`, unless `d` is a small letter. -/
lemma eq_of_toLower_eq {c d : Char} (hd : ¬(97 ≤ d.toNat ∧ d.toNat ≤ 122)) (h : c.toLower = d) :
    c = d := by
  by_cases hupper : 65 ≤ c.toNat ∧ c.toNat ≤ 90
  · have hlower := toNat_toLower hupper.1 hupper.2
    rw [h] at hlower
    omega
  · rw [← h, toLower_of_not_upper hupper]

lemma toAsciiLowercase_idem (s : Text) :
    toAsciiLowercase (toAsciiLowercase s) = toAsciiLowercase s := by
  simp only [toAsciiLowercase, List.map_map]
  refine map_congr_left fun c _ => toLower_of_not_upper fun h => ?_
  by_cases hupper : 65 ≤ c.toNat ∧ c.toNat ≤ 90
  · rw [toNat_toLower hupper.1 hupper.2] at h
    omega
  · rw [toLower_of_not_upper hupper] at h
    exact hupper h

lemma hexValue_toLower (c : Char) : hexValue c.toLower = hexValue c := by
  by_cases h : 65 ≤ c.toNat ∧ c.toNat ≤ 90
  · unfold hexValue
    rw [toNat_toLower h.1 h.2]
    split_ifs <;> first | omega | congr 1
  · rw [toLower_of_not_upper h]

lemma hexDecode_toAsciiLowercase (s : Text) : hexDecode (toAsciiLowercase s) = hexDecode s := by
  fun_induction hexDecode s <;> simp_all [toAsciiLowercase, hexDecode, hexValue_toLower]

lemma hexDecode_of_eqIgnoreAsciiCase {s : Text} {bs : Bytes}
    (h : eqIgnoreAsciiCase s (hexEncode bs) = true) : hexDecode s = some bs := by
  rw [← hexDecode_toAsciiLowercase, eq_of_beq h, hexDecode_toAsciiLowercase, hexDecode_hexEncode]

end Text

/-!
### File system paths

A path is a sequence of bytes that need not be valid text. It is given here as the characters that
are valid, with the maximal runs of bytes that are not between them. The definitions follow
`std::path::Path` on Unix.
-/

inductive OsChar
  | char (c : Char)
  | invalid (bytes : List UInt8)
deriving DecidableEq

abbrev OsString := List OsChar

namespace OsString

def ofText (s : Text) : OsString := s.map .char

/-- `OsStr::to_str`. -/
def toStr : OsString → Option Text
  | [] => some []
  | .char c :: s => (toStr s).map (c :: ·)
  | .invalid _ :: _ => none

/-- `OsStr::to_string_lossy`: a run of bytes that is not text becomes a replacement character. -/
def toStringLossy (s : OsString) : Text :=
  s.map fun
    | .char c => c
    | .invalid _ => Char.ofNat 0xFFFD

lemma char_mem_of_toStr {c : Char} : ∀ {s : OsString} {t : Text}, toStr s = some t → c ∈ t →
    .char c ∈ s
  | [], t, h, hc => by
    obtain rfl : [] = t := some.inj h
    cases hc
  | .invalid _ :: _, t, h, hc => by cases h
  | .char d :: s, t, h, hc => by
    obtain ⟨t', hs, rfl⟩ := map_eq_some_iff.mp h
    rcases mem_cons.mp hc with rfl | hc
    · exact mem_cons_self
    · exact mem_cons_of_mem _ (char_mem_of_toStr hs hc)

lemma ofText_of_toStr : ∀ {s : OsString} {t : Text}, toStr s = some t → s = ofText t
  | [], t, h => by
    obtain rfl : [] = t := some.inj h
    rfl
  | .invalid _ :: _, t, h => by cases h
  | .char d :: s, t, h => by
    obtain ⟨t', hs, rfl⟩ := map_eq_some_iff.mp h
    simp [ofText, ofText_of_toStr hs]

end OsString

open OsString

namespace Path

/-- The name of an entry of a directory: not empty, not one of the names of the directory itself
and its parent, and without a separator. -/
structure IsFileName (name : Text) : Prop where
  ne_nil : name ≠ []
  ne_dot : name ≠ ['.']
  ne_dotdot : name ≠ ['.', '.']
  slash_notMem : '/' ∉ name

def parts : OsString → List OsString
  | [] => [[]]
  | c :: s =>
    if c = .char '/' then [] :: parts s
    else
      match parts s with
      | part :: rest => (c :: part) :: rest
      | [] => [[c]]

/-- `Path::file_name`: the last component, unless the path ends in the root or in `..`. -/
def fileName (path : OsString) : Option OsString :=
  match ((parts path).filter fun part => part ≠ [] && part ≠ [.char '.']).getLast? with
  | some part => if part = [.char '.', .char '.'] then none else some part
  | none => none

/-- `Path::parent` of an absolute path without empty components. -/
def parent (path : OsString) : Option OsString :=
  (fileName path).map fun name =>
    match path.take (path.length - name.length - 1) with
    | [] => [.char '/']
    | directory => directory

def extensionOf : OsString → Option OsString
  | [] => none
  | _ :: s =>
    match extensionOf s with
    | some ext => some ext
    | none =>
      match s with
      | .char '.' :: ext => some ext
      | _ => none

/-- `Path::extension`. -/
def extension (path : OsString) : Option OsString := (fileName path).bind extensionOf

lemma slash_notMem_of_mem_parts : ∀ {path part : OsString}, part ∈ parts path → .char '/' ∉ part
  | [], part, h => by
    obtain rfl : part = [] := by simpa [parts] using h
    simp
  | c :: s, part, h => by
    unfold parts at h
    split_ifs at h with hc
    · rcases mem_cons.mp h with rfl | h
      · simp
      · exact slash_notMem_of_mem_parts h
    · cases hs : parts s with
      | nil =>
        obtain rfl : part = [c] := by simpa [hs] using h
        simpa using fun h => hc h.symm
      | cons first rest =>
        simp only [hs, mem_cons] at h
        rcases h with rfl | h
        · have hmem : first ∈ parts s := by simp [hs]
          simpa [slash_notMem_of_mem_parts hmem] using fun h => hc h.symm
        · have hmem : part ∈ parts s := by simp [hs, h]
          exact slash_notMem_of_mem_parts hmem

lemma isFileName_of_mem_parts {path part : OsString} {name : Text} (hmem : part ∈ parts path)
    (hne : part ≠ []) (hdot : part ≠ [.char '.']) (hdo : part ≠ [.char '.', .char '.'])
    (hn : toStr part = some name) : IsFileName name := by
  have hpa := ofText_of_toStr hn
  refine ⟨?_, ?_, ?_, fun hsla => ?_⟩
  · rintro rfl
    exact hne hpa
  · rintro rfl
    exact hdot hpa
  · rintro rfl
    exact hdo hpa
  · exact slash_notMem_of_mem_parts hmem (char_mem_of_toStr hn hsla)

lemma isFileName_of_fileName {path part : OsString} {name : Text}
    (h : fileName path = some part) (hn : toStr part = some name) : IsFileName name := by
  unfold fileName at h
  split at h
  · rename_i last hla
    split_ifs at h with hdo
    obtain rfl : last = part := some.inj h
    have hmem := mem_filter.mp (mem_of_getLast? hla)
    simp only [decide_not, Bool.and_eq_true, Bool.not_eq_eq_eq_not, Bool.not_true,
      decide_eq_false_iff_not] at hmem
    obtain ⟨hps, hne, hdot⟩ := hmem
    exact isFileName_of_mem_parts hps hne hdot hdo hn
  · cases h

end Path

end Omg
