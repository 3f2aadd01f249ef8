import Omg.Text.Basic

/-!
# Decoding UTF-8

Texts are determined by their bytes, and a byte below 128 is a character of its own: it is no part
of the encoding of another character. A search for such a byte therefore finds exactly the
occurrences of the character, and cutting a text there cuts between characters.
-/

namespace Omg.Text

open List Option

/-- `str::from_utf8`. -/
def utf8Decode (bytes : Bytes) : Option Text := bytes.toByteArray.utf8Decode?.map Array.toList

@[simp] lemma utf8_append (s t : Text) : utf8 (s ++ t) = utf8 s ++ utf8 t := flatMap_append

@[simp] lemma utf8_nil : utf8 [] = [] := rfl

lemma utf8_cons (c : Char) (s : Text) : utf8 (c :: s) = String.utf8EncodeChar c ++ utf8 s := rfl

lemma utf8_ne_nil {s : Text} (h : s ≠ []) : utf8 s ≠ [] := by
  cases s with
  | nil => exact absurd rfl h
  | cons c s =>
    have hlen : 0 < (String.utf8EncodeChar c).length :=
      String.length_utf8EncodeChar c ▸ c.utf8Size_pos
    exact append_ne_nil_of_left_ne_nil (ne_nil_of_length_pos hlen) _

lemma utf8_singleton (c : Char) : utf8 [c] = String.utf8EncodeChar c := append_nil _

@[simp] lemma length_utf8 (s : Text) : (utf8 s).length = byteLen s := by
  induction s with
  | nil => rfl
  | cons c s ih => simp [utf8_cons, byteLen, ih, String.length_utf8EncodeChar]

lemma utf8Decode_utf8 (s : Text) : utf8Decode (utf8 s) = some s := by
  have hdc : (utf8 s).toByteArray.utf8Decode? = some s.toArray := utf8Decode?_utf8Encode
  rw [utf8Decode, hdc]
  rfl

lemma toByteArray_injective : Function.Injective List.toByteArray := fun s t h => by
  simpa using congrArg (fun b : ByteArray => b.data.toList) h

lemma utf8Decode_eq_some_iff {bs : Bytes} {s : Text} : utf8Decode bs = some s ↔ utf8 s = bs := by
  constructor
  · intro h
    obtain ⟨chars, hcha, rfl⟩ := map_eq_some_iff.mp h
    have hso : bs.toByteArray.utf8Decode?.isSome = true := by rw [hcha]; rfl
    have hen := ByteArray.utf8Encode_get_utf8Decode? (h := hso)
    rw [get_of_eq_some hso hcha] at hen
    exact toByteArray_injective hen
  · rintro rfl
    exact utf8Decode_utf8 s

lemma isPrefix_of_utf8 {s t : Text} (h : utf8 s <+: utf8 t) : s <+: t := by
  obtain ⟨rest, hr⟩ := h
  refine isPrefix_of_utf8Encode_append_eq_utf8Encode rest.toByteArray ?_
  have hby := congrArg List.toByteArray hr
  rw [toByteArray_append] at hby
  exact hby

lemma encode_of_mem {b : UInt8} {c : Char} (hb : b ∈ String.utf8EncodeChar c)
    (hlow : b.toNat < 128) : String.utf8EncodeChar c = [b] ∧ c.toNat = b.toNat := by
  have hval : c.toNat = c.val.toNat := rfl
  have hoct : ∀ n < 256, (UInt8.ofNat n).toNat = n := fun n hn => by
    rw [UInt8.toNat_ofNat', Nat.mod_eq_of_lt hn]
  unfold String.utf8EncodeChar at hb ⊢
  simp only at hb ⊢
  split_ifs at hb ⊢ with h₁ h₂ h₃
  · obtain rfl := mem_singleton.mp hb
    exact ⟨rfl, by rw [hoct _ (by omega), hval]⟩
  all_goals
    simp only [mem_cons, not_mem_nil, or_false] at hb
    rcases hb with rfl | rfl | rfl | rfl <;> rw [hoct _ (by omega)] at hlow <;> omega

/-- The byte `0xff` is no part of a text. -/
lemma ff_notMem_utf8 (s : Text) : (0xff : UInt8) ∉ utf8 s := by
  intro h
  obtain ⟨c, -, hc⟩ := mem_flatMap.mp h
  have hby : ∀ n < 255, (0xff : UInt8) ≠ UInt8.ofNat n := by
    intro n hn heq
    have hnat := congrArg UInt8.toNat heq
    exact absurd hnat (by simp; omega)
  unfold String.utf8EncodeChar at hc
  simp only at hc
  split_ifs at hc <;> simp only [mem_cons, not_mem_nil, or_false] at hc
  · exact hby _ (by omega) hc
  · rcases hc with hc | hc <;> exact hby _ (by omega) hc
  · rcases hc with hc | hc | hc <;> exact hby _ (by omega) hc
  · rcases hc with hc | hc | hc | hc <;> exact hby _ (by omega) hc

lemma encode_of_toNat_lt {c : Char} (h : c.toNat < 128) :
    String.utf8EncodeChar c = [UInt8.ofNat c.toNat] := by
  have hval : c.toNat = c.val.toNat := rfl
  exact if_pos (by omega)

lemma utf8Decode_concat {c : Char} (hc : c.toNat < 128) (bs : Bytes) :
    utf8Decode (bs ++ [UInt8.ofNat c.toNat]) = (utf8Decode bs).map (· ++ [c]) := by
  have hby : (UInt8.ofNat c.toNat).toNat = c.toNat := by
    rw [UInt8.toNat_ofNat', Nat.mod_eq_of_lt (by omega)]
  cases hdc : utf8Decode bs with
  | some s =>
    rw [map_some, utf8Decode_eq_some_iff, utf8_append, utf8Decode_eq_some_iff.mp hdc,
      utf8_singleton, encode_of_toNat_lt hc]
  | none =>
    rw [map_none, eq_none_iff_forall_ne_some]
    intro t ht
    rw [utf8Decode_eq_some_iff] at ht
    rcases eq_nil_or_concat' t with rfl | ⟨s, d, rfl⟩
    · simp at ht
    rw [utf8_append, utf8_singleton] at ht
    have hla : UInt8.ofNat c.toNat ∈ String.utf8EncodeChar d := by
      have hne : String.utf8EncodeChar d ≠ [] := String.utf8EncodeChar_ne_nil
      have hgetLast := congrArg List.getLast? ht
      rw [getLast?_append_of_ne_nil _ hne, getLast?_concat] at hgetLast
      exact mem_of_getLast? hgetLast
    obtain ⟨hen, -⟩ := encode_of_mem hla (by omega)
    rw [hen] at ht
    rw [← append_cancel_right ht, utf8Decode_utf8] at hdc
    cases hdc

end Omg.Text
