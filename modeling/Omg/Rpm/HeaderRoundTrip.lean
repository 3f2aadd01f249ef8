import Mathlib.Data.List.Nodup
import Omg.Rpm.Header

/-!
# Encoding and reading an RPM header

An entry is read back from a header in which its data stand at its offset. The data of an entry lie
in the declared area, and nothing behind this area is read.

Source: `src/package_managers/dnf.rs`.
-/

namespace Omg.Rpm

open Codec Control Text List

/-- An entry that librpm can encode. Empty entries are not written. -/
structure HeaderEntry.Valid (e : HeaderEntry) : Prop where
  tag_lt : e.tag < 2 ^ 32
  count_lt : e.count < 2 ^ 32
  count_pos : 0 < e.count
  tagType : 1 ≤ e.tagType ∧ e.tagType ≤ 9
  identity : isIdentity e.tag = true → e.tagType = 6
  epoch : e.tag = RpmTags.epoch → e.tagType = 4 ∧ e.count = 1
  single : e.tagType = 6 → e.count = 1
  elements : isStringType e.tagType = false → e.data.length = e.count * elementSize e.tagType
  strings : isStringType e.tagType = true → ∃ strings : List Bytes, strings.length = e.count ∧
    (∀ s ∈ strings, 0 ∉ s) ∧ e.data = strings.flatMap (· ++ [0])

lemma terminator_append {s : Bytes} (hs : 0 ∉ s) (n : ℕ) (rest : Bytes) :
    terminator n (s ++ 0 :: rest) = match n with
      | 0 => some s.length
      | n + 1 => (terminator n rest).map (· + (s.length + 1)) := by
  induction s with
  | nil => cases n <;> simp [terminator]
  | cons b s ih =>
    obtain ⟨hb, hs⟩ := not_or.mp (mt mem_cons.mpr hs)
    have hb : b ≠ 0 := Ne.symm hb
    simp only [cons_append, terminator, hb, ne_eq, ih hs]
    cases n with
    | zero => rfl
    | succ n => simp [Function.comp_def, Nat.add_assoc]

lemma terminator_strings : ∀ {ss : List Bytes}, (∀ s ∈ ss, 0 ∉ s) → ss ≠ [] →
    ∀ rest, terminator (ss.length - 1) (ss.flatMap (· ++ [0]) ++ rest) =
      some ((ss.flatMap (· ++ [0])).length - 1)
  | [s], hs, _, rest => by simpa using terminator_append (hs s mem_cons_self) 0 rest
  | s :: t :: ss, hs, _, rest => by
    have ih := terminator_strings (fun u hu => hs u (mem_cons_of_mem _ hu)) (cons_ne_nil t ss) rest
    have hpos : 0 < ((t :: ss).flatMap (· ++ [0])).length := by
      simp only [flatMap_cons, length_append, length_singleton]
      omega
    rw [length_cons, Nat.add_sub_cancel] at ih
    rw [flatMap_cons, append_assoc, append_assoc, singleton_append, length_cons, length_cons,
      Nat.add_sub_cancel, terminator_append (hs s mem_cons_self)]
    simp only [ih, Option.map_some, length_append, length_singleton, Option.some.injEq]
    omega

/-! ### One entry -/

lemma HeaderEntry.Valid.data_ne_nil {e : HeaderEntry} (h : e.Valid) : e.data ≠ [] := by
  have hpos := h.count_pos
  cases hty : isStringType e.tagType with
  | true =>
    obtain ⟨ss, hlen, -, hda⟩ := h.strings hty
    cases ss with
    | nil => simp at hlen; omega
    | cons s ss => simp [hda]
  | false =>
    have hlen := h.elements hty
    have : 0 < elementSize e.tagType := by
      unfold elementSize
      split <;> decide
    intro hnil
    simp [hnil] at hlen
    omega

lemma region_of_isStringType {x : IndexEntry} (h : isStringType x.tagType)
    (hco : 0 < x.count) {pl : Bytes} {size : ℕ}
    (hsz : terminator (x.count - 1) (pl.drop x.offset) = some size) : region x pl = .ok size := by
  have hne : x.count ≠ 0 := by omega
  have hcas : x.tagType = 6 ∨ x.tagType = 8 ∨ x.tagType = 9 := by
    simpa [isStringType, or_assoc] using h
  rcases hcas with h | h | h <;> simp [region, h, hne, hsz]

lemma region_of_not_isStringType {x : IndexEntry} (h : isStringType x.tagType = false)
    (pl : Bytes) : region x pl = .ok (x.count * elementSize x.tagType) := by
  unfold region elementSize
  split <;> simp_all [isStringType]

lemma HeaderEntry.Valid.region_eq {e : HeaderEntry} (h : e.Valid) {off : ℕ}
    {pl rest : Bytes} (hpl : pl.drop off = e.data ++ rest) :
    region ⟨e.tag, e.tagType, off, e.count⟩ pl = .ok e.content.length := by
  have hpos := h.count_pos
  cases hty : isStringType e.tagType with
  | true =>
    obtain ⟨ss, hlen, hnul, hda⟩ := h.strings hty
    have hne : ss ≠ [] := by
      rintro rfl
      simp at hlen
      omega
    have htrm := terminator_strings hnul hne rest
    rw [hlen, ← hda, ← hpl] at htrm
    rw [region_of_isStringType hty hpos htrm]
    simp [HeaderEntry.content, hty]
  | false =>
    rw [region_of_not_isStringType hty]
    simp [HeaderEntry.content, hty, h.elements hty]

lemma HeaderEntry.content_eq_take (e : HeaderEntry) : e.content = e.data.take e.content.length := by
  unfold HeaderEntry.content
  split
  · rw [dropLast_eq_take, length_take, min_eq_left (Nat.sub_le _ _)]
  · simp

lemma entryData_of_valid {e : HeaderEntry} (h : e.Valid) {off : ℕ} {pl rest : Bytes}
    (hpl : pl.drop off = e.data ++ rest) (hsz : pl.length < 2 ^ 31) :
    entryData ⟨e.tag, e.tagType, off, e.count⟩ pl = .ok e.content := by
  have hlen := congrArg length hpl
  have hne := length_pos_of_ne_nil h.data_ne_nil
  have hc : e.content.length ≤ e.data.length := by
    rw [e.content_eq_take, length_take]
    exact min_le_right _ _
  rw [length_drop, length_append] at hlen
  refine entryData_eq_ok.mpr ⟨fun hid => ⟨h.identity hid, h.single (h.identity hid)⟩, h.epoch,
    h.tagType, h.single, ?_, ?_, _, h.region_eq hpl, ?_, ?_, ?_⟩
  · show off < 2 ^ 31
    omega
  · show off < pl.length
    omega
  · show off + e.content.length < 2 ^ 64
    omega
  · show off + e.content.length ≤ pl.length
    omega
  · show e.content = (pl.drop off).take e.content.length
    rw [hpl, take_append_of_le_length hc, ← e.content_eq_take]

/-! ### All entries -/

lemma collectTags_layout {pl : Bytes} (hsz : pl.length < 2 ^ 31) :
    ∀ {es : List HeaderEntry} {pos : ℕ} (tags : HeaderTags), (∀ e ∈ es, e.Valid) →
      pl.drop pos = encodeData pos es → collectTags pl (layout pos es) tags =
        .ok ((es.map fun e => (e.tag, e.content)).reverse ++ tags)
  | [], _, tags, _, _ => rfl
  | e :: es, pos, tags, hv, hdr => by
    obtain ⟨he, hes⟩ := forall_mem_cons.mp hv
    have hda : pl.drop (pos + padding e pos) =
        e.data ++ encodeData (pos + padding e pos + e.data.length) es := by
      rw [← drop_drop, hdr, encodeData, drop_left' (by simp)]
    have hr : pl.drop (pos + padding e pos + e.data.length) =
        encodeData (pos + padding e pos + e.data.length) es := by
      rw [← drop_drop, hda, drop_left' rfl]
    refine bind_eq_ok.mpr ⟨e.content, entryData_of_valid he hda hsz, ?_⟩
    rw [collectTags_layout hsz _ hes hr]
    simp

lemma take_bigEndian (n : ℕ) (rest : Bytes) : (bigEndian 4 n ++ rest).take 4 = bigEndian 4 n :=
  take_left' (length_bigEndian 4 n)

lemma drop_bigEndian (n k : ℕ) (rest : Bytes) :
    (bigEndian 4 n ++ rest).drop (4 + k) = rest.drop k := by
  rw [← drop_drop, drop_left' (length_bigEndian 4 n)]

lemma ofBigEndian_bigEndian_four {n : ℕ} (h : n < 2 ^ 32) : ofBigEndian (bigEndian 4 n) = n := by
  rw [ofBigEndian_bigEndian, Nat.mod_eq_of_lt (by simpa using h)]

lemma indexEntry_encodeIndexEntry (x : IndexEntry) (htag : x.tag < 2 ^ 32)
    (hty : x.tagType < 2 ^ 32) (hoff : x.offset < 2 ^ 32)
    (hco : x.count < 2 ^ 32) : indexEntry (encodeIndexEntry x) = x := by
  have hla : (bigEndian 4 x.count).take 4 = bigEndian 4 x.count :=
    take_of_length_le (by simp)
  rw [indexEntry, encodeIndexEntry, show 12 = 4 + (4 + (4 + 0)) from rfl,
    show 8 = 4 + (4 + 0) from rfl]
  simp only [drop_bigEndian, take_bigEndian, drop_zero, hla, drop_bigEndian _ 0,
    ofBigEndian_bigEndian_four htag, ofBigEndian_bigEndian_four hty,
    ofBigEndian_bigEndian_four hoff, ofBigEndian_bigEndian_four hco]

lemma length_encodeIndexEntry (x : IndexEntry) : (encodeIndexEntry x).length = 16 := by
  simp [encodeIndexEntry]

lemma length_layout (es : List HeaderEntry) : ∀ pos,
    ((layout pos es).flatMap encodeIndexEntry).length = es.length * 16 := by
  induction es with
  | nil => exact fun _ => rfl
  | cons e es ih =>
    intro pos
    rw [layout, flatMap_cons, length_append, ih, length_encodeIndexEntry, length_cons]
    omega

lemma indexEntries_layout (rest : Bytes) {es : List HeaderEntry} : ∀ {pos : ℕ},
    (∀ e ∈ es, e.Valid) → pos + (encodeData pos es).length < 2 ^ 31 →
    indexEntries es.length ((layout pos es).flatMap encodeIndexEntry ++ rest) = layout pos es := by
  induction es with
  | nil => exact fun _ _ => rfl
  | cons e es ih =>
    intro pos hv hsz
    obtain ⟨he, hes⟩ := forall_mem_cons.mp hv
    have hty := he.tagType
    simp only [encodeData, length_append, length_replicate] at hsz
    have hh :=
      indexEntry_encodeIndexEntry ⟨e.tag, e.tagType, pos + padding e pos, e.count⟩ he.tag_lt
      (show e.tagType < 2 ^ 32 by omega) (show pos + padding e pos < 2 ^ 32 by omega) he.count_lt
    rw [layout, length_cons, indexEntries, flatMap_cons, append_assoc,
      take_left' (length_encodeIndexEntry _), drop_left' (length_encodeIndexEntry _),
      ih hes (by omega), hh]

lemma parseRpmHeader_encodeHeader {es : List HeaderEntry} (hne : es ≠ [])
    (hco : es.length ≤ maxHeaderEntries) (hv : ∀ e ∈ es, e.Valid)
    (hsz : (encodeData 0 es).length < 2 ^ 31) :
    parseRpmHeader (encodeHeader es) = .ok (es.map fun e => (e.tag, e.content)).reverse := by
  have hpos := length_pos_of_ne_nil hne
  have hbou : maxHeaderEntries < 2 ^ 32 := by decide
  have hes : entryCount (encodeHeader es) = es.length := by
    rw [entryCount, encodeHeader, take_bigEndian, ofBigEndian_bigEndian_four (by omega)]
  have hda : dataSize (encodeHeader es) = (encodeData 0 es).length := by
    rw [dataSize, encodeHeader, drop_bigEndian _ 0, drop_zero, take_bigEndian,
      ofBigEndian_bigEndian_four (by omega)]
  have hdr : (encodeHeader es).drop 8 =
      (layout 0 es).flatMap encodeIndexEntry ++ encodeData 0 es := by
    rw [encodeHeader, show 8 = 4 + (4 + 0) from rfl, drop_bigEndian, drop_bigEndian, drop_zero]
  have har : dataArea (encodeHeader es) = encodeData 0 es := by
    rw [dataArea, hes, hda, hdr, drop_left' (length_layout es 0), take_length]
  refine parseRpmHeader_eq_ok.mpr ⟨?_, ?_, ?_, ?_, ?_⟩
  · simp only [encodeHeader, length_append, length_bigEndian]
    omega
  · rwa [hes]
  · rwa [hes]
  · rw [hes, hda, hdr, length_append, length_layout]
  · rw [hes, hdr, har, indexEntries_layout _ hv (by omega),
      collectTags_layout hsz [] hv rfl, append_nil]

/-! ### The declared area -/

lemma take_append_of_le {blob ext : Bytes} {n k : ℕ} (h : n + k ≤ blob.length) :
    ((blob ++ ext).drop n).take k = (blob.drop n).take k := by
  rw [drop_append_of_le_length (by omega), take_append_of_le_length (by rw [length_drop]; omega)]

lemma indexEntries_append {ext : Bytes} : ∀ {n : ℕ} {bytes : Bytes}, n * 16 ≤ bytes.length →
    indexEntries n (bytes ++ ext) = indexEntries n bytes
  | 0, _, _ => rfl
  | n + 1, bytes, h => by
    rw [indexEntries, indexEntries, take_append_of_le_length (by omega),
      drop_append_of_le_length (by omega), indexEntries_append (by rw [length_drop]; omega)]

lemma parseRpmHeader_append {blob : Bytes} {tags : HeaderTags}
    (h : parseRpmHeader blob = .ok tags) (ext : Bytes) :
    parseRpmHeader (blob ++ ext) = .ok tags := by
  obtain ⟨h₈, hpos, hmax, hlen, hco⟩ := parseRpmHeader_eq_ok.mp h
  rw [length_drop] at hlen
  have hes : entryCount (blob ++ ext) = entryCount blob := by
    rw [entryCount, take_append_of_le_length (by omega), entryCount]
  have hda : dataSize (blob ++ ext) = dataSize blob := by
    rw [dataSize, take_append_of_le (by omega), dataSize]
  have har : dataArea (blob ++ ext) = dataArea blob := by
    rw [dataArea, hes, hda, drop_drop, take_append_of_le (by omega), dataArea, drop_drop]
  refine parseRpmHeader_eq_ok.mpr ⟨?_, ?_, ?_, ?_, ?_⟩
  · rw [length_append]
    omega
  · rwa [hes]
  · rwa [hes]
  · rw [hda, length_drop, length_append]
    omega
  · rw [hes, har, drop_append_of_le_length h₈, indexEntries_append (by rw [length_drop]; omega),
      hco]

lemma exists_offset_of_mem {blob : Bytes} {tags : HeaderTags}
    (h : parseRpmHeader blob = .ok tags) {p : ℕ × Bytes} (hp : p ∈ tags) :
    ∃ off, off + p.2.length ≤ dataSize blob ∧
      p.2 = ((dataArea blob).drop off).take p.2.length := by
  obtain ⟨-, -, -, -, hco⟩ := parseRpmHeader_eq_ok.mp h
  refine forall_mem_collectTags (P := fun _ data => ∃ off, off + data.length ≤ dataSize blob ∧
    data = ((dataArea blob).drop off).take data.length) (fun x data hda => ?_) hco
    (by simp) p hp
  obtain ⟨-, -, -, -, -, -, size, -, -, hle, rfl⟩ := entryData_eq_ok.mp hda
  have har : (dataArea blob).length ≤ dataSize blob := by
    rw [dataArea, length_take]
    exact min_le_left _ _
  have hsz : (((dataArea blob).drop x.offset).take size).length = size := by
    rw [length_take, length_drop]
    omega
  exact ⟨x.offset, by rw [hsz]; omega, by rw [hsz]⟩

lemma lookup_of_mem_reverse {es : List HeaderEntry} (hnd : (es.map (·.tag)).Nodup)
    {e : HeaderEntry} (he : e ∈ es) :
    ((es.map fun e => (e.tag, e.content)).reverse).lookup e.tag = some e.content := by
  rw [← map_reverse]
  obtain ⟨before, after, hsp⟩ := append_of_mem (mem_reverse.mpr he)
  rw [← nodup_reverse, ← map_reverse, hsp, map_append] at hnd
  refine lookup_eq_some_iff.mpr ⟨before.map fun e => (e.tag, e.content),
    after.map fun e => (e.tag, e.content), by rw [hsp, map_append, map_cons], fun p hp => ?_⟩
  obtain ⟨e', he', rfl⟩ := mem_map.mp hp
  have hne : e'.tag ≠ e.tag := fun heq =>
    disjoint_of_nodup_append hnd (mem_map_of_mem he') (heq ▸ mem_cons_self)
  simpa using hne.symm

/-- **Round trip and containment.** What librpm can encode is read back, entry by entry. Of any
header that is accepted, the data lie in the declared area, and bytes behind it change nothing. -/
theorem parseRpmHeader_spec :
    (∀ es : List HeaderEntry, es ≠ [] → es.length ≤ maxHeaderEntries → (es.map (·.tag)).Nodup →
      (∀ e ∈ es, e.Valid) → (encodeData 0 es).length < 2 ^ 31 →
      ∃ tags, parseRpmHeader (encodeHeader es) = .ok tags ∧ tags.length = es.length ∧
        ∀ e ∈ es, tags.lookup e.tag = some e.content) ∧
    ∀ blob tags, parseRpmHeader blob = .ok tags →
      (∀ tag data, (tag, data) ∈ tags → ∃ offset, offset + data.length ≤ dataSize blob ∧
        data = ((dataArea blob).drop offset).take data.length) ∧
      ∀ extra, parseRpmHeader (blob ++ extra) = .ok tags := by
  refine ⟨fun es hne hco hnd hv hsz => ?_, fun blob tags h => ⟨fun tag data hmem => ?_,
    parseRpmHeader_append h⟩⟩
  · exact ⟨_, parseRpmHeader_encodeHeader hne hco hv hsz, by simp,
      fun e he => lookup_of_mem_reverse hnd he⟩
  · exact exists_offset_of_mem h hmem

/-- A header with a name and an epoch. -/
theorem parseRpmHeader_spec_vim : ∃ tags, parseRpmHeader
      (encodeHeader [⟨1000, 6, 1, [118, 105, 109, 0]⟩, ⟨1003, 4, 1, [0, 0, 0, 2]⟩]) = .ok tags ∧
    tags.lookup 1000 = some [118, 105, 109] ∧ tags.lookup 1003 = some [0, 0, 0, 2] := by
  have hname : HeaderEntry.Valid ⟨1000, 6, 1, [118, 105, 109, 0]⟩ :=
    ⟨by decide, by decide, by decide, by decide, fun _ => rfl, nofun, fun _ => rfl, nofun,
      fun _ => ⟨[[118, 105, 109]], rfl, by decide, rfl⟩⟩
  have hepoch : HeaderEntry.Valid ⟨1003, 4, 1, [0, 0, 0, 2]⟩ :=
    ⟨by decide, by decide, by decide, by decide, nofun, fun _ => ⟨rfl, rfl⟩, nofun, fun _ => rfl,
      nofun⟩
  obtain ⟨tags, htags, -, hlookup⟩ := parseRpmHeader_spec.1 _ (by simp) (by decide) (by decide)
    (List.forall_mem_cons.mpr ⟨hname, List.forall_mem_singleton.mpr hepoch⟩) (by decide)
  exact ⟨tags, htags, hlookup _ mem_cons_self, hlookup _ (mem_cons_of_mem _ mem_cons_self)⟩

/-- A header without entries, and one whose last entry is empty, are refused. -/
theorem parseRpmHeader_encodeHeader_refused :
    parseRpmHeader (encodeHeader []) = .error ["RPM database header must contain entries".toList] ∧
      parseRpmHeader (encodeHeader [⟨2000, 7, 0, []⟩]) =
        .error ["RPM tag 2000 data offset outside payload".toList] := by
  decide

end Omg.Rpm
