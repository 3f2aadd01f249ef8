import Omg.Codec.Framing
import Omg.Control.Except
import Omg.Text.Basic

/-!
# RPM headers and the two inventory readers

The database holds a header for every installed package: the numbers of entries and of data bytes,
an index with the tag, the type, the offset and the count of every entry, and the data. Where the
database cannot be opened, `rpm -qa` prints the same fields as a line of text. `lossy` stands for
`String::from_utf8_lossy` and is arbitrary.

Source: `src/package_managers/dnf.rs`.
-/

namespace Omg.Rpm

open Codec Control Text List Option Except

namespace RpmTags

def name : ℕ := 1000
def version : ℕ := 1001
def release : ℕ := 1002
def epoch : ℕ := 1003
def summary : ℕ := 1004
def arch : ℕ := 1022

end RpmTags

open RpmTags

def maxHeaderEntries : ℕ := 100000

structure IndexEntry where
  tag : ℕ
  tagType : ℕ
  /-- The offset as it is stored, in two's complement. -/
  offset : ℕ
  count : ℕ

def indexEntry (chunk : Bytes) : IndexEntry where
  tag := ofBigEndian (chunk.take 4)
  tagType := ofBigEndian ((chunk.drop 4).take 4)
  offset := ofBigEndian ((chunk.drop 8).take 4)
  count := ofBigEndian ((chunk.drop 12).take 4)

/-- The entries of the first `n` chunks of 16 bytes. -/
def indexEntries : ℕ → Bytes → List IndexEntry
  | 0, _ => []
  | n + 1, bytes => indexEntry (bytes.take 16) :: indexEntries n (bytes.drop 16)

/-- The index of the terminator that `n` others precede. -/
def terminator : ℕ → Bytes → Option ℕ
  | _, [] => none
  | n, b :: bytes =>
    if b ≠ 0 then (terminator n bytes).map (· + 1)
    else match n with
      | 0 => some 0
      | n + 1 => (terminator n bytes).map (· + 1)

section

variable (entry : IndexEntry)

def tagMessage (message : Text) : Text := "RPM tag " ++ (decimal entry.tag ++ message)

/-- The number of bytes an entry takes from its offset on; the last terminator of strings is not
counted. The products cannot overflow, since the count is below `2 ^ 32`. -/
def region (payload : Bytes) : Result ℕ :=
  match entry.tagType with
  | 3 => .ok (entry.count * 2)
  | 4 => .ok (entry.count * 4)
  | 5 => .ok (entry.count * 8)
  | 6 | 8 | 9 =>
    if entry.count = 0 then bail "RPM string array is empty"
    else required (terminator (entry.count - 1) (payload.drop entry.offset))
      (tagMessage entry " string missing terminator")
  | _ => .ok entry.count

def isIdentity (tag : ℕ) : Bool :=
  tag == RpmTags.name || tag == RpmTags.version || tag == RpmTags.release || tag == RpmTags.arch

/-- The body of the loop over the index. -/
def entryData (payload : Bytes) : Result Bytes := do
  ensure (!isIdentity entry.tag || (entry.tagType == 6 && entry.count == 1))
    ("RPM identity tag " ++ (decimal entry.tag ++ " must be a single string"))
  ensure (entry.tag != RpmTags.epoch || (entry.tagType == 4 && entry.count == 1))
    "RPM EPOCH identity tag must be a single INT32"
  ensure (decide (1 ≤ entry.tagType ∧ entry.tagType ≤ 9))
    (tagMessage entry (" has unsupported type " ++ decimal entry.tagType))
  ensure (entry.tagType != 6 || entry.count == 1)
    ("RPM string tag " ++ (decimal entry.tag ++
      (" must have count 1, got " ++ decimal entry.count)))
  ensure (decide (entry.offset < 2 ^ 31))
    (tagMessage entry (" has negative data offset -" ++ decimal (2 ^ 32 - entry.offset)))
  ensure (decide (entry.offset < payload.length))
    (tagMessage entry " data offset outside payload")
  let size ← region entry payload
  ensure (decide (entry.offset + size < 2 ^ 64)) (tagMessage entry " data region overflows")
  ensure (decide (entry.offset + size ≤ payload.length))
    (tagMessage entry " data region exceeds payload")
  pure ((payload.drop entry.offset).take size)

end

/-- The tags and their data, the last entry first; a `HashMap` in the source. -/
abbrev HeaderTags := List (ℕ × Bytes)

def collectTags (payload : Bytes) : List IndexEntry → HeaderTags → Result HeaderTags
  | [], tags => .ok tags
  | entry :: entries, tags => do
    let data ← entryData entry payload
    collectTags payload entries ((entry.tag, data) :: tags)

/-- `DnfPackageManager::parse_rpm_header`. -/
def parseRpmHeader (blob : Bytes) : Result HeaderTags := do
  ensure (decide (8 ≤ blob.length)) "RPM header too short"
  let rest := blob.drop 8
  let numEntries := ofBigEndian (blob.take 4)
  ensure (decide (0 < numEntries)) "RPM database header must contain entries"
  ensure (decide (numEntries ≤ maxHeaderEntries))
    ("RPM header declares " ++ (decimal numEntries ++ (" entries (limit " ++
      (decimal maxHeaderEntries ++ [')']))))
  let dataSize := ofBigEndian ((blob.drop 4).take 4)
  let dataStart := numEntries * 16
  ensure (decide (dataStart + dataSize ≤ rest.length)) "RPM header truncated"
  collectTags ((rest.drop dataStart).take dataSize) (indexEntries numEntries rest) []

inductive InstallReason where
  | user
  | dependency
deriving DecidableEq

structure InstalledPackage where
  name : Text
  version : Text
  release : Text
  architecture : Text
  summary : Text
  reason : InstallReason
deriving DecidableEq

def epochVersion (epoch : ℕ) (version : Text) : Text :=
  if epoch = 0 then version else decimal epoch ++ ':' :: version

section

variable (lossy : Bytes → Text)

/-- The tags that both readers show as text. -/
def textTags : List ℕ :=
  [RpmTags.name, RpmTags.version, RpmTags.release, RpmTags.summary, RpmTags.arch]

/-- The first string of a tag, if the tag is present. -/
def firstString (tags : HeaderTags) (tag : ℕ) : Option Text :=
  (tags.lookup tag).map fun data => lossy (data.takeWhile (· ≠ 0))

def getString (tags : HeaderTags) (tag : ℕ) : Text := (firstString lossy tags tag).getD []

/-- `DnfPackageManager::parse_package_from_blob`. -/
def parsePackageFromBlob (blob : Bytes) : Result InstalledPackage := do
  let tags ← parseRpmHeader blob
  let name := getString lossy tags RpmTags.name
  ensure (name != []) "RPM header missing NAME tag"
  let epoch ← match tags.lookup RpmTags.epoch with
    | none => pure 0
    | some bytes => do
      ensure (bytes.length == 4) "Malformed RPM EPOCH tag"
      pure (ofBigEndian bytes)
  pure {
    name
    version := epochVersion epoch (getString lossy tags RpmTags.version)
    release := getString lossy tags RpmTags.release
    architecture := getString lossy tags RpmTags.arch
    summary := getString lossy tags RpmTags.summary
    reason := .dependency }

def epochOf (tags : HeaderTags) : ℕ := ((tags.lookup RpmTags.epoch).map ofBigEndian).getD 0

/-- A field that `rpm -qa` prints. -/
def printedString (tags : HeaderTags) (tag : ℕ) : Text := (firstString lossy tags tag).getD "(none)"

/-- The line that `rpm -qa` prints for a header, in the order of the query format. -/
def queryLine (tags : HeaderTags) : Text :=
  ['\t'].intercalate [printedString lossy tags RpmTags.name,
    printedString lossy tags RpmTags.version, printedString lossy tags RpmTags.release,
    printedString lossy tags RpmTags.summary,
    decimal (epochOf tags),
    printedString lossy tags RpmTags.arch]

end

/-- `DnfPackageManager::parse_rpm_qa_line`. -/
def parseRpmQaLine (line : Text) : Result InstalledPackage :=
  match line.splitOn '\t' with
  | [name, version, release, summary, epoch, architecture] => do
    -- The error of `str::parse` below the context is left out.
    let epoch ← required (parseUnsigned (2 ^ 32) epoch) "Malformed RPM epoch"
    ensure (architecture != []) "RPM architecture is missing"
    pure {
      name
      version := epochVersion epoch version
      release
      architecture
      summary
      reason := .dependency }
  | fields => bail ("malformed rpm -qa output: expected 6 fields, got " ++
      decimal fields.length)

/-- An entry to be encoded; the data of strings contain all the terminators. -/
structure HeaderEntry where
  tag : ℕ
  tagType : ℕ
  count : ℕ
  data : Bytes

/-- The size of one element; the data of an entry are aligned to it. -/
def elementSize : ℕ → ℕ
  | 3 => 2
  | 4 => 4
  | 5 => 8
  | _ => 1

def isStringType (tagType : ℕ) : Bool := tagType == 6 || tagType == 8 || tagType == 9

/-- The zero bytes between the position `pos` and the data of an entry. -/
def padding (entry : HeaderEntry) (pos : ℕ) : ℕ :=
  (elementSize entry.tagType - pos % elementSize entry.tagType) % elementSize entry.tagType

/-- The index of entries whose data start at `pos`. -/
def layout : ℕ → List HeaderEntry → List IndexEntry
  | _, [] => []
  | pos, e :: es =>
    ⟨e.tag, e.tagType, pos + padding e pos, e.count⟩ ::
      layout (pos + padding e pos + e.data.length) es

def encodeData : ℕ → List HeaderEntry → Bytes
  | _, [] => []
  | pos, e :: es =>
    replicate (padding e pos) 0 ++ (e.data ++ encodeData (pos + padding e pos + e.data.length) es)

def encodeIndexEntry (entry : IndexEntry) : Bytes :=
  bigEndian 4 entry.tag ++ (bigEndian 4 entry.tagType ++
    (bigEndian 4 entry.offset ++ bigEndian 4 entry.count))

/-- A header as librpm writes it into the database. -/
def encodeHeader (es : List HeaderEntry) : Bytes :=
  bigEndian 4 es.length ++ (bigEndian 4 (encodeData 0 es).length ++
    ((layout 0 es).flatMap encodeIndexEntry ++ encodeData 0 es))

/-- The data of a tag, for strings without the last terminator. -/
def HeaderEntry.content (e : HeaderEntry) : Bytes :=
  if isStringType e.tagType then e.data.dropLast else e.data

/-! ### The data of an entry -/

lemma entryData_eq_ok {x : IndexEntry} {pl data : Bytes} : entryData x pl = .ok data ↔
      (isIdentity x.tag → x.tagType = 6 ∧ x.count = 1) ∧
      (x.tag = epoch → x.tagType = 4 ∧ x.count = 1) ∧
      (1 ≤ x.tagType ∧ x.tagType ≤ 9) ∧ (x.tagType = 6 → x.count = 1) ∧
      x.offset < 2 ^ 31 ∧ x.offset < pl.length ∧
      ∃ size, region x pl = .ok size ∧ x.offset + size < 2 ^ 64 ∧
        x.offset + size ≤ pl.length ∧ data = (pl.drop x.offset).take size := by
  simp only [entryData, bind_eq_ok, ensure_eq_ok, exists_const, Bool.or_eq_true, Bool.and_eq_true,
    Bool.not_eq_true', beq_iff_eq, bne_iff_ne, decide_eq_true_eq, pure, Except.pure,
      Except.ok.injEq,
    eq_comm (a := data), ← imp_iff_not_or, ← Bool.not_eq_true]

lemma length_of_epoch {x : IndexEntry} {pl data : Bytes}
    (h : entryData x pl = .ok data) (hep : x.tag = epoch) : data.length = 4 := by
  obtain ⟨-, hty, -, -, -, -, size, hsz, -, hle, rfl⟩ := entryData_eq_ok.mp h
  obtain ⟨h4, hco⟩ := hty hep
  simp only [region, h4, ok.injEq] at hsz
  simp only [length_take, length_drop]
  omega

/-- What holds of the data of every entry holds of the data of every tag. -/
lemma forall_mem_collectTags {pl : Bytes} {P : ℕ → Bytes → Prop}
    (hP : ∀ x data, entryData x pl = .ok data → P x.tag data) :
    ∀ {ens : List IndexEntry} {tags tags' : HeaderTags},
      collectTags pl ens tags = .ok tags' → (∀ p ∈ tags, P p.1 p.2) → ∀ p ∈ tags', P p.1 p.2
  | [], tags, tags', h, hta => by
    obtain rfl := ok.inj h
    exact hta
  | x :: ens, tags, tags', h, hta => by
    obtain ⟨data, hda, h⟩ := bind_eq_ok.mp h
    exact forall_mem_collectTags hP h (forall_mem_cons.mpr ⟨hP x data hda, hta⟩)

/-- The numbers of entries and of data bytes that a header declares. -/
def entryCount (blob : Bytes) : ℕ := ofBigEndian (blob.take 4)

def dataSize (blob : Bytes) : ℕ := ofBigEndian ((blob.drop 4).take 4)

/-- The declared data area. -/
def dataArea (blob : Bytes) : Bytes :=
  ((blob.drop 8).drop (entryCount blob * 16)).take (dataSize blob)

lemma parseRpmHeader_eq_ok {blob : Bytes} {tags : HeaderTags} : parseRpmHeader blob = .ok tags ↔
      8 ≤ blob.length ∧ 0 < entryCount blob ∧ entryCount blob ≤ maxHeaderEntries ∧
      entryCount blob * 16 + dataSize blob ≤ (blob.drop 8).length ∧
      collectTags (dataArea blob) (indexEntries (entryCount blob) (blob.drop 8)) [] = .ok tags := by
  simp only [parseRpmHeader, bind_eq_ok, ensure_eq_ok, exists_const, decide_eq_true_eq]
  rfl

lemma length_of_lookup_epoch {blob data : Bytes} {tags : HeaderTags}
    (h : parseRpmHeader blob = .ok tags) (hda : tags.lookup epoch = some data) :
    data.length = 4 := by
  obtain ⟨-, -, -, -, hco⟩ := parseRpmHeader_eq_ok.mp h
  obtain ⟨pre, aft, rfl, -⟩ := lookup_eq_some_iff.mp hda
  exact forall_mem_collectTags (P := fun tag data => tag = epoch → data.length = 4)
    (fun _ _ => length_of_epoch) hco (by simp) (epoch, data) (by simp) rfl

/-! ### The two readers -/

section

variable {lossy : Bytes → Text} {tags : HeaderTags}

/-- The package of the header with `text` for its strings. -/
def packageOf (text : ℕ → Text) (epoch : ℕ) : InstalledPackage where
  name := text RpmTags.name
  version := epochVersion epoch (text RpmTags.version)
  release := text RpmTags.release
  architecture := text RpmTags.arch
  summary := text RpmTags.summary
  reason := .dependency

lemma parsePackageFromBlob_eq_ok {blob : Bytes} {p : InstalledPackage}
    (h : parseRpmHeader blob = .ok tags) : parsePackageFromBlob lossy blob = .ok p ↔
      getString lossy tags name ≠ [] ∧ packageOf (getString lossy tags) (epochOf tags) = p := by
  simp only [parsePackageFromBlob, h]
  cases hep : tags.lookup epoch with
  | none => simp [bind_eq_ok, pure, Except.pure, packageOf, epochOf, hep]
  | some data =>
    have hlen := length_of_lookup_epoch h hep
    simp [bind_eq_ok, pure, Except.pure, packageOf, epochOf, hep, hlen]

lemma parseRpmQaLine_queryLine_eq_ok {p : InstalledPackage}
    (hep : epochOf tags < 2 ^ 32) (htab : ∀ tag ∈ textTags, '\t' ∉ printedString lossy tags tag) :
    parseRpmQaLine (queryLine lossy tags) = .ok p ↔ printedString lossy tags arch ≠ [] ∧
        packageOf (printedString lossy tags) (epochOf tags) = p := by
  have hdig : '\t' ∉ decimal (epochOf tags) := fun h => by simpa using isDigit_of_mem_decimal h
  simp only [textTags] at htab
  have hsp : (queryLine lossy tags).splitOn '\t' = _ :=
    splitOn_intercalate '\t' (by simp [htab, hdig]) (by simp)
  rw [parseRpmQaLine, hsp]
  simp only [bind_eq_ok, required_eq_ok, parseUnsigned_decimal hep, Option.some.injEq,
    exists_eq_left', ensure_eq_ok, exists_const, bne_iff_ne, pure, Except.pure, Except.ok.injEq,
    packageOf]

lemma exists_text_of_getD_eq {x : Option Text} (h : x.getD [] = x.getD "(none)") : x.isSome := by
  cases x with
  | none => simp at h
  | some text => rfl

lemma epochVersion_injective (epoch : ℕ) : Function.Injective (epochVersion epoch) := by
  intro v w h
  unfold epochVersion at h
  split_ifs at h with hz
  · exact h
  · simpa using h

/-- **Where the two readers agree.** Both give the package if every string is there and neither the
name nor the architecture is empty. An absent string is empty for one reader and `(none)` for the
other. -/
theorem readers_agree_iff (lossy : Bytes → Text) (blob : Bytes) (tags : HeaderTags)
    (h : parseRpmHeader blob = .ok tags) (hname : (tags.lookup RpmTags.name).isSome = true)
    (htext : ∀ tag ∈ textTags, ∀ text ∈ firstString lossy tags tag, '\t' ∉ text) :
    (∃ package, parsePackageFromBlob lossy blob = .ok package ∧
        parseRpmQaLine (queryLine lossy tags) = .ok package) ↔
      firstString lossy tags RpmTags.name ≠ some [] ∧
        (firstString lossy tags RpmTags.version).isSome = true ∧
        (firstString lossy tags RpmTags.release).isSome = true ∧
        (firstString lossy tags RpmTags.summary).isSome = true ∧
        ∃ arch, firstString lossy tags RpmTags.arch = some arch ∧ arch ≠ [] := by
  have hep : epochOf tags < 2 ^ 32 := by
    unfold epochOf
    cases hda : tags.lookup epoch with
    | none => simp
    | some data => simpa [length_of_lookup_epoch h hda] using ofBigEndian_lt data
  have htab : ∀ tag ∈ textTags, '\t' ∉ printedString lossy tags tag := by
    intro tag hmem
    unfold printedString
    cases htag : firstString lossy tags tag with
    | none => decide
    | some text => exact htext tag hmem text htag
  simp only [parsePackageFromBlob_eq_ok h, parseRpmQaLine_queryLine_eq_ok hep htab]
  constructor
  · rintro ⟨_, ⟨hne, rfl⟩, har, heq⟩
    simp only [packageOf, InstalledPackage.mk.injEq, (epochVersion_injective _).eq_iff,
      printedString, getString, eq_comm] at heq
    obtain ⟨-, hver, hrls, har', hsum, -⟩ := heq
    refine ⟨fun hnil => hne (by simp [getString, hnil]), exists_text_of_getD_eq hver,
      exists_text_of_getD_eq hrls, exists_text_of_getD_eq hsum, ?_⟩
    obtain ⟨arch, hso⟩ := isSome_iff_exists.mp (exists_text_of_getD_eq har')
    exact ⟨arch, hso, by simpa [printedString, hso] using har⟩
  · rintro ⟨hne, hver, hrls, hsum, arch, har, har'⟩
    obtain ⟨data, hda⟩ := isSome_iff_exists.mp hname
    obtain ⟨ver, hver⟩ := isSome_iff_exists.mp hver
    obtain ⟨release, hrls⟩ := isSome_iff_exists.mp hrls
    obtain ⟨summ, hsum⟩ := isSome_iff_exists.mp hsum
    have hn' : firstString lossy tags name = some (lossy (data.takeWhile (· ≠ 0))) := by
      simp [firstString, hda]
    refine ⟨_, ⟨fun hnil => hne ?_, rfl⟩, ?_, ?_⟩
    · simpa [getString, hn'] using hnil
    · simpa [printedString, har] using har'
    · simp [packageOf, printedString, getString, hn', hver, hrls, hsum, har]

end

def asciiText (bytes : Bytes) : Text := bytes.map fun b => Char.ofNat b.toNat

def stringEntry (tag : ℕ) (b : UInt8) : HeaderEntry := ⟨tag, 6, 1, [b, 0]⟩

def fullHeader : Bytes := encodeHeader [stringEntry 1000 97, stringEntry 1001 49,
  stringEntry 1002 50, stringEntry 1004 98, stringEntry 1022 99]

theorem readers_agree_iff_of_full : ∃ tags, parseRpmHeader fullHeader = .ok tags ∧
      ∃ package, parsePackageFromBlob asciiText fullHeader = .ok package ∧
        parseRpmQaLine (queryLine asciiText tags) = .ok package := by
  refine ⟨[(1022, [99]), (1004, [98]), (1002, [50]), (1001, [49]), (1000, [97])], by decide, ?_⟩
  exact (readers_agree_iff asciiText _ _ (by decide) (by decide) (by decide)).mpr (by decide)

/-- A header with a name only: the version is empty for one reader, `(none)` for the other. -/
theorem readers_disagree_of_name_only :
    ∃ package package', parseRpmHeader (encodeHeader [stringEntry 1000 97]) = .ok [(1000, [97])] ∧
      parsePackageFromBlob asciiText (encodeHeader [stringEntry 1000 97]) = .ok package ∧
      parseRpmQaLine (queryLine asciiText [(1000, [97])]) = .ok package' ∧
      package.version = [] ∧ package'.version = "(none)".toList := by
  refine ⟨⟨['a'], [], [], [], [], .dependency⟩, ⟨['a'], "(none)", "(none)",
    "(none)", "(none)", .dependency⟩, ?_⟩
  decide

end Omg.Rpm
