import Omg.Security.AuditWriter

/-!
# The end of the audit log

The hash that the next entry has to name is read from a window at the end of the log. This is about
the content of a log: a valid log is the lines of a chain of entries, the window shows the last one
of them, and an entry can be appended to the chain.

Source: `src/core/security/audit.rs`, lines 684-760 and 846-920.
-/

namespace Omg.Security

open Control Text List

variable {json : JsonValues}

/-! ### Reading the lines of a log -/

section Reading

variable (reader : EntryReader json) (sha256 : Sha256) (paths : AuditPaths)

def readLine (line : Bytes) : Option (AuditEntry json) := (utf8Decode line).bind reader.entry

/-- `BufRead::lines` decodes every line. -/
def decodeLine (line : Bytes) : Except Text Text :=
  match utf8Decode line with
  | some text => .ok text
  | none => .error invalidUtf8Message

def storageOf (content : Bytes) : AuditStorage :=
  ⟨.ok (), .ok (), (byteLines content).map decodeLine, .ok ()⟩

def ValidContent (content : Bytes) : Prop :=
  ReportedValid sha256.digest reader.entry paths.log (storageOf content)

def TailVisible (content : Bytes) : Prop :=
  content = [] ∨ (tailWindow content).rdropWhile isLineEnd ≠ []

structure HasEntries (content : Bytes) (entries : List (AuditEntry json)) : Prop where
  lines : (byteLines content).map (readLine reader) = entries.map some
  chain : IsChain sha256.digest genesis entries

lemma toOption_decodeLine (line : Bytes) : (decodeLine line).toOption = utf8Decode line := by
  unfold decodeLine
  cases utf8Decode line <;> rfl

lemma validContent_iff {content : Bytes} : ValidContent reader sha256 paths content ↔
      ∃ entries, HasEntries reader sha256 content entries := by
  have hls : ((byteLines content).map decodeLine).map
      (fun line => line.toOption.bind reader.entry) =
        (byteLines content).map (readLine reader) := by
    rw [map_map]
    refine map_congr_left fun line _ => ?_
    rw [Function.comp_apply, toOption_decodeLine]
    rfl
  rw [ValidContent, storageOf, reportedValid_iff, hls]
  exact ⟨fun ⟨entries, h, hch⟩ => ⟨entries, h, hch⟩, fun ⟨entries, h⟩ => ⟨entries, h.1, h.2⟩⟩

variable {reader} {sha256}

lemma readLine_carriageReturn (line : Bytes) :
    readLine reader (line ++ [carriageReturn]) = readLine reader line := by
  have hcon := utf8Decode_concat (c := '\r') (by decide) line
  rw [readLine, readLine, show carriageReturn = UInt8.ofNat '\r'.toNat from rfl, hcon]
  cases utf8Decode line with
  | none => rfl
  | some text =>
    simp only [Option.map_some, Option.bind_some, EntryReader.entry, reader.parse_carriageReturn]

lemma readLine_nil : readLine reader [] = none := by
  have hdc : utf8Decode [] = some [] := utf8Decode_utf8 []
  rw [readLine, hdc, Option.bind_some, EntryReader.entry, reader.parse_nil]
  rfl

lemma readLine_eq_some {line : Bytes} {e : AuditEntry json} (h : readLine reader line = some e) :
    ∃ text std, utf8Decode line = some text ∧ reader.parse text = some std ∧
      std.toAuditEntry = e := by
  obtain ⟨text, htx, he⟩ := Option.bind_eq_some_iff.mp h
  obtain ⟨std, hstd, rfl⟩ := Option.map_eq_some_iff.mp he
  exact ⟨text, std, htx, hstd, rfl⟩

lemma StoredEntry.storedHash_eq_some {e : StoredEntry json} {hash : MemoryText} :
    e.storedHash = some hash ↔ e.hash = some hash.1 := by
  rw [StoredEntry.storedHash, Option.pmap_eq_some_iff]
  constructor
  · rintro ⟨t, ht, he, rfl⟩
    exact he
  · intro he
    exact ⟨hash.1, hash.2, he, rfl⟩

lemma lineHash_eq_ok {n : ℕ} {line : Bytes} {hash : MemoryText} :
    lineHash reader paths n line = .ok hash ↔
      ∃ e, readLine reader line = some e ∧ e.hash = some hash.1 := by
  unfold lineHash readLine
  cases utf8Decode line with
  | none => simp
  | some text =>
    simp only [Option.bind_some, EntryReader.entry]
    cases reader.parse text with
    | none => simp
    | some e =>
      simp only [Option.map_some, Option.some.injEq, exists_eq_left']
      rw [← StoredEntry.storedHash_eq_some]
      cases e.storedHash with
      | none => simp
      | some h => simp

end Reading

/-! ### The window at the end of the log -/

section Window

variable {reader : EntryReader json} {paths : AuditPaths}

structure LineInWindow (content : Bytes) : Prop where
  visible : (tailWindow content).rdropWhile isLineEnd ≠ []
  starts : tailStart content = 0 ∨ newline ∈ (tailWindow content).rdropWhile isLineEnd

variable {content : Bytes}

lemma rtakeWhile_tailWindow (h : LineInWindow content) :
    ((tailWindow content).rdropWhile isLineEnd).rtakeWhile (· ≠ newline) = lastLine content := by
  have hsp : content.take (tailStart content) ++ tailWindow content = content := take_append_drop ..
  have hbe : content.take (tailStart content) = [] ∨
      newline ∈ (tailWindow content).rdropWhile isLineEnd := by
    refine h.starts.imp_left fun hz => ?_
    rw [hz, take_zero]
  rw [lastLine_window h.visible hbe, hsp]

lemma LineInWindow.length_ne (h : LineInWindow content) : content.length ≠ 0 := by
  intro hnil
  obtain rfl := eq_nil_of_length_eq_zero hnil
  exact h.visible rfl

variable (reader paths) in
lemma lastHashOf_of_lineInWindow (h : LineInWindow content) :
    ∃ n, lastHashOf reader paths content = lineHash reader paths n (lastLine content) := by
  have hcut : ¬(0 < tailStart content ∧ newline ∉ (tailWindow content).rdropWhile isLineEnd) := by
    rintro ⟨hpos, hnot⟩
    exact h.starts.elim (fun hz => by omega) hnot
  refine ⟨lineNumber (tailStart content) ((tailWindow content).rdropWhile isLineEnd), ?_⟩
  rw [lastHashOf, if_neg h.length_ne, tailHash, if_neg h.visible, if_neg hcut,
    rtakeWhile_tailWindow h]

lemma lineInWindow_of_lastHashOf {hash : MemoryText} (hne : content ≠ [])
    (h : lastHashOf reader paths content = .ok hash) :
    LineInWindow content ∨ ¬TailVisible content ∧ hash = genesisHash := by
  rw [lastHashOf, if_neg (by simpa using hne), tailHash] at h
  by_cases hvis : (tailWindow content).rdropWhile isLineEnd = []
  · rw [if_pos hvis] at h
    exact .inr ⟨fun hvis' => hvis'.elim hne fun hne' => hne' hvis, (Except.ok.inj h).symm⟩
  · rw [if_neg hvis] at h
    by_cases hcut : 0 < tailStart content ∧
        newline ∉ (tailWindow content).rdropWhile isLineEnd
    · rw [if_pos hcut] at h
      cases h
    · refine .inl ⟨hvis, ?_⟩
      by_contra hst
      rw [not_or] at hst
      exact hcut ⟨Nat.pos_of_ne_zero hst.1, hst.2⟩

lemma suffix_tailWindow {pre last : Bytes} (h : last.length ≤ maxAuditEntryBytes + 2) :
    last <:+ tailWindow (pre ++ last) := by
  rw [tailWindow, tailStart, drop_append_of_le_length (by simp; omega)]
  exact suffix_append ..

lemma rdropWhile_ne_nil {b : UInt8} {s : Bytes} (hb : b ∈ s) (hend : isLineEnd b = false) :
    s.rdropWhile isLineEnd ≠ [] := by
  rw [Ne, rdropWhile_eq_nil_iff]
  intro hall
  rw [hall b hb] at hend
  cases hend

lemma mem_rdropWhile (ft : Bytes) (a : UInt8) {b : UInt8} {s : Bytes} (hb : b ∈ s)
    (hend : isLineEnd b = false) : a ∈ (ft ++ ([a] ++ s)).rdropWhile isLineEnd := by
  rw [← append_assoc, rdropWhile_append (rdropWhile_ne_nil hb hend)]
  simp

lemma lineInWindow_append {pre line rest : Bytes} (hbe : EndsLine pre)
    (hl : line ≠ []) (hpn : ∀ b ∈ line, isLineEnd b = false)
    (hr : rest = [] ∨ rest = [newline]) (hsz : line.length ≤ maxAuditEntryBytes) :
    LineInWindow (pre ++ line ++ rest) := by
  have hrestLength : rest.length ≤ 1 := by rcases hr with rfl | rfl <;> simp
  obtain ⟨b, hb⟩ := exists_mem_of_ne_nil line hl
  have hsf : line ++ rest <:+ tailWindow (pre ++ line ++ rest) := by
    rw [append_assoc]
    exact suffix_tailWindow (by simp; omega)
  refine ⟨rdropWhile_ne_nil (hsf.subset (by simp [hb])) (hpn b hb), ?_⟩
  rcases hbe with rfl | ⟨s, rfl⟩
  · refine .inl ?_
    rw [tailStart]
    simp
    omega
  · -- The newline in front of the line is in the window as well.
    refine .inr ?_
    have hwh : s ++ [newline] ++ line ++ rest = s ++ ([newline] ++ (line ++ rest)) := by simp
    have hsf' : [newline] ++ (line ++ rest) <:+ tailWindow (s ++ [newline] ++ line ++ rest) := by
      rw [hwh]
      exact suffix_tailWindow (by simp; omega)
    obtain ⟨ft, hft⟩ := hsf'
    rw [← hft]
    exact mem_rdropWhile ft newline (by simp [hb]) (hpn b hb)

end Window

/-! ### Written lines -/

section Lines

variable {reader : EntryReader json} {sha256 : Sha256}

variable (json sha256) in
lemma LogCall.isWritten_entry (call : LogCall) (ph : MemoryText) :
    (call.entry json sha256 ph).IsWritten := ⟨rfl, rfl, nofun⟩

lemma LogCall.verify_entry (call : LogCall) (ph : MemoryText) :
    (call.entry json sha256 ph).verify sha256.digest = true := by
  rw [AuditEntry.verify, Bool.and_eq_true, beq_iff_eq]
  exact ⟨rfl, rfl⟩

variable {e : StoredEntry json}

lemma readLine_line (he : e.IsWritten) : readLine reader e.line = some e.toAuditEntry := by
  rw [readLine, StoredEntry.line, utf8Decode_utf8, Option.bind_some, EntryReader.entry,
    reader.parse_toJson e he]
  rfl

lemma readLine_torn (he : e.IsWritten) {torn : Bytes} (h : torn <+: e.line)
    (hne : torn ≠ e.line) : readLine reader torn = none := by
  rw [readLine]
  cases hdc : utf8Decode torn with
  | none => rfl
  | some text =>
    rw [utf8Decode_eq_some_iff] at hdc
    subst hdc
    have hpx : text <+: e.toJson := isPrefix_of_utf8 h
    have htx : text ≠ e.toJson := fun heq => hne (by rw [heq]; rfl)
    rw [Option.bind_some, EntryReader.entry, reader.parse_torn e he text hpx htx]
    rfl

lemma printable_toJson (he : e.IsWritten) : Printable e.toJson := by
  refine printable_jsonObject ?_
  have hmet : e.renderedMetadata = none := by
    rw [AuditFields.renderedMetadata, he.metadata]
    rfl
  rw [AuditFields.members, hmet]
  intro m hm t ht
  simp only [Option.toList_none, map_nil, cons_append, nil_append, mem_cons, mem_map] at hm
  rcases hm with rfl | rfl | rfl | rfl | rfl | rfl | rfl | rfl | rfl | ⟨h, -, rfl⟩ <;> cases ht

lemma not_isLineEnd_of_le {b : UInt8} (h : 32 ≤ b.toNat) : isLineEnd b = false := by
  rw [isLineEnd, Bool.or_eq_false_iff, beq_eq_false_iff_ne, beq_eq_false_iff_ne]
  constructor
  · rintro rfl
    exact absurd h (by decide)
  · rintro rfl
    exact absurd h (by decide)

lemma not_isLineEnd_of_mem_line (he : e.IsWritten) {b : UInt8} (hb : b ∈ e.line) :
    isLineEnd b = false :=
  not_isLineEnd_of_le ((printable_toJson he).le_of_mem_utf8 hb)

lemma line_ne_nil (e : StoredEntry json) : e.line ≠ [] := by
  intro h
  have hlen := congrArg List.length h
  rw [StoredEntry.line, length_utf8, AuditFields.toJson, AuditFields.members, append_assoc,
    append_assoc, cons_append, jsonObject, byteLen_cons] at hlen
  have hbra : '\x7b'.utf8Size = 1 := by decide
  simp only [length_nil] at hlen
  omega

lemma byteLen_jsonMember_string_le {key : Text} (hkey : byteLen (jsonString key) ≤ 16)
    (val : Text) : byteLen (jsonMember (key, .string val)) ≤ 6 * byteLen val + 19 := by
  have hval := byteLen_jsonString_le val
  have hcol : ':'.utf8Size = 1 := by decide
  simp only [jsonMember, JsonScalar.render, byteLen_append, byteLen_cons]
  omega

lemma byteLen_wireName_le : (∀ e : AuditEventType, byteLen e.wireName ≤ 32) ∧
      ∀ s : AuditSeverity, byteLen s.wireName ≤ 32 := by
  constructor
  · intro e
    cases e <;> decide +kernel
  · intro s
    cases s <;> decide +kernel

lemma LogCall.length_line_le (call : LogCall) {ph : MemoryText} (hpr : byteLen ph.1 ≤ 64) :
    (call.entry json sha256 ph).line.length ≤ maxAuditEntryBytes := by
  have hks : ∀ key ∈ [keyId, keyTimestamp, keyEventType, keySeverity, keyUser, keyResource,
      keyDescription, keyPrevHash, keyHash], byteLen (jsonString key) ≤ 16 := by decide +kernel
  simp only [forall_mem_cons, not_mem_nil, false_imp_iff, implies_true, and_true] at hks
  obtain ⟨h₁, h₂, h₃, h₄, h₅, h₆, h₇, h₈, h₉⟩ := hks
  have hver : byteLen (jsonMember (keyHashVersion, .number 1)) ≤ 20 := by decide +kernel
  have hid := byteLen_jsonMember_string_le h₁ call.id
  have hts := byteLen_jsonMember_string_le h₂ call.timestamp
  have heve := byteLen_jsonMember_string_le h₃ call.event.wireName
  have hsev := byteLen_jsonMember_string_le h₄ call.severity.wireName
  have hus := byteLen_jsonMember_string_le h₅ (boundedAuditField (call.user.getD "unknown"))
  have hres := byteLen_jsonMember_string_le h₆ (boundedAuditField call.resource)
  have hde := byteLen_jsonMember_string_le h₇ (boundedAuditField call.description)
  have hprevHash := byteLen_jsonMember_string_le h₈ ph.1
  have hha := byteLen_jsonMember_string_le h₉ ((call.unsealed json ph).computeHash sha256.digest)
  have hse := byteLen_computeHash sha256 (call.unsealed json ph)
  have hid' := call.id_le
  have hts' := call.timestamp_le
  have heve' := byteLen_wireName_le.1 call.event
  have hsev' := byteLen_wireName_le.2 call.severity
  have hus' := byteLen_boundedAuditField_le (call.user.getD "unknown")
  have hres' := byteLen_boundedAuditField_le call.resource
  have hde' := byteLen_boundedAuditField_le call.description
  have hbra : '\x7b'.utf8Size = 1 ∧ '\x7d'.utf8Size = 1 ∧ ','.utf8Size = 1 := by decide
  obtain ⟨hop, hcl, hcom⟩ := hbra
  have hms : (call.entry json sha256 ph).members =
      [(keyId, .string call.id), (keyTimestamp, .string call.timestamp),
        (keyEventType, .string call.event.wireName), (keySeverity, .string call.severity.wireName),
        (keyUser, .string (boundedAuditField (call.user.getD "unknown"))),
        (keyResource, .string (boundedAuditField call.resource)),
        (keyDescription, .string (boundedAuditField call.description)),
        (keyPrevHash, .string ph.1), (keyHashVersion, .number 1),
        (keyHash, .string ((call.unsealed json ph).computeHash sha256.digest))] := rfl
  have hnil : byteLen [] = 0 := rfl
  rw [StoredEntry.line, length_utf8, AuditFields.toJson, hms, jsonObject]
  simp only [flatMap_cons, flatMap_nil, byteLen_cons, byteLen_append]
  unfold maxAuditFieldBytes at hus' hres' hde'
  unfold maxAuditEntryBytes
  omega

end Lines

/-! ### The tip of the chain -/

section Tip

variable {reader : EntryReader json} {sha256 : Sha256} {paths : AuditPaths} {content : Bytes}
  {entries : List (AuditEntry json)}

def tipHash (sha256 : Sha256) (entries : List (AuditEntry json)) : Text :=
  Codec.tip (fun e => e.computeHash sha256.digest) genesis entries

lemma hasEntries_nil : HasEntries reader sha256 [] [] := ⟨rfl, nofun, trivial⟩

lemma HasEntries.eq_nil_iff (h : HasEntries reader sha256 content entries) :
    content = [] ↔ entries = [] := by
  have hlen := congrArg List.length h.lines
  rw [length_map, length_map] at hlen
  constructor
  · rintro rfl
    exact eq_nil_of_length_eq_zero hlen.symm
  · rintro rfl
    by_contra hne
    exact byteLines_ne_nil hne (eq_nil_of_length_eq_zero hlen)

lemma HasEntries.readLine_lastLine {e : AuditEntry json}
    (h : HasEntries reader sha256 content (entries ++ [e])) :
    readLine reader (lastLine content) = some e := by
  have hls := h.lines
  rcases eq_nil_or_concat' (byteLines content) with hnil | ⟨lns, last, hla⟩
  · rw [hnil] at hls
    simp at hls
  rw [hla, map_append, map_append] at hls
  obtain ⟨-, hrd⟩ := append_inj' hls rfl
  have hrd : readLine reader last = some e := singleton_inj.mp hrd
  rw [apply_lastLine readLine_carriageReturn hla (by rw [hrd, readLine_nil]; nofun), hrd]

lemma HasEntries.lastHashOf_eq_ok {e : AuditEntry json}
    (h : HasEntries reader sha256 content (entries ++ [e])) (hwi : LineInWindow content)
    {hash : MemoryText} : lastHashOf reader paths content = .ok hash ↔ e.hash = some hash.1 := by
  obtain ⟨n, hn⟩ := lastHashOf_of_lineInWindow reader paths hwi
  rw [hn, lineHash_eq_ok, h.readLine_lastLine]
  simp

lemma lastHashOf_of_entries (h : HasEntries reader sha256 content entries)
    (hvis : TailVisible content) {hash : MemoryText}
    (hok : lastHashOf reader paths content = .ok hash) : hash.1 = tipHash sha256 entries := by
  rcases eq_nil_or_concat' entries with rfl | ⟨entries, e, rfl⟩
  · obtain rfl := h.eq_nil_iff.mpr rfl
    cases hok
    rfl
  have hne : content ≠ [] := fun hnil => by simpa using h.eq_nil_iff.mp hnil
  have hwi : LineInWindow content :=
    (lineInWindow_of_lastHashOf hne hok).resolve_right fun hnot => hnot.1 hvis
  have hha := (h.lastHashOf_eq_ok hwi).mp hok
  rw [AuditEntry.hash_of_verify (h.chain.verified e (by simp)), Option.some.injEq] at hha
  rw [tipHash, Codec.tip_concat, hha]

lemma HasEntries.newline (h : HasEntries reader sha256 content entries)
    (hc : ¬EndsLine content) : HasEntries reader sha256 (content ++ [newline]) entries :=
  ⟨(map_byteLines_newline readLine_carriageReturn hc).trans h.lines, h.chain⟩

variable {e : StoredEntry json} {rest : Bytes}

lemma lines_append_line (he : e.IsWritten) (hc : EndsLine content)
    (hr : rest = [] ∨ rest = [newline]) :
    (byteLines (content ++ e.line ++ rest)).map (readLine reader) =
      (byteLines content).map (readLine reader) ++ [some e.toAuditEntry] := by
  have hpn : newline ∉ e.line := by
    intro hmem
    have hend := not_isLineEnd_of_mem_line he hmem
    cases hend
  have hl : (byteLines (e.line ++ rest)).map (readLine reader) = [some e.toAuditEntry] := by
    rcases hr with rfl | rfl
    · rw [append_nil, byteLines_of_notMem (line_ne_nil e) hpn, map_singleton, readLine_line he]
    · rw [byteLines_line hpn, map_singleton,
        apply_stripCarriageReturn readLine_carriageReturn, readLine_line he]
  rw [append_assoc, byteLines_append hc, map_append, hl]

lemma HasEntries.append (h : HasEntries reader sha256 content entries) (hc : EndsLine content)
    (he : e.IsWritten) (hvf : e.verify sha256.digest = true)
    (hpr : e.prevHash = tipHash sha256 entries) (hr : rest = [] ∨ rest = [Text.newline]) :
    HasEntries reader sha256 (content ++ e.line ++ rest) (entries ++ [e.toAuditEntry]) := by
  refine ⟨?_, ?_, ?_⟩
  · rw [lines_append_line he hc hr, h.lines, map_append]
    rfl
  · intro d hd
    rcases mem_append.mp hd with hd | hd
    · exact h.chain.verified d hd
    · rw [mem_singleton.mp hd]
      exact hvf
  · rw [Codec.linked_concat]
    exact ⟨h.chain.linked, hpr⟩

lemma HasEntries.prevHash_of_append (h : HasEntries reader sha256 content entries)
    (hc : EndsLine content) (he : e.IsWritten) (hr : rest = [] ∨ rest = [Text.newline])
    {es' : List (AuditEntry json)} (h' : HasEntries reader sha256 (content ++ e.line ++ rest) es') :
    e.prevHash = tipHash sha256 entries := by
  have hls := h'.lines
  rw [lines_append_line he hc hr, h.lines] at hls
  have hes : entries ++ [e.toAuditEntry] = es' := by
    refine map_injective_iff.mpr (Option.some_injective _) ?_
    rw [← hls, map_append]
    rfl
  have hlk := h'.chain.linked
  rw [← hes, Codec.linked_concat] at hlk
  exact hlk.2

lemma lastHashOf_torn (hc : EndsLine content) (he : e.IsWritten)
    (hsz : e.line.length ≤ maxAuditEntryBytes) {torn : Bytes} (hto : torn <+: e.line)
    (hne : torn ≠ e.line) (hnil : torn ≠ []) (hash : MemoryText) :
    lastHashOf reader paths (content ++ torn) ≠ .ok hash := by
  have hpn : ∀ b ∈ torn, isLineEnd b = false := fun b hb =>
    not_isLineEnd_of_mem_line he (hto.subset hb)
  have hwi : LineInWindow (content ++ torn ++ []) :=
    lineInWindow_append hc hnil hpn (.inl rfl) (hto.length_le.trans hsz)
  have hk : torn.rdropWhile isLineEnd = torn := by
    rw [rdropWhile_eq_self_iff]
    intro hl
    rw [hpn _ (getLast_mem hl)]
    nofun
  have hnew : newline ∉ torn := fun hmem => by cases hpn _ hmem
  have hla : lastLine (content ++ torn ++ []) = torn := by
    rw [lastLine_eq hc hnew (by rwa [hk]) (by simp), hk]
  rw [append_nil] at hwi hla
  obtain ⟨n, hn⟩ := lastHashOf_of_lineInWindow reader paths hwi
  rw [hn, hla, Ne, lineHash_eq_ok, readLine_torn he hto hne]
  rintro ⟨d, hd, -⟩
  cases hd

lemma mem_tailWindow_concat {b b' : UInt8} (hne : b ≠ b') (hb : b ∈ tailWindow content)
    (hb' : b' ∈ tailWindow content) (x : UInt8) :
    b ∈ tailWindow (content ++ [x]) ∨ b' ∈ tailWindow (content ++ [x]) := by
  have hsub : (tailWindow content).tail ⊆ tailWindow (content ++ [x]) := by
    intro a ha
    rw [tailWindow, tail_drop] at ha
    have hle : tailStart (content ++ [x]) ≤ tailStart content + 1 := by
      simp only [tailStart, length_append, length_singleton]
      omega
    refine (drop_subset_drop_left _ hle) ?_
    rw [drop_append]
    exact mem_append_left _ ha
  cases hwi : tailWindow content with
  | nil =>
    rw [hwi] at hb
    cases hb
  | cons a window =>
    rw [hwi] at hb hb' hsub
    rcases mem_cons.mp hb with rfl | hb
    · exact .inr (hsub ((mem_cons.mp hb').resolve_left (Ne.symm hne)))
    · exact .inl (hsub hb)

lemma HasEntries.tailVisible_newline (h : HasEntries reader sha256 content entries)
    (hwi : LineInWindow content) : TailVisible (content ++ [Text.newline]) := by
  rcases eq_nil_or_concat' entries with rfl | ⟨entries, e, rfl⟩
  · obtain rfl := h.eq_nil_iff.mpr rfl
    exact absurd rfl hwi.visible
  obtain ⟨text, std, htx, hpr, -⟩ := readLine_eq_some h.readLine_lastLine
  have hmem : ∀ {c : Char}, c.toNat < 128 → c ∈ text →
      UInt8.ofNat c.toNat ∈ tailWindow content := by
    intro c hc hct
    have hla : UInt8.ofNat c.toNat ∈ lastLine content := by
      rw [← utf8Decode_eq_some_iff.mp htx]
      refine mem_flatMap.mpr ⟨c, hct, ?_⟩
      rw [encode_of_toNat_lt hc]
      exact mem_singleton_self _
    rw [← rtakeWhile_tailWindow hwi] at hla
    exact mem_of_mem_rdropWhile ((rtakeWhile_suffix _ _).subset hla)
  have hvis : ∀ {b b' : UInt8}, b ≠ b' → isLineEnd b = false → isLineEnd b' = false →
      b ∈ tailWindow content → b' ∈ tailWindow content →
      TailVisible (content ++ [Text.newline]) := by
    intro b b' hne hb hb' hin hin'
    rcases mem_tailWindow_concat hne hin hin' Text.newline with hmem | hmem
    · exact .inr (rdropWhile_ne_nil hmem hb)
    · exact .inr (rdropWhile_ne_nil hmem hb')
  rcases reader.parse_brackets hpr with ⟨hop, hcl⟩ | ⟨hop, hcl⟩
  · exact hvis (by decide) (by decide) (by decide) (hmem (by decide) hop) (hmem (by decide) hcl)
  · exact hvis (by decide) (by decide) (by decide) (hmem (by decide) hop) (hmem (by decide) hcl)

lemma byteLen_tipHash_le (sha256 : Sha256) (entries : List (AuditEntry json)) :
    byteLen (tipHash sha256 entries) ≤ 64 := by
  rcases eq_nil_or_concat' entries with rfl | ⟨entries, e, rfl⟩
  · have hgen : byteLen genesis ≤ 64 := by decide +kernel
    exact hgen
  · rw [tipHash, Codec.tip_concat, LogCall.byteLen_computeHash]

end Tip

end Omg.Security
