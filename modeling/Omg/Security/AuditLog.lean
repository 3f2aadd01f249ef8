import Omg.Codec.Framing
import Omg.Control.Except
import Omg.Text.Utf8

/-!
# The audit chain

Every entry of the audit log carries its own hash and the hash of the entry before it. The hash is
SHA-256 of nine fields, each with its length in front, so that no edit can move text from one field
to the next. Entries of older logs are hashed without the lengths.

Verifying a log reads it line by line and reports whether every line is an entry with a correct hash
that continues the chain.

The JSON reader is a parameter, and so are JSON values; what is assumed is that the compact text of
a value is not empty. What the operating system answers is arbitrary.

Source: `src/core/security/audit.rs`, `docs/under-the-hood.md`.
-/

namespace Omg.Security

open List Text Function Control Option Codec

/-! ### Entries -/

/-- `AuditEventType`. -/
inductive AuditEventType
  | packageInstall
  | packageRemove
  | packageUpgrade
  | packageDowngrade
  | securityAudit
  | vulnerabilityDetected
  | signatureVerified
  | signatureFailed
  | policyViolation
  | policyChanged
  | configChanged
  | daemonStarted
  | daemonStopped
  | sbomGenerated
  | sbomExported
  deriving DecidableEq, Repr

namespace AuditEventType

def all : List AuditEventType :=
  [packageInstall, packageRemove, packageUpgrade, packageDowngrade, securityAudit,
    vulnerabilityDetected, signatureVerified, signatureFailed, policyViolation, policyChanged,
    configChanged, daemonStarted, daemonStopped, sbomGenerated, sbomExported]

/-- The derived `Debug` text of an event type. -/
def debugName : AuditEventType → Text
  | packageInstall => "PackageInstall"
  | packageRemove => "PackageRemove"
  | packageUpgrade => "PackageUpgrade"
  | packageDowngrade => "PackageDowngrade"
  | securityAudit => "SecurityAudit"
  | vulnerabilityDetected => "VulnerabilityDetected"
  | signatureVerified => "SignatureVerified"
  | signatureFailed => "SignatureFailed"
  | policyViolation => "PolicyViolation"
  | policyChanged => "PolicyChanged"
  | configChanged => "ConfigChanged"
  | daemonStarted => "DaemonStarted"
  | daemonStopped => "DaemonStopped"
  | sbomGenerated => "SbomGenerated"
  | sbomExported => "SbomExported"

lemma find?_debugName (e : AuditEventType) :
    all.find? (fun d => debugName d == debugName e) = some e := by
  cases e <;> decide +kernel

lemma debugName_injective : Injective debugName := by
  intro d e h
  have hfn := find?_debugName d
  rw [h, find?_debugName e] at hfn
  exact (some.inj hfn).symm

end AuditEventType

/-- `AuditSeverity`. -/
inductive AuditSeverity
  | debug
  | info
  | warning
  | error
  | critical
  deriving DecidableEq, Repr

namespace AuditSeverity

def all : List AuditSeverity := [debug, info, warning, error, critical]

/-- The derived `Debug` text of a severity. -/
def debugName : AuditSeverity → Text
  | debug => "Debug"
  | info => "Info"
  | warning => "Warning"
  | error => "Error"
  | critical => "Critical"

lemma find?_debugName (s : AuditSeverity) :
    all.find? (fun t => debugName t == debugName s) = some s := by
  cases s <;> decide +kernel

lemma debugName_injective : Injective debugName := by
  intro s t h
  have hfn := find?_debugName s
  rw [h, find?_debugName t] at hfn
  exact (some.inj hfn).symm

end AuditSeverity

structure JsonValues where
  Value : Type
  toText : Value → Text
  toText_ne_nil : ∀ value, toText value ≠ []

structure AuditFields (json : JsonValues) where
  id : Text
  timestamp : Text
  eventType : AuditEventType
  severity : AuditSeverity
  user : Text
  resource : Text
  description : Text
  metadata : Option json.Value
  prevHash : Text
  hashVersion : UInt8
  hash : Option Text

variable {json : JsonValues}

namespace AuditFields

def renderedMetadata (e : AuditFields json) : Option Text := e.metadata.map json.toText

def texts (e : AuditFields json) : List Text :=
  [e.id, e.timestamp, e.eventType.debugName, e.severity.debugName, e.user, e.resource,
    e.description, e.renderedMetadata.getD [], e.prevHash]

end AuditFields

/-- An entry of the audit log. No string in memory has `2 ^ 64` bytes or more. -/
structure AuditEntry (json : JsonValues) extends AuditFields json where
  bounded : ∀ text ∈ toAuditFields.texts, (utf8 text).length < 2 ^ 64

/-- `HASH_VERSION_LEGACY`. -/
def hashVersionLegacy : UInt8 := 0

/-- `HASH_VERSION_LENGTH_PREFIXED`. -/
def hashVersionLengthPrefixed : UInt8 := 1

/-- `update_length_prefixed`: the bytes given to the hasher. The length saturates. -/
def lengthPrefixed (bytes : Bytes) : Bytes :=
  Codec.bigEndian 8 (min bytes.length (2 ^ 64 - 1)) ++ bytes

namespace AuditEntry

/-- The bytes that `compute_hash` gives to the hasher. -/
def preimage (e : AuditEntry json) : Bytes :=
  if e.hashVersion = hashVersionLegacy then e.texts.flatMap utf8
  else
    -- The first byte is not valid UTF-8, so no preimage of the legacy encoding starts like this.
    [0xff, e.hashVersion] ++
      e.texts.flatMap fun text => lengthPrefixed (utf8 text)

/-- `AuditEntry::compute_hash`. -/
def computeHash (sha256 : Bytes → Bytes) (e : AuditEntry json) : Text :=
  hexEncode (sha256 e.preimage)

/-- `AuditEntry::verify`. -/
def verify (sha256 : Bytes → Bytes) (e : AuditEntry json) : Bool :=
  e.hashVersion ≤ hashVersionLengthPrefixed && e.hash == some (e.computeHash sha256)

end AuditEntry

open AuditEntry

/-! ### Verifying a log -/

inductive AuditError
  | open (path source : Text)
  | read (path source : Text)
  | unlock (path source : Text)
  deriving DecidableEq, Repr

structure AuditStorage where
  lock : Except AuditError Unit
  openLog : Except AuditError Unit
  lines : List (Except Text Text)
  unlock : Except AuditError Unit

/-- `AuditIntegrityReport`. -/
structure AuditIntegrityReport where
  totalEntries : ℕ
  validEntries : ℕ
  chainValid : Bool
  firstInvalidEntry : Option Text
  logPath : Text
  deriving DecidableEq, Repr

open AuditIntegrityReport

/-- `AuditIntegrityReport::is_valid`. -/
def AuditIntegrityReport.isValid (report : AuditIntegrityReport) : Bool :=
  report.chainValid && report.totalEntries == report.validEntries

def genesis : Text := "genesis"

/-- The local variables of `verify_integrity_unlocked`. -/
structure Tally where
  totalEntries : ℕ
  validEntries : ℕ
  legacyEntries : ℕ
  chainValid : Bool
  expectedPrevHash : Text
  firstInvalid : Option Text

namespace Tally

def start : Tally := ⟨0, 0, 0, true, genesis, none⟩

def noteInvalid (t : Tally) (name : Text) : Tally :=
  { t with firstInvalid := t.firstInvalid <|> some name }

def checkHash (sha256 : Bytes → Bytes) (e : AuditEntry json) (t : Tally) : Tally :=
  if e.verify sha256 then
    { t with
      validEntries := t.validEntries + 1
      legacyEntries := t.legacyEntries + if e.hashVersion = hashVersionLegacy then 1 else 0 }
  else t.noteInvalid e.id

def checkLink (e : AuditEntry json) (t : Tally) : Tally :=
  if e.prevHash = t.expectedPrevHash then t
  else { t with chainValid := false }.noteInvalid e.id

def expectHash (e : AuditEntry json) (t : Tally) : Tally :=
  { t with expectedPrevHash := e.hash.getD t.expectedPrevHash }

def observe (sha256 : Bytes → Bytes) (t : Tally) : Option (AuditEntry json) → Tally
  | some e => ((t.checkHash sha256 e).checkLink e).expectHash e
  | none =>
      { t with chainValid := false }.noteInvalid ("line_" ++ decimal t.totalEntries)

def countLine (t : Tally) : Tally := { t with totalEntries := t.totalEntries + 1 }

def report (t : Tally) (logPath : Text) : AuditIntegrityReport :=
  ⟨t.totalEntries, t.validEntries, t.chainValid, t.firstInvalid, logPath⟩

end Tally

section

variable (sha256 : Bytes → Bytes) (parse : Text → Option (AuditEntry json)) (logPath : Text)

def verifyLine (t : Tally) : Except Text Text → Except AuditError Tally
  | .error source => .error (.read logPath source)
  | .ok line => .ok (t.countLine.observe sha256 (parse line))

/-- `verify_integrity_unlocked`. -/
def verifyIntegrityUnlocked (storage : AuditStorage) : Except AuditError AuditIntegrityReport := do
  storage.openLog
  let t ← storage.lines.foldlM (verifyLine sha256 parse logPath) Tally.start
  return t.report logPath

/-- `with_audit_read_lock`: an error of the operation is returned before one of unlocking. -/
def withAuditReadLock {α : Type} (storage : AuditStorage) (operation : Except AuditError α) :
    Except AuditError α := do
  storage.lock
  let value ← operation
  storage.unlock
  return value

/-- `AuditLogger::verify_integrity`. -/
def verifyIntegrity (storage : AuditStorage) : Except AuditError AuditIntegrityReport :=
  withAuditReadLock storage (verifyIntegrityUnlocked sha256 parse logPath storage)

def ReportedValid (storage : AuditStorage) : Prop :=
  ∃ report, verifyIntegrity sha256 parse logPath storage = .ok report ∧ report.isValid = true

end

def entriesOf (parse : Text → Option (AuditEntry json)) (lines : List (Except Text Text)) :
    List (AuditEntry json) :=
  lines.filterMap fun line => line.toOption.bind parse

/-! ### The hash of an entry -/

structure AuditEntry.SameRecord (a b : AuditEntry json) : Prop where
  id : a.id = b.id
  timestamp : a.timestamp = b.timestamp
  eventType : a.eventType = b.eventType
  severity : a.severity = b.severity
  user : a.user = b.user
  resource : a.resource = b.resource
  description : a.description = b.description
  renderedMetadata : a.renderedMetadata = b.renderedMetadata
  prevHash : a.prevHash = b.prevHash

lemma lengthPrefixed_eq_framed {bs : Bytes} (h : bs.length < 2 ^ 64) :
    lengthPrefixed bs = framed bs := by
  rw [lengthPrefixed, framed, Nat.min_eq_left (by omega)]

lemma AuditEntry.length_of_mem_map_utf8 (e : AuditEntry json) :
    ∀ bs ∈ e.texts.map utf8, bs.length < 2 ^ 64 := by
  rintro _ hby
  obtain ⟨text, htx, rfl⟩ := mem_map.mp hby
  exact e.bounded text htx

variable {e a b : AuditEntry json} {sha256 : Bytes → Bytes}

lemma AuditEntry.preimage_eq (h : e.hashVersion = 1) :
    e.preimage = [0xff, 1] ++ (e.texts.map utf8).flatMap framed := by
  have hfra : (e.texts.map fun text => lengthPrefixed (utf8 text)) =
      e.texts.map fun text => framed (utf8 text) :=
    map_congr_left fun text htx => lengthPrefixed_eq_framed (e.bounded text htx)
  rw [preimage, if_neg (by rw [h]; decide), h, flatMap_def, hfra, flatMap_map, flatMap_def]

lemma AuditFields.renderedMetadata_ne_nil (e : AuditFields json) :
    e.renderedMetadata ≠ some [] := by
  intro h
  obtain ⟨val, -, hval⟩ := map_eq_some_iff.mp h
  exact json.toText_ne_nil val hval

lemma AuditFields.renderedMetadata_inj {a b : AuditFields json}
    (h : a.renderedMetadata.getD [] = b.renderedMetadata.getD []) :
    a.renderedMetadata = b.renderedMetadata := by
  cases ha : a.renderedMetadata with
  | none =>
    cases hb : b.renderedMetadata with
    | none => rfl
    | some text =>
      rw [ha, hb, getD_none] at h
      exact absurd (h ▸ hb) b.renderedMetadata_ne_nil
  | some text =>
    cases hb : b.renderedMetadata with
    | none =>
      rw [ha, hb, getD_none] at h
      exact absurd (h ▸ ha) a.renderedMetadata_ne_nil
    | some text' =>
      rw [ha, hb, getD_some, getD_some] at h
      rw [h]

lemma sameRecord_of_texts (h : a.texts = b.texts) : a.SameRecord b := by
  simp only [AuditFields.texts, List.cons.injEq, and_true] at h
  obtain ⟨hid, hts, heve, hsev, hus, hres, hde, hmet, hpr⟩ := h
  exact ⟨hid, hts, AuditEventType.debugName_injective heve,
    AuditSeverity.debugName_injective hsev, hus, hres, hde,
    AuditFields.renderedMetadata_inj hmet, hpr⟩

lemma AuditEntry.texts_of_preimage (ha : a.hashVersion = 1) (hb : b.hashVersion = 1)
    (h : a.preimage = b.preimage) : a.texts = b.texts := by
  rw [preimage_eq ha, preimage_eq hb] at h
  have hby := flatMap_framed_inj (by simp [AuditFields.texts]) a.length_of_mem_map_utf8
    b.length_of_mem_map_utf8 (append_cancel_left h)
  exact map_injective_iff.mpr utf8_injective hby

lemma AuditEntry.ff_notMem_preimage (h : e.hashVersion = 0) : (0xff : UInt8) ∉ e.preimage := by
  rw [preimage, if_pos (show e.hashVersion = hashVersionLegacy from h)]
  intro hmem
  obtain ⟨text, -, htx⟩ := mem_flatMap.mp hmem
  exact ff_notMem_utf8 text htx

/-- **The encodings are separated.** Entries of the current encoding with the same preimage have the
same nine texts, and no entry of the current encoding has the preimage of a legacy entry. -/
theorem preimage_separates :
    (∀ a b : AuditEntry json, a.hashVersion = 1 → b.hashVersion = 1 → a.preimage = b.preimage →
      a.texts = b.texts) ∧
    ∀ a b : AuditEntry json, a.hashVersion = 1 → b.hashVersion = 0 → a.preimage ≠ b.preimage := by
  refine ⟨fun a b ha hb h => texts_of_preimage ha hb h, fun a b ha hb h => ?_⟩
  refine ff_notMem_preimage hb ?_
  rw [← h, preimage_eq ha]
  exact mem_cons_self

lemma sameRecord_of_computeHash (hsha256 : Injective sha256) (ha : a.hashVersion = 1)
    (hb : b.hashVersion = 1) (h : a.computeHash sha256 = b.computeHash sha256) :
    a.SameRecord b := by
  have hpre : a.preimage = b.preimage := hsha256 (hexEncode_injective h)
  exact sameRecord_of_texts (texts_of_preimage ha hb hpre)

/-- A hexadecimal text has no `g`. -/
lemma computeHash_ne_genesis (e : AuditEntry json) : e.computeHash sha256 ≠ genesis := by
  intro h
  have hmem : 'g' ∈ e.computeHash sha256 := by
    rw [h]
    decide
  exact absurd (isAsciiHexdigit_of_mem_hexEncode hmem) (by decide)

lemma AuditEntry.hash_of_verify (h : e.verify sha256) : e.hash = some (e.computeHash sha256) := by
  rw [verify, Bool.and_eq_true, beq_iff_eq] at h
  exact h.2

/-! ### The report on a log -/

namespace Tally

variable (t : Tally) (e : AuditEntry json)

@[simp] lemma totalEntries_checkHash : (t.checkHash sha256 e).totalEntries = t.totalEntries := by
  unfold checkHash
  split_ifs <;> rfl

@[simp] lemma validEntries_checkHash :
    (t.checkHash sha256 e).validEntries = t.validEntries + if e.verify sha256 then 1 else 0 := by
  unfold checkHash
  split_ifs <;> rfl

@[simp] lemma chainValid_checkHash : (t.checkHash sha256 e).chainValid = t.chainValid := by
  unfold checkHash
  split_ifs <;> rfl

@[simp] lemma expectedPrevHash_checkHash :
    (t.checkHash sha256 e).expectedPrevHash = t.expectedPrevHash := by
  unfold checkHash
  split_ifs <;> rfl

@[simp] lemma totalEntries_checkLink : (t.checkLink e).totalEntries = t.totalEntries := by
  unfold checkLink
  split_ifs <;> rfl

@[simp] lemma validEntries_checkLink : (t.checkLink e).validEntries = t.validEntries := by
  unfold checkLink
  split_ifs <;> rfl

@[simp] lemma chainValid_checkLink : (t.checkLink e).chainValid ↔
      t.chainValid ∧ e.prevHash = t.expectedPrevHash := by
  unfold checkLink
  split_ifs with hli <;> simp [hli, noteInvalid]

@[simp] lemma expectedPrevHash_checkLink :
    (t.checkLink e).expectedPrevHash = t.expectedPrevHash := by
  unfold checkLink
  split_ifs <;> rfl

variable (sha256) in
lemma observe_some : (t.countLine.observe sha256 (some e)).totalEntries = t.totalEntries + 1 ∧
    (t.countLine.observe sha256 (some e)).validEntries =
      t.validEntries + (if e.verify sha256 then 1 else 0) ∧
    ((t.countLine.observe sha256 (some e)).chainValid ↔
      t.chainValid ∧ e.prevHash = t.expectedPrevHash) ∧
    (t.countLine.observe sha256 (some e)).expectedPrevHash = e.hash.getD t.expectedPrevHash := by
  simp [observe, expectHash, countLine]

end Tally

/-- Each entry has the hash that is computed for it and names the hash of the entry before it. -/
structure IsChain (sha256 : Bytes → Bytes) (start : Text) (entries : List (AuditEntry json)) :
    Prop where
  verified : ∀ e ∈ entries, e.verify sha256 = true
  linked : Codec.Linked (fun e => e.computeHash sha256) (fun e => e.prevHash) start entries

section

variable {parse : Text → Option (AuditEntry json)} {logPath : Text}
  {lines : List (Except Text Text)}

lemma isChain_of_foldlM {t t' : Tally} (hco : t.validEntries ≤ t.totalEntries)
    (hfd : lines.foldlM (verifyLine sha256 parse logPath) t = .ok t')
    (hch : t'.chainValid) (hall : t'.totalEntries = t'.validEntries) :
    t.chainValid ∧ t.totalEntries = t.validEntries ∧
      lines.length = (entriesOf parse lines).length ∧
      IsChain sha256 t.expectedPrevHash (entriesOf parse lines) := by
  induction lines generalizing t with
  | nil =>
    cases hfd
    exact ⟨hch, hall, rfl, by simp [entriesOf], trivial⟩
  | cons line lines ih =>
    obtain ⟨next, hnx, hfd⟩ := bind_eq_ok.mp hfd
    cases line with
    | error src => cases hnx
    | ok line =>
      cases hnx
      cases hpr : parse line with
      | none =>
        rw [hpr] at hfd
        obtain ⟨hbr, -⟩ := ih (Nat.le_succ_of_le hco) hfd
        cases hbr
      | some e =>
        rw [hpr] at hfd
        obtain ⟨htot, hv, hli, hexp⟩ := t.observe_some sha256 e
        obtain ⟨hsti, hequ, hlen, hr⟩ := ih (by split_ifs at hv <;> omega) hfd
        have hvf : e.verify sha256 = true := by
          by_contra hnot
          rw [if_neg hnot] at hv
          omega
        rw [if_pos hvf] at hv
        rw [hexp, hash_of_verify hvf, getD_some] at hr
        have hcn : entriesOf parse (.ok line :: lines) = e :: entriesOf parse lines :=
          filterMap_cons_some hpr
        rw [hcn, length_cons, hlen]
        obtain ⟨hbe, hprv⟩ := hli.mp hsti
        exact ⟨hbe, by omega, rfl, forall_mem_cons.mpr ⟨hvf, hr.verified⟩, hprv, hr.linked⟩

lemma isChain_of_reportedValid {storage : AuditStorage}
    (h : ReportedValid sha256 parse logPath storage) :
    storage.lines.length = (entriesOf parse storage.lines).length ∧
      IsChain sha256 genesis (entriesOf parse storage.lines) := by
  obtain ⟨rpt, hrun, hv⟩ := h
  obtain ⟨_, -, hrun⟩ := bind_eq_ok.mp hrun
  obtain ⟨_, hvf, hrun⟩ := bind_eq_ok.mp hrun
  obtain ⟨_, -, hret⟩ := bind_eq_ok.mp hrun
  cases hret
  obtain ⟨_, -, hvf⟩ := bind_eq_ok.mp hvf
  obtain ⟨t, hfd, hrep⟩ := bind_eq_ok.mp hvf
  cases hrep
  rw [isValid, Bool.and_eq_true, beq_iff_eq] at hv
  exact (isChain_of_foldlM (le_refl _) hfd hv.1 hv.2).2.2

variable (logPath) in
lemma foldlM_of_isChain {es : List (AuditEntry json)} {t : Tally}
    (hls : lines.map (fun line => line.toOption.bind parse) = es.map some)
    (hch : IsChain sha256 t.expectedPrevHash es) (hv : t.chainValid)
    (hco : t.totalEntries = t.validEntries) :
    ∃ t', lines.foldlM (verifyLine sha256 parse logPath) t = .ok t' ∧ t'.chainValid ∧
      t'.totalEntries = t'.validEntries := by
  induction lines generalizing t es with
  | nil => exact ⟨t, rfl, hv, hco⟩
  | cons line lines ih =>
    cases es with
    | nil => cases hls
    | cons e es =>
      rw [map_cons, map_cons, List.cons.injEq] at hls
      obtain ⟨hvd, hr⟩ := forall_mem_cons.mp hch.verified
      obtain ⟨hprv, hlk⟩ := hch.linked
      obtain ⟨htot, hval, hli, hexp⟩ := t.observe_some sha256 e
      rw [if_pos hvd] at hval
      rw [hash_of_verify hvd, getD_some] at hexp
      cases line with
      | error src => cases hls.1
      | ok line =>
        have hpr : parse line = some e := hls.1
        have hnx : verifyLine sha256 parse logPath t (.ok line) =
            .ok (t.countLine.observe sha256 (some e)) := by
          rw [verifyLine, hpr]
        rw [foldlM_cons, hnx]
        exact ih hls.2 ⟨hr, by rw [hexp]; exact hlk⟩ (hli.mpr ⟨hv, hprv⟩) (by omega)

lemma map_eq_of_length_filterMap {α β : Type*} {f : α → Option β} {l : List α}
    (h : l.length = (l.filterMap f).length) : l.map f = (l.filterMap f).map some := by
  induction l with
  | nil => rfl
  | cons a l ih =>
    have hle := length_filterMap_le f l
    cases ha : f a with
    | none =>
      rw [filterMap_cons_none ha, length_cons] at h
      omega
    | some b =>
      rw [filterMap_cons_some ha, length_cons, length_cons] at h
      rw [filterMap_cons_some ha, map_cons, map_cons, ha, ih (by omega)]

lemma reportedValid_iff : ReportedValid sha256 parse logPath ⟨.ok (), .ok (), lines, .ok ()⟩ ↔
      ∃ es, lines.map (fun line => line.toOption.bind parse) = es.map some ∧
        IsChain sha256 genesis es := by
  constructor
  · intro h
    obtain ⟨hlen, hch⟩ := isChain_of_reportedValid h
    exact ⟨_, map_eq_of_length_filterMap hlen, hch⟩
  · rintro ⟨es, hls, hch⟩
    obtain ⟨t, hfd, hv, hco⟩ := foldlM_of_isChain logPath (t := Tally.start) hls hch rfl rfl
    refine ⟨t.report logPath, ?_, ?_⟩
    · simp only [verifyIntegrity, verifyIntegrityUnlocked, hfd]
      rfl
    · rw [isValid, Bool.and_eq_true, beq_iff_eq]
      exact ⟨hv, hco⟩

end

/-- **The last hash determines the log.** Two logs that are reported valid, hold entries of the
current encoding only and end with the same hash have as many lines, and the same entries. -/
theorem audit_chain_determined (hsha256 : Function.Injective sha256)
    (parse : Text → Option (AuditEntry json)) {path₁ path₂ : Text} {log₁ log₂ : AuditStorage}
    (hvalid₁ : ReportedValid sha256 parse path₁ log₁)
    (hvalid₂ : ReportedValid sha256 parse path₂ log₂)
    (hversion₁ : ∀ e ∈ entriesOf parse log₁.lines, e.hashVersion = 1)
    (hversion₂ : ∀ e ∈ entriesOf parse log₂.lines, e.hashVersion = 1)
    {last₁ last₂ : AuditEntry json} (hlast₁ : last₁ ∈ (entriesOf parse log₁.lines).getLast?)
    (hlast₂ : last₂ ∈ (entriesOf parse log₂.lines).getLast?) (hhash : last₁.hash = last₂.hash) :
    log₁.lines.length = log₂.lines.length ∧
      List.Forall₂ AuditEntry.SameRecord (entriesOf parse log₁.lines)
        (entriesOf parse log₂.lines) := by
  obtain ⟨hlen₁, hch₁⟩ := isChain_of_reportedValid hvalid₁
  obtain ⟨hlen₂, hch₂⟩ := isChain_of_reportedValid hvalid₂
  have htip : last₁.computeHash sha256 = last₂.computeHash sha256 := by
    rw [hash_of_verify (hch₁.verified _ (mem_of_getLast? hlast₁)),
      hash_of_verify (hch₂.verified _ (mem_of_getLast? hlast₂))] at hhash
    exact some.inj hhash
  have hsm : List.Forall₂ AuditEntry.SameRecord (entriesOf parse log₁.lines)
      (entriesOf parse log₂.lines) := by
    refine forall₂_of_tip_eq (sameRecord_of_computeHash hsha256) (fun h => h.prevHash)
      (fun _ => computeHash_ne_genesis _) hversion₁ hversion₂ hch₁.linked hch₂.linked ?_
    rw [tip_of_mem_getLast? _ _ hlast₁, tip_of_mem_getLast? _ _ hlast₂]
    exact htip
  exact ⟨by rw [hlen₁, hlen₂, hsm.length_eq], hsm⟩

/-- JSON without values other than `null`. -/
def nullJson : JsonValues := ⟨Unit, fun _ => "null", fun _ => by decide⟩

def sampleFields (hash : Option Text) : AuditFields nullJson where
  id := "1"
  timestamp := "2026-01-01T00:00:00.000Z"
  eventType := .packageInstall
  severity := .info
  user := "root"
  resource := "vim"
  description := []
  metadata := some ()
  prevHash := genesis
  hashVersion := 1
  hash := hash

def sampleEntry (hash : Option Text) : AuditEntry nullJson where
  toAuditFields := sampleFields hash
  bounded := by
    have hbounded : ∀ text ∈ (sampleFields none).texts, (utf8 text).length < 2 ^ 64 := by
      decide +kernel
    exact hbounded

def legacyEntry : AuditEntry nullJson where
  toAuditFields := { sampleFields none with hashVersion := 0 }
  bounded := (sampleEntry none).bounded

theorem preimage_separates_sample : (sampleEntry none).texts = (sampleEntry (some [])).texts ∧
      (sampleEntry none).preimage ≠ legacyEntry.preimage :=
  ⟨preimage_separates.1 _ _ rfl rfl rfl, preimage_separates.2 _ _ rfl rfl⟩

def sampleLog (line : Text) : AuditStorage := ⟨.ok (), .ok (), [.ok line], .ok ()⟩

def sealedEntry : AuditEntry nullJson := sampleEntry (some ((sampleEntry none).computeHash id))

def sampleParse (_ : Text) : Option (AuditEntry nullJson) := some sealedEntry

lemma sampleLog_valid (line : Text) : ReportedValid id sampleParse [] (sampleLog line) := by
  have hvf : sealedEntry.verify id = true := by decide +kernel
  refine ⟨(Tally.start.countLine.observe id (some sealedEntry)).report [], rfl, ?_⟩
  obtain ⟨htot, hv, hli, -⟩ := Tally.start.observe_some id sealedEntry
  rw [if_pos hvf] at hv
  rw [isValid, Bool.and_eq_true, Tally.report, htot, hv, hli]
  exact ⟨⟨rfl, rfl⟩, rfl⟩

theorem audit_chain_determined_sample :
    (sampleLog "a".toList).lines.length = (sampleLog "b".toList).lines.length ∧
      List.Forall₂ AuditEntry.SameRecord (entriesOf sampleParse (sampleLog "a".toList).lines)
        (entriesOf sampleParse (sampleLog "b".toList).lines) := by
  have hver : ∀ line, ∀ e ∈ entriesOf sampleParse (sampleLog line).lines, e.hashVersion = 1 := by
    intro line e he
    rw [mem_singleton.mp (show e ∈ [sealedEntry] from he)]
    rfl
  exact audit_chain_determined injective_id sampleParse (sampleLog_valid _)
    (sampleLog_valid _) (hver _) (hver _) rfl rfl rfl

end Omg.Security
