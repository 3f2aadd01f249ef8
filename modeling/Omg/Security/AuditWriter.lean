import Omg.Control.Steps
import Omg.Security.AuditLog
import Omg.Text.ByteLines
import Omg.Text.JsonText

/-!
# Appending to the audit log

A logger appends an entry under an exclusive lock of the log. It rotates the log if it has grown too
large, reads the hash of the last entry from the end of the file, and appends one line of JSON.

The log is a sequence of bytes. A write appends byte after byte, so that an error or a crash can
leave any beginning of what was to be written. Every operation on files may fail.

The reader of JSON is `serde_json`, of which it is assumed that it reads back what it wrote, rejects
an object that is cut off and a blank text, and ignores a carriage return behind a value.

Source: `src/core/security/audit.rs`.
-/

namespace Omg.Security

open Control Text Function Steps

/-! ### Entries as JSON -/

def AuditEventType.wireName : AuditEventType → Text
  | .packageInstall => "package_install"
  | .packageRemove => "package_remove"
  | .packageUpgrade => "package_upgrade"
  | .packageDowngrade => "package_downgrade"
  | .securityAudit => "security_audit"
  | .vulnerabilityDetected => "vulnerability_detected"
  | .signatureVerified => "signature_verified"
  | .signatureFailed => "signature_failed"
  | .policyViolation => "policy_violation"
  | .policyChanged => "policy_changed"
  | .configChanged => "config_changed"
  | .daemonStarted => "daemon_started"
  | .daemonStopped => "daemon_stopped"
  | .sbomGenerated => "sbom_generated"
  | .sbomExported => "sbom_exported"

def AuditSeverity.wireName : AuditSeverity → Text
  | .debug => "debug"
  | .info => "info"
  | .warning => "warning"
  | .error => "error"
  | .critical => "critical"

def keyId : Text := "id"

def keyTimestamp : Text := "timestamp"

def keyEventType : Text := "event_type"

def keySeverity : Text := "severity"

def keyUser : Text := "user"

def keyResource : Text := "resource"

def keyDescription : Text := "description"

def keyMetadata : Text := "metadata"

def keyPrevHash : Text := "prev_hash"

def keyHashVersion : Text := "hash_version"

def keyHash : Text := "hash"

variable {json : JsonValues}

def AuditFields.members (e : AuditFields json) : List (Text × JsonScalar) :=
  [(keyId, .string e.id), (keyTimestamp, .string e.timestamp),
    (keyEventType, .string e.eventType.wireName), (keySeverity, .string e.severity.wireName),
    (keyUser, .string e.user), (keyResource, .string e.resource),
    (keyDescription, .string e.description)] ++
  (e.renderedMetadata.toList.map fun t => (keyMetadata, .rendered t)) ++
  [(keyPrevHash, .string e.prevHash), (keyHashVersion, .number e.hashVersion.toNat)] ++
  e.hash.toList.map fun h => (keyHash, .string h)

/-- `serde_json::to_string` of an entry. -/
def AuditFields.toJson (e : AuditFields json) : Text := jsonObject e.members

abbrev MemoryText := {t : Text // (utf8 t).length < 2 ^ 64}

structure StoredEntry (json : JsonValues) extends AuditEntry json where
  hash_bounded : ∀ h ∈ hash, (utf8 h).length < 2 ^ 64

def StoredEntry.storedHash (e : StoredEntry json) : Option MemoryText :=
  e.hash.pmap Subtype.mk e.hash_bounded

structure StoredEntry.IsWritten (e : StoredEntry json) : Prop where
  metadata : e.metadata = none
  hashVersion : e.hashVersion = 1
  hash : e.hash ≠ none

/-- `serde_json::from_str` for entries. -/
structure EntryReader (json : JsonValues) where
  parse : Text → Option (StoredEntry json)
  parse_nil : parse [] = none
  parse_carriageReturn : ∀ line, parse (line ++ ['\r']) = parse line
  /-- A record is read from an object or from an array, so both brackets are in its text. -/
  parse_brackets : ∀ {line e}, parse line = some e →
    '\x7b' ∈ line ∧ '\x7d' ∈ line ∨ '[' ∈ line ∧ ']' ∈ line
  parse_toJson : ∀ e : StoredEntry json, e.IsWritten → parse e.toJson = some e
  parse_torn : ∀ e : StoredEntry json, e.IsWritten → ∀ t, t <+: e.toJson → t ≠ e.toJson →
    parse t = none

def EntryReader.entry (reader : EntryReader json) (line : Text) : Option (AuditEntry json) :=
  (reader.parse line).map StoredEntry.toAuditEntry

structure Sha256 where
  digest : Bytes → Bytes
  length_digest : ∀ bytes, (digest bytes).length = 32

inductive LogFile
  | missing
  | regular (content : Bytes)
  | special

/-- The log, its rotated archives by their numbers, and the hash that the logger remembers. -/
structure AuditWorld where
  log : LogFile
  archives : ℕ → LogFile
  lastHash : Text

/-- `AuditError`, as far as appending returns it. -/
inductive AppendError
  | reading (error : AuditError)
  | write (path source : Text)
  | corruptLine (path : Text) (line : ℕ)
  | missingHash (path : Text) (line : ℕ)

structure AuditPaths where
  log : Text
  lock : Text
  osError : Text

namespace AuditPaths

variable (paths : AuditPaths)

def openFault : AppendError := .reading (.open paths.log paths.osError)

def readFault : AppendError := .reading (.read paths.log paths.osError)

def writeFault : AppendError := .write paths.log paths.osError

/-- `rotated_path`. -/
def rotated (index : ℕ) : Text := paths.log ++ '.' :: decimal index

end AuditPaths

abbrev AuditSteps := Steps AuditWorld AppendError

/-! ### The last hash -/

/-- `MAX_AUDIT_ENTRY_BYTES`. -/
def maxAuditEntryBytes : ℕ := 128 * 1024

def notRegularMessage : Text := "audit storage must be a regular file"

def notLogMessage : Text := "audit log must be a regular file and not a symlink"

def invalidUtf8Message : Text := "stream did not contain valid UTF-8"

def exceedsMessage : Text :=
  "trailing audit entry exceeds " ++ decimal maxAuditEntryBytes ++ " bytes"

section

variable (reader : EntryReader json) (paths : AuditPaths)

def lineHash (lineNumber : ℕ) (line : Bytes) : Except AppendError MemoryText :=
  match utf8Decode line with
  | none => .error (.reading (.read paths.log invalidUtf8Message))
  | some text =>
    match reader.parse text with
    | none => .error (.corruptLine paths.log lineNumber)
    | some e =>
      match e.storedHash with
      | none => .error (.missingHash paths.log lineNumber)
      | some hash => .ok hash

def genesisHash : MemoryText := ⟨genesis, by decide +kernel⟩

def lineNumber (tailStart : ℕ) (tail : Bytes) : ℕ :=
  if tailStart = 0 then (tail.rdropWhile (· ≠ newline)).count newline + 1 else 0

/-- Where the window starts that is read from the end of the log. It has room for an entry and two
line ends. -/
def tailStart (content : Bytes) : ℕ := content.length - (maxAuditEntryBytes + 2)

def tailWindow (content : Bytes) : Bytes := content.drop (tailStart content)

def tailHash (tailStart : ℕ) (tail : Bytes) : Except AppendError MemoryText :=
  if tail = [] then .ok genesisHash
  else if 0 < tailStart ∧ newline ∉ tail then
    .error (.reading (.read paths.log exceedsMessage))
  else lineHash reader paths (lineNumber tailStart tail) (tail.rtakeWhile (· ≠ newline))

/-- `get_last_hash`, by the content of the log. -/
def lastHashOf (content : Bytes) : Except AppendError MemoryText :=
  if content.length = 0 then .ok genesisHash
  else tailHash reader paths (tailStart content) ((tailWindow content).rdropWhile isLineEnd)

def openReadFile : AuditSteps (Option Bytes) :=
  step paths.openFault fun w =>
    (match w.log with
      | .missing => .ok none
      | .regular content => .ok (some content)
      | .special => .error (.reading (.open paths.log notRegularMessage)), w)

/-- `get_last_hash`. -/
def getLastHash : AuditSteps MemoryText := do
  match ← openReadFile paths with
  | none => pure genesisHash
  | some content => step paths.readFault fun w => (lastHashOf reader paths content, w)

end

/-! ### Rotation -/

/-- `AuditLogger`. -/
structure AuditLogger where
  lastHash : Text
  maxBytes : ℕ
  maxArchives : ℕ

section

variable (paths : AuditPaths)

def inspectLog : AuditSteps (Option ℕ) :=
  step paths.openFault fun w =>
    (match w.log with
      | .missing => .ok none
      | .regular content => .ok (some content.length)
      | .special => .error (.reading (.open paths.log notLogMessage)), w)

def removeLog : AuditSteps Unit :=
  step paths.writeFault fun w => (.ok (), { w with log := .missing })

def removeArchive (index : ℕ) : AuditSteps Unit :=
  step (.write (paths.rotated index) paths.osError) fun w =>
    (.ok (), { w with archives := update w.archives index .missing })

def shifted (archives : ℕ → LogFile) (index : ℕ) : ℕ → LogFile :=
  match archives index with
  | .missing => archives
  | file => update (update archives (index + 1) file) index .missing

def renameArchive (index : ℕ) : AuditSteps Unit :=
  step (.write (paths.rotated index) paths.osError) fun w =>
    (.ok (), { w with archives := shifted w.archives index })

def renameLog : AuditSteps Unit :=
  step paths.writeFault fun w =>
    (.ok (), { w with log := .missing, archives := update w.archives 1 w.log })

def renameArchives : ℕ → AuditSteps Unit
  | 0 => pure ()
  | index + 1 => do
    renameArchive paths (index + 1)
    renameArchives index

def retireLog (maxArchives : ℕ) : AuditSteps Unit :=
  match maxArchives with
  | 0 => removeLog paths
  | index + 1 => do
    removeArchive paths (index + 1)
    renameArchives paths index
    renameLog paths

def setLastHash (hash : Text) : AuditSteps Unit := assign fun w => { w with lastHash := hash }

def retireAndForget (maxArchives : ℕ) : AuditSteps Unit := do
  retireLog paths maxArchives
  setLastHash genesis

/-- `rotate_if_needed`. -/
def rotateIfNeeded (logger : AuditLogger) : AuditSteps Unit := do
  match ← inspectLog paths with
  | none => pure ()
  | some length =>
    if length < logger.maxBytes then pure () else retireAndForget paths logger.maxArchives

end

/-! ### Appending -/

/-- `MAX_AUDIT_FIELD_BYTES`. -/
def maxAuditFieldBytes : ℕ := 4096

def takeBytes : ℕ → Text → Text
  | _, [] => []
  | n, c :: rest => if c.utf8Size ≤ n then c :: takeBytes (n - c.utf8Size) rest else []

/-- `bounded_audit_field`. -/
def boundedAuditField (value : Text) : Text :=
  if byteLen value ≤ maxAuditFieldBytes then value else takeBytes maxAuditFieldBytes value

lemma byteLen_takeBytes_le (n : ℕ) (s : Text) : byteLen (takeBytes n s) ≤ n := by
  induction s generalizing n with
  | nil => exact Nat.zero_le n
  | cons c s ih =>
    unfold takeBytes
    split_ifs with h
    · have hr := ih (n - c.utf8Size)
      rw [byteLen_cons]
      omega
    · exact Nat.zero_le n

lemma byteLen_boundedAuditField_le (val : Text) :
    byteLen (boundedAuditField val) ≤ maxAuditFieldBytes := by
  unfold boundedAuditField
  split_ifs with h
  · exact h
  · exact byteLen_takeBytes_le ..

/-- The arguments of `log` and what it asks its surroundings for: the time, a fresh identifier and
the variable `USER`. -/
structure LogCall where
  event : AuditEventType
  severity : AuditSeverity
  resource : Text
  description : Text
  timestamp : Text
  id : Text
  user : Option Text
  timestamp_le : byteLen timestamp ≤ 64
  id_le : byteLen id ≤ 64

namespace LogCall

variable (json) in
def fields (call : LogCall) (prevHash : Text) (hash : Option Text) : AuditFields json where
  id := call.id
  timestamp := call.timestamp
  eventType := call.event
  severity := call.severity
  user := boundedAuditField (call.user.getD "unknown")
  resource := boundedAuditField call.resource
  description := boundedAuditField call.description
  metadata := none
  prevHash := prevHash
  hashVersion := hashVersionLengthPrefixed
  hash := hash

lemma length_debugName_le : (∀ e : AuditEventType, (utf8 e.debugName).length ≤ 64) ∧
      ∀ s : AuditSeverity, (utf8 s.debugName).length ≤ 64 := by
  constructor
  · intro e
    cases e <;> decide +kernel
  · intro s
    cases s <;> decide +kernel

variable (json) in
lemma bounded_fields (call : LogCall) (ph : MemoryText) (hash : Option Text) :
    ∀ text ∈ (call.fields json ph.1 hash).texts, (utf8 text).length < 2 ^ 64 := by
  have hfi : ∀ val, (utf8 (boundedAuditField val)).length < 2 ^ 64 := fun val => by
    have hle := byteLen_boundedAuditField_le val
    rw [length_utf8]
    unfold maxAuditFieldBytes at hle
    omega
  have hid : (utf8 call.id).length < 2 ^ 64 := by
    have hle := call.id_le
    rw [length_utf8]
    omega
  have hts : (utf8 call.timestamp).length < 2 ^ 64 := by
    have hle := call.timestamp_le
    rw [length_utf8]
    omega
  have heve := length_debugName_le.1 call.event
  have hsev := length_debugName_le.2 call.severity
  simp only [AuditFields.texts, fields, AuditFields.renderedMetadata, List.forall_mem_cons,
    List.not_mem_nil, false_imp_iff, implies_true, and_true]
  exact ⟨hid, hts, by omega, by omega, hfi _, hfi _, hfi _, by simp, ph.2⟩

variable (json) in
def unsealed (call : LogCall) (prevHash : MemoryText) : AuditEntry json :=
  ⟨call.fields json prevHash.1 none, call.bounded_fields json prevHash none⟩

lemma byteLen_computeHash (sha256 : Sha256) (e : AuditEntry json) :
    byteLen (e.computeHash sha256.digest) = 64 := by
  rw [AuditEntry.computeHash, byteLen_hexEncode, sha256.length_digest]

variable (json) in
def entry (sha256 : Sha256) (call : LogCall) (prevHash : MemoryText) : StoredEntry json where
  toAuditFields := call.fields json prevHash.1
    (some ((call.unsealed json prevHash).computeHash sha256.digest))
  bounded := call.bounded_fields json prevHash _
  hash_bounded := by
    rintro h hh
    obtain rfl := Option.some.inj hh
    rw [length_utf8, byteLen_computeHash]
    decide

end LogCall

section

variable (reader : EntryReader json) (sha256 : Sha256) (paths : AuditPaths)

def openAppendFile : AuditSteps Unit :=
  step paths.openFault fun w =>
    match w.log with
    | .missing => (.ok (), { w with log := .regular [] })
    | .regular _ => (.ok (), w)
    | .special => (.error (.reading (.open paths.log notRegularMessage)), w)

def LogFile.append (file : LogFile) (b : UInt8) : LogFile :=
  match file with
  | .regular content => .regular (content ++ [b])
  | file => file

def appendByte (b : UInt8) : AuditSteps Unit :=
  step paths.writeFault fun w => (.ok (), { w with log := w.log.append b })

/-- `write_all`: an error or a crash can come after any byte. -/
def writeAll : Bytes → AuditSteps Unit
  | [] => pure ()
  | b :: bytes => do
    appendByte paths b
    writeAll bytes

def LogFile.lastByte : LogFile → Option UInt8
  | .regular content => content.getLast?
  | _ => none

def readLastByte : AuditSteps (Option UInt8) :=
  step paths.writeFault fun w => (.ok w.log.lastByte, w)

def missingNewline (last : Option UInt8) : Bytes :=
  if last = none ∨ last = some newline then [] else [newline]

/-- `ensure_trailing_newline`. -/
def ensureTrailingNewline : AuditSteps Unit := do
  let last ← readLastByte paths
  writeAll paths (missingNewline last)

def syncLog : AuditSteps Unit := step paths.writeFault fun w => (.ok (), w)

def StoredEntry.line (e : StoredEntry json) : Bytes := utf8 e.toJson

/-- The appending part of `log_locked`. -/
def appendEntry (e : StoredEntry json) : AuditSteps Unit := do
  openAppendFile paths
  ensureTrailingNewline paths
  writeAll paths (e.line ++ [newline])
  syncLog paths
  setLastHash (e.hash.getD [])

/-- `log_locked`. -/
def logLocked (logger : AuditLogger) (call : LogCall) : AuditSteps Unit := do
  rotateIfNeeded paths logger
  let prevHash ← getLastHash reader paths
  appendEntry paths (call.entry json sha256 prevHash)

def lockFault : AppendError := .reading (.open paths.lock paths.osError)

def unlockFault : AppendError := .reading (.unlock paths.log paths.osError)

/-- The result of `log`: an error of the operation hides one of unlocking. -/
def combine (result unlocked : Except AppendError Unit) : Except AppendError Unit :=
  match result with
  | .error e => .error e
  | .ok () => unlocked

/-- `AuditLogger::log`. -/
def AuditLogger.log (logger : AuditLogger) (call : LogCall) : AuditSteps Unit := do
  step (lockFault paths) fun w => (.ok (), w)
  step (lockFault paths) fun w => (.ok (), w)
  let result ← attempt (logLocked reader sha256 paths logger call)
  let unlocked ← attempt (step (unlockFault paths) fun w => (.ok (), w))
  liftM (combine result unlocked)

end

/-! ### Loggers over one log -/

structure AuditState where
  log : LogFile
  archives : ℕ → LogFile
  loggers : List AuditLogger

namespace AuditState

def world (s : AuditState) (logger : AuditLogger) : AuditWorld :=
  ⟨s.log, s.archives, logger.lastHash⟩

def leave (s : AuditState) (k : ℕ) (logger : AuditLogger) (w : AuditWorld) : AuditState :=
  ⟨w.log, w.archives, s.loggers.set k { logger with lastHash := w.lastHash }⟩

end AuditState

section

variable (reader : EntryReader json) (sha256 : Sha256) (paths : AuditPaths)

/-- The states of runs. The lock lets one call run at a time. A call may end with an error, and it
may be cut off after any of its steps, so that every world it passed through can be left behind. -/
inductive AuditState.Reachable (start : LogFile) : AuditState → Prop
  | start (archives : ℕ → LogFile) : Reachable start ⟨start, archives, []⟩
  /-- A logger is created; it remembers the last hash of the log. -/
  | create {s : AuditState} (h : Reachable start s) (maxBytes maxArchives : ℕ) (fails : ℕ → Bool)
      {hash : MemoryText} {after : History AuditWorld}
      (hrun : getLastHash reader paths fails (.start (s.world ⟨[], maxBytes, maxArchives⟩)) =
        (.ok hash, after)) :
      Reachable start { s with loggers := s.loggers ++ [⟨hash.1, maxBytes, maxArchives⟩] }
  | log {s : AuditState} (h : Reachable start s) {k : ℕ} {logger : AuditLogger}
      (hk : s.loggers[k]? = some logger) (call : LogCall) (fails : ℕ → Bool) {w : AuditWorld}
      (hw : w ∈ (logger.log reader sha256 paths call fails (.start (s.world logger))).2.states) :
      Reachable start (s.leave k logger w)

end

end Omg.Security
