import Omg.Text.Basic

/-!
# The protocol of the daemon

A frame is the version of the protocol, in four bytes, and a payload. A peer with another version is
refused before its payload is decoded.

The serialisation of payloads is a parameter. It is faithful: what was serialised is deserialised to
the same value.

Source: `src/daemon/protocol.rs` and `src/core/security/scan.rs`.
-/

namespace Omg.Daemon

abbrev Bytes : Type := List UInt8

/-! ### Requests and responses -/

/-- `Request`. -/
inductive Request
  | search (id : ℕ) (query : Text) (limit : Option ℕ)
  | info (id : ℕ) (package : Text)
  | status (id : ℕ)
  | explicit (id : ℕ)
  | explicitCount (id : ℕ)
  | securityAudit (id : ℕ)
  | ping (id : ℕ)
  | cacheStats (id : ℕ)
  | cacheClear (id : ℕ)
  | refreshIndex (id : ℕ)
  | metrics (id : ℕ)
  | suggest (id : ℕ) (query : Text) (limit : Option ℕ)
  | debianSearch (id : ℕ) (query : Text) (limit : Option ℕ)
  | health (id : ℕ)
  | listUpdates (id : ℕ)
  deriving DecidableEq

namespace Request

def id : Request → ℕ
  | search id _ _ | info id _ | status id | explicit id | explicitCount id | securityAudit id
  | ping id | cacheStats id | cacheClear id | refreshIndex id | metrics id | suggest id _ _
  | debianSearch id _ _ | health id | listUpdates id => id

def query? : Request → Option Text
  | search _ query _ | suggest _ query _ => some query
  | _ => none

def readsArchSyncCatalog : Request → Bool
  | search .. | info .. | suggest .. | status .. | explicit .. | explicitCount ..
  | securityAudit .. => true
  | _ => false

end Request

inductive WirePackageSource
  | official
  | aur
  | apt
  deriving DecidableEq

structure PackageInfo where
  name : Text
  version : Text
  description : Text
  source : WirePackageSource
  deriving DecidableEq

structure SearchResult where
  packages : List PackageInfo
  total : ℕ
  deriving DecidableEq

/-- `DetailedPackageInfo`. -/
structure DetailedPackageInfo where
  name : Text
  version : Text
  description : Text
  url : Text
  size : ℕ
  downloadSize : ℕ
  repo : Text
  depends : List Text
  licenses : List Text
  source : WirePackageSource
  deriving DecidableEq

structure StatusResult where
  totalPackages : ℕ
  explicitPackages : ℕ
  orphanPackages : ℕ
  updatesAvailable : ℕ
  securityVulnerabilities : ℕ
  vulnerabilitiesScanned : Bool
  runtimeVersions : List (Text × Text)
  deriving DecidableEq

structure Vulnerability where
  id : Text
  summary : Text
  score : Option Text
  deriving DecidableEq

structure SecurityAuditResult where
  totalVulnerabilities : ℕ
  highSeverity : ℕ
  vulnerabilities : List (Text × List Vulnerability)
  deriving DecidableEq

/-- `MetricsSnapshot`. -/
structure MetricsSnapshot where
  requestsTotal : ℕ
  requestsFailed : ℕ
  rateLimitHits : ℕ
  validationFailures : ℕ
  activeConnections : ℤ
  securityAuditRequests : ℕ
  bytesReceived : ℕ
  bytesSent : ℕ
  cacheHits : ℕ
  cacheMisses : ℕ
  searchRequests : ℕ
  infoRequests : ℕ
  statusRequests : ℕ
  deriving DecidableEq

structure HealthStatus where
  status : Text
  uptimeSeconds : ℕ
  memoryUsageMb : ℕ
  cacheSize : ℕ
  activeConnections : ℤ
  backgroundWorkerFailures : ℕ
  deriving DecidableEq

structure UpdateEntry where
  name : Text
  oldVersion : Text
  newVersion : Text
  repo : Text
  deriving DecidableEq

/-- `ResponseResult`. -/
inductive ResponseResult
  | search (result : SearchResult)
  | info (info : DetailedPackageInfo)
  | status (status : StatusResult)
  | explicit (packages : List Text)
  | explicitCount (count : ℕ)
  | securityAudit (audit : SecurityAuditResult)
  | ping (text : Text)
  | cacheStats (size maxSize : ℕ)
  | indexRefreshed (packages : ℕ)
  | metrics (snapshot : MetricsSnapshot)
  | suggest (names : List Text)
  | message (text : Text)
  | debianSearch (packages : List PackageInfo)
  | health (health : HealthStatus)
  | listUpdates (updates : List UpdateEntry)
  deriving DecidableEq

inductive Response
  | success (id : ℕ) (result : ResponseResult)
  | error (id : ℕ) (code : ℤ) (message : Text)
  deriving DecidableEq

def Response.id : Response → ℕ
  | success id _ => id
  | error id _ _ => id

namespace ErrorCodes

def parseError : ℤ := -32700
def invalidParams : ℤ := -32602
def internalError : ℤ := -32603
def packageNotFound : ℤ := -1001
def rateLimited : ℤ := -1002
def responseTooLarge : ℤ := -1003

end ErrorCodes

/-! ### Frames -/

structure Bitcode (α : Type) where
  serialize : α → Except Text Bytes
  deserialize : Bytes → Except Text α
  faithful : ∀ value bytes, serialize value = .ok bytes → deserialize bytes = .ok value

def protocolVersion : ℕ := 4

inductive FrameError
  | tooShort
  | versionMismatch (peer ours : ℕ)
  | encode (message : Text)
  deriving DecidableEq

def FrameError.text : FrameError → Text
  | tooShort => "frame too short to contain the protocol version header"
  | versionMismatch peer ours =>
    "unsupported peer protocol version " ++ Text.decimal peer ++
      " (this build speaks " ++ Text.decimal ours ++
      "); update omg so client and daemon match"
  | encode message => "failed to encode payload: " ++ message

/-- `u32::to_le_bytes`. -/
def toLeBytes (n : ℕ) : Bytes :=
  [.ofNat (n % 256), .ofNat (n / 256 % 256), .ofNat (n / 65536 % 256), .ofNat (n / 16777216 % 256)]

/-- `u32::from_le_bytes`. -/
def fromLeBytes (a b c d : UInt8) : ℕ :=
  a.toNat + 256 * b.toNat + 65536 * c.toNat + 16777216 * d.toNat

variable {α : Type}

def encodeFrame (codec : Bitcode α) (value : α) : Except FrameError Bytes :=
  match codec.serialize value with
  | .error message => .error (.encode message)
  | .ok payload => .ok (toLeBytes protocolVersion ++ payload)

def splitFrame : Bytes → Except FrameError (ℕ × Bytes)
  | a :: b :: c :: d :: payload =>
    let peer := fromLeBytes a b c d
    if peer ≠ protocolVersion then .error (.versionMismatch peer protocolVersion)
    else .ok (peer, payload)
  | _ => .error .tooShort

def decodeFrame (codec : Bitcode α) (frame : Bytes) : Option α :=
  match splitFrame frame with
  | .error _ => none
  | .ok (_, payload) => (codec.deserialize payload).toOption

lemma splitFrame_version (pl : Bytes) :
    splitFrame (toLeBytes protocolVersion ++ pl) = .ok (protocolVersion, pl) := rfl

lemma decodeFrame_of_encodeFrame {cd : Bitcode α} {val : α} {fr : Bytes}
    (h : encodeFrame cd val = .ok fr) : decodeFrame cd fr = some val := by
  unfold encodeFrame at h
  cases hpl : cd.serialize val with
  | error msg =>
    rw [hpl] at h
    cases h
  | ok pl =>
    rw [hpl] at h
    cases h
    rw [decodeFrame, splitFrame_version]
    simp only [cd.faithful val pl hpl]
    rfl

end Omg.Daemon
