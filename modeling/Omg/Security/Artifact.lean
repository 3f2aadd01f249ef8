import Omg.Security.SystemCalls

/-!
# Local package inputs and their handoff to root

Before it elevates, `omg` copies every local package file among its targets into a sealed memory
file and passes a description of the open descriptor in the place of the path. The root process
opens that descriptor, checks seals and digest, and copies the bytes into a private directory.

Source: `src/core/security/artifact.rs`, `src/core/security/validation.rs`, `src/core/privilege.rs`.
-/

namespace Omg.Security

open Control Text
open Text (ensure bail required withContext containsText eqIgnoreAsciiCase isAsciiHexdigit hexEncode
  decimal)

/-- `char::is_control`. -/
def isControl (c : Char) : Bool := c.toNat < 0x20 || (0x7F ≤ c.toNat && c.toNat < 0xA0)

def validUser (user : Text) : Bool := user ≠ [] && user.head? ≠ some '-' && !user.any isControl

def Process.isRoot (P : Process) : Bool := P.euid == 0

/-- The account that the process works for: its own, or for root the one `sudo` or `doas` names. -/
def Process.invokingUid (P : Process) : Result ℕ :=
  if P.euid ≠ 0 then .ok P.euid
  else
    match (P.sudoUser.filter validUser).or (P.doasUser.filter validUser) with
    | none => .ok 0
    | some user =>
      match P.account user with
      | .error message =>
        .error ["Failed to resolve invoking account '" ++ user ++ "'", message]
      | .ok none => bail ("Invoking account '" ++ user ++ "' does not exist")
      | .ok (some uid) => .ok uid

/-! ### Which targets are local packages -/

/-- The extensions that `is_local_package_file` accepts. -/
def validExtensions : List Text :=
  [".pkg.tar.zst", ".pkg.tar.xz", ".pkg.tar.gz", ".pkg.tar.bz2", ".pkg.tar"]

/-- `is_local_package_file`. -/
def isLocalPackageFile (name : Text) : Bool :=
  name.head? = some '/' && validExtensions.any (fun extension => extension.isSuffixOf name) &&
    !containsText name ".."

/-- `is_local_debian_package_file`. -/
def isLocalDebianPackageFile (name : Text) : Bool :=
  (match (Path.extension (OsString.ofText name)).bind OsString.toStr with
    | some extension =>
      eqIgnoreAsciiCase extension "deb" || eqIgnoreAsciiCase extension "ddeb"
    | none => false) &&
    name.head? ≠ some '-' && !containsText name ".." && !name.contains (Char.ofNat 0)

section

variable (P : Process)

def ownerAllowed (invokingUid uid : ℕ) : Bool := uid == 0 || uid == invokingUid

/-- Resolve a local package archive. The archive and its directory must belong to root or the
invoking account and must not be writable by others. -/
def validateLocalArchiveFile (path : Text) (supported : Bool) : Call OsString := do
  ensure supported "not a supported local package archive path"
  let link ← symlinkMetadata
    (fun error => "Cannot inspect local package archive " ++ path ++ ": " ++ error)
    (OsString.ofText path)
  ensure (!link.isSymlink) ("local package archive must not be a symlink: " ++ path)
  let canonical ← canonicalize
    (fun error => "Cannot resolve local package archive " ++ path ++ ": " ++ error)
    (OsString.ofText path)
  let target ← metadata canonical
  ensure target.isFile
    ("local package archive is not a regular file: " ++ OsString.toStringLossy canonical)
  let invokingUid ← P.invokingUid
  ensure (ownerAllowed invokingUid target.uid)
    "local package archive is owned by an untrusted user"
  ensure (target.mode &&& 0o022 == 0)
    "local package archive must not be group/world writable"
  let parent ← required (Path.parent canonical)
    "local package archive has no parent directory"
  let parentMetadata ← metadata parent
  ensure (ownerAllowed invokingUid parentMetadata.uid)
    "local package directory is owned by an untrusted user"
  ensure (parentMetadata.mode &&& 0o022 == 0)
    "local package directory must not be group/world writable"
  pure canonical

def validateLocalPackageFile (path : Text) : Call OsString :=
  validateLocalArchiveFile P path (isLocalPackageFile path)

def validateLocalDebianPackageFile (path : Text) : Call OsString :=
  validateLocalArchiveFile P path (isLocalDebianPackageFile path)

def validateFile (path : Text) : Call OsString :=
  if isLocalDebianPackageFile path then validateLocalDebianPackageFile P path
  else validateLocalPackageFile P path

end

/-! ### Copies -/

def maxArchiveBytes : ℕ := 8 * 1024 * 1024 * 1024

def maxOffset : ℕ := 2 ^ 63

def bufferBytes : ℕ := 64 * 1024

/-- How many bytes are asked for after `n` of them, where a limit may be set. -/
def wanted (limit : Option ℕ) (n : ℕ) : ℕ :=
  match limit with
  | some l => min bufferBytes (l - n)
  | none => bufferBytes

/-- Read a file from the start, at most `limit` bytes, and pass each chunk with its offset to the
sink. Every read sees the file as it is at that moment. -/
def copyLoop (source : File) (limit : Option ℕ) (sink : ℕ → Bytes → Call Unit) :
    ℕ → Bytes → Call Bytes
  | 0, _ => throw ["Value too large for defined data type (os error 75)".toList]
  | fuel + 1, copied =>
    -- `Take::read` does not read the file at all once the limit is reached.
    if wanted limit copied.length = 0 then pure copied
    else do
      let chunk ← readAt source copied.length (wanted limit copied.length)
      if chunk = [] then pure copied
      else do
        sink copied.length chunk
        copyLoop source limit sink fuel (copied ++ chunk)

/-- `std::io::copy`, of `Read::take` if there is a limit. -/
def copy (source : File) (limit : Option ℕ) (sink : ℕ → Bytes → Call Unit) : Call Bytes :=
  copyLoop source limit sink maxOffset []

section

variable (sha256 : Bytes → Bytes) (P : Process) (debianBackend : Bool)

def digest (file : File) : Call Text := do
  let bytes ← copy file none fun _ _ => pure ()
  pure (hexEncode (sha256 bytes))

def sealedCopy (source : File) : Call (File × Text) := do
  let sourceMetadata ← fileMetadata source
  ensure sourceMetadata.isFile "Package input must be a regular file"
  let file ← memfdCreate P
  let bytes ← copy source (some (maxArchiveBytes + 1)) (writeAt file)
  ensure (bytes.length ≤ maxArchiveBytes) "Package exceeds snapshot size limit"
  addSeals file
  let hash ← digest sha256 file
  pure (file, hash)

def fitsLimit (file : File) : Call Bool := do
  let n ← fileMetadata file
  if n.isFile then do
    let n' ← fileMetadata file
    pure (n'.contents.length ≤ maxArchiveBytes)
  else pure false

/-- `open_sealed`. -/
def openSealed (pid fd : ℕ) (expected : Text) : Call File := do
  ensure (byteLen expected == 64 && expected.all isAsciiHexdigit)
    "Invalid package digest"
  let file ← openProc P pid fd
  let seals ← getSeals file
  ensure seals "Package handoff is not immutable"
  let fits ← fitsLimit file
  ensure fits "Package handoff exceeds size limit"
  let actual ← digest sha256 file
  ensure (actual == expected) "Package changed after approval"
  pure file

structure ArchiveSnapshot where
  file : File
  name : Text
  digest : Text
  signature : Option (File × Text)
  original : Text

def archivePrefix : Text := "/__omg_archive/"

def isHandoff (path : Text) : Bool := archivePrefix.isPrefixOf path

def noSignature : Text := "none"

namespace ArchiveSnapshot

def signatureField (snapshot : ArchiveSnapshot) : Text :=
  match snapshot.signature with
  | none => noSignature
  | some (file, hash) => decimal file.fd ++ '-' :: hash

def handoff (snapshot : ArchiveSnapshot) : Text :=
  archivePrefix ++ (decimal P.pid ++ '/' :: (decimal snapshot.file.fd ++ '/' ::
    (snapshot.digest ++ '/' :: (snapshot.signatureField ++ '/' ::
      (snapshot.name ++ '/' :: snapshot.original)))))

end ArchiveSnapshot

/-- `str::parse` to `u32`. -/
def parseU32 (s : Text) : Result ℕ :=
  match parseUnsigned (2 ^ 32) s with
  | some n => .ok n
  | none =>
    if s = [] then bail "cannot parse integer from empty string"
    else if s.all Char.isDigit then bail "number too large to fit in target type"
    else bail "invalid digit found in string"

def handoffFields (value : Text) : Option (List Text) :=
  (stripPrefix archivePrefix value).map (splitN 6 '/')

def isNamed (field : Text) : Bool := field ≠ [] && field ≠ ['.'] && field ≠ ['.', '.']

def handoffOriginal (value : Text) : Option Text :=
  (handoffFields value).bind fun fields =>
    match fields[5]? with
    | some original => if isNamed original then some original else fields[4]?
    | none => fields[4]?

def signatureFromHandoff (pid : ℕ) (field : Text) : Call (Option (File × Text)) :=
  if field = noSignature then pure none
  else do
    let (fdText, hash) ← required (splitOnce '-' field) "Malformed signature handoff"
    let fd ← parseU32 fdText
    let file ← openSealed sha256 P pid fd hash
    pure (some (file, hash))

namespace ArchiveSnapshot

/-- `ArchiveSnapshot::from_handoff`. -/
def fromHandoff (value : Text) : Call (Option ArchiveSnapshot) :=
  match handoffFields value with
  | none => pure none
  | some (pidText :: fdText :: digest :: signatureText :: name :: _) => do
    let pid ← parseU32 pidText
    let fd ← parseU32 fdText
    ensure (0 < pid && isNamed name) "Invalid package handoff".toList
    let file ← openSealed sha256 P pid fd digest
    let signature ← signatureFromHandoff sha256 P pid signatureText
    pure (some ⟨file, name, digest, signature, (handoffOriginal value).getD name⟩)
  | some _ => throw ["Malformed package handoff".toList]

def opened : Except OpenError File → Result File
  | .ok file => .ok file
  | .error .notFound => bail noSuchFile
  | .error (.other message) => bail message

def openSource (canonical : OsString) : Call File := do
  let result ← openNoFollow P canonical
  let source ← opened result
  let sourceMetadata ← fileMetadata source
  let invokingUid ← P.invokingUid
  ensure (ownerAllowed invokingUid sourceMetadata.uid && sourceMetadata.mode &&& 0o022 == 0)
    "Untrusted package file ownership or permissions"
  pure source

def captureSignature (canonical : OsString) : Call (Option (File × Text)) := do
  let result ← openNoFollow P (OsString.ofText (OsString.toStringLossy canonical ++ ".sig"))
  match result with
  | .ok source => do
    let pinned ← sealedCopy sha256 P source
    pure (some pinned)
  | .error .notFound => pure none
  | .error (.other message) => throw [message]

def captureFile (path : Text) : Call ArchiveSnapshot := do
  let canonical ← validateFile P path
  let name ← required ((Path.fileName canonical).bind OsString.toStr)
    "Invalid package filename"
  let source ← openSource P canonical
  let (file, digest) ← sealedCopy sha256 P source
  let signature ← captureSignature sha256 P canonical
  pure ⟨file, name, digest, signature, OsString.toStringLossy canonical⟩

def capture (path : Text) : Call ArchiveSnapshot := do
  let pinned ← fromHandoff sha256 P path
  match pinned with
  | some snapshot => pure snapshot
  | none => captureFile sha256 P path

end ArchiveSnapshot

/-! ### The two sides -/

def isArchiveInput (target : Text) : Bool :=
  isHandoff target || isLocalPackageFile target ||
    (debianBackend && isLocalDebianPackageFile target)

structure SnapshotInputs where
  targets : List Text
  snapshots : List ArchiveSnapshot

def SnapshotInputs.capture : List Text → Call SnapshotInputs
  | [] => pure ⟨[], []⟩
  | target :: targets =>
    if isArchiveInput debianBackend target then do
      let snapshot ← ArchiveSnapshot.capture sha256 P target
      let rest ← SnapshotInputs.capture targets
      pure ⟨snapshot.handoff P :: rest.targets, snapshot :: rest.snapshots⟩
    else do
      let rest ← SnapshotInputs.capture targets
      pure ⟨target :: rest.targets, rest.snapshots⟩

structure StagedInputs where
  targets : List Text
  directories : List Text

namespace StagedInputs

def signatureName (name : Text) : Text := name ++ ".sig"

def stageSignature (directory name : Text) (signature : Option (File × Text)) : Call Unit :=
  match signature with
  | none => pure ()
  | some (file, _) => do
    createStaged false directory (signatureName name)
    let _ ← copy file none (writeStaged directory (signatureName name))
    pure ()

/-- Copy a pinned package into a new private directory. The result is the path of the copy and its
directory. -/
def stage (target : Text) : Call (Text × Text) := do
  ensure P.isRoot "Local archive staging requires the privileged consumer"
  let snapshot ← ArchiveSnapshot.capture sha256 P target
  let directory ← tempdirIn
  createStaged true directory snapshot.name
  let reader ← openProc P P.pid snapshot.file.fd
  let _ ← copy reader none (writeStaged directory snapshot.name)
  stageSignature directory snapshot.name snapshot.signature
  pure (directory ++ '/' :: snapshot.name, directory)

def prepare : List Text → Call StagedInputs
  | [] => pure ⟨[], []⟩
  | target :: targets =>
    if isArchiveInput debianBackend target then do
      let (path, directory) ← stage sha256 P target
      let rest ← prepare targets
      pure ⟨path :: rest.targets, directory :: rest.directories⟩
    else do
      let rest ← prepare targets
      pure ⟨target :: rest.targets, rest.directories⟩

end StagedInputs

end

end Omg.Security
