import Mathlib.Data.Char
import Mathlib.Data.List.Lex
import Mathlib.Data.List.Sort
import Omg.Codec.Records
import Omg.Control.Except
import Omg.Runtime.Extract
import Omg.Text.Paragraphs
import Omg.Text.Utf8

/-!
# Inspection of AUR package archives

Before an archive is installed with privileges its members are read in a loop: their paths, kinds,
modes and links are checked, and the files that bear privileges and the install script are listed
for the user to approve.

The archive is a tar stream, compressed or not. Decompression and the format of tar are parameters,
and so are SHA-256 and the way a character is printed in a message.

Source: `src/package_managers/aur/artifact_inspector.rs`, `src/runtimes/common.rs`,
`src/core/security/validation.rs`.
-/

namespace Omg.Aur

open Codec Control Fs Text
open Omg.Runtime (components)

def maxDeclaredBytes : ℕ := 8 * 1024 * 1024 * 1024

def maxMembers : ℕ := 100000

def maxArchiveStreamBytes : ℕ := maxDeclaredBytes + maxMembers * 1024

def maxPathBytes : ℕ := 4096

def maxMetadataBytes : ℕ := 16 * 1024 * 1024

def maxPrivilegedFiles : ℕ := 256

def inspectionPolicyVersion : ℕ := 2

/-- `tar::EntryType`, as far as it is looked at. -/
inductive EntryKind
  | file
  | dir
  | symlink
  | hardLink
  | other
deriving DecidableEq

structure TarEntry where
  size : ℕ
  path : OsString
  kind : EntryKind
  linkName : Result (Option OsString)
  mode : Result ℕ
  paxExtensions : Result (Option (List (Result (Bytes × Bytes))))
  data : Result Bytes

structure Inspector where
  sha256 : Bytes → Bytes
  /-- `{:?}` of a character. -/
  debugChar : Char → Text
  tar : RecordFormat TarEntry
  gzipMembers : Bytes → List Stream
  /-- The frames of a Zstandard file, unless the first one has no valid header. -/
  zstdFrames : Bytes → Except Text (List Stream)
  xz : Bytes → Stream

section

variable (debugChar : Char → Text)

/-- `is_safe_package_char`. -/
def isSafePackageChar (c : Char) : Bool := c.isAlphanum || c ∈ ['-', '_', '+', '.', '@', '/']

/-- `validate_package_name`, with the message of the error. -/
def validatePackageName (name : Text) : Result Unit := do
  ensure (name ≠ []) "Package name cannot be empty"
  ensure (byteLen name ≤ 255) "Package name too long (max 255 characters)"
  ensure (name.head? ≠ some '-')
    "Package name cannot start with '-' (option injection protection)"
  ensure (name.head? ≠ some '.')
    "Package name cannot start with '.' (hidden file protection)"
  match name.find? fun c => !isSafePackageChar c with
  | some c => bail ("Invalid character " ++ debugChar c ++
      " in package name. Only alphanumeric, -, _, ., +, @, / allowed")
  | none => pure ()
  ensure (!containsText name ['.', '.'])
    "Package name cannot contain '..' (path traversal protection)"
  ensure (name.head? ≠ some '/') "Package name cannot start with '/'"

/-- `validate_version`, with the message of the error. -/
def validateVersion (version : Text) : Result Unit := do
  ensure (version ≠ []) "Version cannot be empty"
  ensure (byteLen version ≤ 128) "Version string too long (max 128 characters)"
  ensure (version ≠ ['.'] && version ≠ ['.', '.'])
    "Version cannot be a filesystem path component"
  match version.find? fun c => !(c.isAlphanum || c ∈ ['.', '-', '+', ':', '~']) with
  | some c => bail ("Invalid character " ++ debugChar c ++ " in version string")
  | none => pure ()

structure Identity where
  name : Text
  version : Text
  base : Text
  architecture : Text
deriving DecidableEq

def fieldValue (key line : Text) : Option Text :=
  match splitOnce '=' line with
  | some (k, value) => if trim k = key then some (trim value) else none
  | none => none

/-- `parse_pkginfo`. -/
def parsePkginfo (content : Text) : Result Identity := do
  let field := fun key : String => (strLines content).findSome? (fieldValue key.toList)
  let name ← required (field "pkgname") "AUR archive .PKGINFO is missing pkgname"
  let version ← required (field "pkgver") "AUR archive .PKGINFO is missing pkgver"
  let base := (field "pkgbase").getD name
  let architecture ← required (field "arch") "AUR archive .PKGINFO is missing arch"
  validatePackageName debugChar name
  validatePackageName debugChar base
  validateVersion debugChar version
  ensure (architecture ≠ []) "empty AUR package architecture"
  pure ⟨name, version, base, architecture⟩

end

def exactlyOne (content : Text) (key : String) : Result Text :=
  match (strLines content).filterMap (fieldValue key.toList) with
  | [value] => .ok value
  | _ => bail ("AUR archive .BUILDINFO must contain one " ++ key.toList)

/-- `parse_buildinfo`. -/
def parseBuildinfo (content : Text) : Result Identity := do
  let format ← exactlyOne content "format"
  ensure ((parseUnsigned (2 ^ 32) format).any (0 < ·))
    "invalid AUR archive .BUILDINFO format"
  let name ← exactlyOne content "pkgname"
  let version ← exactlyOne content "pkgver"
  let base ← exactlyOne content "pkgbase"
  let architecture ← exactlyOne content "pkgarch"
  pure ⟨name, version, base, architecture⟩

def memberParts (path : OsString) : List (Component OsString) → Result (List Text)
  | [] => .ok []
  | .normal part :: rest => do
    let part ← required part.toStr "non-UTF-8 path in AUR package archive"
    let parts ← memberParts path rest
    pure (part :: parts)
  | .curDir :: rest => memberParts path rest
  | .rootDir :: _ | .parentDir :: _ =>
    bail ("unsafe path in AUR package archive: " ++ path.toStringLossy)

/-- `normalize_member_path`, before the parts are joined. -/
def normalizeMemberParts (path : OsString) : Result (List Text) := do
  let parts ← memberParts path (components path)
  ensure (parts ≠ []) "empty path in AUR package archive"
  pure parts

/-- `normalize_member_path`. -/
def normalizeMemberPath (path : OsString) : Result Text := do
  let parts ← normalizeMemberParts path
  pure (List.intercalate ['/'] parts)

def linkDepth (member : Text) : ℕ → List (Component OsString) → Result ℕ
  | depth, [] => .ok depth
  | depth, .normal _ :: rest => linkDepth member (depth + 1) rest
  | depth, .curDir :: rest => linkDepth member depth rest
  | depth + 1, .parentDir :: rest => linkDepth member depth rest
  | 0, .parentDir :: _ | _, .rootDir :: _ =>
    bail ("escaping link target in AUR archive: " ++ member)

/-- `validate_relative_link`, by the number of names of the directory that the member is in. -/
def validateRelativeLink (member : Text) (parentNames : ℕ) (target : OsString) (hardLink : Bool) :
    Result Unit := do
  ensure ((components target).head? ≠ some .rootDir)
    "absolute link target in AUR archive"
  let depth ← linkDepth member (if hardLink then 0 else parentNames) (components target)
  ensure (0 < depth) ("empty link target in AUR archive: " ++ member)

namespace Inspector

variable (x : Inspector)

/-- `BudgetedReader`. -/
def budgeted (limit : ℕ) (s : Stream) : Stream :=
  if s.data.length ≤ limit then s
  else ⟨s.data.take limit,
    some ("decompressed data exceeds the configured limit of " ++ decimal limit ++
      " bytes")⟩

def zstdMagic : Bytes := [0x28, 0xb5, 0x2f, 0xfd]

def xzMagic : Bytes := [0xfd, 0x37, 0x7a, 0x58, 0x5a, 0x00]

def gzipMagic : Bytes := [0x1f, 0x8b]

/-- `flate2::read::GzDecoder` and `ruzstd::decoding::StreamingDecoder`: the first part. -/
def firstPart (parts : List Stream) : Stream := parts.head?.getD ⟨[], none⟩

def decodeXz (limit : ℕ) (file : Bytes) : Result Stream :=
  match (budgeted limit (x.xz file)).fault with
  | none => .ok (x.xz file)
  | some message => bail ("invalid or oversized xz AUR archive: " ++ message)

/-- `archive_reader_with_limit`. -/
def archiveReaderWithLimit (file : Bytes) (limit : ℕ) : Result Stream :=
  if zstdMagic <+: file then
    match x.zstdFrames file with
    | .ok frames => .ok (budgeted limit (firstPart frames))
    | .error message => bail ("invalid zstd AUR archive: " ++ message)
  else if xzMagic <+: file then x.decodeXz limit file
  else if gzipMagic <+: file then .ok (budgeted limit (firstPart (x.gzipMembers file)))
  else .ok (budgeted limit ⟨file, none⟩)

/-- `archive_reader`. -/
def archiveReader (file : Bytes) : Result Stream :=
  x.archiveReaderWithLimit file maxArchiveStreamBytes

end Inspector

/-! ### The inspection loop -/

structure PrivilegedFile where
  path : Text
  mode : ℕ
  capability : Option Text
deriving DecidableEq

structure Progress where
  seen : List Text
  memberCount : ℕ
  declaredBytes : ℕ
  executableFiles : List Text
  privilegedFiles : List PrivilegedFile
  reasons : List Text
  installHook : Option Text
  pkginfo : Option Identity
  buildinfo : Option Identity
  mtreeSeen : Bool

def Progress.start : Progress := ⟨[], 0, 0, [], [], [], none, none, none, false⟩

structure ArtifactInspection where
  policyVersion : ℕ
  archiveSha256 : Text
  identity : Identity
  memberCount : ℕ
  executableFiles : List Text
  privilegedFiles : List PrivilegedFile
  installHook : Option Text
  pairedBuildReasons : List Text
deriving DecidableEq

/-- `requires_exception`. -/
def ArtifactInspection.requiresException (inspection : ArtifactInspection) : Bool :=
  inspection.installHook.isSome || !inspection.privilegedFiles.isEmpty

def watchedPlaces : List (List String × String) := [
  (["etc/"], "system-configuration"),
  (["usr/lib/systemd/", "etc/systemd/"], "systemd-unit"),
  (["usr/lib/modules/", "lib/modules/"], "kernel-module"),
  (["usr/share/libalpm/hooks/", "usr/share/libalpm/scripts/"], "package-manager-hook"),
  (["usr/lib/udev/rules.d/", "usr/lib/tmpfiles.d/", "usr/lib/sysusers.d/",
    "usr/lib/modules-load.d/", "usr/share/polkit-1/", "usr/share/dbus-1/system-services/",
    "usr/share/dbus-1/system.d/", "usr/lib/kernel/install.d/", "usr/lib/initcpio/",
    "usr/share/mkinitcpio/", "usr/lib/dracut/", "usr/lib/NetworkManager/dispatcher.d/"],
    "privileged-system-integration")]

def pathReasons (member : Text) : List Text :=
  (watchedPlaces.filter fun (places, _) =>
    places.any fun place => place.toList.isPrefixOf member).map fun (_, reason) => reason.toList

def capabilityKeys : List Bytes :=
  [utf8 "SCHILY.xattr.security.capability", utf8 "LIBARCHIVE.xattr.security.capability"]

def lastCapability (found : Option Text) : List (Result (Bytes × Bytes)) → Result (Option Text)
  | [] => .ok found
  | extension :: rest => do
    let (key, value) ← extension
    lastCapability (if key ∈ capabilityKeys then some (hexEncode value) else found) rest

def readCapability (entry : TarEntry) : Result (Option Text) := do
  match ← entry.paxExtensions with
  | none => pure none
  | some extensions => lastCapability none extensions

def hasSetId (mode : ℕ) : Bool := mode &&& 0o6000 ≠ 0

def metadataNames : List Text := [".PKGINFO", ".BUILDINFO", ".MTREE", ".INSTALL"]

namespace Inspector

variable (x : Inspector)

def admitMember (progress : Progress) (entry : TarEntry) :
    Result (List Text × Text × Progress) := do
  ensure (progress.memberCount + 1 ≤ maxMembers) "AUR archive has too many members"
  ensure (progress.declaredBytes + entry.size < 2 ^ 64)
    "AUR archive declared-size overflow"
  ensure (progress.declaredBytes + entry.size ≤ maxDeclaredBytes)
    "AUR archive exceeds declared-size limit"
  ensure (Runtime.byteLen entry.path ≤ maxPathBytes) "AUR archive member path is too long"
  let parts ← normalizeMemberParts entry.path
  let member := List.intercalate ['/'] parts
  ensure (member ∉ progress.seen)
    ("duplicate normalized path in AUR archive: " ++ member)
  pure (parts, member, { progress with
      memberCount := progress.memberCount + 1
      declaredBytes := progress.declaredBytes + entry.size
      seen := progress.seen ++ [member]
      reasons := progress.reasons ∪ pathReasons member })

def checkKind (parts : List Text) (member : Text) (entry : TarEntry) : Result Unit :=
  match entry.kind with
  | .file | .dir => .ok ()
  | .symlink => checkLink false
  | .hardLink => checkLink true
  | .other => bail ("special file in AUR archive: " ++ member)
where
  checkLink (hardLink : Bool) : Result Unit := do
    let target ← required (← entry.linkName) "link without target in AUR archive"
    validateRelativeLink member (parts.length - 1) target hardLink

def listFile (member : Text) (kind : EntryKind) (mode : ℕ) (capability : Option Text)
    (progress : Progress) : Result Progress := do
  let progress :=
    if kind = .file ∧ mode &&& 0o111 ≠ 0 then
      { progress with executableFiles := progress.executableFiles ++ [member] }
    else progress
  if kind = .file ∧ (hasSetId mode ∨ capability.isSome) then do
    ensure (progress.privilegedFiles.length < maxPrivilegedFiles)
      "AUR archive has too many privileged files"
    pure { progress with
      privilegedFiles := progress.privilegedFiles ++ [⟨member, mode, capability⟩]
      reasons := progress.reasons ∪ ["privilege-bearing-file"] }
  else pure progress

def parseMetadata (member : Text) (bytes : Bytes) (progress : Progress) : Result Progress :=
  if member = ".PKGINFO" then do
    let content ← required (utf8Decode bytes) "AUR archive .PKGINFO is not UTF-8"
    let identity ← parsePkginfo x.debugChar content
    pure { progress with pkginfo := some identity }
  else if member = ".BUILDINFO" then do
    let content ← required (utf8Decode bytes) "AUR archive .BUILDINFO is not UTF-8"
    let identity ← parseBuildinfo content
    pure { progress with buildinfo := some identity }
  else if member = ".MTREE" then pure { progress with mtreeSeen := true }
  else pure { progress with
    installHook := some (hexEncode (x.sha256 bytes))
    reasons := progress.reasons ∪ ["install-hook"] }

def inspectMetadata (member : Text) (entry : TarEntry) (progress : Progress) : Result Progress :=
  if member ∈ metadataNames then do
    ensure (entry.kind = .file)
      ("AUR metadata member is not a regular file: " ++ member)
    ensure (entry.size ≤ maxMetadataBytes) "AUR metadata member is too large"
    let bytes ← entry.data
    ensure (bytes.length ≤ maxMetadataBytes) "AUR metadata member is too large"
    x.parseMetadata member bytes progress
  else pure progress

def inspectMember (progress : Progress) (entry : TarEntry) : Result Progress := do
  let (parts, member, progress) ← admitMember progress entry
  checkKind parts member entry
  let mode ← entry.mode
  let capability ← readCapability entry
  let progress ← listFile member entry.kind mode capability progress
  x.inspectMetadata member entry progress

def checkEnding : Ending → Result Unit
  | .marker | .eof => .ok ()
  | .fault message => bail message

def report (file : Bytes) (progress : Progress) : Result ArtifactInspection := do
  let identity ← required progress.pkginfo "AUR archive is missing .PKGINFO"
  let buildinfo ← required progress.buildinfo "AUR archive is missing .BUILDINFO"
  ensure (buildinfo = identity) "AUR archive .BUILDINFO identity differs from .PKGINFO"
  ensure progress.mtreeSeen "AUR archive is missing .MTREE"
  pure {
    policyVersion := inspectionPolicyVersion
    archiveSha256 := hexEncode (x.sha256 file)
    identity := identity
    memberCount := progress.memberCount
    executableFiles := progress.executableFiles.insertionSort (· ≤ ·)
    privilegedFiles := progress.privilegedFiles.insertionSort fun f g => f.path ≤ g.path
    installHook := progress.installHook
    pairedBuildReasons := progress.reasons.insertionSort (· ≤ ·) }

/-- `inspect_archive`. -/
def inspectArchive (file : Bytes) : Result ArtifactInspection := do
  let stream ← x.archiveReader file
  let progress ← (x.tar.read stream).1.foldlM x.inspectMember Progress.start
  checkEnding (x.tar.read stream).2
  x.report file progress

end Inspector

end Omg.Aur
