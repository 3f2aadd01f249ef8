import Mathlib.Data.List.AList
import Omg.Control.Steps
import Omg.Fs.Disk
import Omg.Text.Basic

/-!
# Installed versions of a runtime

The directory in which the versions of one runtime are kept, and the operations on it: publishing a
staged tree under a free name, replacing a version by a staged tree, activating a version and
removing one. Every call of the operating system is one step, which may fail; a removal deletes one
file after the other.

A tree is the list of its files, in the order in which a removal finds them.

Source: `src/runtimes/common.rs` and `src/core/security/validation.rs`.
-/

namespace Omg.Runtime

open Control Fs Text

/-- The files of a tree with their paths and contents. A directory has no contents. -/
abbrev Files : Type := List (Text × Option (List UInt8))

namespace Files

def set (path : Text) (contents : Option (List UInt8)) (files : Files) : Files :=
  files.filter (fun file => file.1 ≠ path) ++ [(path, contents)]

def rename (path path' : Text) (files : Files) : Files :=
  match files.lookup path with
  | some contents => set path' contents (files.filter fun file => file.1 ≠ path)
  | none => files

end Files

/-- What has a name in the directory of the versions. The target of a link is given by its
components. -/
inductive Item
  | directory (files : Files)
  | symlink (target : List Text)
  | file
deriving DecidableEq

structure Versions where
  entries : AList fun _ : Text => Item
  published : AList fun _ : Text => Files

abbrev VersionsM (α : Type) : Type := Steps Versions Errno α

abbrev OperationM (α : Type) : Type := Steps Versions AnyhowError α

def maxVersionLength : ℕ := 128

def validateVersionShape (version : Text) : Result Unit := do
  ensure (version ≠ []) "Version cannot be empty"
  ensure (Text.byteLen version ≤ maxVersionLength)
    "Version string too long (max 128 characters)"
  ensure (version ≠ ['.'] && version ≠ ['.', '.'])
    "Version cannot be a filesystem path component"

def validateRuntimeVersion (version : Text) : Result Unit := do
  validateVersionShape version
  ensure (!eqIgnoreAsciiCase version "current")
    "Runtime version name 'current' is reserved"
  ensure (!version.contains ':' && !version.contains '~')
    "Runtime version contains characters unsafe for filesystem paths"
  match version.find? fun c => !(c.isAlphanum || c ∈ ['.', '-', '+', '_']) with
  | some c => bail ("Invalid character '" ++ [c] ++ "' in version string")
  | none => pure ()

def currentName : Text := "current"

def isHidden (name : Text) : Bool := name.head? = some '.'

/-! ### Calls of the operating system -/

def installMarker : Text := ".omg-install-complete"

def testRuntimeMarker : Text := ".omg-test-mock"

def installPendingMarker : Text := ".omg-installing"

def mutationLock : Text := ".mutation.lock"

/-- `fs::symlink_metadata` of an entry. -/
def lstat (name : Text) : VersionsM Item :=
  .step .fault fun w =>
    match w.entries.lookup name with
    | some item => (.ok item, w)
    | none => (.error .notFound, w)

/-- `fs::symlink_metadata` of a file of a tree. -/
def lstatIn (name path : Text) : VersionsM Unit :=
  .step .fault fun w =>
    match w.entries.lookup name with
    | some (.directory files) =>
      (if (files.lookup path).isSome then .ok () else .error .notFound, w)
    | some _ => (.error .notADirectory, w)
    | none => (.error .notFound, w)

def mkdirEntry (name : Text) : VersionsM Unit :=
  .step .fault fun w =>
    match w.entries.lookup name with
    | some _ => (.error .alreadyExists, w)
    | none => (.ok (), { w with entries := w.entries.insert name (.directory []) })

def alterFiles (name : Text) (f : Files → Files) : VersionsM Unit :=
  .step .fault fun w =>
    match w.entries.lookup name with
    | some (.directory files) =>
      (.ok (), { w with entries := w.entries.insert name (.directory (f files)) })
    | _ => (.error .notFound, w)

/-- `rmdir`. -/
def rmdirEntry (name : Text) : VersionsM Unit :=
  .step .fault fun w =>
    match w.entries.lookup name with
    | some (.directory []) => (.ok (), { w with entries := w.entries.erase name })
    | _ => (.error .notFound, w)

def removeFiles (name : Text) : List Text → VersionsM Unit
  | [] => rmdirEntry name
  | path :: paths => do
    alterFiles name fun files => files.filter fun file => file.1 ≠ path
    removeFiles name paths

/-- `fs::remove_dir_all`. -/
def removeDirAll (name : Text) : VersionsM Unit := do
  match ← lstat name with
  | .directory files => removeFiles name (files.map Prod.fst)
  | _ => throw .notADirectory

/-- `renameat2` with `RENAME_NOREPLACE`, by which `tree` is published. -/
def renameNoReplace (staging version : Text) (tree : Files) : VersionsM Unit :=
  .step .fault fun w =>
    match w.entries.lookup staging, w.entries.lookup version with
    | some item, none =>
      (.ok (), { entries := (w.entries.erase staging).insert version item
                 published := w.published.insert version tree })
    | some _, some _ => (.error .alreadyExists, w)
    | none, _ => (.error .notFound, w)

/-- `renameat2` with `RENAME_EXCHANGE`, by which `tree` is published. -/
def renameExchange (staging version : Text) (tree : Files) : VersionsM Unit :=
  .step .fault fun w =>
    match w.entries.lookup staging, w.entries.lookup version with
    | some item, some item' =>
      (.ok (), { entries := (w.entries.insert staging item').insert version item
                 published := w.published.insert version tree })
    | _, _ => (.error .notFound, w)

def createEntry (name : Text) (item : Item) : VersionsM Unit :=
  .step .fault fun w =>
    match w.entries.lookup name with
    | some _ => (.error .alreadyExists, w)
    | none => (.ok (), { w with entries := w.entries.insert name item })

/-- `unlink`. -/
def unlinkEntry (name : Text) : VersionsM Unit :=
  .step .fault fun w =>
    match w.entries.lookup name with
    | some (.directory _) => (.error .isADirectory, w)
    | some _ => (.ok (), { w with entries := w.entries.erase name })
    | none => (.error .notFound, w)

/-- `rename` of a link onto another link or a free name. -/
def renameLink (name name' : Text) : VersionsM Unit :=
  .step .fault fun w =>
    match w.entries.lookup name, w.entries.lookup name' with
    | _, some (.directory _) => (.error .isADirectory, w)
    | some item, _ => (.ok (), { w with entries := (w.entries.erase name).insert name' item })
    | none, _ => (.error .notFound, w)

/-! ### Operations -/

def probe {α : Type} (x : VersionsM α) : VersionsM (Except Errno α) :=
  tryCatch (do let a ← x; pure (.ok a)) fun e => pure (.error e)

def call {α : Type} (context : Text) (x : VersionsM α) : OperationM α :=
  x.mapError fun _ => [context]

/-- `is_valid_version_dir`. -/
def isValidVersionDir (version : Text) : VersionsM Bool := do
  match ← probe (lstat version) with
  | .ok (.directory _) =>
    match ← probe (lstatIn version testRuntimeMarker) with
    | .ok _ => pure false
    | .error _ => do
      let pending ← probe (lstatIn version installPendingMarker)
      pure (decide (pending = .error .notFound))
  | _ => pure false

/-- `try_lock_runtime_file` of the lock that all changes are made under. -/
def lockMutation : OperationM Unit :=
  call "Another runtime mutation is in progress; retry when it finishes" <|
    .step .fault fun w =>
      match w.entries.lookup mutationLock with
      | none => (.ok (), { w with entries := w.entries.insert mutationLock .file })
      | some .file => (.ok (), w)
      | some _ => (.error .notPermitted, w)

/-- The tree that `write_install_marker` leaves. -/
def stagedTree (version temp : Text) (files : Files) : Files :=
  ((files.set temp (some [])).set temp
    (some ((version ++ ['\n']).map fun c => UInt8.ofNat c.toNat))).rename temp installMarker

/-- `write_install_marker`. The name `temp` is that of a temporary file. -/
def writeInstallMarker (staging version temp : Text) : OperationM Unit := do
  call "Failed to create install marker" (alterFiles staging (Files.set temp (some [])))
  call "Failed to write install marker" (alterFiles staging (Files.set temp
    (some ((version ++ ['\n']).map fun c => UInt8.ofNat c.toNat))))
  call "Failed to persist install marker"
    (alterFiles staging fun files => files.rename temp installMarker)

/-- `complete_staged_install`, of a stage that holds `files`. -/
def completeStagedInstall (staging version temp : Text) (files : Files) : OperationM Unit := do
  lockMutation
  writeInstallMarker staging version temp
  call "Failed to publish runtime installation"
    (renameNoReplace staging version (stagedTree version temp files))

/-- `replace_staged_install`. -/
def replaceStagedInstall (staging version temp : Text) (files : Files) : OperationM Unit := do
  lockMutation
  writeInstallMarker staging version temp
  let valid ← call [] (isValidVersionDir version)
  ensure valid ("Cannot replace missing or invalid runtime version: " ++ version)
  call "Failed to atomically replace runtime version"
    (renameExchange staging version (stagedTree version temp files))

def fillStage (staging : Text) : Files → OperationM Unit
  | [] => pure ()
  | file :: files => do
    call "Failed to stage runtime file" (alterFiles staging fun files => files ++ [file])
    fillStage staging files

def dropStage (staging : Text) : OperationM Unit :=
  tryCatch (call [] (removeDirAll staging)) fun _ => pure ()

/-- A staged operation: the stage is made and filled, `publish` is run, and the guard is dropped. -/
def withStage (staging version : Text) (files : Files) (publish : OperationM Unit) :
    OperationM Unit := do
  validateRuntimeVersion version
  call "Failed to create runtime staging directory" (mkdirEntry staging)
  tryCatch
    (do
      fillStage staging files
      publish
      dropStage staging)
    fun e => do
      dropStage staging
      throw e

/-- The part of `uninstall_version` before it looks at `current`. -/
def checkInstalled (version : Text) : OperationM Unit := do
  validateRuntimeVersion version
  lockMutation
  let valid ← call [] (isValidVersionDir version)
  ensure valid ("Version " ++ version ++ " is not installed; nothing to remove")

/-- What was read of `current` is not a link to the version. -/
def isInactive (version : Text) : Except Errno Item → Bool
  | .ok (.symlink target) => target.getLast? ≠ some version
  | _ => true

/-- The part of `uninstall_version` from there on. -/
def removeInactive (version : Text) : OperationM Unit := do
  let current ← call [] (probe (lstat currentName))
  ensure (isInactive version current)
    ("Version " ++ version ++
      " is active; switch to another version before removing it")
  call "Failed to remove runtime version directory" (removeDirAll version)

/-- `uninstall_version`. -/
def uninstallVersion (version : Text) : OperationM Unit := do
  checkInstalled version
  removeInactive version

/-- What `set_current_version` allows `current` to be. -/
def checkCurrent : OperationM Unit := do
  match ← call [] (probe (lstat currentName)) with
  | .ok (.symlink _) => pure ()
  | .error .notFound => pure ()
  | .ok _ => throw ["Refusing to replace non-symlink current runtime path".toList]
  | .error _ => throw ["Failed to inspect current runtime path".toList]

/-- `set_current_version`. The name `temp` is that of a temporary file. -/
def setCurrentVersion (versionsDir : List Text) (version temp : Text) : OperationM Unit := do
  validateRuntimeVersion version
  lockMutation
  let valid ← call [] (isValidVersionDir version)
  ensure valid ("Version " ++ version ++
    " is not installed as a valid directory. Install it first with: omg use <runtime>@" ++
    version)
  checkCurrent
  call "Failed to create temporary runtime link" (createEntry temp .file)
  tryCatch
    (do
      call "Failed to prepare temporary runtime link" (unlinkEntry temp)
      call "Failed to create temporary runtime link"
        (createEntry temp (.symlink (versionsDir ++ [version])))
      call ("Failed to activate runtime version " ++ version) (renameLink temp currentName))
    fun e => do
      tryCatch (call [] (unlinkEntry temp)) fun _ => pure ()
      throw e

inductive Operation
  | install (version : Text) (files : Files) (stage temp : Text)
  | replace (version : Text) (files : Files) (stage temp : Text)
  | activate (version temp : Text)
  | uninstall (version : Text)

def tempName (kind random : Text) : Text := '.' :: kind ++ random

def Operation.run (versionsDir : List Text) : Operation → OperationM Unit
  | .install version files stage temp =>
    withStage (tempName "install-" stage) version files
      (completeStagedInstall (tempName "install-" stage) version
        (tempName "tmp" temp) files)
  | .replace version files stage temp =>
    withStage (tempName "install-" stage) version files
      (replaceStagedInstall (tempName "install-" stage) version
        (tempName "tmp" temp) files)
  | .activate version temp =>
    setCurrentVersion versionsDir version (tempName "current-" temp)
  | .uninstall version => uninstallVersion version

/-! ### What is reported -/

/-- `is_valid_version_dir` of an entry, if no call fails. -/
def validItem : Item → Bool
  | .directory files =>
    (files.lookup testRuntimeMarker).isNone && (files.lookup installPendingMarker).isNone
  | _ => false

/-- `list_installed_versions`, for an order of the versions. -/
def listInstalledVersions (le : Text → Text → Bool) (w : Versions) : List Text :=
  (w.entries.keys.filter fun name =>
    !isHidden name && name ≠ currentName && (w.entries.lookup name).any validItem).mergeSort le

end Omg.Runtime
