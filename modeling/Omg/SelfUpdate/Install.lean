import Omg.Control.Machine
import Omg.Fs.Disk
import Omg.Text.Basic

/-!
# The installation of an updated pair of binaries

An update replaces `omgd` and `omg`, which are two files. The update takes a lock, makes copies of
the installed files, stages the new ones, and then renames the new files to their places. If a
replacement fails then both copies are put back.

A call is a program of a process: any number of calls go on at once, in any interleaving of their
system calls, and every system call may fail. The lock is released when the call returns. Temporary
files have names of their own, so they are values here. The lock file is never removed, and it is
not one of the two binaries.

Source: `src/cli/self_update.rs` and `src/core/safe_ops.rs`.
-/

namespace Omg.SelfUpdate

open Control
open Fs (Errno Kind)

inductive Slot
  | omgd
  | omg
  deriving DecidableEq

structure BinaryFile where
  contents : List UInt8
  mode : ℕ
  deriving DecidableEq

inductive Entry
  | regular (file : BinaryFile)
  | symlink
  | directory
  | other
  deriving DecidableEq

abbrev Files : Type := Slot → Option Entry

structure UpdateError where
  messages : AnyhowError
  recovery : List Text

structure Session (ι : Type) where
  call : ι
  found : Files
  left : Files
  result : Except UpdateError Unit

structure Installation (ι : Type) where
  files : Files
  lockFile : Option (Kind × ℕ)
  holder : Option (ι × Files)
  sessions : List (Session ι)

structure Update where
  payload : Slot → Option Entry
  parent : Option Text
  fileName : Text

structure Rendering where
  errno : Errno → Text
  parent : Text
  destination : Slot → Text
  payload : Slot → Text
  recoveryCopy : Slot → Text

variable {ι : Type} (render : Rendering)

/-- A program of a call. The input of an action says whether it fails for an outside reason. -/
abbrev UpdateM (ι ε α : Type) : Type := Process (Installation ι) Bool ε α

def onFiles {α : Type} (f : Files → Except Errno α × Files) : UpdateM ι Errno α :=
  .perform fun fault m =>
    if fault then (.error .fault, m) else ((f m.files).1, { m with files := (f m.files).2 })

def privately : UpdateM ι Errno Unit := onFiles fun files => (.ok (), files)

def withoutRecovery (messages : AnyhowError) : UpdateError := ⟨messages, []⟩

def plain (error : Errno) : UpdateError := withoutRecovery [render.errno error]

def context (message : Text) (error : Errno) : UpdateError :=
  withoutRecovery [message, render.errno error]

/-- `open` without following a symbolic link. -/
def openPayload (source : Files → Option Entry) : UpdateM ι Errno Entry :=
  onFiles fun files =>
    match source files with
    | none => (.error .notFound, files)
    | some .symlink => (.error .tooManyLinks, files)
    | some entry => (.ok entry, files)

def stageText : Text := "Failed to stage update in " ++ render.parent

def openText (path : Text) : Text := "Failed to open update payload " ++ path

def copyText : Text := "Failed to copy update payload into executable directory"

def permissionsText : Text := "Failed to set updated binary permissions"

def syncText : Text := "Failed to sync updated binary"

def notRegularText : Text := "Update payload is not a regular file"

/-- `stage_update_binary`. -/
def stageUpdateBinary (source : Files → Option Entry) (path : Text) :
    UpdateM ι UpdateError BinaryFile := do
  privately.mapError (context render (stageText render))
  let entry ← (openPayload source).mapError (context render (openText path))
  privately.mapError (plain render)
  match entry with
  | .regular file => do
    privately.mapError (context render copyText)
    privately.mapError (context render permissionsText)
    privately.mapError (context render syncText)
    return { contents := file.contents, mode := 0o755 }
  | _ => .fail (withoutRecovery [notRegularText])

/-- `rename` of a staged file. -/
def persist (staged : BinaryFile) (slot : Slot) : UpdateM ι Errno Unit :=
  onFiles fun files =>
    match files slot with
    | some .directory => (.error .isADirectory, files)
    | _ => (.ok (), Function.update files slot (some (.regular staged)))

def replaceText (slot : Slot) : Text := "Failed to replace " ++ render.destination slot

def syncParentText : Text := "Failed to sync parent directory: " ++ render.parent

def persistUpdateBinary (staged : BinaryFile) (slot : Slot) : UpdateM ι UpdateError Unit := do
  (persist staged slot).mapError (context render (replaceText render slot))
  privately.mapError (context render (syncParentText render))

/-- `unlink`. -/
def removeFile (slot : Slot) : UpdateM ι Errno Unit :=
  onFiles fun files =>
    match files slot with
    | none => (.error .notFound, files)
    | some .directory => (.error .isADirectory, files)
    | some _ => (.ok (), Function.update files slot none)

def recoveryText (slot : Slot) (messages : AnyhowError) : Text :=
  render.destination slot ++ ": " ++ ": ".toList.intercalate messages

def recoveryCopyText (slot : Slot) (error : Errno) : Text :=
  render.errno error ++ "; recovery copy: " ++ render.recoveryCopy slot

def syncRestored (slot : Slot) : UpdateM ι UpdateError (List Text) := do
  match ← privately.attempt with
  | .ok () => return []
  | .error error => return [recoveryText render slot [syncParentText render, render.errno error]]

def restore (slot : Slot) : Option BinaryFile → UpdateM ι UpdateError (List Text)
  | some backup => do
    match ← (persist backup slot).attempt with
    | .ok () => syncRestored render slot
    | .error error => return [recoveryText render slot [recoveryCopyText render slot error]]
  | none => do
    match ← (removeFile slot).attempt with
    | .ok () => syncRestored render slot
    | .error .notFound => return []
    | .error error => return [recoveryText render slot [render.errno error]]

def restoredText : Text := "Update failed; previous OMG binaries restored"

def attentionText (error : UpdateError) (recovery : List Text) : Text :=
  "Update failed: " ++ ": ".toList.intercalate error.messages ++
    "; rollback needs attention: " ++ "; ".toList.intercalate recovery

def recoveryError (error : UpdateError) : List Text → UpdateError
  | [] => withoutRecovery (restoredText :: error.messages)
  | recovery => ⟨[attentionText error recovery], recovery⟩

def recover {α : Type} (backups : Slot → Option BinaryFile) (error : UpdateError) :
    UpdateM ι UpdateError α := do
  let daemonErrors ← restore render .omgd (backups .omgd)
  let cliErrors ← restore render .omg (backups .omg)
  .fail (recoveryError error (daemonErrors ++ cliErrors))

/-! ### The installation -/

/-- `lstat`. -/
def lstat (slot : Slot) : UpdateM ι Errno Entry :=
  onFiles fun files =>
    match files slot with
    | none => (.error .notFound, files)
    | some entry => (.ok entry, files)

def refuseText (slot : Slot) : Text :=
  "Refusing non-regular update destination " ++ render.destination slot

def backUpText (slot : Slot) : Text := "Cannot back up " ++ render.destination slot

/-- A copy of an installed file, with its permissions. Only `omgd` may be missing. -/
def backUp (slot : Slot) : UpdateM ι UpdateError (Option BinaryFile) := do
  match ← (lstat slot).attempt with
  | .ok (.regular installed) => do
    let backup ← stageUpdateBinary render (fun files => files slot) (render.destination slot)
    privately.mapError (plain render)
    privately.mapError (plain render)
    return some { backup with mode := installed.mode }
  | .ok _ => .fail (withoutRecovery [refuseText render slot])
  | .error error =>
    if error = .notFound ∧ slot = .omgd then return none
    else .fail (context render (backUpText render slot) error)

/-- A replacement: its failure may be reported before or after it took effect. -/
abbrev Replace (ι : Type) : Type := BinaryFile → Slot → UpdateM ι UpdateError Unit

variable (replace : Replace ι)

def replaceOrRecover (backups : Slot → Option BinaryFile) (staged : BinaryFile) (slot : Slot) :
    UpdateM ι UpdateError Unit := do
  match ← (replace staged slot).attempt with
  | .ok () => return ()
  | .error error => recover render backups error

def overlapText : Text := "CLI and daemon destinations overlap"

def liftExcept {α : Type} : Result α → UpdateM ι UpdateError α
  | .ok a => .ret a
  | .error messages => .fail (withoutRecovery messages)

def backupPair (daemonBackup cliBackup : Option BinaryFile) : Slot → Option BinaryFile
  | .omgd => daemonBackup
  | .omg => cliBackup

def replacePair (update : Update) : UpdateM ι UpdateError Unit := do
  liftExcept (Text.ensure (update.fileName ≠ "omgd") overlapText)
  let daemonBackup ← backUp render .omgd
  let cliBackup ← backUp render .omg
  let daemon ← stageUpdateBinary render (fun _ => update.payload .omgd) (render.payload .omgd)
  let cli ← stageUpdateBinary render (fun _ => update.payload .omg) (render.payload .omg)
  let backups := backupPair daemonBackup cliBackup
  replaceOrRecover render replace backups daemon .omgd
  replaceOrRecover render replace backups cli .omg

/-- `open` of the lock file, which is created if it does not exist. -/
def openLock : UpdateM ι Errno Unit :=
  .perform fun fault m =>
    if fault then (.error .fault, m)
    else
      match m.lockFile with
      | none => (.ok (), { m with lockFile := some (.regular, 1) })
      | some (.symlink, _) => (.error .tooManyLinks, m)
      | some (.directory, _) => (.error .isADirectory, m)
      | some _ => (.ok (), m)

def lockMetadata : UpdateM ι Errno (Kind × ℕ) :=
  .perform fun fault m =>
    if fault then (.error .fault, m)
    else
      match m.lockFile with
      | none => (.error .notFound, m)
      | some metadata => (.ok metadata, m)

/-- `flock`, without waiting. -/
def tryLock (i : ι) : UpdateM ι Errno Unit :=
  .perform fun fault m =>
    if fault then (.error .fault, m)
    else
      match m.holder with
      | none => (.ok (), { m with holder := some (i, m.files) })
      | some _ => (.error .fault, m)

def release (i : ι) (result : Except UpdateError Unit) : UpdateM ι UpdateError Unit :=
  .perform fun _ m =>
    match m.holder with
    | none => (.ok (), m)
    | some (_, found) =>
      (.ok (), { m with
        holder := none
        sessions := m.sessions ++ [⟨i, found, m.files, result⟩] })

def parentText : Text := "Executable has no parent"

def unsafeLockText : Text := "Unsafe self-update lock"

def hardLinkedText : Text := "Unsafe hard-linked self-update lock"

def inProgressText : Text := "Another self-update is in progress; retry when it finishes"

def acquire (i : ι) (update : Update) : UpdateM ι UpdateError Unit := do
  let _parent ← liftExcept (Text.required update.parent parentText)
  openLock.mapError (plain render)
  let metadata ← lockMetadata.mapError (plain render)
  liftExcept (Text.ensure (metadata.1 = .regular) unsafeLockText)
  liftExcept (Text.ensure (metadata.2 = 1) hardLinkedText)
  (tryLock i).mapError (context render inProgressText)

def installUpdatePairWith (i : ι) (update : Update) : UpdateM ι UpdateError Unit := do
  acquire render i update
  let result ← (replacePair render replace update).attempt
  release i result
  liftM result

def installUpdatePair (i : ι) (update : Update) : UpdateM ι UpdateError Unit :=
  installUpdatePairWith render (persistUpdateBinary render) i update

def initial (updates : ι → Update) (files : Files) (lockFile : Option (Kind × ℕ)) :
    Machine.Config ι (UpdateM ι UpdateError Unit) (Installation ι) :=
  ⟨fun i => installUpdatePair render i (updates i), ⟨files, lockFile, none, []⟩⟩

end Omg.SelfUpdate
