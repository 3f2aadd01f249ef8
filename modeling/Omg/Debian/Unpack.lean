import Omg.Control.Except
import Omg.Fs.Places
import Omg.Runtime.Extract

/-!
# Unpacking a Debian package

The data archive of a package is unpacked below the root directory. Every path that is made, or is
going to be made, is recorded in a manifest. If unpacking fails then the paths of the manifest are
removed again, the last one first.

Every call of the operating system is one step, which may fail, and paths are resolved as the kernel
does. A regular file is written to an inode without a name, which then takes the place of the file.

Source: `src/package_managers/debian_db/transaction.rs`.
-/

namespace Omg.Debian

open Control Fs Text Steps
open Omg.Runtime (Entry EntryType Archive RelPath displayNames pathComponents)

/-! ### Paths -/

def plainNames (entryPath : OsString) : List (Component OsString) → Result (List OsString)
  | [] => .ok []
  | .normal part :: rest => do
    let names ← plainNames entryPath rest
    pure (part :: names)
  | .curDir :: rest => plainNames entryPath rest
  | .parentDir :: _ =>
    bail ("Unsafe data.tar entry (parent component): " ++ entryPath.toStringLossy)
  | .rootDir :: _ =>
    bail ("Unsafe data.tar entry (absolute or prefixed): " ++ entryPath.toStringLossy)

/-- `data_tar_entry_path`. -/
def dataTarEntryPath (entryPath : OsString) : Result RelPath := do
  let text := entryPath.toStringLossy
  let rel := (stripPrefix ['.', '/'] text).getD text
  let names ← plainNames entryPath (Runtime.components (.ofText rel))
  match names.reverse with
  | [] => bail "data.tar entry resolves to the filesystem root"
  | name :: parent => pure ⟨name, parent⟩

def linkMessage (problem link : Text) (target : OsString) : Text :=
  problem ++ link ++ " -> " ++ target.toStringLossy

def escapesMessage (link : Text) (target : OsString) : Text :=
  linkMessage "Archive symlink escapes the extraction directory: " link target

def relativeMessage (link : Text) (target : OsString) : Text :=
  linkMessage "Archive symlink target must be relative: " link target

def rootMessage (link : Text) (target : OsString) : Text :=
  linkMessage "Archive symlink target resolves to the extraction root: " link target

def rebaseTarget (link : Text) (target : OsString) :
    List OsString → List (Component OsString) → Result (List OsString)
  | rebased, [] => .ok rebased
  | rebased, .normal part :: rest => rebaseTarget link target (part :: rebased) rest
  | [], .parentDir :: _ => bail (escapesMessage link target)
  | _ :: rebased, .parentDir :: rest => rebaseTarget link target rebased rest
  | rebased, .curDir :: rest => rebaseTarget link target rebased rest
  | _, .rootDir :: _ => bail (relativeMessage link target)

def checkDepth (link : Text) (target : OsString) : ℕ → List (Component OsString) → Result Unit
  | _, [] => .ok ()
  | depth, .normal _ :: rest => checkDepth link target (depth + 1) rest
  | depth, .curDir :: rest => checkDepth link target depth rest
  | 0, .parentDir :: _ => bail (escapesMessage link target)
  | depth + 1, .parentDir :: rest => checkDepth link target depth rest
  | _, .rootDir :: _ => bail (relativeMessage link target)

/-- `validate_root_relative_link_target`, with the components of the target that is stored. -/
def validateRootRelativeLinkTarget (rootDir : OsString) (link : Text) (path : RelPath)
    (target : OsString) : Result (List (Component OsString)) :=
  match Runtime.components target with
  | .rootDir :: rest => do
    let rebased ← rebaseTarget link target [] rest
    ensure (rebased ≠ []) (rootMessage link target)
    pure (pathComponents rootDir ++ Disk.components rebased)
  | components => do
    checkDepth link target path.path.length components
    pure (pathComponents target)

/-- `PendingRootLink`. -/
inductive PendingRootLink
  | symbolic (path : RelPath) (target : List (Component OsString)) (display : Text)
  | hard (path target : RelPath)

/-! ### Calls of the operating system -/

structure UnpackWorld where
  disk : Disk OsString
  installedFiles : List RelPath

abbrev UnpackIo (α : Type) : Type := Steps UnpackWorld Errno α

abbrev UnpackM (α : Type) : Type := Steps UnpackWorld AnyhowError α

structure Unpacking where
  /-- The number of symbolic links that one resolution may follow. -/
  maxLinks : ℕ
  /-- The permissions of a directory and of a temporary file that are just made. -/
  directoryMode : ℕ
  fileMode : ℕ
  /-- The root directory as the caller wrote it, and where it is. -/
  rootDir : OsString
  root : Location OsString
  /-- The texts about a header that cannot be read and about the type of an entry. -/
  headerError : Text
  debugEntryType : Entry → Text

namespace Unpacking

variable (x : Unpacking)

def call {α : Type} (p : RelPath)
    (act : ℕ → Disk OsString → Except Errno α × Disk OsString) : UnpackIo α :=
  .step .fault fun w =>
    match w.disk.directoryAt x.maxLinks x.root p.parent with
    | .error e => (.error e, w)
    | .ok i => ((act i w.disk).1, { w with disk := (act i w.disk).2 })

def newEntry (name : OsString) (node : Node OsString) (i : ℕ) (disk : Disk OsString) :
    Except Errno Unit × Disk OsString :=
  match disk.lookup i name with
  | some _ => (.error .alreadyExists, disk)
  | none => (.ok (), disk.make i name node)

/-- `fs::create_dir`. -/
def createDir (p : RelPath) : UnpackIo Unit :=
  x.call p (newEntry p.name (.directory x.directoryMode []))

/-- `symlink`. An empty target is refused. -/
def symlink (target : List (Component OsString)) (p : RelPath) : UnpackIo Unit :=
  if target = [] then throw .notFound else x.call p (newEntry p.name (.symlink target))

/-- `fs::symlink_metadata`: whether the object is a directory. -/
def symlinkMetadata (p : RelPath) : UnpackIo Bool :=
  x.call p fun i disk =>
    match disk.lookup i p.name with
    | none => (.error .notFound, disk)
    | some j => (.ok (decide (disk.IsDirectory j)), disk)

def unlinkEntry (name : OsString) (i : ℕ) (disk : Disk OsString) :
    Except Errno Unit × Disk OsString :=
  match disk.lookup i name with
  | none => (.error .notFound, disk)
  | some j =>
    if disk.IsDirectory j then (.error .isADirectory, disk) else (.ok (), disk.remove i name)

def rmdirEntry (name : OsString) (i : ℕ) (disk : Disk OsString) :
    Except Errno Unit × Disk OsString :=
  match disk.lookup i name with
  | none => (.error .notFound, disk)
  | some j =>
    match disk.entries j with
    | none => (.error .notADirectory, disk)
    | some [] => (.ok (), disk.remove i name)
    -- The directory is not empty.
    | some _ => (.error .fault, disk)

/-- `fs::remove_file`. -/
def removeFile (p : RelPath) : UnpackIo Unit := x.call p (unlinkEntry p.name)

/-- `fs::remove_dir`. -/
def removeDir (p : RelPath) : UnpackIo Unit := x.call p (rmdirEntry p.name)

/-- `fs::set_permissions`, which follows links. -/
def setPermissions (p : RelPath) (mode : ℕ) : UnpackIo Unit :=
  .step .fault fun w =>
    match (w.disk.walk x.maxLinks x.root (Disk.components p.path)).2 with
    | .error e => (.error e, w)
    | .ok loc => (.ok (), { w with disk := w.disk.update loc.inode (.chmod mode) })

/-- `NamedTempFile::new_in`: the result is the inode. -/
def createTemporary (p : RelPath) : UnpackIo ℕ :=
  x.call p fun _ disk => (.ok disk.size, disk.grow (.file x.fileMode []))

def modify (file : ℕ) (g : Node OsString → Node OsString) : UnpackIo Unit :=
  .step .fault fun w => (.ok (), { w with disk := w.disk.update file g })

def renameEntry (name : OsString) (file i : ℕ) (disk : Disk OsString) :
    Except Errno Unit × Disk OsString :=
  match disk.lookup i name with
  | none => (.ok (), disk.replace i name file)
  | some j =>
    if disk.IsDirectory j then (.error .isADirectory, disk)
    else (.ok (), disk.replace i name file)

/-- `NamedTempFile::persist`. -/
def persist (file : ℕ) (p : RelPath) : UnpackIo Unit := x.call p (renameEntry p.name file)

def linkEntry (name : OsString) (j i : ℕ) (disk : Disk OsString) :
    Except Errno Unit × Disk OsString :=
  if disk.IsDirectory j then (.error .notPermitted, disk)
  else
    match disk.lookup i name with
    | some _ => (.error .alreadyExists, disk)
    | none => (.ok (), disk.add i name j)

def inodeAt (disk : Disk OsString) (p : RelPath) : Except Errno ℕ :=
  match disk.directoryAt x.maxLinks x.root p.parent with
  | .error e => .error e
  | .ok i =>
    match disk.lookup i p.name with
    | none => .error .notFound
    | some j => .ok j

/-- `fs::hard_link`. -/
def hardLink (target p : RelPath) : UnpackIo Unit :=
  x.call p fun i disk =>
    match x.inodeAt disk target with
    | .error e => (.error e, disk)
    | .ok j => linkEntry p.name j i disk

def push (p : RelPath) : UnpackM Unit :=
  .assign fun w => { w with installedFiles := w.installedFiles ++ [p] }

/-- `Path::display` of a path below the root directory. -/
def display (path : List OsString) : Text :=
  let root := x.rootDir.toStringLossy
  (if root.getLast? = some '/' then root else root ++ ['/']) ++ displayNames path

def io {α : Type} (context : Text) (y : UnpackIo α) : UnpackM α :=
  y.mapError fun e => [context, Runtime.Extraction.errnoText e]

/-! ### Directories and files -/

def missingAncestors :
    List OsString → List (List OsString) → UnpackM (List RelPath × List (List OsString))
  | [], seen => pure ([], seen)
  | name :: parent, seen =>
    if (name :: parent) ∈ seen then pure ([], seen)
    else do
      match ← attempt (x.symlinkMetadata ⟨name, parent⟩) with
      | .ok true => missingAncestors parent ((name :: parent) :: seen)
      | .ok false =>
        throw ["Extraction parent " ++ x.display (name :: parent) ++
          " is not a directory"]
      | .error .notFound => do
        let (missing, seen) ← missingAncestors parent ((name :: parent) :: seen)
        pure (⟨name, parent⟩ :: missing, seen)
      | .error e =>
        throw ["Failed to inspect " ++ x.display (name :: parent) ++
          " for extraction", Runtime.Extraction.errnoText e]

def createMissing : List RelPath → UnpackM Unit
  | [] => pure ()
  | dir :: dirs => do
    io ("Failed to create directory " ++ x.display dir.path) (x.createDir dir)
    push dir
    createMissing dirs

/-- `ensure_parent_dirs_recorded`. -/
def ensureParentDirsRecorded (p : RelPath) (seen : List (List OsString)) :
    UnpackM (List (List OsString)) := do
  let (missing, seen) ← x.missingAncestors p.parent seen
  x.createMissing missing.reverse
  pure seen

def copyData (context : Text) (file : ℕ) : List (Except Text (List UInt8)) → UnpackM Unit
  | [] => pure ()
  | .error e :: _ => throw [context, e]
  | .ok bytes :: rest => do
    io context (modify file (.append bytes))
    copyData context file rest

def writeTemporary (entry : Entry) (p : RelPath) (mode : ℕ) : UnpackM ℕ := do
  let file ← io ("Failed to create temporary archive file beside " ++ x.display p.path)
    (x.createTemporary p)
  copyData ("Failed to write archive file: " ++ x.display p.path) file entry.data
  (modify file (.chmod mode)).mapError fun e => [Runtime.Extraction.errnoText e]
  pure file

/-- `write_archive_regular_file`. -/
def writeArchiveRegularFile (entry : Entry) (p : RelPath) (mode : ℕ) : UnpackM Unit := do
  let file ← x.writeTemporary entry p mode
  io ("Failed to publish archive file: " ++ x.display p.path) (x.persist file p)

def createRootLink (extracted : List RelPath) : PendingRootLink → UnpackM Unit
  | .symbolic path target display =>
    io ("Failed to create archive symlink " ++ x.display path.path ++ " -> " ++
      display) (x.symlink target path)
  | .hard path target => do
    ensure (target ∈ extracted)
      ("Archive hard-link target was not extracted from this archive: " ++
        x.display path.path ++ " -> " ++ x.display target.path)
    io ("Failed to create archive hard link " ++ x.display path.path ++ " -> " ++
      x.display target.path) (x.hardLink target path)

/-- `create_root_links`. -/
def createRootLinks (extracted : List RelPath) : List PendingRootLink → UnpackM Unit
  | [] => pure ()
  | link :: links => do
    x.createRootLink extracted link
    createRootLinks extracted links

/-! ### Entries -/

structure Progress where
  pendingLinks : List PendingRootLink := []
  seenDirs : List (List OsString) := []
  extractedRegularFiles : List RelPath := []

def createDirIfMissing (p : RelPath) : UnpackM Unit := do
  match ← attempt (x.createDir p) with
  | .ok () => pure ()
  | .error .alreadyExists => pure ()
  | .error e =>
    throw ["Failed to create directory " ++ x.display p.path, Runtime.Extraction.errnoText e]

def extractDirectory (entry : Entry) (p : RelPath) (progress : Progress) : UnpackM Progress := do
  let seenDirs ← x.ensureParentDirsRecorded p progress.seenDirs
  x.createDirIfMissing p
  let mode ← required entry.mode x.headerError
  io ("Failed to apply directory mode to " ++ x.display p.path) (x.setPermissions p mode)
  push p
  pure { progress with seenDirs }

def extractSymlink (entry : Entry) (p : RelPath) (progress : Progress) : UnpackM Progress := do
  let target ← required entry.linkName "Archive symlink is missing its target"
  let stored ← validateRootRelativeLinkTarget x.rootDir (x.display p.path) p target
  push p
  pure { progress with
    pendingLinks := progress.pendingLinks ++ [.symbolic p stored target.toStringLossy] }

def extractHardLink (entry : Entry) (p : RelPath) (progress : Progress) : UnpackM Progress := do
  let linkName ← required entry.linkName "Archive hard link is missing its target"
  let target ← dataTarEntryPath linkName
  push p
  pure { progress with pendingLinks := progress.pendingLinks ++ [.hard p target] }

def extractRegular (entry : Entry) (p : RelPath) (progress : Progress) : UnpackM Progress := do
  let seenDirs ← x.ensureParentDirsRecorded p progress.seenDirs
  let mode ← required entry.mode x.headerError
  x.writeArchiveRegularFile entry p mode
  push p
  pure { progress with
    seenDirs, extractedRegularFiles := p :: progress.extractedRegularFiles }

def extractEntry (entry : Entry) (progress : Progress) : UnpackM Progress := do
  let p ← dataTarEntryPath entry.path
  match entry.entryType with
  | .directory => x.extractDirectory entry p progress
  | .symlink => x.extractSymlink entry p progress
  | .link => extractHardLink entry p progress
  | .regular => x.extractRegular entry p progress
  | .other =>
    throw ["Unsupported special entry in package data.tar: " ++ x.display p.path ++
      " (" ++ x.debugEntryType entry ++ ")"]

def extractEntries : Archive → Progress → UnpackM Progress
  | [], progress => pure progress
  | .error e :: _, _ => throw [e]
  | .ok entry :: rest, progress => do
    let progress ← x.extractEntry entry progress
    extractEntries rest progress

/-- `extract_tar_stream_to_root_at`. The manifest is left in the world. -/
def extractTarStreamToRootAt (archive : Archive) : UnpackM Unit := do
  let progress ← x.extractEntries archive {}
  x.createRootLinks progress.extractedRegularFiles progress.pendingLinks

/-! ### Rollback -/

def removeFileTolerant (p : RelPath) : UnpackM Unit := do
  match ← attempt (x.removeFile p) with
  | .ok () => pure ()
  | .error .notFound => pure ()
  | .error e =>
    throw ["Failed to remove " ++ x.display p.path, Runtime.Extraction.errnoText e]

/-- `remove_file_if_present`. -/
def removeFileIfPresent (p : RelPath) : UnpackM Unit := do
  match ← attempt (x.symlinkMetadata p) with
  | .ok true =>
    io ("Failed to remove directory " ++ x.display p.path) (x.removeDir p)
  | .ok false => x.removeFileTolerant p
  | .error .notFound => pure ()
  | .error e =>
    throw ["Failed to inspect " ++ x.display p.path ++ " for removal",
      Runtime.Extraction.errnoText e]

def removePaths : List RelPath → UnpackM (List AnyhowError)
  | [] => pure []
  | p :: paths => do
    let outcome ← attempt (x.removeFileIfPresent p)
    let failures ← removePaths paths
    match outcome with
    | .ok () => pure failures
    | .error e => pure (e :: failures)

def rollbackResult (failures : List AnyhowError) : Result Unit :=
  match failures with
  | [] => .ok ()
  | e :: _ =>
    bail ("Rollback incomplete: " ++ decimal failures.length ++
      " installed path(s) could not be removed, " ++ decimal 0 ++
      " backup(s) could not be restored; system may need manual repair. " ++
      "First removal failure: " ++ (e.head?.getD []) ++
      "; first restore failure: ")

/-- `Transaction::rollback`. There are no backups before the packages are configured. -/
def rollback (installedFiles : List RelPath) : UnpackM Unit := do
  let failures ← x.removePaths installedFiles.reverse
  liftM (rollbackResult failures)

end Unpacking

/-!
### Targets of symbolic links in a Debian package

A target is read component by component, and a counter holds how many names the place that it leads
to has below the extraction root. A relative target is resolved from the directory that the link is
in. The counter starts with the number of names of the link itself, which is one too many, so a
target may climb just above the root.
-/

open List Disk

/-- The names below the extraction root that components lead to, last name first, unless they climb
above the root. -/
def resolveLexically : List OsString → List (Component OsString) → Option (List OsString)
  | resolved, [] => some resolved
  | resolved, .normal part :: rest => resolveLexically (part :: resolved) rest
  | resolved, .curDir :: rest => resolveLexically resolved rest
  | [], .parentDir :: _ => none
  | _ :: resolved, .parentDir :: rest => resolveLexically resolved rest
  | _, .rootDir :: _ => none

/-- A target leads to a place at or below the extraction root and never leaves it. An absolute one
has the path of the root in front, a relative one starts in the directory of the link. -/
def StaysInside (rootDir : OsString) (path : RelPath) (target : List (Component OsString)) : Prop :=
  if target.head? = some .rootDir then
    ∃ rest, target = pathComponents rootDir ++ rest ∧ (resolveLexically [] rest).isSome
  else (resolveLexically path.parent target).isSome

/-- `Path::is_absolute`. -/
def IsAbsolute (path : OsString) : Prop := (pathComponents path).head? = some .rootDir

/-! ### Counting levels -/

/-- The components are relative, and lead at most `depth` levels up. -/
def ClimbsAtMost : ℕ → List (Component OsString) → Prop
  | _, [] => True
  | depth, .normal _ :: rest => ClimbsAtMost (depth + 1) rest
  | depth, .curDir :: rest => ClimbsAtMost depth rest
  | 0, .parentDir :: _ => False
  | depth + 1, .parentDir :: rest => ClimbsAtMost depth rest
  | _, .rootDir :: _ => False

def levelsUp (components : List (Component OsString)) : ℕ := components.count .parentDir

def levelsDown (components : List (Component OsString)) : ℕ :=
  components.countP fun
    | .normal _ => true
    | _ => false

variable {depth : ℕ} {components rest : List (Component OsString)} {rootDir target : OsString}
  {link : Text} {path : RelPath} {stored : List (Component OsString)}

lemma isSome_resolveLexically {resolved : List OsString} :
    (resolveLexically resolved components).isSome ↔ ClimbsAtMost resolved.length components := by
  fun_induction resolveLexically resolved components with
  | case1 => simp [ClimbsAtMost]
  | case2 resolved part rest ih => exact ih
  | case3 resolved rest ih => exact ih
  | case4 => simp [ClimbsAtMost]
  | case5 name resolved rest ih => exact ih
  | case6 => simp [ClimbsAtMost]

lemma checkDepth_eq_ok {link : Text} {target : OsString} :
    checkDepth link target depth components = .ok () ↔ ClimbsAtMost depth components := by
  fun_induction checkDepth link target depth components with
  | case1 => simp [ClimbsAtMost]
  | case2 depth part rest ih => exact ih
  | case3 depth rest ih => exact ih
  | case4 => simp [ClimbsAtMost, bail]
  | case5 depth rest ih => exact ih
  | case6 => simp [ClimbsAtMost, bail]

lemma forall_isPrefix_cons {α : Type} {P : List α → Prop} {a : α} {l : List α} :
    (∀ part, part <+: a :: l → P part) ↔ P [] ∧ ∀ part, part <+: l → P (a :: part) := by
  constructor
  · exact fun h => ⟨h [] nil_prefix, fun part hpa =>
      h _ (cons_prefix_cons.mpr ⟨rfl, hpa⟩)⟩
  · rintro ⟨hnil, hcn⟩ part hpa
    rcases prefix_cons_iff.mp hpa with rfl | ⟨part, rfl, hta⟩
    · exact hnil
    · exact hcn part hta

lemma climbsAtMost_iff : ClimbsAtMost depth components ↔ .rootDir ∉ components ∧
      ∀ part, part <+: components → levelsUp part ≤ levelsDown part + depth := by
  fun_induction ClimbsAtMost depth components with
  | case1 => simp [levelsUp]
  | case2 depth name rest ih =>
    rw [ih, forall_isPrefix_cons]
    simp [levelsUp, levelsDown, Nat.add_assoc, Nat.add_comm 1]
  | case3 depth rest ih =>
    rw [ih, forall_isPrefix_cons]
    simp [levelsUp, levelsDown]
  | case4 rest =>
    rw [forall_isPrefix_cons]
    simp only [false_iff, not_and]
    intro _ _ h
    simpa [levelsUp, levelsDown] using h [] nil_prefix
  | case5 depth rest ih =>
    rw [ih, forall_isPrefix_cons]
    simp [levelsUp, levelsDown, ← Nat.add_assoc]
  | case6 => simp

lemma climbsAtMost_filter :
    ClimbsAtMost depth (components.filter fun c => c ≠ .curDir) ↔
      ClimbsAtMost depth components := by
  fun_induction ClimbsAtMost depth components with
  | case1 => simp [ClimbsAtMost]
  | case2 depth name rest ih => exact ih
  | case3 depth rest ih => exact ih
  | case4 => simp [ClimbsAtMost]
  | case5 depth rest ih => exact ih
  | case6 => simp [ClimbsAtMost]

/-- `Path::components` leaves out only what leads nowhere. -/
lemma climbsAtMost_components {target : OsString} :
    ClimbsAtMost depth (Runtime.components target) ↔
      ClimbsAtMost depth (pathComponents target) := by
  unfold Runtime.components
  cases hcom : pathComponents target with
  | nil => rfl
  | cons first rest =>
    cases first with
    | normal name => exact climbsAtMost_filter
    | curDir => exact climbsAtMost_filter
    | rootDir => simp only [ClimbsAtMost]
    | parentDir =>
      cases depth with
      | zero => simp only [ClimbsAtMost]
      | succ depth => exact climbsAtMost_filter

lemma climbsAtMost_names (path : List OsString) (depth : ℕ) :
    ClimbsAtMost depth (path.map .normal) := by
  induction path generalizing depth with
  | nil => exact trivial
  | cons name path ih => exact ih (depth + 1)

lemma climbsAtMost_append_names {path : List OsString} :
    ClimbsAtMost depth (components ++ Disk.components path) ↔ ClimbsAtMost depth components := by
  fun_induction ClimbsAtMost depth components with
  | case1 depth => exact iff_of_true (climbsAtMost_names _ depth) trivial
  | case2 depth name rest ih => exact ih
  | case3 depth rest ih => exact ih
  | case4 rest => exact Iff.rfl
  | case5 depth rest ih => exact ih
  | case6 => simp [ClimbsAtMost]

lemma head?_components {target : OsString} :
    (Runtime.components target).head? = (pathComponents target).head? := by
  unfold Runtime.components
  cases pathComponents target <;> rfl

lemma pathComponent_ne_rootDir (part : OsString) : Runtime.pathComponent part ≠ .rootDir := by
  unfold Runtime.pathComponent
  split_ifs <;> simp

lemma rootDir_notMem_pathComponents {path : OsString} (h : ¬IsAbsolute path) :
    .rootDir ∉ pathComponents path := by
  unfold IsAbsolute at h
  unfold pathComponents at h ⊢
  split at h
  · simp
  · simp at h
  · intro hmem
    obtain ⟨part, -, hpa⟩ := mem_map.mp hmem
    exact pathComponent_ne_rootDir part hpa

/-! ### Accepted targets -/

lemma validateRootRelativeLinkTarget_cases
    (h : validateRootRelativeLinkTarget rootDir link path target = .ok stored) :
    (IsAbsolute target ∧ ∃ rebased, stored = pathComponents rootDir ++ Disk.components rebased) ∨
      (¬IsAbsolute target ∧ ClimbsAtMost path.path.length (pathComponents target) ∧
        stored = pathComponents target) := by
  rw [← climbsAtMost_components]
  unfold IsAbsolute
  rw [← head?_components]
  unfold validateRootRelativeLinkTarget at h
  split at h
  · rename_i rest hcom
    obtain ⟨rebased, -, h⟩ := Control.bind_eq_ok.mp h
    obtain ⟨_, -, h⟩ := Control.bind_eq_ok.mp h
    cases h
    exact .inl ⟨by rw [hcom]; rfl, rebased, rfl⟩
  · rename_i hrel
    obtain ⟨⟨⟩, hdep, h⟩ := Control.bind_eq_ok.mp h
    cases h
    refine .inr ⟨fun habs => ?_, checkDepth_eq_ok.mp hdep, rfl⟩
    obtain ⟨rest, hr⟩ := head?_eq_some_iff.mp habs
    exact hrel rest hr

lemma climbsAtMost_parent_iff (h : ClimbsAtMost path.path.length components) :
    ClimbsAtMost path.parent.length components ↔
      ∀ part, part <+: components → levelsUp part ≠ levelsDown part + path.path.length := by
  have hlen : path.path.length = path.parent.length + 1 := rfl
  obtain ⟨hro, hlvs⟩ := climbsAtMost_iff.mp h
  rw [climbsAtMost_iff, and_iff_right hro]
  refine forall₂_congr fun part hpa => ?_
  have hpa := hlvs part hpa
  omega

/-- A target that is accepted stays inside the extraction root unless it is relative and some part
of it leads up as many levels as the link has names, or it is absolute and the root is a relative
path that leads up more levels than the directory of the link has names. -/
theorem link_target_inside_iff
    (h : validateRootRelativeLinkTarget rootDir link path target = .ok stored) :
    StaysInside rootDir path stored ↔
      (¬IsAbsolute target → ∀ part, part <+: pathComponents target →
        levelsUp part ≠ levelsDown part + path.path.length) ∧
      (IsAbsolute target → ¬IsAbsolute rootDir → ∀ part, part <+: pathComponents rootDir →
        levelsUp part ≤ levelsDown part + path.parent.length) := by
  rcases validateRootRelativeLinkTarget_cases h with ⟨habs, rebased, rfl⟩ | ⟨hrel, hcli, rfl⟩
  · rw [and_iff_right (absurd habs ·), forall_prop_of_true habs]
    by_cases hro : IsAbsolute rootDir
    · refine iff_of_true ?_ (absurd hro ·)
      have hh : (pathComponents rootDir ++ components rebased).head? = some .rootDir := by
        rw [head?_append, hro]
        rfl
      rw [StaysInside, if_pos hh]
      exact ⟨_, rfl, isSome_resolveLexically.mpr (climbsAtMost_names _ _)⟩
    · have hh : (pathComponents rootDir ++ components rebased).head? ≠ some .rootDir := by
        intro hh
        have hmem := mem_of_mem_head? hh
        rcases mem_append.mp hmem with hmem | hmem
        · exact rootDir_notMem_pathComponents hro hmem
        · simp [components] at hmem
      rw [StaysInside, if_neg hh, isSome_resolveLexically, climbsAtMost_append_names,
        climbsAtMost_iff, and_iff_right (rootDir_notMem_pathComponents hro),
        forall_prop_of_true hro]
  · rw [and_iff_left (absurd · hrel), forall_prop_of_true hrel, StaysInside,
      if_neg (show ¬(pathComponents target).head? = some .rootDir from hrel),
      isSome_resolveLexically]
    exact climbsAtMost_parent_iff hcli

def stagingRoot : OsString := .ofText "/srv/root"

/-- A link at the top of the archive may lead to a sibling of the root. -/
theorem link_target_escapes : ∃ path stored, dataTarEntryPath (.ofText "./out".toList) = .ok path ∧
      validateRootRelativeLinkTarget stagingRoot "/srv/root/out".toList path
        (.ofText "../outside".toList) = .ok stored ∧
      ¬StaysInside stagingRoot path stored := by
  refine ⟨⟨.ofText "out", []⟩, pathComponents (.ofText "../outside"), ?_, ?_, ?_⟩
  · decide +kernel
  · decide +kernel
  · rw [StaysInside, if_neg (by decide +kernel)]
    decide +kernel

/-- A link may lead to another directory below the root. -/
theorem link_target_beside :
    ∃ path stored, validateRootRelativeLinkTarget stagingRoot "/srv/root/lib/libz.so".toList path
        (.ofText "../usr/libz.so.1".toList) = .ok stored ∧
      StaysInside stagingRoot path stored := by
  have hok : validateRootRelativeLinkTarget stagingRoot "/srv/root/lib/libz.so"
      ⟨.ofText "libz.so", [.ofText "lib"]⟩ (.ofText "../usr/libz.so.1") =
        .ok (pathComponents (.ofText "../usr/libz.so.1")) := by decide +kernel
  refine ⟨_, _, hok, (link_target_inside_iff hok).mpr ⟨fun _ part hpa => ?_, fun habs => ?_⟩⟩
  · have hps : ∀ part ∈ (pathComponents (.ofText "../usr/libz.so.1")).inits,
        levelsUp part ≠ levelsDown part + 2 := by decide +kernel
    exact hps part ((mem_inits _ _).mpr hpa)
  · exact absurd habs (by unfold IsAbsolute; decide +kernel)

end Omg.Debian
