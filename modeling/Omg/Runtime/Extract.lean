import Omg.Control.Steps
import Omg.Fs.Contained
import Omg.Text.Basic

/-!
# Extraction of runtime archives

The extractor that all runtime installers share. It makes directories and files as it reads the
entries of a tar archive, and symbolic and hard links after the last entry. Every call of the
operating system is one step, which may fail, and paths are resolved as the kernel does, with the
symbolic links that exist at that time.

Source: `src/runtimes/common.rs` and `src/core/archive.rs`. What `Entry::unpack` of the `tar` crate
does with a regular file is a parameter.
-/

namespace Omg.Runtime

open Control Fs Text

/-! ### Paths -/

def pathComponent (part : OsString) : Component OsString :=
  if part = [] ∨ part = [.char '.'] then .curDir
  else if part = [.char '.', .char '.'] then .parentDir
  else .normal part

def pathComponents (path : OsString) : List (Component OsString) :=
  match Path.parts path with
  | [[]] => []
  | [] :: rest => .rootDir :: rest.map pathComponent
  | parts => parts.map pathComponent

/-- `Path::components`, which leaves out `.` unless it comes first. -/
def components (path : OsString) : List (Component OsString) :=
  match pathComponents path with
  | [] => []
  | c :: rest => c :: rest.filter fun c => c ≠ .curDir

/-- `OsStr::len`. -/
def byteLen (path : OsString) : ℕ :=
  (path.map fun
    | .char c => c.utf8Size
    | .invalid bytes => bytes.length).sum

structure RelPath where
  name : OsString
  parent : List OsString
deriving DecidableEq

def RelPath.path (p : RelPath) : List OsString := p.name :: p.parent

/-- `Path::display` of a path of names. -/
def displayNames (path : List OsString) : Text :=
  List.intercalate ['/'] (path.reverse.map OsString.toStringLossy)

def normalNames (path : OsString) : List (Component OsString) → Result (List OsString)
  | [] => .ok []
  | .normal value :: rest => do
    let names ← normalNames path rest
    pure (value :: names)
  | .curDir :: rest => normalNames path rest
  | .rootDir :: _ | .parentDir :: _ =>
    bail ("Unsafe path in archive: " ++ path.toStringLossy)

def strippedArchivePath (stripComponents : ℕ) (path : OsString) : Result (Option RelPath) := do
  let names ← normalNames path (components path)
  match (names.drop stripComponents).reverse with
  | [] => pure none
  | name :: parent => pure (some ⟨name, parent⟩)

/-- What `validate_relative_symlink_target` does with the components of the target. -/
def followLexically (linkPath : List OsString) (target : OsString) :
    List OsString → List (Component OsString) → Result Unit
  | _, [] => .ok ()
  | resolved, .normal part :: rest => followLexically linkPath target (part :: resolved) rest
  | resolved, .curDir :: rest => followLexically linkPath target resolved rest
  | [], .parentDir :: _ =>
    bail ("Archive symlink escapes the extraction directory: " ++ displayNames linkPath ++
      " -> " ++ target.toStringLossy)
  | _ :: resolved, .parentDir :: rest => followLexically linkPath target resolved rest
  | _, .rootDir :: _ =>
    bail ("Archive symlink target must be relative: " ++ displayNames linkPath ++
      " -> " ++ target.toStringLossy)

def validateRelativeSymlinkTarget (linkPath : RelPath) (target : OsString) : Result Unit :=
  followLexically linkPath.path target linkPath.parent (components target)

inductive EntryType
  | regular
  | directory
  | symlink
  | link
  | other
deriving DecidableEq

structure Entry where
  path : OsString
  entryType : EntryType
  linkName : Option OsString
  ustar : Bool
  mode : Option ℕ
  data : List (Except Text (List UInt8))

abbrev Archive : Type := List (Except Text Entry)

def maxArchiveEntries : ℕ := 250000

structure ArchiveEntryBudget where
  entries : ℕ := 0
  pathBytes : ℕ := 0

def ArchiveEntryBudget.charge (budget : ArchiveEntryBudget) (path : OsString) :
    Result ArchiveEntryBudget := do
  let entries := budget.entries + 1
  let pathBytes := budget.pathBytes + byteLen path
  ensure (pathBytes < 2 ^ 64) "Archive path budget overflow"
  ensure (entries ≤ maxArchiveEntries && (components path).length ≤ 64 &&
    pathBytes ≤ 32 * 1024 * 1024) "Archive exceeds entry count, depth, or pathname budget"
  pure ⟨entries, pathBytes⟩

inductive PendingArchiveLink
  | symbolic (path : RelPath) (target : OsString)
  | hard (path target : RelPath)

def PendingArchiveLink.path : PendingArchiveLink → RelPath
  | .symbolic path _ => path
  | .hard path _ => path

/-! ### Calls of the operating system -/

structure World where
  disk : Disk OsString
  /-- By calls other than `canonicalize`. -/
  entered : List ℕ := []
  /-- By `canonicalize`. -/
  probed : List ℕ := []

structure Extraction where
  /-- The number of symbolic links that one resolution may follow. -/
  maxLinks : ℕ
  /-- The permissions of a directory and of a file that are just made. -/
  directoryMode : ℕ
  fileMode : ℕ
  destDir : OsString
  dest : Location OsString

abbrev IoM (α : Type) : Type := Steps World Errno α

abbrev ResultM (α : Type) : Type := Steps World AnyhowError α

namespace Extraction

variable (x : Extraction)

def resolved {α : Type} (path : List OsString)
    (act : Location OsString → World → Except Errno α × World) (w : World) :
    Except Errno α × World :=
  let r := w.disk.walk x.maxLinks x.dest (Disk.components path)
  let w := { w with entered := r.1 ++ w.entered }
  match r.2 with
  | .error e => (.error e, w)
  | .ok loc => act loc w

def inDirectory {α : Type} (path : List OsString)
    (act : Location OsString → World → Except Errno α × World) : World → Except Errno α × World :=
  x.resolved path fun parent w =>
    if w.disk.IsDirectory parent.inode then act parent w else (.error .notADirectory, w)

def create (p : RelPath) (node : Node OsString) : IoM ℕ :=
  .step .fault <| x.inDirectory p.parent fun parent w =>
    match w.disk.lookup parent.inode p.name with
    | some _ => (.error .alreadyExists, w)
    | none => (.ok w.disk.size, { w with disk := w.disk.make parent.inode p.name node })

/-- `mkdir`. The destination itself exists. -/
def mkdir : List OsString → IoM Unit
  | [] => .step .fault fun w => (.error .alreadyExists, w)
  | name :: parent => do
    let _ ← x.create ⟨name, parent⟩ (.directory x.directoryMode [])

/-- `symlink`. An empty target is refused. -/
def symlink (target : OsString) (p : RelPath) : IoM Unit :=
  if pathComponents target = [] then throw .notFound
  else do
    let _ ← x.create p (.symlink (pathComponents target))

/-- `link`. The file was found by `canonicalize`. -/
def hardLink (file : Location OsString) (p : RelPath) : IoM Unit :=
  .step .fault <| x.inDirectory p.parent fun parent w =>
    match w.disk.lookup parent.inode p.name with
    | some _ => (.error .alreadyExists, w)
    | none =>
      if w.disk.IsDirectory file.inode then (.error .notPermitted, w)
      else (.ok (), { w with disk := w.disk.add parent.inode p.name file.inode })

/-- `Path::is_dir`. -/
def isDir (path : List OsString) : IoM Bool :=
  tryCatch
    (.step .fault <| x.resolved path fun loc w => (.ok (decide (w.disk.IsDirectory loc.inode)), w))
    fun _ => pure false

/-- `Path::canonicalize`. The result is the canonical path with its inodes. -/
def canonicalize (path : List OsString) : IoM (Location OsString) :=
  .step .fault fun w =>
    let r := w.disk.walk x.maxLinks x.dest (Disk.components path)
    (r.2, { w with probed := r.1 ++ w.probed })

/-! ### Directories and links -/

def unlessDir (path : List OsString) (e : Errno) : IoM Unit := do
  if ← x.isDir path then pure () else throw e

/-- `fs::create_dir_all`. -/
def createDirAll : List OsString → IoM Unit
  | [] => tryCatch (x.mkdir []) (x.unlessDir [])
  | name :: parent =>
    tryCatch (x.mkdir (name :: parent)) fun e =>
      if e = .notFound then do
        createDirAll parent
        tryCatch (x.mkdir (name :: parent)) (x.unlessDir (name :: parent))
      else x.unlessDir (name :: parent) e

def errnoText : Errno → Text
  | .notFound => "No such file or directory (os error 2)"
  | .alreadyExists => "File exists (os error 17)"
  | .notADirectory => "Not a directory (os error 20)"
  | .isADirectory => "Is a directory (os error 21)"
  | .notPermitted => "Operation not permitted (os error 1)"
  | .tooManyLinks => "Too many levels of symbolic links (os error 40)"
  | .fault => "Input/output error (os error 5)"

def io {α : Type} (y : IoM α) : ResultM α := y.mapError fun e => [errnoText e]

/-- `Path::display` of a path below the destination. -/
def display (path : List OsString) : Text := x.destDir.toStringLossy ++ ['/'] ++ displayNames path

def createArchiveLink (root : Location OsString) : PendingArchiveLink → ResultM Unit
  | .symbolic path target =>
    (x.symlink target path).mapError fun e =>
      ["Failed to create archive symlink " ++ x.display path.path ++ " -> " ++
        target.toStringLossy, errnoText e]
  | .hard path target => do
    let target ← (x.canonicalize target.path).mapError fun e =>
      ["Invalid archive hard link target", errnoText e]
    ensure (root.names.isSuffixOf target.names)
      "Archive hard link escapes the extraction directory"
    (x.hardLink target path).mapError fun e =>
      ["Failed to create archive hard link " ++ ['/'] ++ displayNames target.names ++
        " -> " ++ x.display path.path, errnoText e]

def createLinks (root : Location OsString) : List PendingArchiveLink → ResultM Unit
  | [] => pure ()
  | link :: links => do
    x.createArchiveLink root link
    createLinks root links

def symbolicPaths (links : List PendingArchiveLink) : List RelPath :=
  links.filterMap fun
    | .symbolic path _ => some path
    | .hard _ _ => none

def checkLinks (root : Location OsString) : List RelPath → ResultM Unit
  | [] => pure ()
  | path :: paths => do
    let resolved ← (x.canonicalize path.path).mapError fun e =>
      ["Unresolvable archive symlink: " ++ x.display path.path, errnoText e]
    ensure (root.names.isSuffixOf resolved.names)
      ("Archive symlink escapes the extraction directory: " ++ x.display path.path)
    checkLinks root paths

def createArchiveLinks (links : List PendingArchiveLink) : ResultM Unit := do
  let root ← io (x.canonicalize [])
  x.createLinks root links
  x.checkLinks root (symbolicPaths links)

/-! ### Entries -/

/-- The paths below the destination that the paths in the archive stand for. -/
abbrev Selector : Type := OsString → Result (Option RelPath)

/-- `Entry::unpack` of the `tar` crate, for the path below the destination that it is given. -/
abbrev Unpack : Type := Entry → RelPath → ResultM Unit

variable (unpack : Unpack)

def extractEntry (select : Selector) (entry : Entry) (p : RelPath) :
    ResultM (Option PendingArchiveLink) := do
  io (x.createDirAll p.parent)
  match entry.entryType with
  | .directory => do
    io (x.createDirAll p.path)
    pure none
  | .regular => do
    unpack entry p
    pure none
  | .symlink => do
    let target ← required entry.linkName "Archive symlink is missing its target"
    validateRelativeSymlinkTarget p target
    pure (some (.symbolic p target))
  | .link => do
    let target ← required entry.linkName "Archive hard link is missing its target"
    let selected ← select target
    let target ← required selected
      "Archive hard link target was excluded by the entry selector"
    pure (some (.hard p target))
  | .other =>
    throw ["Unsupported special entry in runtime archive: " ++ entry.path.toStringLossy]

def extractEntries (select : Selector) : ArchiveEntryBudget → List PendingArchiveLink → Archive →
    ResultM (List PendingArchiveLink)
  | _, pending, [] => pure pending
  | _, _, .error e :: _ => throw [e]
  | budget, pending, .ok entry :: rest => do
    let budget ← budget.charge entry.path
    match ← select entry.path with
    | none => extractEntries select budget pending rest
    | some p => do
      let link ← x.extractEntry unpack select entry p
      extractEntries select budget (pending ++ link.toList) rest

def extractTarEntries (select : Selector) (archive : Archive) : ResultM Unit := do
  let pending ← x.extractEntries unpack select {} [] archive
  x.createArchiveLinks pending

end Extraction

end Omg.Runtime
