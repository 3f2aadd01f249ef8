import Mathlib.Data.Char
import Mathlib.Data.List.Lex
import Omg.Collections.SortedMap
import Omg.Control.Thread
import Omg.Text.Utf8

/-!
# The history of package transactions

A transaction is added to a live file, which is replaced as a whole. If the file would have more
than a maximal number of transactions then the oldest ones are first appended to an archive. All of
this is done under a lock, by any number of processes. A process can end before each of its system
calls, and each of them can fail; the operating system then frees the lock.

The texts of the files are those of a JSON library, which is a parameter with what is known about
it. The append to the archive and the replacement of the live file are atomic.

Source: `src/core/history.rs`.
-/

namespace Omg.History

open Control Collections

inductive TransactionType
  | install
  | remove
  | update
  | sync
  deriving DecidableEq

structure PackageChange where
  name : Text
  oldVersion : Option Text
  newVersion : Option Text
  source : Text
  deriving DecidableEq

structure Transaction where
  id : Text
  timestamp : ℤ
  transactionType : TransactionType
  changes : List PackageChange
  success : Bool
  deriving DecidableEq

def maxHistoryTransactions : ℕ := 1000

/-- `serde_json` on transactions: the text of a history, the text of a record, and how they are
read. A stream of records is read up to the first error. -/
structure HistoryCodec where
  renderHistory : List Transaction → Text
  parseHistory : Text → Except Text (List Transaction)
  renderRecord : Transaction → Text
  parseRecords : Bytes → List (Except Text Transaction)
  parseHistory_render : ∀ history : List Transaction,
    parseHistory (renderHistory history ++ ['\n']) = .ok history
  parseRecords_render : ∀ records : List Transaction,
    parseRecords (Text.utf8 (records.flatMap fun t => renderRecord t ++ ['\n'])) = records.map .ok

/-! ### Files -/

inductive HistoryFile
  | missing
  | symlink
  | special
  | regular (content : Bytes)
  deriving DecidableEq

/-- The files, and a record of the transactions in the order in which they were written to the live
file. No process reads the record. -/
structure HistoryFiles where
  live : HistoryFile
  archive : HistoryFile
  quarantined : List HistoryFile
  committed : List Transaction

inductive SystemCall
  | works
  | fails (error : Text)
  | failsAfter (error : Text)
  deriving DecidableEq

inductive Cause
  | io (error : Text)
  | serde (error : Text)
  | message (text : Text)
  deriving DecidableEq

structure HistoryError where
  contexts : List Text
  cause : Cause
  deriving DecidableEq

abbrev HistoryM (ι ε α : Type) : Type := Thread (Guarded ι HistoryFiles) SystemCall ε α

variable {ι : Type} {α : Type}

def plain (cause : Cause) : HistoryError := ⟨[], cause⟩

def withContext (text : Text) (cause : Cause) : HistoryError := ⟨[text], cause⟩

def systemCall (f : HistoryFiles → Except Cause α × HistoryFiles) : HistoryM ι Cause α :=
  Guarded.inside fun call files =>
    match call with
    | .works => f files
    | .fails error => (.error (.io error), files)
    | .failsAfter error => (.error (.io error), (f files).2)

def observe (f : HistoryFiles → Except Cause α) : HistoryM ι Cause α :=
  systemCall fun files => (f files, files)

/-- `open` without following a symbolic link. -/
def openNoFollow (file : HistoryFile) : Except Cause (Option HistoryFile) :=
  match file with
  | .missing => .ok none
  | .symlink => .error (.io "Too many levels of symbolic links (os error 40)")
  | file => .ok (some file)

structure HistoryManager where
  logPath : Text
  archivePath : Text
  lockPath : Text
  quarantinePath : Text

namespace HistoryManager

variable (manager : HistoryManager) (codec : HistoryCodec)

/-! ### Texts of errors -/

def readFileText : Text := "Failed to read history file: " ++ manager.logPath

def malformedText : Text :=
  "Malformed package history at " ++ manager.logPath ++
    "; original file retained for recovery"

def readArchiveText : Text := "Failed to read history archive: " ++ manager.archivePath

def recordText : Text :=
  "Failed to read history archive at " ++ manager.archivePath ++
    "; original file retained for recovery"

def conflictText (id : Text) : Text :=
  "Conflicting history records for transaction " ++ id ++
    "; original files retained for recovery"

def archiveKindText : Text := "History archive must be a regular file: " ++ manager.archivePath

/-! ### Loading -/

/-- `read_to_string` on a file with the given content. -/
def decode (content : Bytes) : Except Cause Text :=
  match Text.utf8Decode content with
  | some text => .ok text
  | none => .error (.io "stream did not contain valid UTF-8")

def liveContent (file : HistoryFile) : HistoryM ι HistoryError Text :=
  match file with
  | .regular content =>
    (observe fun _ => decode content).mapError (withContext manager.readFileText)
  | _ =>
    .fail (plain (.io ("History file must be a regular file: " ++ manager.logPath)))

def parseLive (opened : Option HistoryFile) : HistoryM ι HistoryError (List Transaction) :=
  match opened with
  | none => pure []
  | some file => do
    (observe fun _ => .ok ()).mapError plain
    let content ← manager.liveContent file
    Thread.ofExcept ((codec.parseHistory content).mapError fun error =>
      withContext manager.malformedText (.serde error))

def checkSymlink (isSymlink : Bool) : HistoryM ι HistoryError Unit :=
  if isSymlink then
    .fail (plain (.message
      ("Refusing to read history that is a symlink: " ++ manager.logPath)))
  else pure ()

def loadLocked : HistoryM ι HistoryError (List Transaction) := do
  -- a failure to look at the path counts as no symbolic link
  let isSymlink ← (observe fun files => .ok (decide (files.live = .symlink))).attempt
  manager.checkSymlink (isSymlink.toOption.getD false)
  let opened ← (observe fun files => openNoFollow files.live).mapError
    (withContext manager.readFileText)
  manager.parseLive codec opened

def collect (history : List Transaction) (positions : SortedMap Text ℕ) :
    List (Except Text Transaction) → Except HistoryError (List Transaction)
  | [] => .ok history
  | .error error :: _ => .error (withContext manager.recordText (.serde error))
  | .ok transaction :: records =>
    match positions.get transaction.id with
    | some position =>
      if history[position]? = some transaction then collect history positions records
      else .error (plain (.message (conflictText transaction.id)))
    | none =>
      collect (history ++ [transaction]) (positions.insert transaction.id history.length) records

def recordsOf (file : HistoryFile) : HistoryM ι HistoryError (List (Except Text Transaction)) :=
  match file with
  | .regular content =>
    (observe fun _ => .ok (codec.parseRecords content)).mapError (withContext manager.recordText)
  | _ => .fail (plain (.message manager.archiveKindText))

def archivedRecords (opened : Option HistoryFile) :
    HistoryM ι HistoryError (List (Except Text Transaction)) :=
  match opened with
  | none => pure []
  | some file => do
    (observe fun _ => .ok ()).mapError plain
    manager.recordsOf codec file

def loadUnlocked : HistoryM ι HistoryError (List Transaction) := do
  let live ← manager.loadLocked codec
  let opened ← (observe fun files => openNoFollow files.archive).mapError
    (withContext manager.readArchiveText)
  let archived ← manager.archivedRecords codec opened
  Thread.ofExcept (manager.collect [] .empty (archived ++ live.map .ok))

/-! ### Adding -/

def quarantineCorruptFile (parseError : Text) : HistoryM ι HistoryError Unit :=
  (systemCall fun files =>
    (.ok (), { files with
      live := .missing
      quarantined := files.live :: files.quarantined })).mapError
    (withContext ("Malformed history file " ++ manager.logPath ++ " (" ++ parseError ++
      "); quarantining it to " ++ manager.quarantinePath ++ " also failed"))

def save (history : List Transaction) (added : Transaction) : HistoryM ι HistoryError Unit :=
  (systemCall fun files =>
    (.ok (), { files with
      live := .regular (Text.utf8 (codec.renderHistory history ++ ['\n']))
      committed := files.committed ++ [added] })).mapError plain

def archiveText (content : Bytes) (drained : List Transaction) : Bytes :=
  let records := Text.utf8 (drained.flatMap fun t => codec.renderRecord t ++ ['\n'])
  if content.getLast?.any (· ≠ 0x0a) then 0x0a :: records else records

def validateText : Text :=
  "Failed to validate history archive at " ++ manager.archivePath ++
    "; original file retained for recovery"

def validate (records : List (Except Text Transaction)) : Except HistoryError Unit :=
  records.forM fun record =>
    match record with
    | .ok _ => .ok ()
    | .error error => .error (withContext manager.validateText (.serde error))

def openArchive : HistoryM ι HistoryError HistoryFile :=
  (systemCall fun files =>
    match files.archive with
    | .missing => (.ok (.regular []), { files with archive := .regular [] })
    | .symlink => (.error (.io "Too many levels of symbolic links (os error 40)"), files)
    | file => (.ok file, files)).mapError
    (withContext ("Failed to open history archive: " ++ manager.archivePath))

def setArchive (content : Bytes) : HistoryM ι Cause Unit :=
  systemCall fun files => (.ok (), { files with archive := .regular content })

def restoreArchive (content : Bytes) : HistoryM ι Cause Unit := do
  setArchive content
  observe fun _ => .ok ()

def appendError (error : HistoryError) (restored : Except Cause Unit) : HistoryError :=
  match restored with
  | .ok () => error
  | .error (.io recovery) | .error (.serde recovery) | .error (.message recovery) =>
    { error with contexts :=
        ("Failed to restore history archive at " ++ manager.archivePath ++
          " after append failure: " ++ recovery) :: error.contexts }

def finishAppend (content : Bytes) (written : Except Cause Unit) : HistoryM ι HistoryError Unit :=
  match written with
  | .ok () => do
    (observe fun _ => .ok ()).mapError
      (withContext "Failed to sync retired history before replacing the live log")
    (observe fun _ => .ok ()).mapError plain
  | .error cause => do
    let restored ← (restoreArchive content).attempt
    .fail (manager.appendError (withContext
      ("Failed to append history archive: " ++ manager.archivePath) cause) restored)

def appendDrained (drained : List Transaction) (file : HistoryFile) :
    HistoryM ι HistoryError Unit :=
  match file with
  | .regular content => do
    (observe fun _ => .ok ()).mapError (withContext manager.validateText)
    Thread.ofExcept (manager.validate (codec.parseRecords content))
    (observe fun _ => .ok ()).mapError (withContext
      ("Failed to inspect history archive boundary: " ++ manager.archivePath))
    let written ← (setArchive (content ++ archiveText codec content drained)).attempt
    manager.finishAppend content written
  | _ => .fail (plain (.message manager.archiveKindText))

def archiveDrained (drained : List Transaction) : HistoryM ι HistoryError Unit :=
  if drained.isEmpty then pure ()
  else do
    let file ← manager.openArchive
    (observe fun _ => .ok ()).mapError plain
    manager.appendDrained codec drained file

def startFrom (loaded : Except HistoryError (List Transaction)) :
    HistoryM ι HistoryError (List Transaction) :=
  match loaded with
  | .ok history => pure history
  | .error error =>
    match error.cause with
    | .serde parseError => do
      manager.quarantineCorruptFile parseError
      pure []
    | _ => .fail error

def addTransactionLocked (transaction : Transaction) : HistoryM ι HistoryError Unit := do
  let loaded ← (manager.loadLocked codec).attempt
  let history ← manager.startFrom loaded
  let history := history ++ [transaction]
  let excess := history.length - maxHistoryTransactions
  manager.archiveDrained codec (history.take excess)
  save codec (history.drop excess) transaction

def unlocked (result : Except HistoryError α) (call : SystemCall) : Except HistoryError α :=
  match call with
  | .works => result
  | .fails error | .failsAfter error =>
    match result with
    | .ok _ => .error (withContext "Failed to unlock package history" (.io error))
    | .error operation => .error { operation with contexts :=
        ("Package history operation also failed to unlock its lock: " ++ error) ::
          operation.contexts }

def outcome (text : Text) (call : SystemCall) : Except HistoryError Unit :=
  match call with
  | .works => .ok ()
  | .fails error | .failsAfter error => .error (withContext text (.io error))

def outside (text : Text) : HistoryM ι HistoryError Unit :=
  .perform fun call m => (outcome text call, m)

variable [DecidableEq ι]

def withHistoryLock (i : ι) (op : HistoryM ι HistoryError α) : HistoryM ι HistoryError α := do
  outside ("Failed to open history lock: " ++ manager.lockPath)
  outside ("Failed to lock package history: " ++ manager.lockPath)
  Guarded.acquire i
  let result ← op.attempt
  Guarded.free i (unlocked result)

inductive Reply
  | added
  | loaded (history : List Transaction)

/-- `add_transaction`, with the transaction that it makes from a new identifier and the time. -/
def addTransaction (i : ι) (transaction : Transaction) : HistoryM ι HistoryError Reply := do
  manager.withHistoryLock i (manager.addTransactionLocked codec transaction)
  pure .added

def load (i : ι) : HistoryM ι HistoryError Reply := do
  let history ← manager.withHistoryLock i (manager.loadUnlocked codec)
  pure (.loaded history)

end HistoryManager

end Omg.History
