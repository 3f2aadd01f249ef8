import Omg.Control.Steps
import Omg.Fs.Disk
import Omg.Text.Basic

/-!
# The publication of package databases

A synchronisation stages new databases and their signatures in a directory of its own and then puts
all of them in place, or none. Before anything is replaced, every live file gets a second link in
the staging directory. Then the staged files are renamed to their destinations, and the directories
are synchronised. If a step fails, everything is rolled back from the last file to the first: a file
that was published gets its staged name back, and the second link is renamed to the destination. If
a step of this fails in turn, the staging directory is kept.

The package manager's lock, which is taken in front and released at the end, is a parameter.

Source: `src/package_managers/parallel_sync.rs`.
-/

namespace Omg.Arch

open Control (Steps History)
open Fs (Errno Kind Names)

inductive SyncPath
  | staging (name : Text)
  | live (directory name : Text)
  deriving DecidableEq

structure StagedFile where
  staged : Text
  destination : Text × Text
  publish : Bool

structure DatabasePublication where
  staged : Text
  destination : Text × Text
  publish : Bool
  backup : Option Text
  published : Bool

namespace StagedFile

variable (file : StagedFile)

def stagedPath : SyncPath := .staging file.staged

def livePath : SyncPath := .live file.destination.1 file.destination.2

end StagedFile

namespace DatabasePublication

def ofFile (file : StagedFile) : DatabasePublication :=
  ⟨file.staged, file.destination, file.publish, none, false⟩

variable (p : DatabasePublication)

def toFile : StagedFile := ⟨p.staged, p.destination, p.publish⟩

def stagedPath : SyncPath := .staging p.staged

def livePath : SyncPath := .live p.destination.1 p.destination.2

def InPlace : Prop := p.published = true ∧ p.publish = true

instance : Decidable p.InPlace := inferInstanceAs (Decidable (_ ∧ _))

end DatabasePublication

structure SyncWorld where
  names : Names SyncPath
  retained : Bool

structure SyncError where
  messages : AnyhowError
  rollbackErrors : List Text

def fileStem (name : Text) : Text :=
  match Text.rsplitOnce '.' name with
  | some ([], _) => name
  | some (stem, _) => stem
  | none => name

/-- `Path::with_extension` on a name. -/
def withExtension (name extension : Text) : Text := fileStem name ++ '.' :: extension

def backupExtension (index : ℕ) : Text := "omg-backup-" ++ Text.decimal index

def backupName (staged : Text) (index : ℕ) : Text := withExtension staged (backupExtension index)

section

structure Rendering where
  path : SyncPath → Text
  errno : Errno → Text
  staging : Text

variable (render : Rendering)

def change (f : Names SyncPath → Except Errno Unit × Names SyncPath) : Steps SyncWorld Errno Unit :=
  Steps.step .fault fun w => ((f w.names).1, { w with names := (f w.names).2 })

def look {α : Type} (f : Names SyncPath → Except Errno α) : Steps SyncWorld Errno α :=
  Steps.step .fault fun w => (f w.names, w)

/-! ### Rollback -/

def failureText (action : Text) (destination : Text × Text) (error : Errno) : Text :=
  "failed to " ++ action ++ ' ' :: render.path (.live destination.1 destination.2) ++
    ": " ++ render.errno error

def failures (action : Text) (destination : Text × Text) : Except Errno Unit → List Text
  | .ok () => []
  | .error error => [failureText render action destination error]

def withdraw (p : DatabasePublication) : Steps SyncWorld SyncError (List Text) :=
  if p.InPlace then do
    let result ← Steps.attempt (change fun fs =>
      if p.backup.isSome then fs.link p.livePath p.stagedPath
      else fs.rename p.livePath p.stagedPath)
    return failures render "withdraw" p.destination result
  else return []

def restore (p : DatabasePublication) : Steps SyncWorld SyncError (List Text) :=
  match p.backup with
  | some backup => do
    let result ← Steps.attempt (change fun fs => fs.rename (.staging backup) p.livePath)
    return failures render "restore" p.destination result
  | none => return []

def rollbackOne (p : DatabasePublication) : Steps SyncWorld SyncError (List Text) := do
  let withdrawn ← withdraw render p
  let restored ← restore render p
  return withdrawn ++ restored

def rollbackEach : List DatabasePublication → Steps SyncWorld SyncError (List Text)
  | [] => return []
  | p :: rest => do
    let own ← rollbackOne render p
    let others ← rollbackEach rest
    return own ++ others

def syncRollbackOne (p : DatabasePublication) : Steps SyncWorld SyncError (List Text) :=
  if p.backup.isSome ∨ p.InPlace then do
    let result ← Steps.attempt (look fun fs => fs.syncParent p.livePath)
    return failures render "sync rollback for" p.destination result
  else return []

def syncRollback : List DatabasePublication → Steps SyncWorld SyncError (List Text)
  | [] => return []
  | p :: rest => do
    let own ← syncRollbackOne render p
    let others ← syncRollback rest
    return own ++ others

def retainedText : Text := "Recovery files retained at " ++ render.staging

def disableCleanup : Steps SyncWorld SyncError Unit := fun _ h =>
  (.ok (), h.record { h.now with retained := true })

def rollbackDatabasePublication (publications : List DatabasePublication) :
    Steps SyncWorld SyncError (List Text) := do
  let errors ← rollbackEach render publications.reverse
  let syncErrors ← syncRollback render publications
  let errors := errors ++ syncErrors
  if errors.isEmpty then return []
  else do
    disableCleanup
    return errors ++ [retainedText render]

/-! ### Publication -/

def abort {α : Type} (publications : List DatabasePublication) (message : Text) :
    Steps SyncWorld SyncError α := do
  let errors ← rollbackDatabasePublication render publications
  throw ⟨[message ++ "; rollback errors: " ++ "; ".toList.intercalate errors], errors⟩

def missingMessage (p : DatabasePublication) : Text :=
  "Missing staged database " ++ render.path p.stagedPath

def notRegularMessage (p : DatabasePublication) : Text :=
  "Staged database is not a regular file: " ++ render.path p.stagedPath

def modeMessage (p : DatabasePublication) : Text :=
  "Failed to set world-readable mode on staged database " ++ render.path p.stagedPath

def early (message : Text) (error : Errno) : SyncError := ⟨[message, render.errno error], []⟩

def checkStaged (p : DatabasePublication) : Steps SyncWorld SyncError Unit := do
  let kind ← Steps.mapError (early render (missingMessage render p))
    (look fun fs => fs.lstat p.stagedPath)
  if kind = .regular then
    Steps.mapError (early render (modeMessage render p))
      (change fun fs => fs.chmod p.stagedPath 0o644)
  else throw ⟨[notRegularMessage render p], []⟩

def checkPublished (p : DatabasePublication) : Steps SyncWorld SyncError Unit :=
  if p.publish then checkStaged render p else return ()

def checkAll : List DatabasePublication → Steps SyncWorld SyncError Unit
  | [] => return ()
  | p :: rest => do
    checkPublished render p
    checkAll rest

def refuseMessage (p : DatabasePublication) : Text :=
  "Refusing to replace database path that is not a file or symlink: " ++
    render.path p.livePath

def inspectMessage (p : DatabasePublication) (error : Errno) : Text :=
  "Failed to inspect live database " ++ render.path p.livePath ++ ": " ++
    render.errno error

def stageMessage (p : DatabasePublication) (error : Errno) : Text :=
  "Failed to stage live database " ++ render.path p.livePath ++ " for replacement: " ++
    render.errno error

/-- The live file of `p` gets a second link, if it is to be replaced. All publications are `done`,
`p` and `rest`. -/
def linkLive (done : List DatabasePublication) (p : DatabasePublication)
    (rest : List DatabasePublication) : Steps SyncWorld SyncError DatabasePublication :=
  if p.publish then do
    let backup := backupName p.staged done.length
    let linked ← Steps.attempt (change fun fs => fs.link p.livePath (.staging backup))
    match linked with
    | .ok () => return { p with backup := some backup }
    | .error error => abort render (done ++ p :: rest) (stageMessage render p error)
  else return p

def backUp (done : List DatabasePublication) (p : DatabasePublication)
    (rest : List DatabasePublication) : Steps SyncWorld SyncError DatabasePublication := do
  let inspected ← Steps.attempt (look fun fs => fs.lstat p.livePath)
  match inspected with
  | .ok .regular | .ok .symlink => linkLive render done p rest
  | .ok _ => abort render (done ++ p :: rest) (refuseMessage render p)
  | .error .notFound => return p
  | .error error => abort render (done ++ p :: rest) (inspectMessage render p error)

def backUpAll (done : List DatabasePublication) :
    List DatabasePublication → Steps SyncWorld SyncError (List DatabasePublication)
  | [] => return done
  | p :: rest => do
    let p' ← backUp render done p rest
    backUpAll (done ++ [p']) rest

def publishMessage (p : DatabasePublication) (error : Errno) : Text :=
  "Failed to publish staged package database to " ++ render.path p.livePath ++
    ": " ++ render.errno error

def publishOne (done : List DatabasePublication) (p : DatabasePublication)
    (rest : List DatabasePublication) : Steps SyncWorld SyncError DatabasePublication :=
  if p.publish then do
    let renamed ← Steps.attempt (change fun fs => fs.rename p.stagedPath p.livePath)
    match renamed with
    | .ok () => return { p with published := true }
    | .error error => abort render (done ++ p :: rest) (publishMessage render p error)
  else return { p with published := true }

def publishAll (done : List DatabasePublication) :
    List DatabasePublication → Steps SyncWorld SyncError (List DatabasePublication)
  | [] => return done
  | p :: rest => do
    let p' ← publishOne render done p rest
    publishAll (done ++ [p']) rest

def syncMessage (p : DatabasePublication) (error : Errno) : Text :=
  "Failed to sync published package database " ++ render.path p.livePath ++ ": " ++
    render.errno error

/-- Synchronise the directories of `remaining`, of all publications. -/
def syncAll (publications : List DatabasePublication) :
    List DatabasePublication → Steps SyncWorld SyncError Unit
  | [] => return ()
  | p :: remaining => do
    let synced ← Steps.attempt (look fun fs => fs.syncParent p.livePath)
    match synced with
    | .ok () => syncAll publications remaining
    | .error error => abort render publications (syncMessage render p error)

def removeBackups : List DatabasePublication → Steps SyncWorld SyncError Unit
  | [] => return ()
  | p :: rest =>
    match p.backup with
    | some backup => do
      let _removed ← Steps.attempt (change fun fs => fs.unlink (.staging backup))
      removeBackups rest
    | none => removeBackups rest

def downloadsMessage (failedDownloads : ℕ) : Text :=
  "Failed to sync " ++ Text.decimal failedDownloads ++
    " database(s); live databases were left unchanged"

structure DatabaseLease where
  acquire : Result Unit
  release : Result Unit

def withoutRollback {α : Type} : Result α → Except SyncError α
  | .ok a => .ok a
  | .error messages => .error ⟨messages, []⟩

/-- `commit_staged_files`. -/
def commitStagedFiles (lease : DatabaseLease) (failedDownloads : ℕ) (files : List StagedFile) :
    Steps SyncWorld SyncError Unit := do
  withoutRollback (Text.ensure (failedDownloads = 0) (downloadsMessage failedDownloads))
  withoutRollback lease.acquire
  let publications := files.map DatabasePublication.ofFile
  checkAll render publications
  let publications ← backUpAll render [] publications
  let publications ← publishAll render [] publications
  syncAll render publications publications
  removeBackups publications
  withoutRollback lease.release

end

/-!
### The rollback of a publication

Every file that is published can be undone if its original has a second link, or is still in place,
or did not exist. The rollback goes from the last file to the first. Whatever fails in it, it
restores every destination or reports an error, and then it leaves the links to the originals that
are displaced.
-/

open List
open Control.Steps (Ensures)

variable {render : Rendering} {origin ν ν' : SyncPath → Option ℕ} {files : List StagedFile}
  {p q : DatabasePublication} {ps : List DatabasePublication} {errors : List Text}

section

variable {ε : Type} {P Q : SyncWorld → Prop} {E : ε → SyncWorld → Prop}

lemma ensures_attempt_change {f : Names SyncPath → Except Errno Unit × Names SyncPath}
    (hf : ∀ w, P w → w.names.Unchanged (f w.names) ∨
      ∃ fs, f w.names = (.ok (), fs) ∧ Q { w with names := fs }) :
    Ensures P (Steps.attempt (change f))
      (fun r w => r = .ok () ∧ Q w ∨ (∃ e, r = .error e) ∧ P w) E := by
  have hcg : Ensures P (change f) (fun _ => Q) (fun _ => P) := by
    refine .step (fun _ _ hP => hP) fun w _ hP => ?_
    rcases hf w hP with ⟨⟨e, he⟩, hns⟩ | ⟨fs, hfs, hQ⟩
    · rw [he, hns]
      exact .error trivial hP
    · rw [hfs]
      exact .ok trivial hQ
  refine hcg.attempt.post fun r w h => ?_
  cases r with
  | ok u => exact .inl ⟨rfl, h.1 u rfl⟩
  | error e => exact .inr ⟨⟨e, rfl⟩, h.2 e rfl⟩

lemma ensures_look {α : Type} {f : Names SyncPath → Except Errno α} :
    Ensures P (look f) (fun a w => P w ∧ f w.names = .ok a)
      (fun e w => P w ∧ (e = .fault ∨ f w.names = .error e)) :=
  .step (fun _ _ hP => ⟨hP, .inl rfl⟩) fun _ _ hP =>
    ⟨trivial, fun _ ha => ⟨hP, ha⟩, fun _ he => ⟨hP, .inr he⟩⟩

lemma ensures_attempt_look {α : Type} {f : Names SyncPath → Except Errno α} :
    Ensures P (Steps.attempt (look f))
      (fun r w => P w ∧ (r = .error .fault ∨ r = f w.names)) E := by
  refine ensures_look.attempt.post fun r w h => ?_
  cases r with
  | ok a => exact ⟨(h.1 a rfl).1, .inr (h.1 a rfl).2.symm⟩
  | error e =>
    obtain ⟨hP, rfl | he⟩ := h.2 e rfl
    · exact ⟨hP, .inl rfl⟩
    · exact ⟨hP, .inr he.symm⟩

end

/-! ### Rollback of one file -/

namespace DatabasePublication

/-- The names that the rollback of `p` changes. -/
def Touches (p : DatabasePublication) (x : SyncPath) : Prop :=
  x = p.livePath ∨ (p.InPlace ∧ x = p.stagedPath) ∨ ∃ b, p.backup = some b ∧ x = .staging b

/-- The second link of an original is there, a destination in which nothing was put is as it was,
and a file without an original took the place of nothing. -/
structure Recoverable (origin ν : SyncPath → Option ℕ) (p : DatabasePublication) : Prop where
  backup : ∀ b, p.backup = some b → ν (.staging b) = origin p.livePath
  untouched : ¬ p.InPlace → ν p.livePath = origin p.livePath
  fresh : p.InPlace → p.backup = none → origin p.livePath = none ∧ ν p.stagedPath = none
  apart : ∀ b, p.backup = some b → p.InPlace → b ≠ p.staged

lemma Recoverable.congr (h : p.Recoverable origin ν) (hliv : ν' p.livePath = ν p.livePath)
    (hbac : ∀ b, p.backup = some b → ν' (.staging b) = ν (.staging b))
    (hstd : p.InPlace → p.backup = none → ν p.stagedPath = none → ν' p.stagedPath = none) :
    p.Recoverable origin ν' where
  backup b hb := (hbac b hb).trans (h.backup b hb)
  untouched hin := hliv.trans (h.untouched hin)
  fresh hin hb := ⟨(h.fresh hin hb).1, hstd hin hb (h.fresh hin hb).2⟩
  apart := h.apart

def Kept (origin ν : SyncPath → Option ℕ) (p : DatabasePublication) : Prop :=
  ∀ i, origin p.livePath = some i →
    ν p.livePath = some i ∨ ∃ b, p.backup = some b ∧ ν (.staging b) = some i

end DatabasePublication

open DatabasePublication (Recoverable Kept)

structure Withdrawal (p : DatabasePublication) (ν : SyncPath → Option ℕ) (errors : List Text)
    (ν' : SyncPath → Option ℕ) : Prop where
  frame : ∀ x, (p.InPlace → x ≠ p.stagedPath) → x ≠ p.livePath → ν' x = ν x
  live : ¬ p.InPlace → ν' p.livePath = ν p.livePath
  removed : p.InPlace → p.backup = none → ν p.stagedPath = none → errors = [] →
    ν' p.livePath = none

lemma Withdrawal.refl (h : p.InPlace → errors ≠ []) : Withdrawal p ν errors ν :=
  ⟨fun _ _ _ => rfl, fun _ => rfl, fun hin _ _ hers => absurd hers (h hin)⟩

lemma livePath_ne_stagedPath (p : DatabasePublication) : p.livePath ≠ p.stagedPath :=
  fun h => by cases h

lemma livePath_ne_staging (p : DatabasePublication) (b : Text) : p.livePath ≠ .staging b :=
  fun h => by cases h

variable {E : SyncError → SyncWorld → Prop}

lemma ensures_withdraw (p : DatabasePublication) (ν : SyncPath → Option ℕ) :
    Ensures (fun w => w.names.inode = ν) (withdraw render p)
      (fun errors w => Withdrawal p ν errors w.names.inode) E := by
  unfold withdraw
  by_cases hin : p.InPlace
  · rw [if_pos hin]
    refine .bind (ensures_attempt_change (Q := fun w => Withdrawal p ν [] w.names.inode) ?_) ?_
    · rintro w rfl
      cases hb : p.backup with
      | some b =>
        rcases w.names.link_cases p.livePath p.stagedPath with hfa | ⟨i, -, -, -, hok⟩
        · exact .inl hfa
        · refine .inr ⟨_, hok, fun x hx _ => ?_, absurd hin, fun _ h => ?_⟩
          · exact Names.inode_put_of_ne _ (hx hin) _
          · rw [hb] at h
            cases h
      | none =>
        rcases w.names.rename_cases (livePath_ne_stagedPath p) with hfa | ⟨fs, hok, hmo⟩
        · exact .inl hfa
        · exact .inr ⟨fs, hok, fun x hx hliv => hmo.frame x hliv (hx hin),
            (absurd hin), fun _ _ hfe _ => hmo.source_of_free hfe⟩
    · refine fun r => .pure fun w _ h => ?_
      rcases h with ⟨rfl, h⟩ | ⟨⟨e, rfl⟩, rfl⟩
      · exact h
      · exact .refl fun _ => by simp [failures]
  · rw [if_neg hin]
    refine .pure fun w _ h => ?_
    subst h
    exact .refl fun h => absurd h hin

lemma ensures_restore_none {P : SyncWorld → Prop} (hb : p.backup = none) :
    Ensures P (restore render p) (fun errors w => errors = [] ∧ P w) E := by
  unfold restore
  rw [hb]
  exact .pure fun w _ h => ⟨rfl, h⟩

lemma ensures_restore_some {b : Text} (hb : p.backup = some b) (ν : SyncPath → Option ℕ) :
    Ensures (fun w => w.names.inode = ν) (restore render p)
      (fun errors w => (w.names.inode p.livePath = ν (.staging b) ∧
        ∀ x, x ≠ .staging b → x ≠ p.livePath → w.names.inode x = ν x) ∨
        errors ≠ [] ∧ w.names.inode = ν) E := by
  unfold restore
  rw [hb]
  refine .bind (ensures_attempt_change (Q := fun w =>
    w.names.inode p.livePath = ν (.staging b) ∧
      ∀ x, x ≠ .staging b → x ≠ p.livePath → w.names.inode x = ν x) ?_) ?_
  · rintro w rfl
    rcases w.names.rename_cases (livePath_ne_staging p b).symm with hfa | ⟨fs, hok, hmo⟩
    · exact .inl hfa
    · exact .inr ⟨fs, hok, hmo.inode_target, hmo.frame⟩
  · refine fun r => .pure fun w _ h => ?_
    rcases h with ⟨-, h⟩ | ⟨⟨e, rfl⟩, h⟩
    · exact .inl h
    · exact .inr ⟨by simp [failures], h⟩

/-! ### Rollback of all files -/

structure RolledBack (origin : SyncPath → Option ℕ) (ps : List DatabasePublication)
    (ν : SyncPath → Option ℕ) (errors : List Text) (ν' : SyncPath → Option ℕ) : Prop where
  frame : ∀ x, (∀ p ∈ ps, ¬ p.Touches x) → ν' x = ν x
  restored : errors = [] → ∀ p ∈ ps, ν' p.livePath = origin p.livePath
  kept : ∀ p ∈ ps, p.Kept origin ν'

lemma ensures_rollbackOne (h : p.Recoverable origin ν) :
    Ensures (fun w => w.names.inode = ν) (rollbackOne render p)
      (fun errors w => RolledBack origin [p] ν errors w.names.inode) E := by
  refine .bind (ensures_withdraw p ν) fun withdrawn => .of_forall fun w _ hwd => ?_
  cases hb : p.backup with
  | none =>
    refine .bind (ensures_restore_none hb) fun restored => .pure fun w' _ hw' => ?_
    obtain ⟨rfl, rfl⟩ := hw'
    refine ⟨fun x hx => ?_, fun hers q hq => ?_, fun q hq i hi => ?_⟩
    · have hx' := hx p (by simp)
      exact hwd.frame x (fun hin hs => hx' (.inr (.inl ⟨hin, hs⟩))) fun hl => hx' (.inl hl)
    · rw [mem_singleton.mp hq]
      by_cases hin : p.InPlace
      · rw [(h.fresh hin hb).1]
        exact hwd.removed hin hb (h.fresh hin hb).2 (by simpa using hers)
      · exact (hwd.live hin).trans (h.untouched hin)
    · rw [mem_singleton.mp hq] at hi ⊢
      by_cases hin : p.InPlace
      · rw [(h.fresh hin hb).1] at hi
        cases hi
      · exact .inl (((hwd.live hin).trans (h.untouched hin)).trans hi)
  | some b =>
    have hli : w.names.inode (.staging b) = origin p.livePath := by
      rw [hwd.frame _ (fun hin hs => h.apart b hb hin (SyncPath.staging.inj hs))
        (livePath_ne_staging p b).symm]
      exact h.backup b hb
    refine .bind ((ensures_restore_some hb w.names.inode).pre (by rintro _ rfl; rfl))
      fun restored => .pure fun w' _ hw' => ?_
    have hfr : ∀ x, ¬ p.Touches x → w'.names.inode x = ν x := by
      intro x hx
      have hliv : x ≠ p.livePath := fun hl => hx (.inl hl)
      rw [← hwd.frame x (fun hin hs => hx (.inr (.inl ⟨hin, hs⟩))) hliv]
      rcases hw' with ⟨-, hw'⟩ | ⟨-, hw'⟩
      · exact hw' x (fun hs => hx (.inr (.inr ⟨b, hb, hs⟩))) hliv
      · rw [hw']
    refine ⟨fun x hx => hfr x (hx p (by simp)), fun hers q hq => ?_, fun q hq i hi => ?_⟩
    · rw [mem_singleton.mp hq]
      rcases hw' with ⟨hliv, -⟩ | ⟨hne, -⟩
      · exact hliv.trans hli
      · exact absurd (append_eq_nil_iff.mp hers).2 hne
    · rw [mem_singleton.mp hq] at hi ⊢
      rcases hw' with ⟨hliv, -⟩ | ⟨-, hw'⟩
      · exact .inl ((hliv.trans hli).trans hi)
      · exact .inr ⟨b, hb, by rw [hw', hli, hi]⟩

/-- The rollback of `q` and then of `p` do not get in each other's way. -/
structure Separate (q p : DatabasePublication) : Prop where
  live : q.livePath ≠ p.livePath
  later : ∀ b, p.backup = some b → ¬ q.Touches (.staging b)
  earlier : ∀ b, q.backup = some b → ¬ p.Touches (.staging b)
  fresh : p.InPlace → p.backup = none → ¬ q.Touches p.stagedPath

lemma Separate.not_touches_live (h : Separate q p) : ¬ q.Touches p.livePath := by
  rintro (hliv | ⟨-, hstd⟩ | ⟨b, -, hb⟩)
  · exact h.live hliv.symm
  · cases hstd
  · cases hb

lemma Separate.not_touches_live_left (h : Separate q p) : ¬ p.Touches q.livePath := by
  rintro (hliv | ⟨-, hstd⟩ | ⟨b, -, hb⟩)
  · exact h.live hliv
  · cases hstd
  · cases hb

lemma RolledBack.recoverable (h : RolledBack origin [q] ν errors ν') (hsep : Separate q p)
    (hp : p.Recoverable origin ν) : p.Recoverable origin ν' := by
  have hfr : ∀ x, ¬ q.Touches x → ν' x = ν x := fun x hx => h.frame x (by simpa using hx)
  exact hp.congr (hfr _ hsep.not_touches_live) (fun b hb => hfr _ (hsep.later b hb))
    fun hin hb hno => (hfr _ (hsep.fresh hin hb)).trans hno

lemma RolledBack.cons {ν'' : SyncPath → Option ℕ} {errs' : List Text}
    (h : RolledBack origin [q] ν errors ν') (h' : RolledBack origin ps ν' errs' ν'')
    (hsep : ∀ p ∈ ps, Separate q p) : RolledBack origin (q :: ps) ν (errors ++ errs') ν'' := by
  have hliv : ν'' q.livePath = ν' q.livePath :=
    h'.frame _ fun p hp => (hsep p hp).not_touches_live_left
  refine ⟨fun x hx => ?_, fun hers => ?_, forall_mem_cons.mpr ⟨fun i hi => ?_, h'.kept⟩⟩
  · rw [h'.frame x fun p hp => hx p (mem_cons_of_mem _ hp)]
    exact h.frame x (by simpa using hx q mem_cons_self)
  · obtain ⟨hers, hers'⟩ := append_eq_nil_iff.mp hers
    refine forall_mem_cons.mpr ⟨?_, h'.restored hers'⟩
    rw [hliv]
    exact h.restored hers q (by simp)
  · rcases h.kept q (by simp) i hi with hq | ⟨b, hb, hq⟩
    · exact .inl (hliv.trans hq)
    · exact .inr ⟨b, hb, (h'.frame _ fun p hp => (hsep p hp).earlier b hb).trans hq⟩

lemma ensures_rollbackEach (hsep : ps.Pairwise Separate) (hps : ∀ p ∈ ps, p.Recoverable origin ν) :
    Ensures (fun w => w.names.inode = ν) (rollbackEach render ps)
      (fun errors w => RolledBack origin ps ν errors w.names.inode) E := by
  induction ps generalizing ν with
  | nil => refine .pure fun w _ h => ⟨fun x _ => by rw [h], ?_, ?_⟩ <;> simp
  | cons q ps ih =>
    obtain ⟨hq, hsep⟩ := pairwise_cons.mp hsep
    obtain ⟨hrec, hps⟩ := forall_mem_cons.mp hps
    refine .bind (ensures_rollbackOne hrec) fun own => .of_forall fun w _ hown => ?_
    have hots := ih hsep fun p hp => hown.recoverable (hq p hp) (hps p hp)
    refine .bind (hots.pre (by rintro _ rfl; rfl)) fun others => .pure fun w' _ h => hown.cons h hq

lemma ensures_syncRollback {P : SyncWorld → Prop} (ps : List DatabasePublication) :
    Ensures P (syncRollback render ps) (fun _ => P) E := by
  induction ps with
  | nil => exact .pure fun _ _ h => h
  | cons p ps ih =>
    refine .bind ?_ fun own => .bind ih fun others => .pure fun _ _ h => h
    unfold syncRollbackOne
    split_ifs
    · exact .bind ensures_attempt_look fun r => .pure fun _ _ h => h.1
    · exact .pure fun _ _ h => h

/-- What an error leaves: everything as it was, or the links to all originals that are displaced. -/
structure Recovered (origin : SyncPath → Option ℕ) (files : List StagedFile) (errors : List Text)
    (w : SyncWorld) : Prop where
  restored : errors = [] → ∀ f ∈ files, w.names.inode f.livePath = origin f.livePath
  retained : errors ≠ [] → w.retained = true
  kept : errors ≠ [] → ∀ f ∈ files, ∀ i, origin f.livePath = some i →
    w.names.inode f.livePath = some i ∨ ∃ name, w.names.inode (.staging name) = some i

/-- From the names `ν`, a success is as `Q` says, and an error leaves the files recovered. -/
abbrev Recovers {α : Type} (origin : SyncPath → Option ℕ) (files : List StagedFile)
    (ν : SyncPath → Option ℕ) (x : Steps SyncWorld SyncError α) (Q : α → SyncWorld → Prop) : Prop :=
  Ensures (fun w => w.names.inode = ν) x Q fun e w => Recovered origin files e.rollbackErrors w

/-- The publications of `files` can be undone, from the last one to the first. -/
structure Recovery (origin : SyncPath → Option ℕ) (files : List StagedFile)
    (ps : List DatabasePublication) (ν : SyncPath → Option ℕ) : Prop where
  files : ps.map DatabasePublication.toFile = files
  separate : ps.Pairwise fun p q => Separate q p
  recoverable : ∀ p ∈ ps, p.Recoverable origin ν

lemma ensures_rollbackDatabasePublication (h : Recovery origin files ps ν) :
    Ensures (fun w => w.names.inode = ν) (rollbackDatabasePublication render ps)
      (fun errors w => Recovered origin files errors w) E := by
  have hfi : ∀ f ∈ files, ∃ p ∈ ps.reverse, p.toFile = f := by
    rw [← h.files]
    simp
  refine .bind (ensures_rollbackEach (pairwise_reverse.mpr h.separate)
    fun p hp => h.recoverable p (mem_reverse.mp hp)) fun errors => ?_
  refine .bind (ensures_syncRollback ps) fun syncErrors => ?_
  cases hall : errors ++ syncErrors with
  | nil =>
    refine .pure fun w _ hw => ⟨fun _ f hf => ?_, absurd rfl, (absurd rfl)⟩
    obtain ⟨p, hp, rfl⟩ := hfi f hf
    exact hw.restored (append_eq_nil_iff.mp hall).1 p hp
  | cons msg messages =>
    refine .bind (Q := fun _ w => w.retained = true ∧
      RolledBack origin ps.reverse ν errors w.names.inode) ?_ fun _ => .pure fun w _ hw => ?_
    · intro fl hist _ hP
      refine ⟨fun _ _ => trivial, fun _ _ => ⟨rfl, hP⟩, fun e he => ?_⟩
      cases he
    · refine ⟨fun hnil => by simp at hnil, fun _ => hw.1, fun _ f hf i hi => ?_⟩
      obtain ⟨p, hp, rfl⟩ := hfi f hf
      rcases hw.2.kept p hp i hi with hliv | ⟨b, -, hb⟩
      · exact .inl hliv
      · exact .inr ⟨b, hb⟩

lemma ensures_abort {α : Type} {Q : α → SyncWorld → Prop} {msg : Text}
    (h : Recovery origin files ps ν) : Recovers origin files ν (abort render ps msg) Q := by
  exact .bind (ensures_rollbackDatabasePublication h) fun errors => .throw fun _ _ hw => hw

lemma ensures_change_or_abort {f : Names SyncPath → Except Errno Unit × Names SyncPath}
    {Q : DatabasePublication → SyncWorld → Prop} {msg : Errno → Text}
    (h : Recovery origin files ps ν) (hf : ∀ w : SyncWorld, w.names.inode = ν →
      w.names.Unchanged (f w.names) ∨ ∃ fs, f w.names = (.ok (), fs) ∧ Q p { w with names := fs }) :
    Recovers origin files ν (do
      let changed ← Steps.attempt (change f)
      match changed with
      | .ok () => return p
      | .error error => abort render ps (msg error)) Q := by
  refine .bind (ensures_attempt_change hf) fun r => ?_
  cases r with
  | ok u => exact .pure fun w _ hw => hw.resolve_right (by simp) |>.2
  | error e => exact (ensures_abort h).pre fun w hw => (hw.resolve_left (by simp)).2

end Omg.Arch
