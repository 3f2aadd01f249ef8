import Omg.Debian.Unpack

/-!
# What a rollback removes

A failed extraction is rolled back by removing the paths of the manifest. The objects that were on
the disk before, and that the extraction has not replaced, survive the rollback if every step of the
extraction meets a condition: what it records was not there before, apart from directories that hold
something from before, and what it replaces is not the last such thing in a directory of the
manifest.

Source: `src/package_managers/debian_db/transaction.rs`.
-/

namespace Omg.Debian.Unpacking

open Control Fs Text List Disk Steps Node
open Omg.Runtime (Entry EntryType Archive RelPath)

variable (x : Unpacking) (d₀ : Disk OsString)

def SafeToRecord (disk : Disk OsString) (p : RelPath) : Prop :=
  ∀ i, disk.Leads x.maxLinks x.root p.parent i → SafePlace d₀ disk i p.name

/-- If something from before is replaced then its directory holds something else from before, or it
is not in the manifest. -/
def SafeToReplace (w : UnpackWorld) (p : RelPath) : Prop :=
  ∀ i, w.disk.Leads x.maxLinks x.root p.parent i → Kept d₀ w.disk i p.name →
    (∃ name, name ≠ p.name ∧ Kept d₀ w.disk i name) ∨
      ∀ q ∈ w.installedFiles, ∀ a, w.disk.Leads x.maxLinks x.root q.parent a →
        w.disk.lookup a q.name ≠ some i

/-- The condition on the step of an entry: on the disk when a directory is made, when a file is
published, and when a link is recorded. -/
def Careful (fails : ℕ → Bool) (history : History UnpackWorld) (entry : Entry)
    (progress : Progress) : Prop :=
  ∀ p, dataTarEntryPath entry.path = .ok p →
    match entry.entryType with
    | .directory => ∀ seen history', x.ensureParentDirsRecorded p progress.seenDirs fails history =
        (.ok seen, history') → x.SafeToRecord d₀ history'.now.disk p
    | .symlink | .link =>
      (∃ i, history.now.disk.Leads x.maxLinks x.root p.parent i) ∧
        x.SafeToRecord d₀ history.now.disk p
    | .regular => ∀ seen history', x.ensureParentDirsRecorded p progress.seenDirs fails history =
        (.ok seen, history') → ∀ mode ∈ entry.mode, ∀ file history'',
          x.writeTemporary entry p mode fails history' = (.ok file, history'') →
          x.SafeToReplace d₀ history''.now p
    | .other => True

def CarefulRun (fails : ℕ → Bool) : Archive → Progress → History UnpackWorld → Prop
  | .ok entry :: rest, progress, history =>
      x.Careful d₀ fails history entry progress ∧
        ∀ progress' history', x.extractEntry entry progress fails history =
          (.ok progress', history') → CarefulRun fails rest progress' history'
  | _, _, _ => True

/-! ### The invariant -/

structure UnpackInv (w : UnpackWorld) : Prop where
  closed : w.disk.Closed
  grows : Grows d₀ w.disk
  intact : d₀.Intact w.disk
  settled : ∀ q ∈ w.installedFiles,
    Settled x.maxLinks x.root d₀ w.disk q.parent q.name

variable {x} {o : Disk OsString} {w : UnpackWorld} {d' : Disk OsString} {p : RelPath} {i : ℕ} {name
  : OsString}
  {α : Type} {E : Errno → UnpackWorld → Prop}

lemma UnpackInv.start (h : o.Closed) : UnpackInv x o ⟨o, []⟩ := ⟨h, .refl o, .refl o, nofun⟩

section

variable (h : UnpackInv x o w)

include h

lemma UnpackInv.extend (hext : Extends w.disk d')
    (hcl : d'.Closed) (hint : o.Intact d') : UnpackInv x o { w with disk := d' } where
  closed := hcl
  grows := h.grows.trans hext.toGrows h.closed
  intact := hint
  settled q hq := (h.settled q hq).extend hext h.grows h.closed

lemma UnpackInv.push (hp : Settled x.maxLinks x.root o w.disk p.parent p.name) :
    UnpackInv x o { w with installedFiles := w.installedFiles ++ [p] } where
  closed := h.closed
  grows := h.grows
  intact := h.intact
  settled q hq := by
    rcases mem_append.mp hq with hq | hq
    · exact h.settled q hq
    · rw [mem_singleton.mp hq]
      exact hp

lemma UnpackInv.lookup_eq_none (hno : w.disk.lookup i name = none) : o.lookup i name = none := by
  cases h₀ : o.lookup i name with
  | none => rfl
  | some j =>
    rcases h.grows.lookup h₀ with hj | ⟨k, hk, -⟩
    · rw [hno] at hj
      cases hj
    · rw [hno] at hk
      cases hk

lemma UnpackInv.make {node : Node OsString} (hi : w.disk.IsDirectory i)
    (hno : w.disk.lookup i name = none) (hnd : ∀ es, node.entries = some es → es = []) :
    UnpackInv x o { w with disk := w.disk.make i name node } := by
  have hlt := lt_size_of_isDirectory hi
  have hgro : UnpackInv x o { w with disk := w.disk.grow node } :=
    h.extend (extends_grow hnd) (closed_grow h.closed hnd) (h.intact.trans intact_grow)
  have hi' : (w.disk.grow node).IsDirectory i := by
    rwa [isDirectory_grow, if_neg (Nat.ne_of_lt hlt)]
  have hno' : (w.disk.grow node).lookup i name = none := by rwa [lookup_grow hnd]
  refine hgro.extend (extends_add hi' hno') (closed_add hgro.closed hi' ?_)
    (hgro.intact.trans intact_add)
  rw [size_grow]
  exact Nat.lt_succ_self _

end

/-! ### Rules for the calls -/

lemma satisfies_call {P : UnpackWorld → Prop} {Q : α → UnpackWorld → Prop}
    {act : ℕ → Disk OsString → Except Errno α × Disk OsString}
    (her : ∀ e w, e ≠ .alreadyExists → UnpackInv x o w → P w → E e w)
    (hact : ∀ w i, UnpackInv x o w → P w → w.disk.Leads x.maxLinks x.root p.parent i → Ends
      (UnpackInv x o) Q E ((act i w.disk).1, { w with disk := (act i w.disk).2 })) :
    Satisfies (UnpackInv x o) P (x.call p act) Q E := by
  refine .step (fun w hI hP => her _ w nofun hI hP) fun w hI hP => ?_
  cases hat : w.disk.directoryAt x.maxLinks x.root p.parent with
  | error e =>
    refine .error hI (her e w ?_ hI hP)
    rintro rfl
    exact directoryAt_ne_alreadyExists hat
  | ok i => exact hact w i hI hP (directoryAt_eq_ok.mp hat)

abbrev IsSettled (x : Unpacking) (d₀ : Disk OsString) (p : RelPath) (w : UnpackWorld) : Prop :=
  Settled x.maxLinks x.root d₀ w.disk p.parent p.name

lemma isSettled_of_grows (h : UnpackInv x o w)
    (hle : w.disk.Leads x.maxLinks x.root p.parent i) (hgw : Grows w.disk d')
    (hk : ¬Kept o d' i p.name) : IsSettled x o p { w with disk := d' } :=
  ⟨w.disk, i, h.closed, hgw, hle, fun _ => safePlace_of_not_kept hk⟩

lemma ends_newEntry (h : UnpackInv x o w) (hle : w.disk.Leads x.maxLinks x.root p.parent i)
    {node : Node OsString} (hnd : ∀ es, node.entries = some es → es = [])
    (hE : E .alreadyExists w) : Ends (UnpackInv x o) (fun _ => IsSettled x o p) E
      ((newEntry p.name node i w.disk).1,
        { w with disk := (newEntry p.name node i w.disk).2 }) := by
  unfold newEntry
  cases hlk : w.disk.lookup i p.name with
  | some j => exact .error h hE
  | none =>
    have hma : UnpackInv x o { w with disk := w.disk.make i p.name node } :=
      h.make hle.isDirectory hlk hnd
    have hgro : Grows w.disk (w.disk.make i p.name node) := by
      have hlt := lt_size_of_isDirectory hle.isDirectory
      refine (grows_grow hnd).trans (grows_add ?_ ?_) (closed_grow h.closed hnd)
      · rw [isDirectory_grow, if_neg (Nat.ne_of_lt hlt)]
        exact hle.isDirectory
      · rwa [lookup_grow hnd]
    refine .ok hma (isSettled_of_grows h hle hgro ?_)
    rintro ⟨j, hj₀, -⟩
    rw [h.lookup_eq_none hlk] at hj₀
    cases hj₀

lemma satisfies_createDir (P : UnpackWorld → Prop) (p : RelPath) :
    Satisfies (UnpackInv x o) P (x.createDir p) (fun _ => IsSettled x o p) (fun e w => P w ∧
        (e = .alreadyExists → ∃ i, w.disk.Leads x.maxLinks x.root p.parent i)) := by
  refine satisfies_call (fun e w he _ hP => ⟨hP, fun h => absurd h he⟩) fun w i hI hP hle => ?_
  refine ends_newEntry hI hle ?_ ⟨hP, fun _ => ⟨i, hle⟩⟩
  rintro es hes
  cases hes
  rfl

lemma satisfies_symlink (tgt : List (Component OsString)) (p : RelPath) :
    Keeps (UnpackInv x o) (fun _ => True) (x.symlink tgt p) := by
  unfold symlink
  split_ifs
  · exact .throw fun _ _ _ => trivial
  · refine satisfies_call (fun _ _ _ _ _ => trivial) fun w i hI _ hle => ?_
    have hnd : ∀ es, (Node.symlink tgt).entries = some es → es = [] := nofun
    exact (ends_newEntry (E := fun _ _ => True) hI hle hnd trivial).imp_right
      fun _ => ⟨fun _ _ => trivial, fun _ _ => trivial⟩

lemma satisfies_symlinkMetadata (P : UnpackWorld → Prop) (p : RelPath) :
    Stays (UnpackInv x o) P (x.symlinkMetadata p) := by
  refine satisfies_call (fun _ _ _ _ hP => hP) fun w i hI hP _ => ?_
  cases w.disk.lookup i p.name with
  | none => exact .error hI hP
  | some j => exact .ok hI hP

lemma ends_linkEntry (h : UnpackInv x o w) {j : ℕ} (hi : w.disk.IsDirectory i)
    (hj : j < w.disk.size) : Ends (UnpackInv x o) (fun _ _ => True) (fun _ _ => True)
      ((linkEntry name j i w.disk).1, { w with disk := (linkEntry name j i w.disk).2 }) := by
  unfold linkEntry
  by_cases hdir : w.disk.IsDirectory j
  · rw [if_pos hdir]
    exact .error h trivial
  · rw [if_neg hdir]
    cases hlk : w.disk.lookup i name with
    | some k => exact .error h trivial
    | none =>
      exact .ok (h.extend (extends_add hi hlk) (closed_add h.closed hi hj)
        (h.intact.trans intact_add)) trivial

lemma satisfies_hardLink (tgt p : RelPath) :
    Keeps (UnpackInv x o) (fun _ => True) (x.hardLink tgt p) := by
  refine satisfies_call (fun _ _ _ _ _ => trivial) fun w i hI _ hle => ?_
  cases hino : x.inodeAt w.disk tgt with
  | error e => exact .error hI trivial
  | ok j =>
    have hj : j < w.disk.size := by
      unfold inodeAt at hino
      split at hino
      · cases hino
      · split at hino
        · cases hino
        · next hlk =>
          cases hino
          exact hI.closed _ _ _ hlk
    exact ends_linkEntry hI hle.isDirectory hj

lemma satisfies_setPermissions (q p : RelPath) (mode : ℕ) :
    Satisfies (UnpackInv x o) (IsSettled x o q) (x.setPermissions p mode)
      (fun _ => IsSettled x o q) fun _ _ => True := by
  refine .step (fun _ _ _ => trivial) fun w hI hq => ?_
  split
  · exact .error hI trivial
  · have hsp := keepsShape_chmod (N := OsString) mode
    refine .ok (hI.extend (extends_update hsp) (closed_update hI.closed hsp)
      (hI.intact.trans (intact_update (sameContent_chmod mode)))) ?_
    exact Settled.extend hq (extends_update hsp) hI.grows hI.closed

/-! ### Regular files -/

structure Fresh (d₀ : Disk OsString) (file : ℕ) (w : UnpackWorld) : Prop where
  lt : file < w.disk.size
  new : d₀.size ≤ file
  isFile : ¬w.disk.Traversable file

lemma satisfies_createTemporary (p : RelPath) :
    Satisfies (UnpackInv x o) (fun _ => True) (x.createTemporary p) (Fresh o)
      fun _ _ => True := by
  refine satisfies_call (fun _ _ _ _ _ => trivial) fun w i hI _ _ => ?_
  have hnd : ∀ es, (file x.fileMode [] : Node OsString).entries = some es → es = [] := nofun
  refine .ok (hI.extend (extends_grow hnd) (closed_grow hI.closed hnd)
    (hI.intact.trans intact_grow)) ⟨?_, hI.grows.size_le, ?_⟩
  · rw [size_grow]
    exact Nat.lt_succ_self _
  · rw [Disk.Traversable, isDirectory_grow, if_pos rfl, target_grow, if_pos rfl]
    rintro (h | h)
    · cases h
    · cases h

lemma satisfies_modify {file : ℕ} {g : Node OsString → Node OsString} (hg : Node.KeepsShape g) :
    Satisfies (UnpackInv x o) (Fresh o file) (modify file g) (fun _ => Fresh o file)
      fun _ _ => True := by
  refine .step (fun _ _ _ => trivial) fun w hI hfre => ?_
  refine .ok (hI.extend (extends_update hg) (closed_update hI.closed hg)
    (hI.intact.update_new hfre.new)) ⟨?_, hfre.new, ?_⟩
  · rw [size_update]
    exact hfre.lt
  · rw [(grows_update hg).traversable_iff hfre.lt]
    exact hfre.isFile

lemma satisfies_io {P : UnpackWorld → Prop} {Q : α → UnpackWorld → Prop} {y : UnpackIo α}
    (ctx : Text) (hy : Satisfies (UnpackInv x o) P y Q E) :
    Satisfies (UnpackInv x o) P (io ctx y) Q fun _ _ => True :=
  hy.mapError fun _ _ _ => trivial

lemma satisfies_copyData (ctx : Text) (file : ℕ) (data : List (Except Text (List UInt8))) :
    Satisfies (UnpackInv x o) (Fresh o file) (copyData ctx file data)
      (fun _ => Fresh o file) fun _ _ => True := by
  induction data with
  | nil => exact .pure fun _ _ h => h
  | cons ck data ih =>
    cases ck with
    | error e => exact .throw fun _ _ _ => trivial
    | ok bs => exact .bind (satisfies_io ctx (satisfies_modify (keepsShape_append bs))) fun _ => ih

lemma satisfies_writeTemporary (entry : Entry) (p : RelPath) (mode : ℕ) :
    Satisfies (UnpackInv x o) (fun _ => True) (x.writeTemporary entry p mode) (Fresh o)
      fun _ _ => True := by
  refine .bind (satisfies_io _ (satisfies_createTemporary p)) fun file => ?_
  refine .bind (satisfies_copyData _ file entry.data) fun _ => ?_
  refine .bind ((satisfies_modify (keepsShape_chmod mode)).mapError fun _ _ _ => trivial)
    fun _ => ?_
  exact .pure fun _ _ h => h

lemma UnpackInv.replace (h : UnpackInv x o w) (hcl : o.Closed) {file : ℕ}
    (hfre : Fresh o file w) (hsa : x.SafeToReplace o w p)
    (hlea : w.disk.Leads x.maxLinks x.root p.parent i) :
    UnpackInv x o { w with disk := w.disk.replace i p.name file } ∧
      IsSettled x o p { w with disk := w.disk.replace i p.name file } := by
  have hi := hlea.isDirectory
  have hnew : ∀ a b, o.lookup a b ≠ some file := by
    intro a b hab
    have hlt := hcl a b file hab
    have hle := hfre.new
    omega
  have hgw : Grows w.disk (w.disk.replace i p.name file) := grows_replace hi hfre.isFile
  refine ⟨⟨closed_replace h.closed hi hfre.lt, h.grows.trans hgw h.closed,
    h.intact.trans intact_replace, fun q hq => ?_⟩, ?_⟩
  · refine (h.settled q hq).replace hi hfre.isFile hnew h.closed fun hk => ?_
    exact (hsa i hlea hk).imp_right fun hno => hno q hq
  · refine isSettled_of_grows h hlea hgw fun hk => ?_
    exact ((kept_replace hi hnew).mp hk).2 ⟨rfl, rfl⟩

lemma satisfies_persist (hcl : o.Closed) (file : ℕ) (p : RelPath) :
    Satisfies (UnpackInv x o) (fun w => Fresh o file w ∧ x.SafeToReplace o w p)
      (x.persist file p) (fun _ => IsSettled x o p) fun _ _ => True := by
  refine satisfies_call (fun _ _ _ _ _ => trivial) fun w i hI hw hle => ?_
  obtain ⟨hinv, hset⟩ := hI.replace hcl hw.1 hw.2 hle
  unfold renameEntry
  cases w.disk.lookup i p.name with
  | none => exact .ok hinv hset
  | some j =>
    by_cases hdir : w.disk.IsDirectory j
    · simp only [if_pos hdir]
      exact .error hI trivial
    · simp only [if_neg hdir]
      exact .ok hinv hset

/-! ### Entries -/

lemma satisfies_push (p : RelPath) : Keeps (UnpackInv x o) (IsSettled x o p) (push p) :=
  .assign (fun _ hI hp => hI.push hp) fun _ _ _ => trivial

lemma satisfies_missingAncestors (path : List OsString) (seen : List (List OsString)) :
    Keeps (UnpackInv x o) (fun _ => True) (x.missingAncestors path seen) := by
  induction path generalizing seen with
  | nil => exact .pure fun _ _ _ => trivial
  | cons name par ih =>
    unfold missingAncestors
    split_ifs
    · exact .pure fun _ _ _ => trivial
    · refine .bind (.attempt_const (satisfies_symlinkMetadata _ _)) fun oc => ?_
      split
      · exact ih _
      · exact .throw fun _ _ _ => trivial
      · exact .bind (ih _) fun _ => .pure fun _ _ _ => trivial
      · exact .throw fun _ _ _ => trivial

lemma satisfies_createMissing (dirs : List RelPath) :
    Keeps (UnpackInv x o) (fun _ => True) (x.createMissing dirs) := by
  induction dirs with
  | nil => exact .pure fun _ _ _ => trivial
  | cons dir dirs ih =>
    exact .bind (satisfies_io _ (satisfies_createDir _ dir)) fun _ =>
      .bind (satisfies_push dir) fun _ => ih

lemma satisfies_ensureParentDirsRecorded (p : RelPath) (seen : List (List OsString)) :
    Keeps (UnpackInv x o) (fun _ => True) (x.ensureParentDirsRecorded p seen) :=
  .bind (satisfies_missingAncestors p.parent seen) fun _ =>
    .bind (satisfies_createMissing _) fun _ => .pure fun _ _ _ => trivial

lemma satisfies_createDirIfMissing (p : RelPath) :
    Satisfies (UnpackInv x o) (fun w => x.SafeToRecord o w.disk p)
      (x.createDirIfMissing p) (fun _ => IsSettled x o p) fun _ _ => True := by
  refine .bind (satisfies_createDir _ p).attempt fun oc => ?_
  cases oc with
  | ok u => exact .pure fun w _ hw => hw.1 u rfl
  | error e =>
    split
    · next h => cases h
    · next h =>
      cases h
      refine .pure fun w hI hw => ?_
      obtain ⟨hsa, hle⟩ := hw.2 _ rfl
      obtain ⟨i, hi⟩ := hle rfl
      exact settled_of_leads hI.closed hi (hsa i hi)
    · exact .throw fun _ _ _ => trivial

section

variable {fails : ℕ → Bool} {history : History UnpackWorld} {entry : Entry} {progress : Progress}

lemma ran_extractDirectory (h : ∀ w ∈ history.states, UnpackInv x o w) {p : RelPath}
    (hsa : ∀ seen hist', x.ensureParentDirsRecorded p progress.seenDirs fails history =
      (.ok seen, hist') → x.SafeToRecord o hist'.now.disk p) :
    Ran (UnpackInv x o) (x.extractDirectory entry p progress fails history) fun _ _ => True := by
  refine .bind (.of_satisfies (satisfies_ensureParentDirsRecorded p _) h trivial)
    fun seen hist' hrun h' _ => ?_
  refine .of_satisfies (.bind (satisfies_createDirIfMissing p) fun _ => ?_) h' (hsa seen hist' hrun)
  refine .bind (.check fun _ _ _ => trivial) fun mode => ?_
  refine .bind (satisfies_io _ (satisfies_setPermissions p p mode)) fun _ => ?_
  exact .bind (satisfies_push p) fun _ => .pure fun _ _ _ => trivial

section

variable (hcl : o.Closed) (h : ∀ w ∈ history.states, UnpackInv x o w)

include hcl h

lemma ran_extractRegular {p : RelPath}
    (hsa : ∀ seen hist', x.ensureParentDirsRecorded p progress.seenDirs fails history =
      (.ok seen, hist') → ∀ mode ∈ entry.mode, ∀ file hist'',
      x.writeTemporary entry p mode fails hist' = (.ok file, hist'') →
      x.SafeToReplace o hist''.now p) :
    Ran (UnpackInv x o) (x.extractRegular entry p progress fails history) fun _ _ => True := by
  refine .bind (.of_satisfies (satisfies_ensureParentDirsRecorded p _) h trivial)
    fun seen hist' hrun h' _ => ?_
  refine .lift_bind h' fun mode hreq => ?_
  have hmd : mode ∈ entry.mode := required_eq_ok.mp hreq
  have hwri : Ran (UnpackInv x o)
      (x.writeArchiveRegularFile entry p mode fails hist') fun _ => IsSettled x o p := by
    refine .bind (.of_satisfies (satisfies_writeTemporary entry p mode) h' trivial)
      fun file hist'' hwr h'' hfre => ?_
    exact .of_satisfies (satisfies_io _ (satisfies_persist hcl file p)) h''
      ⟨hfre, hsa seen hist' hrun mode hmd file hist'' hwr⟩
  refine .bind hwri fun _ hist'' _ h'' hset => ?_
  exact .of_satisfies (.bind (satisfies_push p) fun _ => .pure fun _ _ _ => trivial) h'' hset

lemma ran_extractEntry (hcar : x.Careful o fails history entry progress) :
    Ran (UnpackInv x o) (x.extractEntry entry progress fails history) fun _ _ => True := by
  refine .lift_bind h fun p hp => ?_
  have hcar := hcar p hp
  have hli : (∃ i, history.now.disk.Leads x.maxLinks x.root p.parent i) →
      x.SafeToRecord o history.now.disk p → IsSettled x o p history.now := by
    rintro ⟨i, hi⟩ hsa
    exact settled_of_leads (h _ history.now_mem_states).closed hi (hsa i hi)
  cases hty : entry.entryType with
  | directory =>
    rw [hty] at hcar
    exact ran_extractDirectory h hcar
  | symlink =>
    rw [hty] at hcar
    refine .lift_bind h fun tgt _ => .lift_bind h fun std _ => ?_
    exact .of_satisfies (.bind (satisfies_push p) fun _ => .pure fun _ _ _ => trivial) h
      (hli hcar.1 hcar.2)
  | link =>
    rw [hty] at hcar
    refine .lift_bind h fun linkName _ => .lift_bind h fun tgt _ => ?_
    exact .of_satisfies (.bind (satisfies_push p) fun _ => .pure fun _ _ _ => trivial) h
      (hli hcar.1 hcar.2)
  | regular =>
    rw [hty] at hcar
    exact ran_extractRegular hcl h hcar
  | other => exact .throw h

lemma ran_extractEntries {arc : Archive} (hcar : x.CarefulRun o fails arc progress history) :
    Ran (UnpackInv x o) (x.extractEntries arc progress fails history) fun _ _ => True := by
  induction arc generalizing progress history with
  | nil => exact ⟨h, fun _ _ => trivial⟩
  | cons item rest ih =>
    cases item with
    | error e => exact .throw h
    | ok entry =>
      refine .bind (ran_extractEntry hcl h hcar.1) fun prog' hist' hrun h' _ => ?_
      exact ih h' (hcar.2 prog' hist' hrun)

end

lemma satisfies_createRootLinks (extracted : List RelPath) (lks : List PendingRootLink) :
    Keeps (UnpackInv x o) (fun _ => True) (x.createRootLinks extracted lks) := by
  induction lks with
  | nil => exact .pure fun _ _ _ => trivial
  | cons lk lks ih =>
    refine .bind ?_ fun _ => ih
    cases lk with
    | symbolic path tgt display => exact satisfies_io _ (satisfies_symlink tgt path)
    | hard path tgt =>
      exact .bind (.check fun _ _ _ => trivial) fun _ =>
        satisfies_io _ (satisfies_hardLink tgt path)

lemma ran_extractTarStreamToRootAt (hcl : o.Closed) {arc : Archive}
    (hcar : x.CarefulRun o fails arc {} (.start ⟨o, []⟩)) :
    Ran (UnpackInv x o) (x.extractTarStreamToRootAt arc fails (.start ⟨o, []⟩))
      fun _ _ => True := by
  have hst : ∀ w ∈ (History.start (⟨o, []⟩ : UnpackWorld)).states, UnpackInv x o w :=
    forall_mem_singleton.mpr (.start hcl)
  refine .bind (ran_extractEntries hcl hst hcar) fun progress hist' _ h' _ => ?_
  exact .of_satisfies (satisfies_createRootLinks _ _) h' trivial

end

/-! ### Rollback -/

/-- What every step of a rollback keeps, from the world in which the extraction failed on. -/
structure RollbackInv (d₀ : Disk OsString) (failed w : UnpackWorld) : Prop where
  shrinks : Shrinks failed.disk w.disk
  intact : failed.disk.Intact w.disk
  kept : ∀ i name, Kept d₀ failed.disk i name → Kept d₀ w.disk i name

lemma RollbackInv.refl (o : Disk OsString) (w : UnpackWorld) : RollbackInv o w w :=
  ⟨.refl _, .refl _, fun _ _ h => h⟩

section

variable {failed : UnpackWorld} {p : RelPath}

lemma RollbackInv.remove {w : UnpackWorld} (h : RollbackInv o failed w)
    (hset : IsSettled x o p failed) {i j : ℕ}
    (hle : w.disk.Leads x.maxLinks x.root p.parent i) (hj : w.disk.lookup i p.name = some j)
    (hrem : w.disk.IsDirectory j → w.disk.entries j = some []) :
    RollbackInv o failed { w with disk := w.disk.remove i p.name } where
  shrinks := h.shrinks.trans shrinks_remove
  intact := h.intact.trans intact_remove
  kept a b hab := by
    have hnot := hset.not_kept h.shrinks h.kept hle hj hrem
    obtain ⟨k, hk₀, hk⟩ := h.kept a b hab
    refine ⟨k, hk₀, ?_⟩
    rw [lookup_remove, if_neg]
    · exact hk
    · rintro ⟨rfl, rfl⟩
      exact hnot hab

end

section

def KeptByRemoval (x : Unpacking) (J : UnpackWorld → Prop) (p : RelPath) : Prop :=
  ∀ w i j, J w → w.disk.Leads x.maxLinks x.root p.parent i → w.disk.lookup i p.name = some j →
    (w.disk.IsDirectory j → w.disk.entries j = some []) →
    J { w with disk := w.disk.remove i p.name }

variable {J : UnpackWorld → Prop} {p : RelPath}

lemma satisfies_removal_call {α : Type} {act : ℕ → Disk OsString → Except Errno α × Disk OsString}
    (hact : ∀ w i, J w → w.disk.Leads x.maxLinks x.root p.parent i →
      J { w with disk := (act i w.disk).2 }) : Keeps J (fun _ => True) (x.call p act) := by
  refine .step (fun _ _ _ => trivial) fun w hJ _ => ?_
  cases hat : w.disk.directoryAt x.maxLinks x.root p.parent with
  | error e => exact .error hJ trivial
  | ok i => exact ⟨hact w i hJ (directoryAt_eq_ok.mp hat), fun _ _ => trivial, fun _ _ => trivial⟩

lemma satisfies_removeFile (hp : KeptByRemoval x J p) :
    Keeps J (fun _ => True) (x.removeFile p) := by
  refine satisfies_removal_call fun w i hJ hle => ?_
  unfold unlinkEntry
  cases hj : w.disk.lookup i p.name with
  | none => exact hJ
  | some j =>
    by_cases hdir : w.disk.IsDirectory j
    · simp only [if_pos hdir]
      exact hJ
    · simp only [if_neg hdir]
      exact hp w i j hJ hle hj fun h => absurd h hdir

lemma satisfies_removeDir (hp : KeptByRemoval x J p) : Keeps J (fun _ => True) (x.removeDir p) := by
  refine satisfies_removal_call fun w i hJ hle => ?_
  unfold rmdirEntry
  cases hj : w.disk.lookup i p.name with
  | none => exact hJ
  | some j =>
    simp only
    cases hes : w.disk.entries j with
    | none => exact hJ
    | some es =>
      cases es with
      | nil => exact hp w i j hJ hle hj fun _ => hes
      | cons entry es => exact hJ

lemma satisfies_removeFileIfPresent (hp : KeptByRemoval x J p) :
    Keeps J (fun _ => True) (x.removeFileIfPresent p) := by
  have hins : Keeps J (fun _ => True) (x.symlinkMetadata p) := by
    refine satisfies_removal_call fun w i hJ _ => ?_
    cases w.disk.lookup i p.name <;> exact hJ
  refine .bind hins.attempt_const fun oc => ?_
  split
  · exact (satisfies_removeDir hp).mapError fun _ _ _ => trivial
  · refine .bind (satisfies_removeFile hp).attempt_const fun oc' => ?_
    split
    · exact .pure fun _ _ _ => trivial
    · exact .pure fun _ _ _ => trivial
    · exact .throw fun _ _ _ => trivial
  · exact .pure fun _ _ _ => trivial
  · exact .throw fun _ _ _ => trivial

lemma satisfies_removePaths {ps : List RelPath} (h : ∀ p ∈ ps, KeptByRemoval x J p) :
    Keeps J (fun _ => True) (x.removePaths ps) := by
  induction ps with
  | nil => exact .pure fun _ _ _ => trivial
  | cons p ps ih =>
    obtain ⟨hp, hpat⟩ := forall_mem_cons.mp h
    refine .bind (satisfies_removeFileIfPresent hp).attempt_const fun oc => ?_
    refine .bind (ih hpat) fun failures => ?_
    cases oc with
    | _ u => exact .pure fun _ _ _ => trivial

end

lemma satisfies_rollback {failed : UnpackWorld} (hinv : UnpackInv x o failed) :
    Keeps (RollbackInv o failed) (fun _ => True) (x.rollback failed.installedFiles) := by
  refine .bind (satisfies_removePaths fun p hp => ?_) fun failures =>
    .check fun _ _ _ => trivial
  have hset := hinv.settled p (mem_reverse.mp hp)
  exact fun w i j hJ hle hj hrem => hJ.remove hset hle hj hrem

lemma valid_of_kept {d : Disk OsString} (hk : ∀ i name, Kept o d i name → Kept o d' i name)
    {loc : Location OsString} (h₀ : o.Valid loc) (h : d.Valid loc) : d'.Valid loc := by
  induction loc with
  | nil => trivial
  | cons entry loc ih =>
    obtain ⟨name, i⟩ := entry
    obtain ⟨j, hj₀, hj⟩ := hk _ name ⟨i, h₀.1, h.1⟩
    obtain rfl : i = j := Option.some.inj (h₀.1.symm.trans hj₀)
    exact ⟨hj, ih h₀.2 h.2⟩

/-- **A rollback removes what the transaction made.** Let every step of an extraction meet the
condition, and let the extraction fail at any point. Then every path from before the extraction, on
which nothing has been replaced, leads to the same object with its kind and contents in all states
of the rollback. -/
theorem rollback_keeps {start : Disk OsString} (hclosed : start.Closed) {archive : Archive}
    {fails : ℕ → Bool} (hcareful : x.CarefulRun start fails archive {} (.start ⟨start, []⟩))
    {e : AnyhowError} {failed : History UnpackWorld}
    (hfailed : x.extractTarStreamToRootAt archive fails (.start ⟨start, []⟩) = (.error e, failed))
    (fails' : ℕ → Bool) {w : UnpackWorld}
    (hw : w ∈ (x.rollback failed.now.installedFiles fails' (.start failed.now)).2.states)
    {loc : Location OsString} (hbefore : start.Valid loc) (hkept : failed.now.disk.Valid loc) :
    w.disk.Valid loc ∧ ∀ node, start.nodes[loc.inode]? = some node →
      ∃ node', w.disk.nodes[loc.inode]? = some node' ∧ node.SameContent node' := by
  have hrun := (ran_extractTarStreamToRootAt hclosed hcareful).1
  rw [hfailed] at hrun
  have hinv : UnpackInv x start failed.now := hrun _ failed.now_mem_states
  have hrol := (satisfies_rollback hinv fails' (.start failed.now)
    (forall_mem_singleton.mpr (.refl start failed.now)) trivial).1 w hw
  exact ⟨valid_of_kept hrol.kept hbefore hkept, hinv.intact.trans hrol.intact _⟩

def toRoot : Unpacking :=
  ⟨40, 0o755, 0o600, [.char '/'], [], "numeric field was not a number", fun _ => []⟩

def oneFile : Disk OsString := ⟨[.directory 0o755 [([.char 'a'], 1)], .file 0o644 [1]]⟩

def brokenOff (entry : Entry) : Archive := [.ok entry, .error "unexpected end of file"]

def newFile : Entry :=
  ⟨[.char '.', .char '/', .char 'b'], .regular, none, true, some 0o644, [.ok [2]]⟩

lemma closed_oneFile : oneFile.Closed := by
  intro i name j h
  obtain ⟨es, hes, hn⟩ := Option.bind_eq_some_iff.mp h
  match i with
  | 0 =>
    obtain rfl : es = [([.char 'a'], 1)] := (Option.some.inj hes).symm
    by_cases ha : name = [.char 'a']
    · subst ha
      cases hn
      decide
    · rw [lookup_cons_of_ne ha] at hn
      cases hn
  | 1 => cases hes
  | i + 2 => cases hes

/-- The new file of an archive that breaks off is removed, and the old file stays. -/
theorem rollback_keeps_old_file :
    ∃ e failed, toRoot.extractTarStreamToRootAt (brokenOff newFile) (fun _ => false)
        (.start ⟨oneFile, []⟩) = (.error e, failed) ∧
      failed.now.installedFiles = [⟨[.char 'b'], []⟩] ∧
      ∀ w ∈ (toRoot.rollback failed.now.installedFiles (fun _ => false)
        (.start failed.now)).2.states, w.disk.Valid [([.char 'a'], 1)] := by
  have hcar : toRoot.CarefulRun oneFile (fun _ => false) (brokenOff newFile) {}
      (.start ⟨oneFile, []⟩) := by
    refine ⟨fun p hp => ?_, fun _ _ _ => trivial⟩
    cases hp
    intro seen hist' hrun mode hmd file hist'' hwr i hle hk
    obtain ⟨loc, hloc, -, rfl⟩ := hle
    cases hloc
    obtain ⟨j, hj, -⟩ := hk
    cases hj
  refine ⟨_, _, rfl, rfl, fun w hw => ?_⟩
  have hbe : oneFile.Valid [([.char 'a'], 1)] := ⟨rfl, trivial⟩
  exact (rollback_keeps closed_oneFile hcar rfl (fun _ => false) hw hbe ⟨rfl, trivial⟩).1

def linkOverFile : Entry :=
  ⟨[.char '.', .char '/', .char 'a'], .symlink, some [.char 'b'], true, some 0o777, []⟩

/-- A link is recorded before it is made, so that the file at its path is removed although it was
there before and has not been replaced. -/
theorem rollback_removes_old_file :
    ∃ e failed, toRoot.extractTarStreamToRootAt (brokenOff linkOverFile) (fun _ => false)
        (.start ⟨oneFile, []⟩) = (.error e, failed) ∧
      oneFile.Valid [([.char 'a'], 1)] ∧ failed.now.disk.Valid [([.char 'a'], 1)] ∧
      ¬(toRoot.rollback failed.now.installedFiles (fun _ => false)
        (.start failed.now)).2.now.disk.Valid [([.char 'a'], 1)] := by
  refine ⟨_, _, rfl, ⟨rfl, trivial⟩, ⟨rfl, trivial⟩, ?_⟩
  rintro ⟨h, -⟩
  exact absurd h (by decide)

end Omg.Debian.Unpacking
