import Omg.Control.Interference
import Omg.Text.Basic

/-!
# System calls on files that other processes change

The files, descriptors and staging directories that the package handoff works on, and the system
calls it makes. Every call comes after a step of the other processes, which may change what a path
names, the bytes of a file, the ownership and the type of a file, and whether the call fails, how
many bytes a read returns and which numbers the kernel hands out. What they cannot do is
collected in `Kept`: a sealed file never changes, the descriptors of a process are its own, and a
directory that root created with mode `0700` is not written by others.

Descriptors that the source closes when it drops a file stay in the table.
-/

namespace Omg.Security

open Control Function Option Except Interfered
open Text (bail)

/-- A file of the kernel. `isSealed` says that it has all of `F_SEAL_WRITE`, `F_SEAL_GROW`,
`F_SEAL_SHRINK` and `F_SEAL_SEAL`. -/
structure Inode where
  isFile : Bool
  uid : ℕ
  mode : ℕ
  contents : Bytes
  isSealed : Bool
deriving DecidableEq

/-- What `stat` and `lstat` say of a path. -/
structure Stat where
  isSymlink : Bool
  isFile : Bool
  uid : ℕ
  mode : ℕ

inductive OpenError
  | notFound
  | other (message : Text)

/-- The state of the machine. The fields `fault`, `nextInode`, `nextDescriptor`, `granted` and
`tempName` are the choices of the kernel for the next call. -/
structure System where
  fault : Option Text
  lstat : OsString → Except Text Stat
  stat : OsString → Except Text Stat
  /-- The absolute path that a path resolves to, without its leading separator. -/
  canonicalize : OsString → Except Text OsString
  /-- The file that opening a path reaches if the last component is not followed. -/
  resolve : OsString → Except OpenError ℕ
  inodes : ℕ → Option Inode
  descriptors : ℕ → ℕ → Option ℕ
  nextInode : ℕ
  nextDescriptor : ℕ
  granted : ℕ
  tempName : Text
  staging : Text → Option (Text → Option Bytes)

open Security.System

def noSuchFile : Text := "No such file or directory (os error 2)"

/-- A machine without any files. -/
instance : Inhabited System where
  default :=
    { fault := none
      lstat := fun _ => .error noSuchFile
      stat := fun _ => .error noSuchFile
      canonicalize := fun _ => .error noSuchFile
      resolve := fun _ => .error .notFound
      inodes := fun _ => none
      descriptors := fun _ _ => none
      nextInode := 1
      nextDescriptor := 3
      granted := 20
      tempName := ['x']
      staging := fun _ => none }

structure Process where
  pid : ℕ
  pid_pos : 0 < pid
  pid_lt : pid < 2 ^ 32
  euid : ℕ
  sudoUser : Option Text
  doasUser : Option Text
  account : Text → Except Text (Option ℕ)

/-- The process with number `1` of an ordinary account. -/
instance : Inhabited Process where
  default := ⟨1, by decide, by decide, 1000, none, none, fun _ => .ok none⟩

structure File where
  fd : ℕ
  ino : ℕ
deriving DecidableEq

/-- A computation of the process that makes system calls. -/
abbrev Call := Interfered System AnyhowError

def call {α : Type} (f : System → Result (α × System)) : Call α :=
  step fun w =>
    match w.fault with
    | some message => .error [message]
    | none => f w

def look {α : Type} (f : System → Result α) : Call α := call fun w => (f w).map fun a => (a, w)

def query {α : Type} (f : System → Except Text α) (describe : Text → Text) : Call α :=
  step fun w =>
    match f w with
    | .error message => .error [describe message]
    | .ok a => .ok (a, w)

def badDescriptor : Text := "Bad file descriptor (os error 9)"

def tooManyOpenFiles : Text := "Too many open files (os error 24)"

def fileExists : Text := "File exists (os error 17)"

def notPermitted : Text := "Operation not permitted (os error 1)"

def noSpace : Text := "No space left on device (os error 28)"

def System.attach (w : System) (P : Process) (ino : ℕ) : Except Text (File × System) :=
  if w.nextDescriptor < 2 ^ 31 ∧ w.descriptors P.pid w.nextDescriptor = none then
    .ok (⟨w.nextDescriptor, ino⟩, { w with
      nextDescriptor := w.nextDescriptor + 1
      descriptors := fun pid fd =>
        if pid = P.pid ∧ fd = w.nextDescriptor then some ino else w.descriptors pid fd })
  else .error tooManyOpenFiles

def System.setInode (w : System) (ino : ℕ) (n : Inode) : System :=
  { w with inodes := fun i => if i = ino then some n else w.inodes i }

def System.setStaging (w : System) (directory : Text) (files : Text → Option Bytes) : System :=
  { w with staging := fun d => if d = directory then some files else w.staging d }

def overwrite (contents : Bytes) (offset : ℕ) (chunk : Bytes) : Bytes :=
  contents.take offset ++ List.replicate (offset - contents.length) 0 ++ chunk ++
    contents.drop (offset + chunk.length)

lemma overwrite_length (txts ck : Bytes) : overwrite txts txts.length ck = txts ++ ck := by
  simp [overwrite]

/-! ### The calls -/

section

variable (P : Process)

/-- `symlink_metadata`. The caller describes the error. -/
def symlinkMetadata (describe : Text → Text) (path : OsString) : Call Stat :=
  query (fun w => w.lstat path) describe

def metadata (path : OsString) : Call Stat := query (fun w => w.stat path) id

def canonicalize (describe : Text → Text) (path : OsString) : Call OsString :=
  query (fun w => (w.canonicalize path).map (.char '/' :: ·)) describe

/-- `open` with `O_NOFOLLOW`. The caller looks at the error. -/
def openNoFollow (path : OsString) : Call (Except OpenError File) :=
  step fun w =>
    match w.resolve path with
    | .error e => .ok (.error e, w)
    | .ok ino =>
      match w.attach P ino with
      | .error message => .ok (.error (.other message), w)
      | .ok (file, w') => .ok (.ok file, w')

/-- `open` of `/proc/PID/fd/FD`. -/
def openProc (pid fd : ℕ) : Call File :=
  call fun w =>
    match w.descriptors pid fd with
    | none => bail noSuchFile
    | some ino => (w.attach P ino).mapError fun message => [message]

/-- `fstat`. -/
def fileMetadata (file : File) : Call Inode :=
  look fun w =>
    match w.inodes file.ino with
    | none => bail badDescriptor
    | some n => .ok n

def memfdCreate : Call File :=
  call fun w =>
    if w.inodes w.nextInode = none then
      let created := w.setInode w.nextInode ⟨true, P.euid, 0o777, [], false⟩
      ({ created with nextInode := w.nextInode + 1 }.attach P w.nextInode).mapError
        fun message => [message]
    else bail noSpace

/-- `read` of at most `count` bytes from an offset. -/
def readAt (file : File) (offset count : ℕ) : Call Bytes :=
  look fun w =>
    match w.inodes file.ino with
    | none => bail badDescriptor
    | some n => .ok ((n.contents.drop offset).take (min count (w.granted + 1)))

/-- `write` of all bytes at an offset. -/
def writeAt (file : File) (offset : ℕ) (chunk : Bytes) : Call Unit :=
  call fun w =>
    match w.inodes file.ino with
    | none => bail badDescriptor
    | some n =>
      if n.isSealed then bail notPermitted
      else .ok ((), w.setInode file.ino { n with contents := overwrite n.contents offset chunk })

/-- `fcntl_add_seals` with all four seals. -/
def addSeals (file : File) : Call Unit :=
  call fun w =>
    match w.inodes file.ino with
    | none => bail badDescriptor
    | some n => .ok ((), w.setInode file.ino { n with isSealed := true })

/-- `fcntl_get_seals`: whether all four seals are set. -/
def getSeals (file : File) : Call Bool :=
  look fun w =>
    match w.inodes file.ino with
    | none => bail badDescriptor
    | some n => .ok n.isSealed

/-- The names of staging directories up to the part that `tempfile` picks. -/
def stagingPrefix : Text := "/var/tmp/omg-package-"

/-- `tempfile::Builder::tempdir_in` for `/var/tmp`. -/
def tempdirIn : Call Text :=
  call fun w =>
    let directory := stagingPrefix ++ w.tempName
    match w.staging directory with
    | some _ => bail fileExists
    | none => .ok (directory, w.setStaging directory fun _ => none)

/-- Create a file in a staging directory. With `new` it must not exist, else it is truncated. -/
def createStaged (new : Bool) (directory name : Text) : Call Unit :=
  call fun w =>
    match w.staging directory with
    | none => bail noSuchFile
    | some files =>
      if new && (files name).isSome then bail fileExists
      else .ok ((), w.setStaging directory (update files name (some [])))

def writeStaged (directory name : Text) (offset : ℕ) (chunk : Bytes) : Call Unit :=
  call fun w =>
    match w.staging directory with
    | none => bail noSuchFile
    | some files =>
      match files name with
      | none => bail noSuchFile
      | some contents =>
        .ok ((), w.setStaging directory
          (update files name (some (overwrite contents offset chunk))))

end

/-! ### What the calls keep -/

/-- What neither the other processes nor the calls of `P` change: sealed files, the open
descriptors of `P`, and the staging directories, apart from at most one that `P` writes. -/
structure Kept (P : Process) (directory : Option Text) (w w' : System) : Prop where
  inodes : ∀ i n, w.inodes i = some n → n.isSealed = true → w'.inodes i = some n
  descriptors : ∀ fd ino, w.descriptors P.pid fd = some ino → w'.descriptors P.pid fd = some ino
  staging : ∀ d files, some d ≠ directory → w.staging d = some files → w'.staging d = some files

variable {P : Process} {directory : Option Text} {w v w' : System} {α : Type}

lemma Kept.refl (w : System) : Kept P directory w w :=
  ⟨fun _ _ h _ => h, fun _ _ h => h, fun _ _ _ h => h⟩

lemma Kept.trans (h : Kept P directory w v) (h' : Kept P directory v w') :
    Kept P directory w w' where
  inodes i n hn hse := h'.inodes i n (h.inodes i n hn hse) hse
  descriptors fd ino hfd := h'.descriptors fd ino (h.descriptors fd ino hfd)
  staging d files hd hfs := h'.staging d files hd (h.staging d files hd hfs)

lemma Kept.outside (h : Kept P none w w') : Kept P directory w w' where
  inodes := h.inodes
  descriptors := h.descriptors
  staging d files _ hfs := h.staging d files (by simp) hfs

lemma attach_eq_ok {ino : ℕ} {file : File} (h : w.attach P ino = .ok (file, w')) :
    file.ino = ino ∧ file.fd < 2 ^ 31 ∧ w'.descriptors P.pid file.fd = some ino := by
  unfold System.attach at h
  split_ifs at h with hfe
  cases h
  exact ⟨rfl, hfe.1, by simp⟩

lemma kept_attach {Q : Process} {ino : ℕ} {file : File}
    (h : w.attach P ino = .ok (file, w')) : Kept Q directory w w' := by
  unfold System.attach at h
  split_ifs at h with hfe
  cases h
  refine ⟨fun _ _ hn _ => hn, fun fd ino' hfd => ?_, fun _ _ _ hfs => hfs⟩
  have hne : ¬ (Q.pid = P.pid ∧ fd = w.nextDescriptor) := by
    rintro ⟨hpid, rfl⟩
    rw [hpid, hfe.2] at hfd
    cases hfd
  simpa [hne] using hfd

lemma kept_setInode {ino : ℕ} {n : Inode}
    (h : ∀ n', w.inodes ino = some n' → n'.isSealed → n' = n) :
    Kept P directory w (w.setInode ino n) where
  inodes i n' hn hse := by
    by_cases hi : i = ino
    · subst hi
      simp [setInode, h n' hn hse]
    · simpa [setInode, hi] using hn
  descriptors _ _ hfd := hfd
  staging _ _ _ hfs := hfs

lemma kept_setStaging {d : Text} {fs : Text → Option Bytes} :
    Kept P (some d) w (w.setStaging d fs) where
  inodes _ _ hn _ := hn
  descriptors _ _ hfd := hfd
  staging d' files' hd hfs := by
    have hne : ¬ d' = d := fun h => hd (by rw [h])
    simpa [setStaging, hne] using hfs

lemma meets_call {f : System → Result (α × System)} {Q : System → α → System → Prop}
    (h : ∀ w v a w', Kept P none w v → f v = .ok (a, w') → Q w a w') :
    Meets (Kept P none) (call f) Q := by
  refine Meets.step fun w v a w' hk hf => ?_
  cases hfau : v.fault with
  | some msg => simp [hfau] at hf
  | none => exact h w v a w' hk (by simpa [hfau] using hf)

lemma meets_look {f : System → Result α} {Q : α → System → Prop} (h : ∀ w a, f w = .ok a → Q a w) :
    Meets (Kept P none) (look f) fun w a w' => Kept P none w w' ∧ Q a w' := by
  refine meets_call fun w v a w' hk hf => ?_
  cases hres : f v with
  | error e => simp [hres, Except.map] at hf
  | ok b =>
    obtain ⟨rfl, rfl⟩ : b = a ∧ v = w' := by simpa [hres, Except.map] using hf
    exact ⟨hk, h v b hres⟩

lemma meets_query {f : System → Except Text α} {describe : Text → Text} {Q : α → System → Prop}
    (h : ∀ w a, f w = .ok a → Q a w) :
    Meets (Kept P none) (query f describe) fun w a w' => Kept P none w w' ∧ Q a w' := by
  refine Meets.step fun w v a w' hk hf => ?_
  cases hres : f v with
  | error e => simp [hres] at hf
  | ok b =>
    obtain ⟨rfl, rfl⟩ : b = a ∧ v = w' := by simpa [hres] using hf
    exact ⟨hk, h v b hres⟩

structure Process.Holds (P : Process) (w : System) (file : File) : Prop where
  fd_lt : file.fd < 2 ^ 31
  descriptor : w.descriptors P.pid file.fd = some file.ino

lemma Process.Holds.kept {file : File} (h : P.Holds w file) (hk : Kept P directory w w') :
    P.Holds w' file :=
  ⟨h.fd_lt, hk.descriptors _ _ h.descriptor⟩

lemma meets_symlinkMetadata (describe : Text → Text) (path : OsString) :
    Meets (Kept P none) (symlinkMetadata describe path) fun w _ w' => Kept P none w w' :=
  (meets_query fun _ _ _ => trivial).mono fun _ _ _ h => h.1

lemma meets_metadata (path : OsString) :
    Meets (Kept P none) (metadata path) fun w _ w' => Kept P none w w' :=
  (meets_query fun _ _ _ => trivial).mono fun _ _ _ h => h.1

lemma meets_canonicalize (describe : Text → Text) (path : OsString) :
    Meets (Kept P none) (canonicalize describe path) fun w canon w' =>
      Kept P none w w' ∧ ∃ rest, canon = .char '/' :: rest := by
  refine meets_query fun w canon hcan => ?_
  cases hres : w.canonicalize path with
  | error msg => simp [hres, Except.map] at hcan
  | ok rest => exact ⟨rest, by simpa [hres, Except.map] using hcan.symm⟩

lemma meets_openNoFollow (path : OsString) :
    Meets (Kept P none) (openNoFollow P path) fun w _ w' => Kept P none w w' := by
  refine Meets.step fun w v opened w' hk hf => ?_
  cases hres : v.resolve path with
  | error e =>
    obtain ⟨-, rfl⟩ : .error e = opened ∧ v = w' := by simpa [hres] using hf
    exact hk
  | ok ino =>
    cases hat : v.attach P ino with
    | error msg =>
      obtain ⟨-, rfl⟩ : .error (.other msg) = opened ∧ v = w' := by simpa [hres, hat] using hf
      exact hk
    | ok r =>
      obtain ⟨-, rfl⟩ : .ok r.1 = opened ∧ r.2 = w' := by simpa [hres, hat] using hf
      exact hk.trans (kept_attach hat)

lemma meets_openProc (pid fd : ℕ) : Meets (Kept P none) (openProc P pid fd) fun w file w' =>
      Kept P none w w' ∧ P.Holds w' file ∧
        ∀ ino, pid = P.pid → w.descriptors P.pid fd = some ino → file.ino = ino := by
  refine meets_call fun w v file w' hk hf => ?_
  cases hfd : v.descriptors pid fd with
  | none => simp [hfd, bail] at hf
  | some ino =>
    cases hat : v.attach P ino with
    | error msg => simp [hfd, hat, Except.mapError] at hf
    | ok r =>
      obtain rfl : r = (file, w') := by simpa [hfd, hat, Except.mapError] using hf
      obtain ⟨hino, hlt, hop⟩ := attach_eq_ok hat
      refine ⟨hk.trans (kept_attach hat), ⟨hlt, by rw [hop, hino]⟩, fun ino' hpid hino' => ?_⟩
      have hsm := hk.descriptors fd ino' hino'
      rw [← hpid, hfd] at hsm
      rw [hino]
      exact Option.some.inj hsm

lemma meets_fileMetadata (file : File) : Meets (Kept P none) (fileMetadata file) fun w n w' =>
      Kept P none w w' ∧ w'.inodes file.ino = some n := by
  refine meets_look fun w n hn => ?_
  cases hres : w.inodes file.ino with
  | none => simp [hres, bail] at hn
  | some n' => simpa [hres] using hn

lemma meets_memfdCreate : Meets (Kept P none) (memfdCreate P) fun w file w' =>
      Kept P none w w' ∧ P.Holds w' file := by
  refine meets_call fun w v file w' hk hf => ?_
  split_ifs at hf with hfe
  · have hset : Kept P none v (v.setInode v.nextInode ⟨true, P.euid, 0o777, [], false⟩) :=
      kept_setInode fun n' hn' => by simp [hfe] at hn'
    dsimp only at hf
    generalize hcre : { v.setInode v.nextInode ⟨true, P.euid, 0o777, [], false⟩ with
      nextInode := v.nextInode + 1 } = created at hf
    have hk' : Kept P none v created := by
      subst hcre
      exact ⟨hset.inodes, hset.descriptors, hset.staging⟩
    cases hat : created.attach P v.nextInode with
    | error msg => simp [hat, Except.mapError] at hf
    | ok r =>
      obtain rfl : r = (file, w') := by simpa [hat, Except.mapError] using hf
      obtain ⟨hino, hlt, hop⟩ := attach_eq_ok hat
      exact ⟨(hk.trans hk').trans (kept_attach hat), hlt, by rw [hop, hino]⟩
  · simp [bail] at hf

lemma meets_readAt (file : File) (off count : ℕ) :
    Meets (Kept P none) (readAt file off count) fun w ck w' =>
      Kept P none w w' ∧ ∃ n granted, w'.inodes file.ino = some n ∧
        ck = (n.contents.drop off).take (min count (granted + 1)) := by
  refine meets_look fun w ck hck => ?_
  cases hres : w.inodes file.ino with
  | none => simp [hres, bail] at hck
  | some n => exact ⟨n, w.granted, rfl, by simpa [hres] using hck.symm⟩

lemma meets_writeAt (file : File) (offset : ℕ) (chunk : Bytes) :
    Meets (Kept P none) (writeAt file offset chunk) fun w _ w' => Kept P none w w' := by
  refine meets_call fun w v _ w' hk hf => ?_
  cases hn : v.inodes file.ino with
  | none => simp [hn, bail] at hf
  | some n =>
    cases hse : n.isSealed with
    | true => simp [hn, hse, bail] at hf
    | false =>
      obtain rfl : v.setInode file.ino { n with contents := overwrite n.contents offset chunk } =
          w' := by simpa [hn, hse] using hf
      refine hk.trans (kept_setInode fun n' hn' hse' => ?_)
      obtain rfl : n = n' := some.inj (hn.symm.trans hn')
      simp [hse] at hse'

lemma meets_addSeals (file : File) : Meets (Kept P none) (addSeals file) fun w _ w' =>
      Kept P none w w' ∧ ∃ n, w'.inodes file.ino = some n ∧ n.isSealed := by
  refine meets_call fun w v _ w' hk hf => ?_
  cases hn : v.inodes file.ino with
  | none => simp [hn, bail] at hf
  | some n =>
    obtain rfl : v.setInode file.ino { n with isSealed := true } = w' := by simpa [hn] using hf
    refine ⟨hk.trans (kept_setInode fun n' hn' hse => ?_), { n with isSealed := true },
      by simp [setInode], rfl⟩
    obtain rfl : n = n' := some.inj (hn.symm.trans hn')
    cases n
    simp_all

lemma meets_getSeals (file : File) : Meets (Kept P none) (getSeals file) fun w isSealed w' =>
      Kept P none w w' ∧ ∃ n, w'.inodes file.ino = some n ∧ n.isSealed = isSealed := by
  refine meets_look fun w isSealed h => ?_
  cases hres : w.inodes file.ino with
  | none => simp [hres, bail] at h
  | some n => exact ⟨n, rfl, by simpa [hres] using h⟩

lemma meets_tempdirIn : Meets (Kept P none) tempdirIn fun w d w' =>
      Kept P (some d) w w' ∧ w.staging d = none ∧ w'.staging d = some fun _ => none := by
  refine meets_call fun w v d w' hk hf => ?_
  dsimp only at hf
  split at hf
  · simp [bail] at hf
  · rename_i hno
    cases hf
    refine ⟨hk.outside.trans kept_setStaging, ?_, by simp [setStaging]⟩
    cases hd : w.staging (stagingPrefix ++ v.tempName) with
    | none => rfl
    | some fs =>
      rw [hk.staging _ fs (by simp) hd] at hno
      cases hno

lemma meets_createStaged (new : Bool) (d name : Text) :
    Meets (Kept P none) (createStaged new d name) fun w _ w' =>
      Kept P (some d) w w' ∧ ∀ fs, w.staging d = some fs →
        w'.staging d = some (update fs name (some [])) := by
  refine meets_call fun w v _ w' hk hf => ?_
  cases hfs : v.staging d with
  | none => simp [hfs, bail] at hf
  | some fs =>
    simp only [hfs] at hf
    split_ifs at hf with hexi
    · simp [bail] at hf
    · cases hf
      refine ⟨hk.outside.trans kept_setStaging, fun fs' hfs' => ?_⟩
      rw [hk.staging d fs' (by simp) hfs'] at hfs
      obtain rfl := some.inj hfs
      simp [setStaging]

lemma meets_writeStaged (d name : Text) (off : ℕ) (ck : Bytes) :
    Meets (Kept P none) (writeStaged d name off ck) fun w _ w' =>
      Kept P (some d) w w' ∧ ∀ fs txts, w.staging d = some fs → fs name = some txts → w'.staging d =
          some (update fs name (some (overwrite txts off ck))) := by
  refine meets_call fun w v _ w' hk hf => ?_
  cases hfs : v.staging d with
  | none => simp [hfs, bail] at hf
  | some fs =>
    cases hn : fs name with
    | none => simp [hfs, hn, bail] at hf
    | some txts =>
      obtain rfl : v.setStaging d (update fs name (some (overwrite txts off ck))) = w' := by
        simpa [hfs, hn] using hf
      refine ⟨hk.outside.trans kept_setStaging, fun fs' txts' hfs' hn' => ?_⟩
      rw [hk.staging d fs' (by simp) hfs'] at hfs
      obtain rfl := some.inj hfs
      rw [hn] at hn'
      obtain rfl := some.inj hn'
      simp [setStaging]

end Omg.Security
