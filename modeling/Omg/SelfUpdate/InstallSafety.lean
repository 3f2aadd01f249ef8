import Omg.SelfUpdate.Install

/-!
# Updates are installed one after the other, each as a whole

Only the call that holds the lock changes a binary. So what it found when it took the lock is what
the call before it left, and the two replacements of a call are not mixed with those of another one.
-/

namespace Omg.SelfUpdate

open Control List Function
open Control.Process (Triple Stable)
open Fs (Errno Kind)

variable {ι : Type} {render : Rendering} {updates : ι → Update} {i k : ι} {found : Files}
  {m m' : Installation ι} {before : Files}

def Update.Installed (update : Update) (files : Files) : Prop :=
  ∀ slot, ∃ file, update.payload slot = some (.regular file) ∧
    files slot = some (.regular ⟨file.contents, 0o755⟩)

structure Outcome (update : Update) (found left : Files) (result : Except UpdateError Unit) :
    Prop where
  installed : result = .ok () → update.Installed left
  restored : ∀ e, result = .error e → e.recovery = [] → left = found

/-- What the call `i` does to the directory in one step. -/
inductive Change (updates : ι → Update) (i : ι) (m m' : Installation ι) : Prop
  | quiet (files : m'.files = m.files) (holder : m'.holder = m.holder)
      (sessions : m'.sessions = m.sessions)
  | acquire (free : m.holder = none) (files : m'.files = m.files)
      (holder : m'.holder = some (i, m.files)) (sessions : m'.sessions = m.sessions)
  | write (found : Files) (held : m.holder = some (i, found)) (holder : m'.holder = m.holder)
      (sessions : m'.sessions = m.sessions)
  | release (found : Files) (result : Except UpdateError Unit) (held : m.holder = some (i, found))
      (files : m'.files = m.files) (holder : m'.holder = none)
      (sessions : m'.sessions = m.sessions ++ [⟨i, found, m.files, result⟩])
      (outcome : Outcome (updates i) found m.files result)

/-- What the call `i` relies on. -/
structure Rely (i : ι) (m m' : Installation ι) : Prop where
  held : ∀ found, m.holder = some (i, found) →
    m'.holder = some (i, found) ∧ m'.files = m.files
  free : ∀ found, m'.holder = some (i, found) → m.holder = some (i, found)
  sessions : ∀ s, s.call = i → (s ∈ m'.sessions ↔ s ∈ m.sessions)

lemma Rely.refl (i : ι) (m : Installation ι) : Rely i m m :=
  ⟨fun _ h => ⟨h, rfl⟩, fun _ h => h, fun _ _ => .rfl⟩

lemma Rely.trans {m'' : Installation ι} (h : Rely i m m') (h' : Rely i m' m'') :
    Rely i m m'' where
  held found hhe := by
    obtain ⟨hhe', hfs⟩ := h.held found hhe
    obtain ⟨hhe'', hfs'⟩ := h'.held found hhe'
    exact ⟨hhe'', hfs'.trans hfs⟩
  free found hhe := h.free found (h'.free found hhe)
  sessions s hs := (h'.sessions s hs).trans (h.sessions s hs)

lemma Change.rely (h : Change updates i m m') (hk : k ≠ i) : Rely k m m' := by
  cases h with
  | quiet fs holder sessions =>
    exact ⟨fun _ h => ⟨holder.trans h, fs⟩, fun _ h => holder.symm.trans h,
      fun _ _ => by rw [sessions]⟩
  | acquire free fs holder sessions =>
    refine ⟨fun _ h => ?_, fun _ h => ?_, fun _ _ => by rw [sessions]⟩
    · cases free.symm.trans h
    · cases holder.symm.trans h
      exact absurd rfl hk
  | write found held holder sessions =>
    refine ⟨fun _ h => ?_, fun _ h => holder.symm.trans h, fun _ _ => by rw [sessions]⟩
    cases held.symm.trans h
    exact absurd rfl hk
  | release found res held fs holder sessions oc =>
    refine ⟨fun _ h => ?_, fun _ h => ?_, fun s hs => ?_⟩
    · cases held.symm.trans h
      exact absurd rfl hk
    · cases holder.symm.trans h
    · rw [sessions, mem_append, mem_singleton, or_iff_left]
      rintro rfl
      exact hk hs.symm

/-! ### Under the lock -/

/-- The call `i` has the lock and has not released it before; the files are as `F` says. -/
structure Inside (i : ι) (found : Files) (F : Files → Prop) (m : Installation ι) : Prop where
  held : m.holder = some (i, found)
  first : ∀ s ∈ m.sessions, s.call ≠ i
  files : F m.files

lemma stable_inside (F : Files → Prop) : Stable (Rely i) (Inside i found F) := by
  intro m m' hry h
  obtain ⟨hhe, hfs⟩ := hry.held found h.held
  refine ⟨hhe, fun s hs hca => ?_, hfs ▸ h.files⟩
  exact h.first s ((hry.sessions s hca).mp hs) hca

def InsideTriple (updates : ι → Update) (i : ι) (found : Files) {ε α : Type} (F : Files → Prop)
    (p : UpdateM ι ε α) (Q : α → Files → Prop) (E : ε → Files → Prop) : Prop :=
  Triple (Rely i) (Change updates i) (Inside i found F) p (fun a => Inside i found (Q a))
    fun e => Inside i found (E e)

namespace InsideTriple

variable {ε ε' α β : Type} {F F' : Files → Prop} {p : UpdateM ι ε α} {Q Q' : α → Files → Prop}
  {E E' : ε → Files → Prop}

lemma mono (h : InsideTriple updates i found F p Q E) (hF : ∀ fs, F' fs → F fs)
    (hQ : ∀ a fs, Q a fs → Q' a fs) (hE : ∀ e fs, E e fs → E' e fs) :
    InsideTriple updates i found F' p Q' E' :=
  Triple.mono h (fun _ hm => ⟨hm.held, hm.first, hF _ hm.files⟩)
    (fun _ _ hm => ⟨hm.held, hm.first, hQ _ _ hm.files⟩)
    fun _ _ hm => ⟨hm.held, hm.first, hE _ _ hm.files⟩

lemma of_forall (h : ∀ fs, F fs → InsideTriple updates i found (· = fs) p Q E) :
    InsideTriple updates i found F p Q E :=
  fun m hm => h m.files hm.files m ⟨hm.held, hm.first, rfl⟩

lemma of_fact {φ : Prop} (hφ : ∀ fs, F fs → φ)
    (h : φ → InsideTriple updates i found F p Q E) : InsideTriple updates i found F p Q E :=
  fun m hm => h (hφ _ hm.files) m hm

lemma pure {a : α} (h : ∀ fs, F fs → Q a fs) :
    InsideTriple updates i found F (Pure.pure a : UpdateM ι ε α) Q E :=
  Triple.pure fun _ hm => ⟨hm.held, hm.first, h _ hm.files⟩

lemma fail {e : ε} (h : ∀ fs, F fs → E e fs) :
    InsideTriple updates i found F (.fail e : UpdateM ι ε α) Q E :=
  fun _ hm => ⟨hm.held, hm.first, h _ hm.files⟩

section

variable (hp : InsideTriple updates i found F p Q E)

include hp

lemma bind {q : α → UpdateM ι ε β} {Q' : β → Files → Prop}
    (hq : ∀ a, InsideTriple updates i found (Q a) (q a) Q' E) :
    InsideTriple updates i found F (p >>= q) Q' E :=
  Triple.bind hp hq

lemma mapError {f : ε → ε'} {E' : ε' → Files → Prop}
    (hE : ∀ e fs, E e fs → E' (f e) fs) : InsideTriple updates i found F (p.mapError f) Q E' :=
  Triple.mapError hp fun _ _ hm => ⟨hm.held, hm.first, hE _ _ hm.files⟩

lemma attempt_bind {q : Except ε α → UpdateM ι ε' β} {Q' : β → Files → Prop}
    {E' : ε' → Files → Prop}
    (hok : ∀ a, InsideTriple updates i found (Q a) (q (.ok a)) Q' E')
    (her : ∀ e, InsideTriple updates i found (E e) (q (.error e)) Q' E') :
    InsideTriple updates i found F (p.attempt >>= q) Q' E' :=
  Triple.attempt_bind hp hok her

end

lemma onFiles {f : Files → Except Errno α × Files} {E : Errno → Files → Prop}
    (hfau : ∀ fs, F fs → E .fault fs) (hok : ∀ fs a, F fs → (f fs).1 = .ok a → Q a (f fs).2)
    (her : ∀ fs e, F fs → (f fs).1 = .error e → E e (f fs).2) :
    InsideTriple updates i found F (SelfUpdate.onFiles f) Q E := by
  refine Triple.perform (stable_inside F) fun flt m hm => ?_
  cases flt with
  | true =>
    refine ⟨.quiet rfl rfl rfl, nofun, ?_⟩
    rintro _ ⟨⟩
    exact ⟨hm.held, hm.first, hfau _ hm.files⟩
  | false =>
    exact ⟨.write found hm.held rfl rfl, fun a ha => ⟨hm.held, hm.first, hok _ a hm.files ha⟩,
      fun e he => ⟨hm.held, hm.first, her _ e hm.files he⟩⟩

lemma privately :
    InsideTriple updates i found F (SelfUpdate.privately : UpdateM ι Errno Unit) (fun _ => F)
      fun _ => F :=
  onFiles (fun _ hF => hF) (fun _ _ hF _ => hF) fun _ _ hF _ => hF

end InsideTriple

/-! ### Staging -/

def Early (found : Files) (e : UpdateError) (files : Files) : Prop :=
  files = found ∧ e.recovery = []

lemma early_context {msg : Text} (e : Errno) (fs : Files) (h : fs = found) :
    Early found (context render msg e) fs := ⟨h, rfl⟩

lemma early_plain (e : Errno) (fs : Files) (h : fs = found) :
    Early found (plain render e) fs := ⟨h, rfl⟩

lemma inside_openPayload (src : Files → Option Entry) :
    InsideTriple updates i found (· = found) (openPayload src)
      (fun en fs => fs = found ∧ src found = some en) (fun _ => (· = found)) := by
  refine .onFiles (fun _ hF => hF) (fun fs en hF hok => ?_) fun fs e hF _ => ?_
  · subst hF
    revert hok
    cases hsrc : src fs with
    | none => exact nofun
    | some e' => cases e' <;> simp
  · subst hF
    rcases src fs with _ | ⟨_ | _ | _ | _⟩ <;> rfl

lemma inside_stageUpdateBinary (src : Files → Option Entry) (path : Text) :
    InsideTriple updates i found (· = found) (stageUpdateBinary render src path)
      (fun stg fs => fs = found ∧ ∃ file, src found = some (.regular file) ∧
        stg = ⟨file.contents, 0o755⟩) (Early found) := by
  refine .bind (.mapError .privately early_context) fun _ => ?_
  refine .bind (.mapError (inside_openPayload src) early_context) fun en => ?_
  refine .bind (.mapError .privately fun e fs h => early_plain e fs h.1) fun _ => ?_
  cases en with
  | regular file =>
    refine .bind (.mapError .privately fun e fs h => early_context e fs h.1) fun _ => ?_
    refine .bind (.mapError .privately fun e fs h => early_context e fs h.1) fun _ => ?_
    refine .bind (.mapError .privately fun e fs h => early_context e fs h.1) fun _ => ?_
    exact .pure fun fs h => ⟨h.1, file, h.2, rfl⟩
  | _ => exact .fail fun fs h => ⟨h.1, rfl⟩

lemma inside_backUp (slot : Slot) : InsideTriple updates i found (· = found) (backUp render slot)
      (fun bkp fs => fs = found ∧ found slot = bkp.map .regular) (Early found) := by
  have hlst : InsideTriple updates i found (· = found) (lstat slot)
      (fun en fs => fs = found ∧ found slot = some en)
      (fun e fs => fs = found ∧ (e = .notFound → found slot = none)) := by
    refine .onFiles (fun _ hF => ⟨hF, nofun⟩) (fun fs en hF hok => ?_) fun fs e hF he => ?_
    all_goals
      cases hsl : fs slot <;> simp_all
  refine .attempt_bind hlst (fun en => ?_) fun e => ?_
  · cases en with
    | regular inst =>
      refine .of_fact (fun _ h => h.2) fun hsl => ?_
      refine .bind ((inside_stageUpdateBinary _ _).mono (fun _ h => h.1) (fun _ _ h => h)
        fun _ _ h => h) fun bkp => ?_
      refine .bind (.mapError .privately fun e fs h => early_plain e fs h.1) fun _ => ?_
      refine .bind (.mapError .privately fun e fs h => early_plain e fs h.1) fun _ => ?_
      refine .pure fun fs ⟨hfs, file, hf, hbac⟩ => ⟨hfs, ?_⟩
      cases hsl.symm.trans hf
      rw [hsl, hbac]
      rfl
    | _ => exact .fail fun fs h => ⟨h.1, rfl⟩
  · dsimp only
    by_cases he : e = .notFound ∧ slot = .omgd
    · rw [if_pos he]
      exact .pure fun fs h => ⟨h.1, h.2 he.1⟩
    · rw [if_neg he]
      exact .fail fun fs h => early_context e fs h.1

/-! ### Recovery -/

def Restored (found before : Files) (slot : Slot) (errors : List Text) (files : Files) : Prop :=
  (errors = [] → files slot = found slot) ∧ ∀ other, other ≠ slot → files other = before other

lemma inside_persist (stg : BinaryFile) (slot : Slot) :
    InsideTriple updates i found (· = before) (persist stg slot)
      (fun _ fs => fs = update before slot (some (.regular stg))) (fun _ => (· = before)) := by
  refine .onFiles (fun _ hF => hF) (fun fs _ hF hok => ?_) fun fs e hF her => ?_
  all_goals
    rcases hsl : fs slot with _ | ⟨_ | _ | _ | _⟩ <;> simp_all

lemma inside_removeFile (slot : Slot) : InsideTriple updates i found (· = before) (removeFile slot)
      (fun _ fs => fs = update before slot none)
      (fun e fs => fs = before ∧ (e = .notFound → before slot = none)) := by
  refine .onFiles (fun _ hF => ⟨hF, nofun⟩) (fun fs _ hF hok => ?_) fun fs e hF her => ?_
  · subst hF
    rcases hsl : fs slot with _ | ⟨_ | _ | _ | _⟩ <;> simp_all
  · subst hF
    rcases hsl : fs slot with _ | ⟨_ | _ | _ | _⟩ <;> rw [hsl] at her <;> cases her
    · exact ⟨rfl, fun _ => rfl⟩
    · exact ⟨rfl, nofun⟩

lemma inside_syncRestored {E : UpdateError → Files → Prop} {slot : Slot} {en : Option Entry}
    (h : found slot = en) :
    InsideTriple updates i found (· = update before slot en) (syncRestored render slot)
      (Restored found before slot) E := by
  have hres : ∀ errs fs, fs = update before slot en → Restored found before slot errs fs := by
    rintro _ _ rfl
    exact ⟨fun _ => by rw [update_self, h], fun _ hne => update_of_ne hne ..⟩
  exact .attempt_bind .privately (fun _ => .pure (hres _)) fun _ => .pure (hres _)

lemma inside_restore {E : UpdateError → Files → Prop} {slot : Slot} {bkp : Option BinaryFile}
    (h : found slot = bkp.map .regular) :
    InsideTriple updates i found (· = before) (restore render slot bkp)
      (Restored found before slot) E := by
  cases bkp with
  | some bkp =>
    refine .attempt_bind (inside_persist bkp slot) (fun _ => ?_) fun e => ?_
    · exact inside_syncRestored h
    · refine .pure fun fs hfs => ⟨nofun, fun _ _ => by rw [hfs]⟩
  | none =>
    refine .attempt_bind (inside_removeFile slot) (fun _ => ?_) fun e => ?_
    · exact inside_syncRestored h
    · by_cases he : e = .notFound
      · subst he
        refine .pure fun fs ⟨hfs, hno⟩ => ⟨fun _ => ?_, fun _ _ => by rw [hfs]⟩
        rw [hfs, hno rfl, h]
        rfl
      · have hrep : InsideTriple updates i found (fun fs => fs = before ∧
            (e = .notFound → before slot = none))
            (pure [recoveryText render slot [render.errno e]] : UpdateM ι UpdateError (List Text))
            (Restored found before slot) E :=
          .pure fun fs hfs => ⟨nofun, fun _ _ => by rw [hfs.1]⟩
        cases e <;> first | exact absurd rfl he | exact hrep

def Recovered (found : Files) (e : UpdateError) (files : Files) : Prop :=
  e.recovery = [] → files = found

lemma Early.recovered {e : UpdateError} {fs : Files} (h : Early found e fs) :
    Recovered found e fs := fun _ => h.1

lemma recovery_recoveryError (error : UpdateError) (recovery : List Text) :
    (recoveryError error recovery).recovery = recovery := by
  cases recovery <;> rfl

lemma inside_recover {α : Type} {F : Files → Prop} {Q : α → Files → Prop}
    {backups : Slot → Option BinaryFile} (error : UpdateError)
    (hbac : ∀ slot, found slot = (backups slot).map .regular) :
    InsideTriple updates i found F (recover render backups error) Q (Recovered found) := by
  refine .of_forall fun before _ => ?_
  refine .bind (inside_restore (hbac .omgd)) fun daemonErrors => .of_forall fun between hd => ?_
  refine .bind (inside_restore (hbac .omg)) fun cliErrors => .fail fun fs hc hnil => ?_
  rw [recovery_recoveryError, append_eq_nil_iff] at hnil
  funext slot
  cases slot with
  | omgd => exact (hc.2 .omgd (by simp)).trans (hd.1 hnil.1)
  | omg => exact hc.1 hnil.2

/-! ### The two replacements -/

lemma inside_persistUpdateBinary (stg : BinaryFile) (slot : Slot) :
    InsideTriple updates i found (· = before) (persistUpdateBinary render stg slot)
      (fun _ fs => fs = update before slot (some (.regular stg))) fun _ _ => True := by
  refine .bind (.mapError (inside_persist stg slot) fun _ _ _ => trivial) fun _ => ?_
  exact .mapError .privately fun _ _ _ => trivial

lemma inside_replaceOrRecover {backups : Slot → Option BinaryFile}
    (hbac : ∀ slot, found slot = (backups slot).map .regular) (stg : BinaryFile) (slot : Slot) :
    InsideTriple updates i found (· = before)
      (replaceOrRecover render (persistUpdateBinary render) backups stg slot)
      (fun _ fs => fs = update before slot (some (.regular stg))) (Recovered found) :=
  .attempt_bind (inside_persistUpdateBinary stg slot) (fun _ => .pure fun _ h => h)
    fun error => inside_recover error hbac

lemma inside_replacePair (update : Update) : InsideTriple updates i found (· = found)
      (replacePair render (persistUpdateBinary render) update)
      (fun _ => update.Installed) (Recovered found) := by
  have hear : ∀ (x : Result Unit), InsideTriple updates i found (· = found)
      (liftExcept x) (fun _ => (· = found)) (Recovered found) := by
    intro x
    cases x with
    | ok u => exact .pure fun _ h => h
    | error messages => exact .fail fun _ h _ => h
  refine .bind (hear _) fun _ => ?_
  refine .bind ((inside_backUp .omgd).mono (fun _ h => h) (fun _ _ h => h)
    fun _ _ h => h.recovered) fun daemonBackup => .of_fact (fun _ h => h.2) fun hdaemonBackup => ?_
  refine .bind ((inside_backUp .omg).mono (fun _ h => h.1) (fun _ _ h => h)
    fun _ _ h => h.recovered) fun cliBackup => .of_fact (fun _ h => h.2) fun hcliBackup => ?_
  refine .bind ((inside_stageUpdateBinary _ _).mono (fun _ h => h.1) (fun _ _ h => h)
    fun _ _ h => h.recovered) fun daemon => .of_fact (fun _ h => h.2) fun hdae => ?_
  refine .bind ((inside_stageUpdateBinary _ _).mono (fun _ h => h.1) (fun _ _ h => h)
    fun _ _ h => h.recovered) fun cli => .of_fact (fun _ h => h.2) fun hcli => ?_
  have hbac : ∀ slot, found slot = (backupPair daemonBackup cliBackup slot).map .regular := by
    intro slot
    cases slot with
    | omgd => exact hdaemonBackup
    | omg => exact hcliBackup
  refine .bind ((inside_replaceOrRecover hbac daemon .omgd).mono (fun _ h => h.1)
    (fun _ _ h => h) fun _ _ h => h) fun _ => ?_
  refine (inside_replaceOrRecover hbac cli .omg).mono (fun _ h => h) (fun _ fs hfs => ?_)
    fun _ _ h => h
  obtain ⟨daemonFile, hdaemonFile, rfl⟩ := hdae
  obtain ⟨cliFile, hcliFile, rfl⟩ := hcli
  subst hfs
  intro slot
  cases slot with
  | omgd => exact ⟨daemonFile, hdaemonFile, rfl⟩
  | omg => exact ⟨cliFile, hcliFile, rfl⟩

/-! ### A call -/

/-- The call `i` has not had the lock. -/
structure Outside (i : ι) (m : Installation ι) : Prop where
  free : ∀ found, m.holder ≠ some (i, found)
  first : ∀ s ∈ m.sessions, s.call ≠ i

lemma stable_outside : Stable (Rely i) (Outside i) := by
  intro m m' hry h
  refine ⟨fun found hhe => h.free found (hry.free found hhe), fun s hs hca => ?_⟩
  exact h.first s ((hry.sessions s hca).mp hs) hca

def Refused (i : ι) (e : UpdateError) (m : Installation ι) : Prop := Outside i m ∧ e.recovery = []

lemma triple_liftExcept {α : Type} (x : Result α) :
    Triple (Rely i) (Change updates i) (Outside i) (liftExcept x) (fun _ => Outside i)
      (Refused i) := by
  cases x with
  | ok a => exact fun m hm => hm
  | error messages => exact fun m hm => ⟨hm, rfl⟩

lemma triple_openLock : Triple (Rely i) (Change updates i) (Outside i) openLock (fun _ => Outside i)
      fun _ => Outside i := by
  refine .perform stable_outside fun flt m hm => ?_
  cases flt with
  | true => exact ⟨.quiet rfl rfl rfl, fun _ _ => hm, fun _ _ => hm⟩
  | false =>
    rcases hlo : m.lockFile with _ | ⟨_ | _ | _ | _, lk⟩
    · exact ⟨.quiet rfl rfl rfl, fun _ _ => ⟨hm.free, hm.first⟩, fun _ _ => ⟨hm.free, hm.first⟩⟩
    all_goals exact ⟨.quiet rfl rfl rfl, fun _ _ => hm, fun _ _ => hm⟩

lemma triple_lockMetadata :
    Triple (Rely i) (Change updates i) (Outside i) lockMetadata (fun _ => Outside i)
      fun _ => Outside i := by
  refine .perform stable_outside fun flt m hm => ?_
  cases flt with
  | true => exact ⟨.quiet rfl rfl rfl, fun _ _ => hm, fun _ _ => hm⟩
  | false =>
    cases hlo : m.lockFile <;> exact ⟨.quiet rfl rfl rfl, fun _ _ => hm, fun _ _ => hm⟩

lemma triple_tryLock : Triple (Rely i) (Change updates i) (Outside i) (tryLock i)
      (fun _ m => ∃ found, Inside i found (· = found) m) fun _ => Outside i := by
  refine .perform stable_outside fun flt m hm => ?_
  cases flt with
  | true => exact ⟨.quiet rfl rfl rfl, nofun, fun _ _ => hm⟩
  | false =>
    cases hhol : m.holder with
    | none => exact ⟨.acquire hhol rfl rfl rfl, fun _ _ => ⟨m.files, rfl, hm.first, rfl⟩, nofun⟩
    | some holder => exact ⟨.quiet rfl rfl rfl, nofun, fun _ _ => hm⟩

lemma triple_acquire (update : Update) :
    Triple (Rely i) (Change updates i) (Outside i) (acquire render i update)
      (fun _ m => ∃ found, Inside i found (· = found) m) (Refused i) := by
  refine .bind (triple_liftExcept _) fun _ => ?_
  refine .bind (triple_openLock.mapError fun _ _ h => ⟨h, rfl⟩) fun _ => ?_
  refine .bind (triple_lockMetadata.mapError fun _ _ h => ⟨h, rfl⟩) fun _ => ?_
  refine .bind (triple_liftExcept _) fun _ => .bind (triple_liftExcept _) fun _ => ?_
  exact triple_tryLock.mapError fun _ _ h => ⟨h, rfl⟩

/-- The call `i` had the lock and released it. -/
def Finished (i : ι) (result : Except UpdateError Unit) (m : Installation ι) : Prop :=
  ∃ s ∈ m.sessions, s.call = i ∧ s.result = result

lemma stable_finished (res : Except UpdateError Unit) : Stable (Rely i) (Finished i res) := by
  rintro m m' hry ⟨s, hs, hca, hres⟩
  exact ⟨s, (hry.sessions s hca).mpr hs, hca, hres⟩

lemma triple_release {E : UpdateError → Installation ι → Prop} (res : Except UpdateError Unit) :
    Triple (Rely i) (Change updates i)
      (Inside i found fun fs => Outcome (updates i) found fs res) (release i res)
      (fun _ => Finished i res) E := by
  refine .perform (stable_inside _) fun _ m hm => ?_
  simp only [hm.held]
  exact ⟨.release found res hm.held rfl rfl rfl hm.files,
    fun _ _ => ⟨_, mem_append_right _ (mem_singleton_self _), rfl, rfl⟩, nofun⟩

/-- **One call.** In the midst of other calls it takes the lock and finishes, or it is refused. -/
lemma triple_installUpdatePair :
    Triple (Rely i) (Change updates i) (Outside i) (installUpdatePair render i (updates i))
      (fun _ => Finished i (.ok ())) (fun e m => Finished i (.error e) m ∨ Refused i e m) := by
  refine .bind ((triple_acquire (updates i)).mono (fun _ h => h) (fun _ _ h => h)
    fun _ _ h => .inr h) fun _ m ⟨found, hm⟩ => ?_
  have hfin : ∀ res, Triple (Rely i) (Change updates i)
      (Inside i found fun fs => Outcome (updates i) found fs res)
      (release i res >>= fun _ => liftM res : UpdateM ι UpdateError Unit)
      (fun _ => Finished i (.ok ())) (fun e m => Finished i (.error e) m ∨ Refused i e m) := by
    refine fun res => .bind (triple_release res) fun _ => .lift ?_ ?_
    · rintro _ m rfl h
      exact h
    · rintro e m rfl h
      exact .inl h
  refine Triple.attempt_bind (inside_replacePair (updates i)) (fun _ => ?_) (fun e => ?_) m hm
  · exact (hfin (.ok ())).mono (fun m h => ⟨h.held, h.first, fun _ => h.files, nofun⟩)
      (fun _ _ h => h) fun _ _ h => h
  · refine (hfin (.error e)).mono (fun m h => ⟨h.held, h.first, nofun, ?_⟩)
      (fun _ _ h => h) fun _ _ h => h
    rintro _ ⟨⟩
    exact h.files

/-! ### Any number of calls -/

/-- The sessions lead from the files `start` to the files `finish`: each one found what the one
before it left. -/
def Chain (start : Files) : List (Session ι) → Files → Prop
  | [], finish => finish = start
  | s :: rest, finish => s.found = start ∧ Chain s.left rest finish

lemma chain_concat {st finish : Files} {ss : List (Session ι)} {s : Session ι} :
    Chain st (ss ++ [s]) finish ↔ Chain st ss s.found ∧ finish = s.left := by
  induction ss generalizing st with
  | nil => rfl
  | cons t ss ih => simp only [cons_append, Chain, ih, and_assoc]

def Installation.settled (m : Installation ι) : Files :=
  match m.holder with
  | none => m.files
  | some (_, found) => found

lemma settled_of_free (h : m.holder = none) : m.settled = m.files := by
  rw [Installation.settled, h]

lemma settled_of_held (h : m.holder = some (i, found)) : m.settled = found := by
  rw [Installation.settled, h]

structure Serial (updates : ι → Update) (installed : Files) (m : Installation ι) : Prop where
  chain : Chain installed m.sessions m.settled
  outcome : ∀ s ∈ m.sessions, Outcome (updates s.call) s.found s.left s.result

lemma Serial.change {inst : Files} (h : Serial updates inst m)
    (hcg : Change updates i m m') : Serial updates inst m' := by
  cases hcg with
  | quiet fs holder sessions =>
    refine ⟨?_, sessions ▸ h.outcome⟩
    have hset : m'.settled = m.settled := by
      rw [Installation.settled, Installation.settled, holder, fs]
    rw [sessions, hset]
    exact h.chain
  | acquire free fs holder sessions =>
    refine ⟨?_, sessions ▸ h.outcome⟩
    rw [sessions, settled_of_held holder, ← settled_of_free free]
    exact h.chain
  | write found held holder sessions =>
    refine ⟨?_, sessions ▸ h.outcome⟩
    rw [sessions, settled_of_held (holder.trans held), ← settled_of_held held]
    exact h.chain
  | release found res held fs holder sessions oc =>
    rw [← settled_of_held held] at sessions oc
    refine ⟨?_, ?_⟩
    · rw [sessions, chain_concat, settled_of_free holder]
      exact ⟨h.chain, fs⟩
    · rw [sessions, forall_mem_append]
      exact ⟨h.outcome, by simpa using oc⟩

lemma whole_of_chain {st finish : Files} {ss : List (Session ι)} (hch : Chain st ss finish)
    (hout : ∀ s ∈ ss, Outcome (updates s.call) s.found s.left s.result)
    (hcle : ∀ s ∈ ss, ∀ e, s.result = .error e → e.recovery = []) :
    finish = st ∨ ∃ s ∈ ss, s.result = .ok () ∧ (updates s.call).Installed finish := by
  induction ss using List.reverseRecOn generalizing finish with
  | nil => exact .inl hch
  | append_singleton ss s ih =>
    obtain ⟨hch, hlf⟩ := chain_concat.mp hch
    rw [forall_mem_append] at hout hcle
    have hs := hout.2 s (mem_singleton_self s)
    cases hres : s.result with
    | ok u => exact .inr ⟨s, by simp, hres, hlf ▸ hs.installed hres⟩
    | error e =>
      have hfo := hs.restored e hres (hcle.2 s (mem_singleton_self s) e hres)
      rw [hlf, hfo]
      refine (ih hch hout.1 hcle.1).imp_right ?_
      rintro ⟨t, ht, hok, hins⟩
      exact ⟨t, mem_append_left _ ht, hok, hins⟩

lemma preserves_installUpdatePair (updates : ι → Update) :
    (Process.machine ι : Machine ι (UpdateM ι UpdateError Unit) (Installation ι) Bool).Preserves
      (fun i p m => p.Sat (Rely i) (Change updates i) (fun _ => Finished i (.ok ()))
        (fun e m => Finished i (.error e) m ∨ Refused i e m) m) (Change updates) := by
  refine Process.preserves Rely.refl (fun _ _ _ _ => Rely.trans)
    (fun _ _ _ _ hk h => h.rely hk) (fun _ _ => stable_finished _) fun i e m m' hry h => ?_
  exact h.imp (stable_finished _ m m' hry) fun h => ⟨stable_outside m m' hry h.1, h.2⟩

variable [DecidableEq ι]

/-- What is known of every state of a run that started with the files `installed`. -/
structure Serializable (updates : ι → Update) (installed : Files)
    (c : Machine.Config ι (UpdateM ι UpdateError Unit) (Installation ι)) : Prop where
  chain : Chain installed c.store.sessions c.store.settled
  success : ∀ i, c.locals i = .ret () → ∃ s ∈ c.store.sessions, s.call = i ∧ s.result = .ok () ∧
    (updates i).Installed s.left
  /-- A call that returned an error without a failed recovery left what it found, or it never had
  the lock. -/
  failure : ∀ i e, c.locals i = .fail e → e.recovery = [] →
    (∃ s ∈ c.store.sessions, s.call = i ∧ s.result = .error e ∧ s.left = s.found) ∨
      (∀ s ∈ c.store.sessions, s.call ≠ i)
  /-- A step that changes a binary is taken by the call that has the lock. -/
  exclusive : ∀ i fault c', (Process.machine ι).step c (i, fault) = some c' →
    c'.store.files ≠ c.store.files → ∃ found, c.store.holder = some (i, found)
  /-- While the lock is free and all recoveries succeeded, the pair is the one at the start, or that
  of one update. -/
  whole : c.store.holder = none →
    (∀ s ∈ c.store.sessions, ∀ e, s.result = .error e → e.recovery = []) →
    c.store.files = installed ∨ ∃ s ∈ c.store.sessions, s.result = .ok () ∧
      (updates s.call).Installed c.store.files

/-- A first installation of `omgd`. -/
def sampleUpdate : Update where
  payload
    | .omgd => some (.regular ⟨[1], 0o600⟩)
    | .omg => some (.regular ⟨[2], 0o600⟩)
  parent := some "bin"
  fileName := "omg"

def sampleFiles : Files
  | .omgd => none
  | .omg => some (.regular ⟨[0], 0o750⟩)

def sampleRendering : Rendering := ⟨fun _ => [], [], fun _ => [], fun _ => [], fun _ => []⟩

def sampleSteps : List (Bool × Bool) :=
  List.replicate 5 (false, false) ++ List.replicate 3 (true, false) ++
    List.replicate 25 (false, false)

end Omg.SelfUpdate
