import Omg.Security.AuditWriter

/-!
# Rotating the audit log

A log that has reached its limit is moved to the archive with the number 1, after the archives
before it have been moved on by one number, from the last one downwards. The process can stop
between any two of these operations.

Source: `src/core/security/audit.rs`.
-/

namespace Omg.Security

open Control Function Steps

inductive LogName
  | active
  | archive (index : ℕ)
deriving DecidableEq

def AuditWorld.file (w : AuditWorld) : LogName → LogFile
  | .active => w.log
  | .archive index => w.archives index

/-- One operation of a rotation: nothing changes, the oldest archive is removed, or a file is given
a name that no file has. -/
def RotationChange (maxArchives : ℕ) (before after : AuditWorld) : Prop :=
  after.file = before.file ∨
    after.file = update before.file (.archive maxArchives) .missing ∨
    ∃ source target, before.file source ≠ .missing ∧ before.file target = .missing ∧
      after.file = update (update before.file target (before.file source))
        source .missing

/-- The files that are there, the archive with the last number apart, are still there, each under a
name of its own. -/
def KeepsFiles (maxArchives : ℕ) (before after : AuditWorld) : Prop :=
  ∃ place : LogName → LogName,
    Set.InjOn place {name | before.file name ≠ .missing ∧ name ≠ .archive maxArchives} ∧
      ∀ name, before.file name ≠ .missing → name ≠ .archive maxArchives →
        after.file (place name) = before.file name

/-! ### The archives in the middle of a rotation -/

/-- The archives once the number `hole` is vacant and those from there on have been moved. -/
def vacated (maxArchives : ℕ) (archives : ℕ → LogFile) (hole : ℕ) : ℕ → LogFile := fun index =>
  if index = hole then .missing
  else if hole < index ∧ index ≤ maxArchives then archives (index - 1)
  else archives index

variable {maxArchives hole : ℕ} {archives : ℕ → LogFile} {v w w' : AuditWorld}

lemma vacated_self : vacated maxArchives archives hole hole = .missing := if_pos rfl

lemma vacated_last :
    vacated maxArchives archives maxArchives = update archives maxArchives .missing := by
  funext idx
  rw [vacated, update_apply]
  split_ifs <;> first | rfl | omega

lemma vacated_lt {idx : ℕ} (h : idx < hole) :
    vacated maxArchives archives hole idx = archives idx := by
  rw [vacated, if_neg h.ne, if_neg (by omega)]

lemma vacated_gt {idx : ℕ} (h : hole ≤ idx) (hmax : idx < maxArchives) :
    vacated maxArchives archives hole (idx + 1) = archives idx := by
  rw [vacated, if_neg (by omega), if_pos ⟨by omega, by omega⟩, Nat.add_sub_cancel]

lemma vacated_outside {idx : ℕ} (h : maxArchives < idx) (hhole : hole ≤ maxArchives) :
    vacated maxArchives archives hole idx = archives idx := by
  rw [vacated, if_neg (by omega), if_neg (by omega)]

lemma shifted_vacated (h : hole + 1 ≤ maxArchives) :
    shifted (vacated maxArchives archives (hole + 1)) hole = vacated maxArchives archives hole := by
  have hsrc : vacated maxArchives archives (hole + 1) hole = archives hole :=
    vacated_lt hole.lt_succ_self
  have hmo : vacated maxArchives archives hole = update
      (update (vacated maxArchives archives (hole + 1)) (hole + 1) (archives hole))
      hole .missing := by
    funext idx
    simp only [update_apply, vacated]
    split_ifs <;> first | rfl | omega | (congr 1; omega)
  rw [hmo, shifted, hsrc]
  cases hfile : archives hole with
  | regular txt => rfl
  | special => rfl
  | missing =>
    -- Nothing is renamed, and the number above is vacant already.
    funext idx
    simp only [update_apply]
    split_ifs with h₁ h₂
    · rw [h₁, hsrc, hfile]
    · rw [h₂, vacated_self]
    · rfl

/-! ### The worlds of a rotation -/

/-- The worlds that a rotation of the world `w₀` passes through. -/
inductive Rotating (maxArchives : ℕ) (w₀ w : AuditWorld) : Prop
  | start (hfile : w.file = w₀.file)
  | moving (hole : ℕ) (hhole : hole ≤ maxArchives) (hlog : w.log = w₀.log)
      (harchives : w.archives = vacated maxArchives w₀.archives hole)
  | finished (hlog : w.log = .missing)
      (harchives : w.archives = update (vacated maxArchives w₀.archives 1) 1 w₀.log)

/-- The number of an archive once the number `hole` is vacant. -/
def movedIndex (maxArchives hole index : ℕ) : ℕ :=
  if hole ≤ index ∧ index < maxArchives then index + 1 else index

lemma movedIndex_inj {idx idx' : ℕ} (hix : idx ≠ maxArchives) (hix' : idx' ≠ maxArchives)
    (heq : movedIndex maxArchives hole idx = movedIndex maxArchives hole idx') : idx = idx' := by
  unfold movedIndex at heq
  split_ifs at heq <;> omega

lemma movedIndex_ne {idx : ℕ} (hhole : hole ≤ maxArchives) (hix : idx ≠ maxArchives) :
    movedIndex maxArchives hole idx ≠ hole := by
  unfold movedIndex
  split_ifs <;> omega

lemma vacated_movedIndex {idx : ℕ} (hhole : hole ≤ maxArchives) (hix : idx ≠ maxArchives) :
    vacated maxArchives archives hole (movedIndex maxArchives hole idx) = archives idx := by
  unfold movedIndex
  split_ifs with hmo
  · exact vacated_gt hmo.1 hmo.2
  · rcases lt_or_ge idx hole with hlt | hge
    · exact vacated_lt hlt
    · exact vacated_outside (by omega) hhole

def movedName (maxArchives hole : ℕ) (log : LogName) : LogName → LogName
  | .active => log
  | .archive index => .archive (movedIndex maxArchives hole index)

lemma movedName_injOn {log : LogName}
    (hlog : ∀ idx, idx ≠ maxArchives → log ≠ .archive (movedIndex maxArchives hole idx)) :
    Set.InjOn (movedName maxArchives hole log)
      {name | w.file name ≠ .missing ∧ name ≠ .archive maxArchives} := by
  rintro (_ | idx) ⟨-, hix⟩ (_ | idx') ⟨-, hix'⟩ heq
  · rfl
  · exact absurd heq (hlog idx' fun h => hix' (h ▸ rfl))
  · exact absurd heq.symm (hlog idx fun h => hix (h ▸ rfl))
  · rw [movedIndex_inj (fun h : idx = _ => hix (h ▸ rfl))
      (fun h : idx' = _ => hix' (h ▸ rfl)) (LogName.archive.inj heq)]

lemma Rotating.keepsFiles (hmax : 1 ≤ maxArchives) (h : Rotating maxArchives v w) :
    KeepsFiles maxArchives v w := by
  cases h with
  | start hfile => exact ⟨id, Set.injOn_id _, fun name _ _ => by rw [hfile, id]⟩
  | moving hole hhole hlog harchives =>
    refine ⟨movedName maxArchives hole .active, movedName_injOn (by simp), ?_⟩
    rintro (_ | idx) - hn
    · exact hlog
    · have hix : idx ≠ maxArchives := fun h => hn (h ▸ rfl)
      calc w.archives (movedIndex maxArchives hole idx)
          = vacated maxArchives v.archives hole (movedIndex maxArchives hole idx) := by
            rw [harchives]
        _ = v.archives idx := vacated_movedIndex hhole hix
  | finished hlog harchives =>
    have hfe : ∀ idx, idx ≠ maxArchives →
        LogName.archive 1 ≠ .archive (movedIndex maxArchives 1 idx) :=
      fun idx hix heq => movedIndex_ne hmax hix (LogName.archive.inj heq).symm
    refine ⟨movedName maxArchives 1 (.archive 1), movedName_injOn hfe, ?_⟩
    rintro (_ | idx) - hn
    · exact (congrFun harchives 1).trans (update_self ..)
    · have hix : idx ≠ maxArchives := fun h => hn (h ▸ rfl)
      calc w.archives (movedIndex maxArchives 1 idx)
          = vacated maxArchives v.archives 1 (movedIndex maxArchives 1 idx) := by
            rw [harchives, update_of_ne (movedIndex_ne hmax hix)]
        _ = v.archives idx := vacated_movedIndex hmax hix

/-! ### The rule of a rotation -/

/-- A computation as it is part of a rotation of the world `w₀`. -/
abbrev RotatesFrom (maxArchives : ℕ) (w₀ : AuditWorld) {α : Type} (P : AuditWorld → Prop)
    (x : AuditSteps α) (Q : α → AuditWorld → Prop) : Prop :=
  Follows (Rotating maxArchives w₀) (RotationChange maxArchives) P x Q

lemma RotationChange.refl (w : AuditWorld) : RotationChange maxArchives w w := .inl rfl

/-- The number `hole` is vacant, and the log is still there. -/
def Vacant (maxArchives : ℕ) (w₀ : AuditWorld) (hole : ℕ) (w : AuditWorld) : Prop :=
  w.log = w₀.log ∧ w.archives = vacated maxArchives w₀.archives hole

lemma Vacant.rotating (hhole : hole ≤ maxArchives) (h : Vacant maxArchives v hole w) :
    Rotating maxArchives v w := .moving hole hhole h.1 h.2

lemma file_update (idx : ℕ) (file : LogFile) :
    AuditWorld.file { w with archives := update w.archives idx file } =
      update w.file (.archive idx) file := by
  funext name
  cases name with
  | active => rfl
  | archive idx' => simp only [AuditWorld.file, update_apply, LogName.archive.injEq]

section

variable (ps : AuditPaths)

lemma follows_removeArchive : RotatesFrom maxArchives v (fun w => w.file = v.file)
      (removeArchive ps maxArchives) fun _ => Vacant maxArchives v maxArchives := by
  have hvac : ∀ w : AuditWorld, w.file = v.file → Vacant maxArchives v maxArchives
      { w with archives := update w.archives maxArchives .missing } := by
    intro w hw
    have harchives : w.archives = v.archives := funext fun idx => congrFun hw (.archive idx)
    refine ⟨congrFun hw .active, ?_⟩
    simp only [vacated_last, harchives]
  refine .step .refl fun w _ hw => ⟨(hvac w hw).rotating le_rfl, .inr (.inl ?_), ?_⟩
  · exact file_update maxArchives .missing
  · exact fun _ _ => hvac w hw

lemma rotationChange_shifted {idx : ℕ} (hvac : w.archives (idx + 1) = .missing) :
    RotationChange maxArchives w { w with archives := shifted w.archives idx } := by
  by_cases hfile : w.archives idx = .missing
  · refine .inl ?_
    have hsm : shifted w.archives idx = w.archives := by rw [shifted, hfile]
    rw [hsm]
  · refine .inr (.inr ⟨.archive idx, .archive (idx + 1), hfile, hvac, ?_⟩)
    have hmo : shifted w.archives idx = update
        (update w.archives (idx + 1) (w.archives idx)) idx .missing := by
      rw [shifted]
      split
      · exact absurd ‹_› hfile
      · rfl
    have htwi := file_update
      (w := { w with archives := update w.archives (idx + 1) (w.archives idx) })
      idx .missing
    rw [hmo]
    refine htwi.trans ?_
    rw [file_update]
    rfl

lemma follows_renameArchive (hhole : hole + 1 ≤ maxArchives) :
    RotatesFrom maxArchives v (Vacant maxArchives v (hole + 1))
      (renameArchive ps hole) fun _ => Vacant maxArchives v hole := by
  have hnx : ∀ w, Vacant maxArchives v (hole + 1) w →
      Vacant maxArchives v hole { w with archives := shifted w.archives hole } := by
    rintro w ⟨hlog, harchives⟩
    refine ⟨hlog, ?_⟩
    simp only [harchives, shifted_vacated hhole]
  refine .step .refl fun w _ hw => ⟨(hnx w hw).rotating (by omega), ?_, ?_⟩
  · exact rotationChange_shifted (by rw [hw.2, vacated_self])
  · exact fun _ _ => hnx w hw

lemma follows_renameArchives (hhole : hole + 1 ≤ maxArchives) :
    RotatesFrom maxArchives v (Vacant maxArchives v (hole + 1))
      (renameArchives ps hole) fun _ => Vacant maxArchives v 1 := by
  induction hole with
  | zero => exact .pure fun _ hw => hw
  | succ hole ih => exact .bind (follows_renameArchive ps hhole) fun _ => ih (by omega)

def Finished (maxArchives : ℕ) (w₀ w : AuditWorld) : Prop :=
  w.log = .missing ∧
    w.archives = update (vacated maxArchives w₀.archives 1) 1 w₀.log

lemma follows_renameLog (hlog : v.log ≠ .missing) :
    RotatesFrom maxArchives v (Vacant maxArchives v 1) (renameLog ps)
      fun _ => Finished maxArchives v := by
  have hfin : ∀ w, Vacant maxArchives v 1 w → Finished maxArchives v
      { w with log := .missing, archives := update w.archives 1 w.log } := by
    rintro w ⟨hw, harchives⟩
    refine ⟨rfl, ?_⟩
    simp only [hw, harchives]
  refine .step .refl fun w _ hw => ⟨?_, ?_, fun _ _ => hfin w hw⟩
  · exact .finished (hfin w hw).1 (hfin w hw).2
  · refine .inr (.inr ⟨.active, .archive 1, ?_, ?_, ?_⟩)
    · exact fun hmis => hlog (hw.1.symm.trans hmis)
    · exact (congrFun hw.2 1).trans vacated_self
    · rw [← file_update]
      funext name
      cases name <;> rfl

lemma follows_retireLog (hmax : 1 ≤ maxArchives) (hlog : v.log ≠ .missing) :
    RotatesFrom maxArchives v (fun w => w.file = v.file)
      (retireLog ps maxArchives) fun _ => Finished maxArchives v := by
  cases maxArchives with
  | zero => omega
  | succ idx =>
    refine .bind (follows_removeArchive ps) fun _ => ?_
    exact .bind (follows_renameArchives ps le_rfl) fun _ => follows_renameLog ps hlog

/-- What a rotation that completes leaves: the log is moved if it has reached the limit, and else
nothing changes. -/
def RotationResult (logger : AuditLogger) (w₀ w : AuditWorld) : Prop :=
  (∃ content, w₀.log = .regular content ∧ logger.maxBytes ≤ content.length ∧
      Finished logger.maxArchives w₀ w) ∨
    (∀ content, w₀.log = .regular content → content.length < logger.maxBytes) ∧ w.file = w₀.file

lemma follows_inspectLog : RotatesFrom maxArchives v (· = v)
    (inspectLog ps) fun length w => w = v ∧ ((length = none ∧ v.log = .missing) ∨
        ∃ txt, v.log = .regular txt ∧ length = some txt.length) := by
  refine .step .refl ?_
  rintro w hrot rfl
  refine ⟨hrot, .refl w, fun length hlen => ⟨rfl, ?_⟩⟩
  cases hlog : w.log with
  | missing =>
    simp only [hlog, Except.ok.injEq] at hlen
    exact .inl ⟨hlen.symm, rfl⟩
  | regular txt =>
    simp only [hlog, Except.ok.injEq] at hlen
    exact .inr ⟨txt, rfl, hlen.symm⟩
  | special => simp [hlog] at hlen

lemma follows_rotateIfNeeded (lg : AuditLogger) (hmax : 1 ≤ lg.maxArchives) :
    RotatesFrom lg.maxArchives v (· = v) (rotateIfNeeded ps lg)
      fun _ => RotationResult lg v := by
  refine .bind (follows_inspectLog ps) fun length => ?_
  refine .of_forall fun w hw => ?_
  obtain ⟨rfl, ⟨rfl, hlog⟩ | ⟨txt, hlog, rfl⟩⟩ := hw
  · refine .pure ?_
    rintro w' rfl
    exact .inr ⟨by simp [hlog], rfl⟩
  · by_cases hlen : txt.length < lg.maxBytes
    · simp only [if_pos hlen]
      refine .pure ?_
      rintro w' rfl
      exact .inr ⟨by simp [hlog, hlen], rfl⟩
    · simp only [if_neg hlen]
      have hpre : w.log ≠ .missing := by simp [hlog]
      refine .bind ((follows_retireLog ps hmax hpre).mono (fun _ h => h ▸ rfl)
        fun _ _ h => h) fun _ => ?_
      refine .assign fun w' _ hw' => ⟨.finished hw'.1 hw'.2, .inl ?_, ?_⟩
      · funext name
        cases name <;> rfl
      · exact .inl ⟨txt, hlog, by omega, hw'⟩

lemma attains_rotateIfNeeded (lg : AuditLogger) :
    Attains (fun w => w.log ≠ .special) (rotateIfNeeded ps lg) fun _ _ => True := by
  have hren : ∀ idx, Attains (fun _ => True) (renameArchives ps idx) fun _ _ => True := by
    intro idx
    induction idx with
    | zero => exact .pure fun _ h => h
    | succ idx ih => exact .bind (.step fun _ _ => ⟨(), rfl, trivial⟩) fun _ => ih
  have hret : ∀ maxArchives, Attains (fun _ => True) (retireLog ps maxArchives)
      fun _ _ => True := by
    intro maxArchives
    cases maxArchives with
    | zero =>
      rw [retireLog]
      exact .step fun _ _ => ⟨(), rfl, trivial⟩
    | succ idx =>
      refine .bind (Q := fun _ _ => True) (.step fun _ _ => ⟨(), rfl, trivial⟩) fun _ => ?_
      exact .bind (hren idx) fun _ => .step fun _ _ => ⟨(), rfl, trivial⟩
  refine .bind (Q := fun _ _ => True) (.step fun w hw => ?_) fun length => ?_
  · cases hlog : w.log with
    | missing => exact ⟨none, rfl, trivial⟩
    | regular txt => exact ⟨some txt.length, rfl, trivial⟩
    | special => exact absurd hlog hw
  · cases length with
    | none => exact .pure fun _ h => h
    | some length =>
      by_cases hlen : length < lg.maxBytes
      · simp only [if_pos hlen]
        exact .pure fun _ h => h
      · simp only [if_neg hlen]
        exact .bind (hret _) fun _ => .assign fun _ _ => trivial

/-- Wherever a rotation stops, each operation before gave a file a name that no file had, removed
the archive with the last number, or changed nothing, and all other files are still there. A
rotation that completes has moved every archive to the next number and the log to the number 1, and
it does complete unless an operation fails. -/
theorem rotateIfNeeded_keeps_files (logger : AuditLogger) (hmax : 1 ≤ logger.maxArchives)
    (fails : ℕ → Bool) (w : AuditWorld) :
    let run := rotateIfNeeded ps logger fails (.start w)
    run.2.Linked (KeepsFiles logger.maxArchives w) (RotationChange logger.maxArchives) ∧
      (∀ txt, w.log = .regular txt → logger.maxBytes ≤ txt.length → run.1 = .ok () →
        run.2.now.file .active = .missing ∧
          run.2.now.file (.archive 1) = w.file .active ∧
          ∀ idx, 1 ≤ idx → idx < logger.maxArchives →
            run.2.now.file (.archive (idx + 1)) = w.file (.archive idx)) ∧
      (fails = (fun _ => false) → w.log ≠ .special → run.1 = .ok ()) := by
  obtain ⟨hlk, hres⟩ :=
    (follows_rotateIfNeeded ps logger hmax).changes fails (.start rfl) (rfl : w = w)
  refine ⟨⟨fun w' hw' => (hlk.holds w' hw').keepsFiles hmax, hlk.chain⟩, ?_, ?_⟩
  · intro txt hlog hlen hok
    rcases hres () hok with ⟨_, -, -, hmis, harchives⟩ | ⟨hsma, -⟩
    · refine ⟨hmis, (congrFun harchives 1).trans (update_self ..), ?_⟩
      intro idx hix hlt
      calc _ = vacated logger.maxArchives w.archives 1 (idx + 1) := by
            rw [AuditWorld.file, harchives, update_of_ne (by omega)]
        _ = w.archives idx := vacated_gt hix hlt
    · exact absurd (hsma txt hlog) (by omega)
  · rintro rfl hspe
    obtain ⟨_, h', hrun, -⟩ := attains_rotateIfNeeded ps logger (.start w) hspe
    simp only [hrun]

end

def gapWorld : AuditWorld where
  log := .regular [1, 2, 3, 4]
  archives index := if index = 1 then .regular [5] else if index = 3 then .regular [6] else .missing
  lastHash := genesis

theorem rotateIfNeeded_keeps_gapWorld : 1 ≤ (⟨genesis, 4, 3⟩ : AuditLogger).maxArchives ∧
      (rotateIfNeeded ⟨[], [], []⟩ ⟨genesis, 4, 3⟩ (fun _ => false) (.start gapWorld)).2.now.file
        (.archive 2) = .regular [5] := by
  obtain ⟨-, hmo, hcom⟩ :=
    rotateIfNeeded_keeps_files ⟨[], [], []⟩ ⟨genesis, 4, 3⟩ (by decide) (fun _ => false) gapWorld
  have hok := hcom rfl (by simp [gapWorld])
  obtain ⟨-, -, harchives⟩ := hmo [1, 2, 3, 4] rfl (by decide) hok
  exact ⟨by decide, harchives 1 le_rfl (by decide)⟩

end Omg.Security
