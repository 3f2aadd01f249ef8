import Omg.Arch.Publication

/-!
# A publication of package databases is all or nothing

The second links of the originals are new names, so no staged file is among them and no two of them
are the same. While the originals get their second links, and while the staged files take their
places, every publication can be undone.
-/

namespace Omg.Arch

open List Function SyncPath DatabasePublication

open Control (Steps)
open Control.Steps (Ensures)
open Fs (Names)

variable {render : Rendering} {origin ν : SyncPath → Option ℕ} {files : List StagedFile}
  {p q : DatabasePublication} {done rest ps : List DatabasePublication}

/-! ### Second links -/

lemma forall_mem_replace {α : Type} {P : α → Prop} {l l' : List α} {a : α} :
    (∀ x ∈ l ++ [a] ++ l', P x) ↔ (∀ x ∈ l, P x) ∧ P a ∧ ∀ x ∈ l', P x := by
  simp [or_imp, forall_and]

lemma forall_mem_append_cons {α : Type} {P : α → Prop} {l l' : List α} {a : α} :
    (∀ x ∈ l ++ a :: l', P x) ↔ (∀ x ∈ l, P x) ∧ P a ∧ ∀ x ∈ l', P x := by
  rw [forall_mem_append, forall_mem_cons]

structure Checked (origin : SyncPath → Option ℕ) (files : List StagedFile) : Prop where
  destinations : (files.map StagedFile.destination).Nodup
  staged : ∀ f ∈ files, f.publish = true → origin f.stagedPath ≠ none

/-- The second links of the publications of `files` are new names, and no two are the same. -/
structure Linked (origin : SyncPath → Option ℕ) (files : List StagedFile)
    (ps : List DatabasePublication) : Prop where
  files : ps.map DatabasePublication.toFile = files
  distinct : ps.Pairwise fun p q => ∀ b, p.backup = some b → q.backup ≠ some b
  new : ∀ p ∈ ps, ∀ b, p.backup = some b → origin (.staging b) = none

section

variable (h : Linked origin files ps) (hc : Checked origin files)

include h hc

lemma Linked.staged_ne_none (hp : p ∈ ps) (hpub : p.publish) : origin p.stagedPath ≠ none :=
  hc.staged p.toFile (h.files ▸ mem_map_of_mem hp) hpub

lemma Linked.backup_ne_staged (hp : p ∈ ps) (hq : q ∈ ps) (hpub : q.publish) (b : Text)
    (hb : p.backup = some b) : b ≠ q.staged := by
  rintro rfl
  exact h.staged_ne_none hc hq hpub (h.new p hp _ hb)

lemma Linked.pairwise_livePath_ne : ps.Pairwise fun p q => p.livePath ≠ q.livePath := by
  have hnd := hc.destinations
  rw [← h.files, map_map, List.Nodup, pairwise_map] at hnd
  refine hnd.imp fun hne heq => hne ?_
  injection heq with h₁ h₂
  exact Prod.ext h₁ h₂

end

def Ordered (p q : DatabasePublication) : Prop :=
  p.InPlace → p.backup = none → q.InPlace → p.staged ≠ q.staged

lemma Linked.separate (h : Linked origin files ps) (hc : Checked origin files)
    (hor : ps.Pairwise Ordered) : ps.Pairwise fun p q => Separate q p := by
  have hall := ((h.pairwise_livePath_ne hc).and h.distinct).and hor
  refine hall.imp_of_mem fun {p q} hp hq ⟨⟨hliv, hdi⟩, hord⟩ =>
    ⟨hliv.symm, fun b hb => ?_, fun b hb => ?_, fun hin hb => ?_⟩
  · rintro (heq | ⟨hin, heq⟩ | ⟨b', hb', heq⟩)
    · cases heq
    · exact h.backup_ne_staged hc hp hq hin.2 b hb (staging.inj heq)
    · cases heq
      exact hdi b hb hb'
  · rintro (heq | ⟨hin, heq⟩ | ⟨b', hb', heq⟩)
    · cases heq
    · exact h.backup_ne_staged hc hq hp hin.2 b hb (staging.inj heq)
    · cases heq
      exact hdi b hb' hb
  · rintro (heq | ⟨hin', heq⟩ | ⟨b', hb', heq⟩)
    · cases heq
    · exact hord hin hb hin' (staging.inj heq)
    · exact h.backup_ne_staged hc hq hp hin.2 b' hb' (staging.inj heq).symm

/-- The originals of `done` have second links, and nothing else happened. -/
structure BackingUp (origin : SyncPath → Option ℕ) (files : List StagedFile)
    (done rest : List DatabasePublication) (ν : SyncPath → Option ℕ) : Prop
    extends Linked origin files (done ++ rest) where
  unpublished : ∀ p ∈ done ++ rest, p.published = false
  live : ∀ directory name, ν (.live directory name) = origin (.live directory name)
  kept : ∀ x, origin x ≠ none → ν x = origin x
  rest_backup : ∀ p ∈ rest, p.backup = none
  done_backup : ∀ p ∈ done, ∀ b, p.backup = some b →
    origin p.livePath ≠ none ∧ ν (.staging b) = origin p.livePath
  absent : ∀ p ∈ done, p.publish = true → p.backup = none → origin p.livePath = none

section

variable (h : BackingUp origin files done rest ν)

include h

lemma BackingUp.not_inPlace (hp : p ∈ done ++ rest) : ¬ p.InPlace := fun hin => by
  have hpbd := hin.1
  rw [h.unpublished p hp] at hpbd
  cases hpbd

lemma BackingUp.recoverable (hp : p ∈ done ++ rest) : p.Recoverable origin ν where
  backup b hb := by
    rcases mem_append.mp hp with hdo | hr
    · exact (h.done_backup p hdo b hb).2
    · rw [h.rest_backup p hr] at hb
      cases hb
  untouched _ := h.live ..
  fresh hin := absurd hin (h.not_inPlace hp)
  apart _ _ hin := absurd hin (h.not_inPlace hp)

lemma BackingUp.recovery (hc : Checked origin files) : Recovery origin files (done ++ rest) ν where
  files := h.files
  separate := h.separate hc (pairwise_of_forall_mem_list fun _ hp _ _ hin =>
    absurd hin (h.not_inPlace hp))
  recoverable _ hp := h.recoverable hp

end

lemma BackingUp.skip (h : BackingUp origin files done (p :: rest) ν)
    (hp : p.publish → origin p.livePath = none) : BackingUp origin files (done ++ [p]) rest ν := by
  have hap : done ++ [p] ++ rest = done ++ p :: rest := by simp
  refine ⟨hap ▸ h.toLinked, hap ▸ h.unpublished, h.live, h.kept,
    fun q hq => h.rest_backup q (mem_cons_of_mem _ hq), fun q hq b hb => ?_,
    fun q hq hpub hb => ?_⟩
  · rcases mem_append.mp hq with hdo | hla
    · exact h.done_backup q hdo b hb
    · rw [mem_singleton.mp hla, h.rest_backup p mem_cons_self] at hb
      cases hb
  · rcases mem_append.mp hq with hdo | hla
    · exact h.absent q hdo hpub hb
    · obtain rfl := mem_singleton.mp hla
      exact hp hpub

lemma BackingUp.link (h : BackingUp origin files done (p :: rest) ν) {b : Text} {i : ℕ}
    (hliv : ν p.livePath = some i) (hfe : ν (.staging b) = none) :
    BackingUp origin files (done ++ [{ p with backup := some b }]) rest
      (update ν (.staging b) (some i)) := by
  have hori : origin p.livePath = some i := (h.live ..).symm.trans hliv
  have hnew : origin (.staging b) = none := by
    by_contra hne
    exact hne ((h.kept _ hne).symm.trans hfe)
  have hot : ∀ q ∈ done, q.backup ≠ some b := by
    intro q hq hb
    obtain ⟨hne, heq⟩ := h.done_backup q hq b hb
    exact hne (heq.symm.trans hfe)
  have hre : ∀ q ∈ rest, q.backup = none := fun q hq =>
    h.rest_backup q (mem_cons_of_mem _ hq)
  refine ⟨⟨?_, ?_, ?_⟩, ?_, fun d n => ?_, fun x hx => ?_, hre, fun q hq b' hb' => ?_,
    fun q hq hpub hb => ?_⟩
  · simpa [toFile] using h.files
  · have hdi := h.distinct
    rw [append_assoc, singleton_append]
    rw [pairwise_append, pairwise_cons] at hdi ⊢
    obtain ⟨hdo, ⟨-, hpai⟩, hcro⟩ := hdi
    refine ⟨hdo, ⟨fun q hq b' _ => ?_, hpai⟩, fun q hq r hr b' hb' => ?_⟩
    · simp [hre q hq]
    · rcases mem_cons.mp hr with rfl | hr
      · exact fun heq => hot q hq (hb'.trans heq.symm)
      · simp [hre r hr]
  · obtain ⟨hdo, -, hrestNew⟩ := forall_mem_append_cons.mp h.new
    refine forall_mem_replace.mpr ⟨hdo, fun b' hb' => ?_, hrestNew⟩
    cases hb'
    exact hnew
  · obtain ⟨hdo, hp, hrestPublished⟩ := forall_mem_append_cons.mp h.unpublished
    exact forall_mem_replace.mpr ⟨hdo, hp, hrestPublished⟩
  · rw [update_of_ne (by simp)]
    exact h.live d n
  · rw [update_of_ne (by rintro rfl; exact hx hnew)]
    exact h.kept x hx
  · rcases mem_append.mp hq with hq | hq
    · obtain ⟨hne, heq⟩ := h.done_backup q hq b' hb'
      refine ⟨hne, ?_⟩
      rw [update_of_ne, heq]
      rintro hsm
      cases hsm
      exact hot q hq hb'
    · rw [mem_singleton.mp hq] at hb' ⊢
      cases hb'
      rw [update_self]
      exact ⟨fun hno => Option.some_ne_none i (hori.symm.trans hno), hori.symm⟩
  · rcases mem_append.mp hq with hq | hq
    · exact h.absent q hq hpub hb
    · rw [mem_singleton.mp hq] at hb
      cases hb

lemma ensures_linkLive (hc : Checked origin files) (h : BackingUp origin files done (p :: rest) ν) :
    Recovers origin files ν (linkLive render done p rest)
      (fun p' w => BackingUp origin files (done ++ [p']) rest w.names.inode) := by
  unfold linkLive
  split_ifs with hpub
  · refine ensures_change_or_abort (h.recovery hc) ?_
    rintro w rfl
    rcases w.names.link_cases p.livePath (.staging (backupName p.staged done.length)) with
      hfa | ⟨i, hliv, -, hfe, hok⟩
    · exact .inl hfa
    · exact .inr ⟨_, hok, h.link hliv hfe⟩
  · exact .pure fun w _ hw => hw ▸ h.skip fun hpub' => absurd hpub' hpub

lemma ensures_backUp (hc : Checked origin files) (h : BackingUp origin files done (p :: rest) ν) :
    Recovers origin files ν (backUp render done p rest)
      (fun p' w => BackingUp origin files (done ++ [p']) rest w.names.inode) := by
  have habo : ∀ msg, Recovers origin files ν (abort render (done ++ p :: rest) msg)
    (fun p' w => BackingUp origin files (done ++ [p']) rest w.names.inode) := fun msg =>
    ensures_abort (h.recovery hc)
  refine .bind ensures_attempt_look fun r => ?_
  split
  · exact (ensures_linkLive hc h).pre fun _ hw => hw.1
  · exact (ensures_linkLive hc h).pre fun _ hw => hw.1
  · exact (habo _).pre fun _ hw => hw.1
  · -- There is no live file.
    refine .pure fun w _ ⟨hw, hr⟩ => hw ▸ h.skip fun _ => ?_
    have hno : w.names.inode p.livePath = none :=
      Names.inode_of_lstat_error (hr.resolve_left (by simp)).symm
    rw [hw] at hno
    exact (h.live ..).symm.trans hno
  · exact (habo _).pre fun _ hw => hw.1

/-! ### Publication -/

/-- The files of `done` are in place. -/
structure Publishing (origin : SyncPath → Option ℕ) (files : List StagedFile)
    (done rest : List DatabasePublication) (ν : SyncPath → Option ℕ) : Prop
    extends Linked origin files (done ++ rest) where
  absent : ∀ p ∈ done ++ rest, p.publish = true → p.backup = none → origin p.livePath = none
  unpublished : ∀ p ∈ rest, p.published = false
  recoverable : ∀ p ∈ done ++ rest, p.Recoverable origin ν
  names : ∀ x, origin (.staging x) ≠ none →
    ν (.staging x) = origin (.staging x) ∨ ν (.staging x) = none
  inPlace : ∀ p ∈ done, p.publish = true → ν p.livePath = origin p.stagedPath
  ordered : done.Pairwise Ordered

lemma BackingUp.publishing (h : BackingUp origin files done [] ν) :
    Publishing origin files [] done ν := by
  have hap : [] ++ done = done ++ [] := by simp
  refine ⟨hap ▸ h.toLinked, fun p hp => h.absent p hp,
    fun p hp => h.unpublished p (by simpa using hp),
    fun p hp => h.recoverable (by simpa using hp), fun x hx => .inl (h.kept _ hx), by simp, ?_⟩
  exact List.Pairwise.nil

lemma Publishing.not_inPlace (h : Publishing origin files done rest ν) (hp : p ∈ rest) :
    ¬ p.InPlace := fun hin => by
  have hpbd := hin.1
  rw [h.unpublished p hp] at hpbd
  cases hpbd

lemma Publishing.recovery (h : Publishing origin files done rest ν) (hc : Checked origin files) :
    Recovery origin files (done ++ rest) ν where
  files := h.files
  separate := h.separate hc <| pairwise_append.mpr ⟨h.ordered,
    pairwise_of_forall_mem_list fun _ hp _ _ hin => absurd hin (h.not_inPlace hp),
    fun _ _ _ hq _ _ hin => absurd hin (h.not_inPlace hq)⟩
  recoverable := h.recoverable

lemma Linked.setPublished (h : Linked origin files (done ++ p :: rest)) :
    Linked origin files (done ++ [{ p with published := true }] ++ rest) := by
  obtain ⟨hdo, hp, hre⟩ := forall_mem_append_cons.mp h.new
  refine ⟨?_, ?_, forall_mem_replace.mpr ⟨hdo, hp, hre⟩⟩
  · simpa [toFile] using h.files
  · have hdi := h.distinct
    rw [append_assoc, singleton_append]
    rw [pairwise_append, pairwise_cons] at hdi ⊢
    refine ⟨hdi.1, hdi.2.1, fun q hq r hr b hb => ?_⟩
    rcases mem_cons.mp hr with rfl | hr
    · exact hdi.2.2 q hq p mem_cons_self b hb
    · exact hdi.2.2 q hq r (mem_cons_of_mem _ hr) b hb

lemma Publishing.keep (h : Publishing origin files done (p :: rest) ν) (hp : p.publish = false) :
    Publishing origin files (done ++ [{ p with published := true }]) rest ν := by
  have hin : ∀ published, ¬ ({ p with published } : DatabasePublication).InPlace := by
    intro published hin
    have hpub := hin.2
    rw [hp] at hpub
    cases hpub
  obtain ⟨hab, hab', hab''⟩ := forall_mem_append_cons.mp h.absent
  obtain ⟨hdo, hrec, hre⟩ := forall_mem_append_cons.mp h.recoverable
  refine ⟨h.setPublished, forall_mem_replace.mpr ⟨hab, hab', hab''⟩,
    fun q hq => h.unpublished q (mem_cons_of_mem _ hq),
    forall_mem_replace.mpr ⟨hdo, ?_, hre⟩, h.names, fun q hq hpub => ?_, ?_⟩
  · exact ⟨hrec.backup, fun _ => hrec.untouched (hin p.published), fun h => absurd h (hin true),
      fun _ _ h => absurd h (hin true)⟩
  · rcases mem_append.mp hq with hq | hq
    · exact h.inPlace q hq hpub
    · rw [mem_singleton.mp hq] at hpub
      cases hp.symm.trans hpub
  · refine pairwise_append.mpr ⟨h.ordered, pairwise_singleton .., ?_⟩
    rintro q hq r hr - - hr'
    rw [mem_singleton.mp hr] at hr'
    exact absurd hr' (hin true)

lemma Linked.recoverable_of_moved {fs fs' : Names SyncPath}
    (h : Linked origin files ps) (hc : Checked origin files) (hp : p ∈ ps)
    (hpub : p.publish) (hmo : fs.Moved p.stagedPath p.livePath fs')
    (hq : q ∈ ps) (hliv : q.livePath ≠ p.livePath) (hrec : q.Recoverable origin fs.inode) :
    q.Recoverable origin fs'.inode := by
  refine hrec.congr (hmo.frame _ (livePath_ne_staging q _) hliv) (fun b hb => ?_) ?_
  · refine hmo.frame _ (fun heq => ?_) (livePath_ne_staging p b).symm
    exact h.backup_ne_staged hc hq hp hpub b hb (staging.inj heq)
  · intro _ _ hno
    by_cases hsm : q.stagedPath = p.stagedPath
    · rw [hsm] at hno ⊢
      exact hmo.inode_source.elim (fun heq => heq.trans hno) fun heq => heq
    · exact (hmo.frame _ hsm (livePath_ne_staging p _).symm).trans hno

lemma Publishing.move {fs fs' : Names SyncPath} (hc : Checked origin files)
    (h : Publishing origin files done (p :: rest) fs.inode) (hpub : p.publish)
    (hmo : fs.Moved p.stagedPath p.livePath fs') :
    Publishing origin files (done ++ [{ p with published := true }]) rest fs'.inode := by
  have hmem : p ∈ done ++ p :: rest := by simp
  obtain ⟨i, hi⟩ := hmo.exists_source
  have hstd := h.staged_ne_none hc hmem hpub
  have hliv := h.pairwise_livePath_ne hc
  rw [pairwise_append, pairwise_cons] at hliv
  obtain ⟨-, ⟨hrestLive, -⟩, hdoneLive⟩ := hliv
  obtain ⟨hab, hab', hab''⟩ := forall_mem_append_cons.mp h.absent
  obtain ⟨hdo, hrec, hre⟩ := forall_mem_append_cons.mp h.recoverable
  refine ⟨h.setPublished, forall_mem_replace.mpr ⟨hab, hab', hab''⟩,
    fun q hq => h.unpublished q (mem_cons_of_mem _ hq),
    forall_mem_replace.mpr ⟨fun q hq => ?_, ?_, fun q hq => ?_⟩, fun x hx => ?_,
    fun q hq hpub' => ?_, ?_⟩
  · exact h.recoverable_of_moved hc hmem hpub hmo (by simp [hq])
      (hdoneLive q hq p mem_cons_self) (hdo q hq)
  · refine ⟨fun b hb => ?_, fun hin => absurd ⟨rfl, hpub⟩ hin, fun _ hb => ?_, fun b hb _ => ?_⟩
    · rw [hmo.frame _ (fun heq => h.backup_ne_staged hc hmem hmem hpub b hb
        (staging.inj heq)) (livePath_ne_staging p b).symm]
      exact hrec.backup b hb
    · have hno := hab' hpub hb
      refine ⟨hno, hmo.source_of_free ?_⟩
      exact (hrec.untouched (h.not_inPlace mem_cons_self)).trans hno
    · exact h.backup_ne_staged hc hmem hmem hpub b hb
  · exact h.recoverable_of_moved hc hmem hpub hmo (by simp [hq]) (hrestLive q hq).symm (hre q hq)
  · by_cases hsm : staging x = p.stagedPath
    · rw [hsm] at hx ⊢
      rcases hmo.inode_source with heq | heq
      · rw [heq]
        exact h.names p.staged hx
      · exact .inr heq
    · rw [hmo.frame _ hsm (livePath_ne_staging p x).symm]
      exact h.names x hx
  · rcases mem_append.mp hq with hq | hq
    · rw [hmo.frame _ (livePath_ne_staging q _) (hdoneLive q hq p mem_cons_self)]
      exact h.inPlace q hq hpub'
    · obtain rfl := mem_singleton.mp hq
      refine hmo.inode_target.trans ((h.names p.staged hstd).resolve_right fun hno => ?_)
      exact Option.some_ne_none i (hi.symm.trans hno)
  · refine pairwise_append.mpr ⟨h.ordered, pairwise_singleton .., ?_⟩
    rintro q hq r hr hin hb - hsm
    rw [mem_singleton.mp hr] at hsm
    have hno := ((hdo q hq).fresh hin hb).2
    unfold stagedPath at hno hi
    rw [hsm] at hno
    exact Option.some_ne_none i (hi.symm.trans hno)

lemma ensures_publishOne (hc : Checked origin files)
    (h : Publishing origin files done (p :: rest) ν) :
    Recovers origin files ν (publishOne render done p rest)
      (fun p' w => Publishing origin files (done ++ [p']) rest w.names.inode) := by
  unfold publishOne
  split_ifs with hpub
  · refine ensures_change_or_abort (h.recovery hc) ?_
    rintro w rfl
    rcases w.names.rename_cases (livePath_ne_stagedPath p).symm with hfa | ⟨fs, hok, hmo⟩
    · exact .inl hfa
    · exact .inr ⟨fs, hok, h.move hc hpub hmo⟩
  · exact .pure fun w _ hw => hw ▸ h.keep (by simpa using hpub)

/-! ### The whole publication -/

lemma ensures_backUpAll (hc : Checked origin files) (h : BackingUp origin files done rest ν) :
    Recovers origin files ν (backUpAll render done rest)
      (fun ps w => BackingUp origin files ps [] w.names.inode) := by
  induction rest generalizing done ν with
  | nil => exact .pure fun w _ hw => hw ▸ h
  | cons p rest ih =>
    refine .bind (ensures_backUp hc h) fun p' => .of_forall fun w _ hw => ?_
    exact (ih hw).pre (by rintro _ rfl; rfl)

lemma ensures_publishAll (hc : Checked origin files) (h : Publishing origin files done rest ν) :
    Recovers origin files ν (publishAll render done rest)
      (fun ps w => Publishing origin files ps [] w.names.inode) := by
  induction rest generalizing done ν with
  | nil => exact .pure fun w _ hw => hw ▸ h
  | cons p rest ih =>
    refine .bind (ensures_publishOne hc h) fun p' => .of_forall fun w _ hw => ?_
    exact (ih hw).pre (by rintro _ rfl; rfl)

lemma ensures_syncAll (h : Recovery origin files ps ν) (rem : List DatabasePublication) :
    Recovers origin files ν (syncAll render ps rem) (fun _ w => w.names.inode = ν) := by
  induction rem with
  | nil => exact .pure fun w _ hw => hw
  | cons p rem ih =>
    refine .bind ensures_attempt_look fun r => ?_
    cases r with
    | ok u => exact ih.pre fun _ hw => hw.1
    | error e => exact (ensures_abort h).pre fun _ hw => hw.1

structure Published (origin : SyncPath → Option ℕ) (files : List StagedFile) (w : SyncWorld) :
    Prop where
  published : ∀ f ∈ files, f.publish = true → ∃ i, origin f.stagedPath = some i ∧
    w.names.inode f.livePath = some i
  untouched : ∀ f ∈ files, f.publish = false → w.names.inode f.livePath = origin f.livePath

lemma Publishing.published (h : Publishing origin files ps [] ν) (hc : Checked origin files)
    {w : SyncWorld} (hw : ∀ dir name, w.names.inode (.live dir name) =
      ν (.live dir name)) : Published origin files w := by
  refine ⟨fun f hf hpub => ?_, fun f hf hpub => ?_⟩
  all_goals
    rw [← h.files] at hf
    obtain ⟨p, hp, rfl⟩ := mem_map.mp hf
  · obtain ⟨i, hi⟩ := Option.ne_none_iff_exists'.mp (h.staged_ne_none hc hp hpub)
    refine ⟨i, hi, (hw ..).trans ?_⟩
    exact (h.inPlace p (by simpa using hp) hpub).trans hi
  · refine (hw ..).trans ((h.recoverable p hp).untouched fun hin => ?_)
    cases hpub.symm.trans hin.2

lemma ensures_removeBackups {E : SyncError → SyncWorld → Prop} (ν : SyncPath → Option ℕ)
    (ps : List DatabasePublication) : Ensures (fun w => ∀ dir name, w.names.inode (.live dir name) =
        ν (.live dir name)) (removeBackups ps)
      (fun _ w => ∀ dir name, w.names.inode (.live dir name) = ν (.live dir name)) E := by
  induction ps with
  | nil => exact .pure fun _ _ hw => hw
  | cons p ps ih =>
    unfold removeBackups
    cases p.backup with
    | none => exact ih
    | some b =>
      refine .bind (ensures_attempt_change (Q := fun w => ∀ dir name,
        w.names.inode (.live dir name) = ν (.live dir name)) fun w hw => ?_) fun r => ?_
      · rcases w.names.unlink_cases (.staging b) with hfa | hok
        · exact .inl hfa
        · refine .inr ⟨_, hok, fun dir name => ?_⟩
          exact (Names.inode_put_of_ne _ (by simp) _).trans (hw dir name)
      · exact ih.pre fun w hw => hw.elim (·.2) (·.2)

def Untouched (origin : SyncPath → Option ℕ) (e : SyncError) (w : SyncWorld) : Prop :=
  w.names.inode = origin ∧ e.rollbackErrors = []

lemma Untouched.recovered {e : SyncError} {w : SyncWorld} (h : Untouched origin e w)
    (files : List StagedFile) : Recovered origin files e.rollbackErrors w :=
  ⟨fun _ _ _ => by rw [h.1], absurd h.2, absurd h.2⟩

lemma ensures_checkStaged : Ensures (fun w => w.names.inode = origin) (checkStaged render p)
      (fun _ w => w.names.inode = origin ∧ origin p.stagedPath ≠ none) (Untouched origin) := by
  refine .bind (ensures_look.mapError fun e w h => ⟨h.1, rfl⟩) fun kind => ?_
  split_ifs
  · refine .mapError ?_ fun e w h => ⟨h, rfl⟩
    refine .step (fun _ _ h => h.1) fun w _ ⟨hw, hki⟩ => ?_
    have hino : (w.names.chmod p.stagedPath 0o644).2.inode = origin :=
      (w.names.inode_chmod ..).trans hw
    refine ⟨trivial, fun _ _ => ⟨hino, fun hno => ?_⟩, fun _ _ => hino⟩
    rw [← hw] at hno
    rw [Names.lstat, hno] at hki
    cases hki
  · exact .throw fun w _ h => ⟨h.1, rfl⟩

lemma ensures_checkAll (ps : List DatabasePublication) :
    Ensures (fun w => w.names.inode = origin) (checkAll render ps)
      (fun _ w => w.names.inode = origin ∧
        ∀ p ∈ ps, p.publish → origin p.stagedPath ≠ none) (Untouched origin) := by
  induction ps with
  | nil => exact .pure fun w _ hw => ⟨hw, by simp⟩
  | cons p ps ih =>
    refine .bind (Q := fun _ (w : SyncWorld) => w.names.inode = origin ∧
      (p.publish = true → origin p.stagedPath ≠ none)) ?_ fun _ => ?_
    · unfold checkPublished
      split_ifs with hpub
      · exact ensures_checkStaged.post fun _ _ h => ⟨h.1, fun _ => h.2⟩
      · exact .pure fun w _ hw => ⟨hw, fun h => absurd h hpub⟩
    · refine .of_forall fun w _ ⟨hw, hp⟩ => ih.mono (fun _ h => h ▸ hw) (fun _ w' hw' => ?_)
        fun _ _ h => h
      exact ⟨hw'.1, forall_mem_cons.mpr ⟨hp, hw'.2⟩⟩

lemma backingUp_ofFile (origin : SyncPath → Option ℕ) (files : List StagedFile) :
    BackingUp origin files [] (files.map ofFile) origin := by
  have hno : ∀ p ∈ files.map ofFile, p.backup = none := by simp [ofFile]
  refine ⟨⟨?_, ?_, fun p hp b hb => ?_⟩, ?_, fun _ _ => rfl, fun _ _ => rfl, hno, by simp, by simp⟩
  · rw [nil_append, map_map]
    exact map_id files
  · refine pairwise_of_forall_mem_list fun p hp q _ b hb => ?_
    rw [hno p hp] at hb
    cases hb
  · rw [hno p hp] at hb
    cases hb
  · simp [ofFile]

variable (render) in
lemma ensures_commitStagedFiles {lease : DatabaseLease} (fds : ℕ)
    (hdes : (files.map StagedFile.destination).Nodup) (hrls : lease.release = .ok ()) :
    Ensures (fun w => w.names.inode = origin) (commitStagedFiles render lease fds files)
      (fun _ w => Published origin files w)
      (fun e w => Recovered origin files e.rollbackErrors w) := by
  have hear : ∀ (x : Result Unit), Ensures (fun w => w.names.inode = origin)
      (liftM (withoutRollback x) : Steps SyncWorld SyncError Unit)
      (fun _ w => w.names.inode = origin)
      (fun e w => Recovered origin files e.rollbackErrors w) := by
    refine fun x => .lift (fun _ _ _ _ hw => hw) fun e w he _ hw => ?_
    cases x with
    | ok u => cases he
    | error messages => cases he; exact Untouched.recovered ⟨hw, rfl⟩ files
  unfold commitStagedFiles
  refine .bind (hear _) fun _ => .bind (hear _) fun _ => ?_
  refine .bind ((ensures_checkAll _).mono (fun _ h => h) (fun _ _ h => h)
    fun e w h => h.recovered files) fun _ => .of_forall fun w _ ⟨hw, hstd⟩ => ?_
  have hc : Checked origin files := ⟨hdes, fun f hf => hstd _ (mem_map_of_mem hf)⟩
  refine .bind ((ensures_backUpAll hc (backingUp_ofFile origin files)).pre
    (by rintro _ rfl; exact hw)) fun ps => ?_
  refine .of_forall fun w _ hbac => .bind ((ensures_publishAll hc hbac.publishing).pre
    (by rintro _ rfl; rfl)) fun ps' => ?_
  refine .of_forall fun w _ hpbd => ?_
  have hrec := hpbd.recovery hc
  rw [append_nil] at hrec
  refine .bind ((ensures_syncAll hrec ps').pre (by rintro _ rfl; rfl)) fun _ => ?_
  refine .bind ((ensures_removeBackups w.names.inode ps').pre fun _ h _ _ => by rw [h]) fun _ => ?_
  rw [hrls]
  exact .pure fun w' _ hw' => hpbd.published hc hw'

/-- **A publication is all or nothing.** Whatever fails while files with different destinations are
published: a success leaves every staged file in its place and every other destination untouched; an
error without errors of the rollback leaves every destination as it was; and if the rollback reports
an error then the staging directory is kept, and every original that is not in its place has a link
there. -/
theorem commitStagedFiles_atomic (render : Rendering) (lease : DatabaseLease)
    (hrelease : lease.release = .ok ()) (failedDownloads : ℕ) (files : List StagedFile)
    (hdestinations : (files.map StagedFile.destination).Nodup) (fails : ℕ → Bool) (w : SyncWorld) :
    let run := commitStagedFiles render lease failedDownloads files fails (.start w)
    (run.1 = .ok () → Published w.names.inode files run.2.now) ∧
      ∀ e, run.1 = .error e → Recovered w.names.inode files e.rollbackErrors run.2.now := by
  obtain ⟨-, hok, her⟩ := ensures_commitStagedFiles render failedDownloads hdestinations hrelease
    fails (.start w) (fun _ _ => trivial) rfl
  exact ⟨hok (), her⟩

def coreFiles : List StagedFile :=
  [⟨"core.db", ("sync", "core.db"), true⟩, ⟨"core.db.sig", ("sync", "core.db.sig"), false⟩]

def coreWorld : SyncWorld where
  names :=
    { inode x :=
        if x = .staging "core.db" then some 1
        else if x = .live "sync" "core.db" then some 2
        else if x = .live "sync" "core.db.sig" then some 3
        else none
      kind _ := .regular
      mode _ := 0o600
      isReachable _ := true }
  retained := false

def coreRendering : Rendering := ⟨fun _ => [], fun _ => [], []⟩

def coreRun (fails : ℕ → Bool) : Except SyncError Unit × Control.History SyncWorld :=
  commitStagedFiles coreRendering ⟨.ok (), .ok ()⟩ 0 coreFiles fails (.start coreWorld)

/-- A publication without failures, and one in which the synchronisation of a directory fails. -/
theorem commitStagedFiles_atomic_core :
    Published coreWorld.names.inode coreFiles (coreRun fun _ => false).2.now ∧
      ∃ e, (coreRun fun n => n == 6).1 = .error e ∧
        Recovered coreWorld.names.inode coreFiles e.rollbackErrors
          (coreRun fun n => n == 6).2.now := by
  refine ⟨(commitStagedFiles_atomic coreRendering ⟨.ok (), .ok ()⟩ rfl 0 coreFiles
    (by decide) (fun _ => false) coreWorld).1 rfl, _, rfl, ?_⟩
  exact (commitStagedFiles_atomic coreRendering ⟨.ok (), .ok ()⟩ rfl 0 coreFiles
    (by decide) (fun n => n == 6) coreWorld).2 _ rfl

end Omg.Arch
