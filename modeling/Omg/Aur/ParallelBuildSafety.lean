import Mathlib.Data.List.Induction
import Mathlib.Data.List.Pairwise
import Mathlib.Data.List.Perm.Basic
import Omg.Aur.ParallelBuild
import Omg.Control.Except

/-!
# Parallel builds respect dependencies and account for every output

Whatever builds fail and in whatever order they end, a package base is built after its dependencies
have been built and their archives installed, and a run that completes reports every output once.

Source: `src/package_managers/aur/parallel_build.rs`, lines 9-375.
-/

namespace Omg.Aur

open Control Text List Except BuildJob ParallelBuildSummary Wave

variable {gr : List (Text × List Text)} {debugTexts : List Text → Text}

lemma mem_currentLevel {rem sat : List Text} {p : Text} :
    p ∈ currentLevel gr rem sat ↔ p ∈ rem ∧ isReady gr sat p := by
  rw [currentLevel, mem_insertionSort, mem_filter]

lemma levelsFrom_spec {rds : ℕ} {rem sat : List Text} {lvs : List (List Text)}
    (hrnd : rem.length ≤ rds) (h : levelsFrom gr debugTexts rds rem sat = .ok lvs) :
    lvs.flatten.Perm rem ∧ ∀ pre level aft, lvs = pre ++ level :: aft →
        ∀ p ∈ level, isReady gr (sat ++ pre.flatten) p = true := by
  induction rds generalizing rem sat lvs with
  | zero =>
    obtain rfl := length_eq_zero_iff.mp (Nat.le_zero.mp hrnd)
    cases h
    simp
  | succ rds ih =>
    unfold levelsFrom at h
    split_ifs at h with hrem hlv
    · cases h
      simp [hrem]
    · cases h
    · obtain ⟨ltr, hla, h⟩ := bind_eq_ok.mp h
      cases h
      have hr : rem.filter (· ∉ currentLevel gr rem sat) =
          rem.filter fun p => !isReady gr sat p := by
        refine filter_congr fun p hp => ?_
        simp [mem_currentLevel, hp]
      have hf : (currentLevel gr rem sat).Perm
          (rem.filter (isReady gr sat)) := perm_insertionSort _ _
      have hsp := filter_append_perm (isReady gr sat) rem
      have hlen := hsp.length_eq
      rw [length_append, ← hf.length_eq] at hlen
      have hpos := length_pos_iff.mpr hlv
      rw [hr] at hla
      obtain ⟨hpe, hrdy⟩ := ih (by omega) hla
      constructor
      · rw [flatten_cons]
        exact (hf.append hpe).trans hsp
      · rintro (_ | ⟨first, pre⟩) level aft heq p hp
        · cases heq
          rw [flatten_nil, append_nil]
          exact (mem_currentLevel.mp hp).2
        · rw [cons_append, List.cons.injEq] at heq
          obtain ⟨rfl, heq⟩ := heq
          rw [flatten_cons, ← append_assoc]
          exact hrdy pre level aft heq p hp

/-! ### The dependency graph -/

lemma lookup_filter_ne {gr : List (Text × List Text)} {key p : Text} (h : p ≠ key) :
    (gr.filter fun oth => oth.1 ≠ key).lookup p = gr.lookup p := by
  induction gr with
  | nil => rfl
  | cons e gr ih =>
    by_cases hkey : e.1 = key
    · have hp : (p == e.1) = false := beq_false_of_ne (hkey ▸ h)
      rw [filter_cons_of_neg (by simpa using hkey), ih, lookup_cons, hp]
    · rw [filter_cons_of_pos (by simpa using hkey), lookup_cons, lookup_cons, ih]

lemma foldl_insertEntry (es : List (Text × List Text)) :
    ((es.foldl insertEntry []).map Prod.fst).Nodup ∧
    (∀ p, p ∈ (es.foldl insertEntry []).map Prod.fst ↔ p ∈ es.map Prod.fst) ∧
    ∀ p, (es.foldl insertEntry []).lookup p = es.reverse.lookup p := by
  induction es using List.reverseRecOn with
  | nil => simp
  | append_singleton es e ih =>
    obtain ⟨hnd, hks, hlk⟩ := ih
    rw [foldl_append, foldl_cons, foldl_nil, insertEntry]
    refine ⟨?_, fun p => ?_, fun p => ?_⟩
    · rw [map_append, nodup_append]
      refine ⟨hnd.sublist (filter_sublist.map _), nodup_singleton _, ?_⟩
      intro p hp q hq hpq
      obtain ⟨oth, hot, rfl⟩ := mem_map.mp hp
      obtain rfl := mem_singleton.mp hq
      simpa [hpq] using (mem_filter.mp hot).2
    · by_cases hp : p = e.1
      · simp [hp]
      · have hfil : p ∈ ((es.foldl insertEntry []).filter fun oth => oth.1 ≠ e.1).map Prod.fst ↔
            p ∈ (es.foldl insertEntry []).map Prod.fst := by
          simp only [mem_map, mem_filter, decide_eq_true_eq]
          constructor
          · rintro ⟨oth, ⟨hot, -⟩, rfl⟩
            exact ⟨oth, hot, rfl⟩
          · rintro ⟨oth, hot, rfl⟩
            exact ⟨oth, ⟨hot, hp⟩, rfl⟩
        rw [map_append, mem_append, hfil, hks, map_append, mem_append]
    · rw [lookup_append, reverse_append, reverse_singleton, singleton_append,
        lookup_cons, lookup_cons, lookup_nil]
      by_cases hp : p = e.1
      · have hno : ((es.foldl insertEntry []).filter fun oth => oth.1 ≠ e.1).lookup p = none := by
          rw [lookup_eq_none_iff]
          intro oth hot
          have hne : oth.1 ≠ e.1 := by simpa using (mem_filter.mp hot).2
          rw [hp]
          exact bne_iff_ne.mpr hne.symm
        rw [hno, hp, beq_self_eq_true]
        rfl
      · rw [lookup_filter_ne hp, hlk, beq_false_of_ne hp, Option.or_none]

lemma nodup_buildDependencyGraph (jobs : List BuildJob) :
    ((buildDependencyGraph jobs).map Prod.fst).Nodup := (foldl_insertEntry _).1

lemma mem_buildDependencyGraph {jobs : List BuildJob} {p : Text} :
    p ∈ (buildDependencyGraph jobs).map Prod.fst ↔ p ∈ jobs.map package := by
  rw [buildDependencyGraph, (foldl_insertEntry _).2.1, map_map]
  rfl

lemma findJob_eq_some {jobs : List BuildJob} {pkg : Text} {job : BuildJob}
    (h : findJob jobs pkg = some job) : job ∈ jobs ∧ job.package = pkg := by
  have hpk := find?_some h
  exact ⟨mem_of_find?_eq_some h, by simpa using hpk⟩

namespace ParallelBuilder

lemma nodup_of_validateUniqueJobs {seen : List Text} {jobs : List BuildJob}
    (h : validateUniqueJobs seen jobs = .ok ()) :
    (jobs.map package).Nodup ∧ ∀ job ∈ jobs, job.package ∉ seen := by
  induction jobs generalizing seen with
  | nil => simp
  | cons job jobs ih =>
    obtain ⟨_, hsn, h⟩ := bind_eq_ok.mp h
    obtain ⟨hnd, hnotMem⟩ := ih h
    have hsn : job.package ∉ seen := by simpa using ensure_eq_ok.mp hsn
    refine ⟨?_, ?_⟩
    · rw [map_cons, nodup_cons]
      refine ⟨fun hmem => ?_, hnd⟩
      obtain ⟨oth, hot, heq⟩ := mem_map.mp hmem
      exact hnotMem oth hot (heq ▸ mem_cons_self)
    · rintro oth (_ | ⟨_, hot⟩)
      · exact hsn
      · exact fun hmem => hnotMem oth hot (mem_cons_of_mem _ hmem)

variable {A : Type} (x : ParallelBuilder A) (jobs : List BuildJob)

/-! ### Events -/

def finishedOf (events : List (BuildEvent A)) : List (Text × Bool) :=
  events.filterMap fun
    | .finished package succeeded => some (package, succeeded)
    | _ => none

@[simp] lemma finishedOf_nil : finishedOf ([] : List (BuildEvent A)) = [] := rfl

lemma finishedOf_append (events evs' : List (BuildEvent A)) :
    finishedOf (events ++ evs') = finishedOf events ++ finishedOf evs' :=
  filterMap_append

section

variable (events : List (BuildEvent A))

include events

@[simp] lemma finishedOf_started (pkg : Text) :
    finishedOf (events ++ [.started pkg]) = finishedOf events := by
  simp [finishedOf]

@[simp] lemma finishedOf_installed (arcs : List A) :
    finishedOf (events ++ [.installed arcs]) = finishedOf events := by
  simp [finishedOf]

@[simp] lemma finishedOf_finished (pkg : Text) (b : Bool) :
    finishedOf (events ++ [.finished pkg b]) = finishedOf events ++ [(pkg, b)] := by
  simp [finishedOf]

end

def result (job : BuildJob) : Result (List A) := x.build ⟨job.package, job.outputs⟩

def succeeds (job : BuildJob) : Bool := (x.result job).isOk

def archivesOf (job : BuildJob) : List A := (x.result job).toOption.getD []

def Built (events : List (BuildEvent A)) (package : Text) : Prop :=
  ∃ job ∈ jobs, job.package = package ∧ x.succeeds job ∧ (package, true) ∈ finishedOf events ∧
    ∀ a ∈ x.archivesOf job, ∃ batch, .installed batch ∈ events ∧ a ∈ batch

def DependsWithin (package dependency : Text) : Prop :=
  (∃ job ∈ jobs, job.package = package ∧ dependency ∈ job.dependencies) ∧
    dependency ∈ jobs.map BuildJob.package

def Ordered (events : List (BuildEvent A)) : Prop :=
  ∀ before package after, events = before ++ .started package :: after →
    ∀ d, DependsWithin jobs package d → Built x jobs before d

variable {x jobs} {events : List (BuildEvent A)}

lemma Built.append {pkg : Text} (h : Built x jobs events pkg)
    (ltr : List (BuildEvent A)) : Built x jobs (events ++ ltr) pkg := by
  obtain ⟨job, hjob, hpk, hsu, hfin, hars⟩ := h
  refine ⟨job, hjob, hpk, hsu, ?_, fun a ha => ?_⟩
  · rw [finishedOf_append]
    exact mem_append_left _ hfin
  · obtain ⟨batch, hbat, hmem⟩ := hars a ha
    exact ⟨batch, mem_append_left _ hbat, hmem⟩

lemma ordered_nil : Ordered x jobs ([] : List (BuildEvent A)) := by
  intro pre pkg aft h
  simp at h

lemma Ordered.concat (h : Ordered x jobs events) {event : BuildEvent A}
    (hsta : ∀ pkg, event = .started pkg → ∀ d, DependsWithin jobs pkg d → Built x jobs events d) :
    Ordered x jobs (events ++ [event]) := by
  intro pre pkg aft heq
  rcases eq_nil_or_concat aft with rfl | ⟨aft, last, rfl⟩
  · obtain ⟨rfl, heve⟩ := append_inj' heq rfl
    exact hsta pkg (List.cons.inj heve).1
  · rw [concat_eq_append, ← cons_append, ← append_assoc] at heq
    obtain ⟨heq, -⟩ := append_inj' heq rfl
    exact h pre pkg aft heq

/-! ### Summaries -/

variable (x) in
structure Accounts (ended skipped : List BuildJob) (summary : ParallelBuildSummary) : Prop where
  succeeded : summary.succeededOutputs = (ended.filter x.succeeds).flatMap BuildJob.outputs
  failed : summary.failedOutputs =
    (ended.filter fun job => !x.succeeds job).flatMap BuildJob.outputs
  skipped : summary.skippedOutputs = skipped.flatMap BuildJob.outputs

variable {ended skipped : List BuildJob} {summary : ParallelBuildSummary}

lemma accounts_empty : Accounts x [] [] .empty := ⟨rfl, rfl, rfl⟩

lemma Accounts.recordJobResult (h : Accounts x ended skipped summary) (job : BuildJob) :
    Accounts x (ended ++ [job]) skipped
      (summary.recordJobResult job ((x.result job).map fun _ => ())) := by
  have hsu : x.succeeds job = (x.result job).isOk := rfl
  cases hres : x.result job with
  | _ res =>
    simp only [hres, Except.isOk, Except.toBool] at hsu
    constructor
    · simp [ParallelBuildSummary.recordJobResult, Except.map, h.succeeded, hsu]
    · simp [ParallelBuildSummary.recordJobResult, Except.map, h.failed, hsu]
    · exact h.skipped

lemma Accounts.recordSkipped (h : Accounts x ended skipped summary) (job : BuildJob) :
    Accounts x ended (skipped ++ [job]) (summary.recordSkipped job) where
  succeeded := h.succeeded
  failed := h.failed
  skipped := by simp [ParallelBuildSummary.recordSkipped, h.skipped]

lemma Accounts.merge {ended' : List BuildJob} {summ' : ParallelBuildSummary}
    (h : Accounts x ended [] summary) (h' : Accounts x ended' [] summ') :
    Accounts x (ended ++ ended') [] (summary.merge summ') where
  succeeded := by simp [ParallelBuildSummary.merge, h.succeeded, h'.succeeded]
  failed := by simp [ParallelBuildSummary.merge, h.failed, h'.failed]
  skipped := by simp [ParallelBuildSummary.merge, h.skipped, h'.skipped]

lemma Accounts.forall_succeeds (h : Accounts x ended skipped summary)
    (hou : ∀ job ∈ ended, job.outputs ≠ []) (hfa : summary.failedOutputs.length = 0) :
    ∀ job ∈ ended, x.succeeds job = true := by
  intro job hjob
  by_contra hfai
  have hnil := length_eq_zero_iff.mp hfa
  rw [h.failed, flatMap_eq_nil_iff] at hnil
  exact hou job hjob (hnil job (mem_filter.mpr ⟨hjob, by simpa using hfai⟩))

lemma accounts_of_skipPackages {pkgs : List Text} {summ' : ParallelBuildSummary}
    (h : skipPackages jobs pkgs summary = .ok summ') (hacc : Accounts x ended skipped summary) :
    ∃ skp', Accounts x ended (skipped ++ skp') summ' ∧
      skp'.map package = pkgs ∧ ∀ job ∈ skp', job ∈ jobs := by
  induction pkgs generalizing summary skipped with
  | nil =>
    cases h
    exact ⟨[], by simpa using hacc, rfl, by simp⟩
  | cons pkg pkgs ih =>
    obtain ⟨job, hjob, h⟩ := bind_eq_ok.mp h
    obtain ⟨hmem, hpk⟩ := findJob_eq_some (required_eq_ok.mp hjob)
    obtain ⟨skp', hacc', hmap, hjo⟩ := ih h (hacc.recordSkipped job)
    refine ⟨job :: skp', by simpa using hacc', by rw [map_cons, hpk, hmap], ?_⟩
    rintro oth (_ | ⟨_, hot⟩)
    · exact hmem
    · exact hjo oth hot

/-! ### The invariant of a wave -/

variable (jobs) in
def Authorizes (authorized : List (Text × AuthorizedBuild)) : Prop :=
  ∀ package a, authorized.lookup package = some a → a.requestedOutputs ≠ [] ∧
    ∀ job, findJob jobs package = some job → a = ⟨job.package, job.outputs⟩

lemma lookup_of_filter {κ β : Type} [DecidableEq κ] [BEq κ] [LawfulBEq κ] {l : List (κ × β)}
    {k removed : κ} {v : β} (h : (l.filter fun e => e.1 ≠ removed).lookup k = some v) :
    l.lookup k = some v := by
  have hne : k ≠ removed := by
    obtain ⟨pre, aft, heq, -⟩ := lookup_eq_some_iff.mp h
    have hmem : (k, v) ∈ l.filter fun e => e.1 ≠ removed := by
      rw [heq]
      simp
    simpa using (mem_filter.mp hmem).2
  induction l with
  | nil => cases h
  | cons e l ih =>
    obtain ⟨key, val⟩ := e
    rw [lookup_cons]
    by_cases hkey : key = removed
    · rw [filter_cons_of_neg (by simpa using hkey)] at h
      have hfls : (k == key) = false := by simpa [hkey] using hne
      rw [hfls]
      exact ih h
    · rw [filter_cons_of_pos (by simpa using hkey), lookup_cons] at h
      split at h
      · exact h
      · exact ih h

lemma Authorizes.filter {authorized : List (Text × AuthorizedBuild)}
    (h : Authorizes jobs authorized) (pkg : Text) :
    Authorizes jobs (authorized.filter fun e => e.1 ≠ pkg) :=
  fun pkg' a ha => h pkg' a (lookup_of_filter ha)

lemma authorizes_of_authorizeAll {pkgs : List Text} {authorized : List (Text × AuthorizedBuild)}
    (h : x.authorizeAll jobs pkgs = .ok authorized) : Authorizes jobs authorized := by
  induction pkgs generalizing authorized with
  | nil =>
    cases h
    intro pkg a ha
    cases ha
  | cons first pkgs ih =>
    obtain ⟨job, hjob, h⟩ := bind_eq_ok.mp h
    obtain ⟨a, ha, h⟩ := bind_eq_ok.mp h
    obtain ⟨ltr, hla, h⟩ := bind_eq_ok.mp h
    cases h
    obtain ⟨_, -, ha⟩ := bind_eq_ok.mp ha
    obtain ⟨_, hou, ha⟩ := bind_eq_ok.mp ha
    obtain ⟨_, -, ha⟩ := bind_eq_ok.mp ha
    obtain ⟨_, -, ha⟩ := bind_eq_ok.mp ha
    cases ha
    intro pkg a ha
    rw [lookup_cons] at ha
    split at ha
    · rename_i hpk
      cases ha
      refine ⟨by simpa using ensure_eq_ok.mp hou, fun oth hot => ?_⟩
      rw [eq_of_beq hpk, required_eq_ok.mp hjob] at hot
      cases hot
      rfl
    · exact ih hla pkg a ha

variable (x jobs) in
structure WaveInv (done level : List Text) (past : List (Text × Bool)) (ended : List BuildJob)
    (wave : Wave A) (events : List (BuildEvent A)) : Prop where
  built : ∀ d ∈ done, Built x jobs events d
  perm : (ended.map BuildJob.package ++ wave.tasks.map (fun task => task.2.package) ++
    wave.queue).Perm level
  ended_mem : ∀ job ∈ ended, job ∈ jobs ∧ job.outputs ≠ []
  tasks : ∀ task ∈ wave.tasks, task.1 < wave.nextId ∧ task.2.requestedOutputs ≠ [] ∧
    ∀ job, wave.inFlightJobs.lookup task.1 = some job →
      job ∈ jobs ∧ task.2 = ⟨job.package, job.outputs⟩
  authorized : Authorizes jobs wave.authorized
  accounts : Accounts x ended [] wave.summary
  archives : wave.archives = ended.flatMap x.archivesOf
  finished : finishedOf events = past ++ ended.map fun job => (job.package, x.succeeds job)

variable (x jobs) in
/-- A computation of which every event is in order. -/
abbrev Runs {α : Type} (P : List (BuildEvent A) → Prop) (y : BuildSteps A α)
    (Q : α → List (BuildEvent A) → Prop) : Prop :=
  Steps.Satisfies (Ordered x jobs) P y Q fun _ _ => True

lemma Runs.at_events {α : Type} {P : List (BuildEvent A) → Prop} {y : BuildSteps A α}
    {Q : α → List (BuildEvent A) → Prop} (h : Runs x jobs P y Q) (heve : P events) :
    Runs x jobs (· = events) y Q :=
  h.pre fun _ heq => heq ▸ heve

variable {done level : List Text} {past : List (Text × Bool)} {wave : Wave A}

lemma WaveInv.spawn {pkg : Text} {queue : List Text} {job : BuildJob} {a : AuthorizedBuild}
    (h : WaveInv x jobs done level past ended { wave with queue := pkg :: queue } events)
    (hjob : findJob jobs pkg = some job) (ha : wave.authorized.lookup pkg = some a) :
    WaveInv x jobs done level past ended { Wave.spawn wave pkg job a with queue := queue }
      (events ++ [.started a.package]) := by
  obtain ⟨hmem, hpk⟩ := findJob_eq_some hjob
  obtain ⟨hou, haut⟩ := h.authorized pkg a ha
  obtain rfl := haut job hjob
  refine ⟨fun d hd => (h.built d hd).append _, ?_, h.ended_mem, ?_, h.authorized.filter pkg,
    h.accounts, h.archives, by rw [finishedOf_started, h.finished]⟩
  · refine List.Perm.trans ?_ h.perm
    simp [Wave.spawn, hpk]
  · intro task hta
    simp only [Wave.spawn, mem_append, mem_singleton] at hta
    rcases hta with hta | rfl
    · obtain ⟨hlt, hne, hlk⟩ := h.tasks task hta
      refine ⟨Nat.lt_succ_of_lt hlt, hne, fun oth hot => hlk oth ?_⟩
      have hfls : (task.1 == wave.nextId) = false := by simpa using hlt.ne
      simpa [Wave.spawn, lookup_cons, hfls] using hot
    · refine ⟨Nat.lt_succ_self _, hou, fun oth hot => ?_⟩
      simp only [Wave.spawn, lookup_cons, beq_self_eq_true, Option.some.injEq] at hot
      subst hot
      exact ⟨hmem, rfl⟩

lemma satisfies_spawnTasks {concurrency : ℕ} {queue : List Text}
    (hdp : ∀ p ∈ level, ∀ d, DependsWithin jobs p d → d ∈ done) :
    Runs x jobs (WaveInv x jobs done level past ended { wave with queue := queue })
      (spawnTasks jobs concurrency queue wave) fun wave' events =>
        WaveInv x jobs done level past ended wave' events ∧
          (wave'.queue = [] ∨ concurrency ≤ wave'.tasks.length) ∧
          wave'.queue.length + wave'.tasks.length = queue.length + wave.tasks.length := by
  induction queue generalizing wave with
  | nil => exact .pure fun w _ hw => ⟨hw, .inl rfl, rfl⟩
  | cons pkg queue ih =>
    unfold spawnTasks
    by_cases hlm : wave.tasks.length < concurrency
    · rw [if_pos hlm]
      refine .bind (Q := fun job w => findJob jobs pkg = some job ∧
        WaveInv x jobs done level past ended { wave with queue := pkg :: queue } w)
        (.lift (fun job w hjob _ hw => ⟨required_eq_ok.mp hjob, hw⟩) fun _ _ _ _ _ => trivial)
        fun job => ?_
      refine .bind (Q := fun a w => (findJob jobs pkg = some job ∧
        WaveInv x jobs done level past ended { wave with queue := pkg :: queue } w) ∧
          wave.authorized.lookup pkg = some a)
        (.lift (fun a w ha _ hw => ⟨hw, required_eq_ok.mp ha⟩) fun _ _ _ _ _ => trivial)
        fun a => ?_
      refine .of_forall fun w _ hw => ?_
      obtain ⟨⟨hjob, hinv⟩, ha⟩ := hw
      obtain rfl := (hinv.authorized pkg a ha).2 job hjob
      have hlv : job.package ∈ level := by
        rw [(findJob_eq_some hjob).2]
        exact hinv.perm.mem_iff.mp (by simp)
      refine .bind (Q := fun _ => WaveInv x jobs done level past ended
        { Wave.spawn wave pkg job ⟨job.package, job.outputs⟩ with queue := queue }) ?_
        fun _ => ?_
      · refine .assign ?_ ?_
        · rintro w' hord rfl
          refine hord.concat fun pkg' hsta d hd => ?_
          cases hsta
          exact hinv.built d (hdp job.package hlv d hd)
        · rintro w' _ rfl
          exact hinv.spawn hjob ha
      · refine ih.post fun wave' w' h => ⟨h.1, h.2.1, ?_⟩
        rw [h.2.2]
        simp only [Wave.spawn, length_append, length_cons, length_nil]
        omega
    · rw [if_neg hlm]
      exact .pure fun w _ hw => ⟨hw, .inr (by simpa using hlm), rfl⟩

lemma archivesOf_eq (job : BuildJob) :
    x.archivesOf job = (x.build ⟨job.package, job.outputs⟩).toOption.getD [] := rfl

lemma WaveInv.join (h : WaveInv x jobs done level past ended wave events) {idx : ℕ}
    {task : ℕ × AuthorizedBuild} (hta : wave.tasks[idx]? = some task) {job : BuildJob}
    (hjob : wave.inFlightJobs.lookup task.1 = some job) :
    WaveInv x jobs done level past (ended ++ [job]) (Wave.join wave idx task.1 job (x.build task.2))
      (events ++ [.finished task.2.package (x.build task.2).isOk]) := by
  obtain ⟨-, hou, hlk⟩ := h.tasks task (mem_of_getElem? hta)
  obtain ⟨hmem, hta₂⟩ := hlk job hjob
  rw [hta₂] at hou ⊢
  refine ⟨fun d hd => (h.built d hd).append _, ?_, ?_, ?_, h.authorized, ?_, ?_, ?_⟩
  · obtain ⟨hix, hget⟩ := List.getElem?_eq_some_iff.mp hta
    have hp : (task :: wave.tasks.eraseIdx idx).Perm wave.tasks :=
      hget ▸ getElem_cons_eraseIdx_perm hix
    have hpks := hp.map fun task => task.2.package
    rw [map_cons, hta₂] at hpks
    refine List.Perm.trans ?_ h.perm
    simp only [map_append, append_assoc]
    refine List.Perm.append_left _ ?_
    exact List.Perm.append_right _ hpks
  · intro oth hot
    rcases mem_append.mp hot with hot | hot
    · exact h.ended_mem oth hot
    · obtain rfl := mem_singleton.mp hot
      exact ⟨hmem, hou⟩
  · intro oth hot
    obtain ⟨hlt, hne, hot'⟩ := h.tasks oth (mem_of_mem_eraseIdx hot)
    exact ⟨hlt, hne, fun job' hjob' => hot' job' (lookup_of_filter hjob')⟩
  · exact h.accounts.recordJobResult job
  · simp [Wave.join, h.archives, archivesOf_eq]
  · rw [finishedOf_finished, h.finished, map_append, append_assoc]
    rfl

lemma satisfies_joinTask {idx : ℕ} {task : ℕ × AuthorizedBuild}
    (hta : wave.tasks[idx]? = some task) :
    Runs x jobs (WaveInv x jobs done level past ended wave) (x.joinTask wave idx task)
      fun wave' events => ∃ ended', WaveInv x jobs done level past ended' wave' events ∧
        wave'.queue = wave.queue ∧ wave'.tasks.length + 1 = wave.tasks.length := by
  refine .of_forall fun w _ hinv => ?_
  refine .bind (Q := fun _ w' => w' = w ++ [.finished task.2.package (x.build task.2).isOk])
    (.assign ?_ ?_) fun _ => ?_
  · rintro w' hord rfl
    exact hord.concat (by simp)
  · rintro w' _ rfl
    rfl
  refine .bind (Q := fun job w' => wave.inFlightJobs.lookup task.1 = some job ∧
    w' = w ++ [.finished task.2.package (x.build task.2).isOk])
    (.lift (fun job w' hjob _ hw' => ⟨required_eq_ok.mp hjob, hw'⟩) fun _ _ _ _ _ => trivial)
    fun job => .pure ?_
  rintro w' - ⟨hjob, rfl⟩
  obtain ⟨hix, -⟩ := List.getElem?_eq_some_iff.mp hta
  refine ⟨ended ++ [job], hinv.join hta hjob, rfl, ?_⟩
  rw [Wave.join, length_eraseIdx_of_lt hix]
  omega

lemma satisfies_drain {number conc rds : ℕ} (hcon : level ≠ [] → 0 < conc)
    (hdp : ∀ p ∈ level, ∀ d, DependsWithin jobs p d → d ∈ done)
    (hrnd : wave.queue.length + wave.tasks.length < rds) :
    Runs x jobs (WaveInv x jobs done level past ended wave)
      (x.drain jobs number conc rds wave) fun wave' events =>
        ∃ ended', WaveInv x jobs done level past ended' wave' events ∧
          wave'.queue = [] ∧ wave'.tasks = [] := by
  induction rds generalizing wave ended with
  | zero => omega
  | succ rds ih =>
    refine .bind (satisfies_spawnTasks hdp) fun wave' => .of_forall fun w _ hw => ?_
    obtain ⟨hinv, hfu, htot⟩ := hw
    -- A task is missing only if none is in flight.
    by_cases hno : wave'.tasks = []
    · have hqe : wave'.queue = [] := by
        rcases hfu with hqe | hle
        · exact hqe
        rw [hno] at hle
        by_cases hlv : level = []
        · have hp := hinv.perm
          rw [hlv] at hp
          exact (append_eq_nil_iff.mp hp.eq_nil).2
        · exact absurd (hcon hlv) (by simpa using hle)
      have hget : wave'.tasks[x.nextJoined number wave'.joined % wave'.tasks.length]? = none := by
        rw [hno]
        rfl
      simp only [hget]
      refine .pure ?_
      rintro w' - rfl
      exact ⟨ended, hinv, hqe, hno⟩
    · have hlen := length_pos_iff.mpr hno
      have hix := Nat.mod_lt (x.nextJoined number wave'.joined) hlen
      have hget := getElem?_eq_getElem hix
      simp only [hget]
      refine .bind (Runs.at_events (satisfies_joinTask hget) hinv) fun wave'' =>
        .of_forall fun w'' _ hw'' => ?_
      obtain ⟨ended', hinv', hqe, htas⟩ := hw''
      have hfew : wave''.queue.length + wave''.tasks.length < rds := by
        rw [hqe]
        omega
      exact Runs.at_events (ih hfew) hinv'

/-! ### The waves of a run -/

lemma satisfies_installArchives (arcs : List A) :
    Runs x jobs (· = events) (x.installArchives arcs) fun _ evs' =>
      (∃ ltr, evs' = events ++ ltr) ∧ finishedOf evs' = finishedOf events ∧
        ∀ a ∈ arcs, ∃ batch, .installed batch ∈ evs' ∧ a ∈ batch := by
  unfold installArchives
  by_cases hem : arcs.isEmpty = true
  · rw [if_pos hem]
    refine .pure ?_
    rintro w - rfl
    refine ⟨⟨[], (append_nil _).symm⟩, rfl, ?_⟩
    simp [List.isEmpty_iff.mp hem]
  · rw [if_neg hem]
    refine .step (fun _ _ _ => trivial) ?_
    rintro w hord rfl
    refine .ok (hord.concat (by simp)) ⟨⟨_, rfl⟩, finishedOf_installed _ _, ?_⟩
    exact fun a ha => ⟨arcs, by simp, ha⟩

variable (x jobs) in
structure BetweenWaves (done : List Text) (ended : List BuildJob)
    (authorized : List (Text × AuthorizedBuild)) (events : List (BuildEvent A)) : Prop where
  built : ∀ d ∈ done, Built x jobs events d
  ended_mem : ∀ job ∈ ended, job ∈ jobs
  authorized : Authorizes jobs authorized
  finished : finishedOf events = ended.map fun job => (job.package, x.succeeds job)

variable {authorized : List (Text × AuthorizedBuild)}

lemma satisfies_buildLevel {number : ℕ}
    (hdp : ∀ p ∈ level, ∀ d, DependsWithin jobs p d → d ∈ done) :
    Runs x jobs (BetweenWaves x jobs done ended authorized)
      (x.buildLevel jobs number level authorized) fun built events =>
        ∃ wave, (wave.map package).Perm level ∧ Accounts x wave [] built.1 ∧
          (∀ job ∈ wave, job.outputs ≠ []) ∧
          BetweenWaves x jobs done (ended ++ wave) built.2 events ∧
          ∀ job ∈ wave, x.succeeds job = true → Built x jobs events job.package := by
  refine .of_forall fun w₀ _ hbe => ?_
  have hst : WaveInv x jobs done level (finishedOf w₀) []
      ⟨level, 0, [], [], 0, authorized, [], .empty⟩ w₀ :=
    ⟨hbe.built, .refl _, by simp, by simp, hbe.authorized, accounts_empty, rfl, (append_nil _).symm⟩
  have hcon : level ≠ [] → 0 < x.concurrencyForLevel level.length := by
    intro hne
    have hlen := length_pos_iff.mpr hne
    unfold concurrencyForLevel
    omega
  have hrnd : level.length + 0 < level.length + 1 := by omega
  refine .bind (Runs.at_events (satisfies_drain hcon hdp hrnd) hst) fun wave =>
    .of_forall fun w _ hw => ?_
  obtain ⟨joined, hinv, hqe, htas⟩ := hw
  refine .bind (satisfies_installArchives wave.archives) fun _ => .pure ?_
  rintro w' - ⟨⟨ltr, hla⟩, hfin, hins⟩
  have hp := hinv.perm
  rw [hqe, htas, map_nil, append_nil, append_nil] at hp
  have hend : finishedOf w' = (ended ++ joined).map fun job => (job.package, x.succeeds job) := by
    rw [hfin, hinv.finished, hbe.finished, map_append]
  refine ⟨joined, hp, hinv.accounts, fun job hjob => (hinv.ended_mem job hjob).2,
    ⟨fun d hd => hla ▸ (hinv.built d hd).append ltr, ?_, hinv.authorized, hend⟩, ?_⟩
  · intro job hjob
    rcases mem_append.mp hjob with hjob | hjob
    · exact hbe.ended_mem job hjob
    · exact (hinv.ended_mem job hjob).1
  · intro job hjob hsu
    refine ⟨job, (hinv.ended_mem job hjob).1, rfl, hsu, ?_, fun a ha => ?_⟩
    · rw [hend]
      exact mem_map.mpr ⟨job, mem_append_right _ hjob, by rw [hsu]⟩
    · refine hins a ?_
      rw [hinv.archives]
      exact mem_flatMap.mpr ⟨job, hjob, ha⟩

lemma satisfies_buildLevels {number : ℕ} {lvs : List (List Text)}
    (hdp : ∀ pre level aft, lvs = pre ++ level :: aft →
      ∀ p ∈ level, ∀ d, DependsWithin jobs p d → d ∈ done ++ pre.flatten)
    (hacc : Accounts x ended [] summary) : Runs x jobs (BetweenWaves x jobs done ended authorized)
      (x.buildLevels jobs number lvs authorized summary) fun summ' events =>
        ∃ ended' skipped, Accounts x (ended ++ ended') skipped summ' ∧
          ((ended' ++ skipped).map package).Perm lvs.flatten ∧
          (∀ job ∈ ended ++ ended', job ∈ jobs) ∧ (∀ job ∈ skipped, job ∈ jobs) ∧
          finishedOf events = (ended ++ ended').map fun job => (job.package, x.succeeds job) := by
  induction lvs generalizing number authorized summary done ended with
  | nil =>
    refine .pure fun w _ hw => ⟨[], [], by simpa using hacc, .refl _, ?_, by simp, ?_⟩
    · simpa using hw.ended_mem
    · simpa using hw.finished
  | cons level ltr ih =>
    have hf : ∀ p ∈ level, ∀ d, DependsWithin jobs p d → d ∈ done := by
      intro p hp d hd
      simpa using hdp [] level ltr rfl p hp d hd
    refine .bind (satisfies_buildLevel hf) fun built => .of_forall fun w _ hw => ?_
    obtain ⟨wave, hpe, hwa, hou, hbet, hbui⟩ := hw
    have hmer := hacc.merge hwa
    by_cases hfa : 0 < built.1.failedOutputs.length
    · rw [if_pos hfa]
      refine .lift ?_ fun _ _ _ _ _ => trivial
      rintro summ' w' hskp - rfl
      obtain ⟨skipped, hsk, hmap, hmem⟩ := accounts_of_skipPackages hskp hmer
      refine ⟨wave, skipped, hsk, ?_, hbet.ended_mem, hmem, hbet.finished⟩
      rw [map_append, hmap]
      exact hpe.append_right _
    · rw [if_neg hfa]
      -- Every build of the wave has succeeded, so the next wave has all it depends on.
      have hsu := hwa.forall_succeeds hou (by omega)
      have hla : ∀ pre lv' aft, ltr = pre ++ lv' :: aft →
          ∀ p ∈ lv', ∀ d, DependsWithin jobs p d → d ∈ (done ++ level) ++ pre.flatten := by
        intro pre lv' aft heq p hp d hd
        have hmem := hdp (level :: pre) lv' aft (by rw [heq]; rfl) p hp d hd
        rwa [flatten_cons, ← append_assoc] at hmem
      have hnx : BetweenWaves x jobs (done ++ level) (ended ++ wave) built.2 w := by
        refine ⟨fun d hd => ?_, hbet.ended_mem, hbet.authorized, hbet.finished⟩
        rcases mem_append.mp hd with hd | hd
        · exact hbet.built d hd
        · obtain ⟨job, hjob, rfl⟩ := mem_map.mp (hpe.mem_iff.mpr hd)
          exact hbui job hjob (hsu job hjob)
      refine (ih hla hmer).mono (fun _ h => h ▸ hnx) ?_ fun _ _ h => h
      rintro summ' w' ⟨ended', skipped, hacc', hp', hmem, hsk, hfin⟩
      rw [append_assoc] at hacc' hmem hfin
      refine ⟨wave ++ ended', skipped, hacc', ?_, hmem, hsk, hfin⟩
      rw [append_assoc, map_append]
      exact hpe.append hp'

/-! ### Whole runs -/

lemma lookup_map_of_nodup {α κ β : Type} [BEq κ] [LawfulBEq κ] {key : α → κ} {val : α → β}
    {l : List α} (hnd : (l.map key).Nodup) {a : α} (ha : a ∈ l) :
    (l.map fun a => (key a, val a)).lookup (key a) = some (val a) := by
  induction l with
  | nil => cases ha
  | cons first l ih =>
    obtain ⟨hf, hnd⟩ := nodup_cons.mp hnd
    rw [map_cons, lookup_cons]
    rcases mem_cons.mp ha with rfl | ha
    · simp
    · have hne : (key a == key first) = false := by
        refine beq_eq_false_iff_ne.mpr fun heq => hf ?_
        exact heq ▸ mem_map_of_mem ha
      rw [hne]
      exact ih hnd ha

lemma levels_of_plan {planned : List (List Text) × List (Text × AuthorizedBuild)}
    (h : x.plan jobs = .ok planned) :
    (jobs.map package).Nodup ∧ planned.1.flatten.Perm (jobs.map package) ∧
      Authorizes jobs planned.2 ∧ ∀ pre level aft, planned.1 = pre ++ level :: aft →
        ∀ p ∈ level, ∀ d, DependsWithin jobs p d → d ∈ [] ++ pre.flatten := by
  obtain ⟨_, hun, h⟩ := bind_eq_ok.mp h
  obtain ⟨_, -, h⟩ := bind_eq_ok.mp h
  obtain ⟨lvs, hlvs, h⟩ := bind_eq_ok.mp h
  obtain ⟨authorized, haut, h⟩ := bind_eq_ok.mp h
  cases h
  obtain ⟨hnd, -⟩ := nodup_of_validateUniqueJobs hun
  have hks : ((buildDependencyGraph jobs).map Prod.fst).Perm (jobs.map package) :=
    (perm_ext_iff_of_nodup (nodup_buildDependencyGraph jobs) hnd).mpr
      fun _ => mem_buildDependencyGraph
  obtain ⟨hpe, hrdy⟩ := levelsFrom_spec (by simp) hlvs
  refine ⟨hnd, hpe.trans hks, authorizes_of_authorizeAll haut, ?_⟩
  intro pre level aft heq p hp d hd
  obtain ⟨⟨job, hjob, rfl, hd⟩, hmem⟩ := hd
  have hlk : (buildDependencyGraph jobs).lookup job.package =
      some (job.dependencies.filter (· ∈ jobs.map package)) := by
    rw [buildDependencyGraph, (foldl_insertEntry _).2.2, ← map_reverse]
    refine lookup_map_of_nodup ?_ (mem_reverse.mpr hjob)
    rw [map_reverse]
    exact nodup_reverse.mpr hnd
  have hrdy := hrdy pre level aft heq job.package hp
  rw [isReady, hlk] at hrdy
  have hall : (job.dependencies.filter (· ∈ jobs.map package)).all
      (· ∈ [] ++ pre.flatten) = true := hrdy
  have hfil : d ∈ job.dependencies.filter (· ∈ jobs.map package) :=
    mem_filter.mpr ⟨hd, by simpa using hmem⟩
  simpa using all_eq_true.mp hall d hfil

variable (x jobs) in
def Completed (summary : ParallelBuildSummary) (events : List (BuildEvent A)) : Prop :=
  (jobs.map BuildJob.package).Nodup ∧ ∃ ended skipped, Accounts x ended skipped summary ∧
    ((ended ++ skipped).map BuildJob.package).Perm (jobs.map BuildJob.package) ∧
    (∀ job ∈ ended, job ∈ jobs) ∧ (∀ job ∈ skipped, job ∈ jobs) ∧
    finishedOf events = ended.map fun job => (job.package, x.succeeds job)

lemma satisfies_buildPackages : Runs x jobs (· = []) (x.buildPackages jobs) fun summary events =>
      Completed x jobs summary events := by
  unfold buildPackages
  by_cases hem : jobs.isEmpty = true
  · rw [if_pos hem]
    refine .pure ?_
    rintro w - rfl
    obtain rfl := List.isEmpty_iff.mp hem
    exact ⟨by simp, [], [], accounts_empty, by simp, by simp, by simp, rfl⟩
  · rw [if_neg hem]
    refine .bind (Q := fun planned w => x.plan jobs = .ok planned ∧ w = [])
      (.lift (fun _ _ h _ hw => ⟨h, hw⟩) fun _ _ _ _ _ => trivial) fun planned => ?_
    refine .of_forall fun w _ hw => ?_
    obtain ⟨hpl, rfl⟩ := hw
    obtain ⟨hnd, hp, haut, hdp⟩ := levels_of_plan hpl
    have hpri : Runs x jobs (· = []) x.preacquirePrivileges fun _ events => events = [] := by
      unfold preacquirePrivileges
      split_ifs
      · exact .pure fun w _ hw => hw
      · exact .step (fun _ _ _ => trivial) fun w hord hw => .ok hord hw
    have hst : BetweenWaves x jobs [] [] planned.2 [] := ⟨by simp, by simp, haut, rfl⟩
    refine .bind hpri fun _ => ?_
    refine (Runs.at_events (satisfies_buildLevels hdp accounts_empty) hst).post ?_
    rintro summary w ⟨ended, skipped, hacc, hlvs, hend, hsk, hfin⟩
    exact ⟨hnd, ended, skipped, hacc, hlvs.trans hp, hend, hsk, hfin⟩

lemma eq_of_package (hnd : (jobs.map package).Nodup) {job job' : BuildJob}
    (hjob : job ∈ jobs) (hjob' : job' ∈ jobs) (h : job.package = job'.package) : job = job' :=
  inj_on_of_nodup_map hnd hjob hjob' h

variable (jobs) in
def DisjointOutputs : Prop := jobs.Pairwise fun job job' => job.outputs.Disjoint job'.outputs

lemma eq_of_output (hdj : DisjointOutputs jobs) {job job' : BuildJob} (hjob : job ∈ jobs)
    (hjob' : job' ∈ jobs) {out : Text} (h : out ∈ job.outputs) (h' : out ∈ job'.outputs) :
    job = job' := by
  by_contra hne
  have : Std.Symm fun job job' : BuildJob => job.outputs.Disjoint job'.outputs :=
    ⟨fun _ _ hdj => disjoint_symm hdj⟩
  exact hdj.forall hjob hjob' hne h h'

def ReportedOnce (summary : ParallelBuildSummary) (output : Text) : Prop :=
  (output ∈ summary.succeededOutputs ∧ output ∉ summary.failedOutputs ∧
      output ∉ summary.skippedOutputs) ∨
    (output ∉ summary.succeededOutputs ∧ output ∈ summary.failedOutputs ∧
      output ∉ summary.skippedOutputs) ∨
    (output ∉ summary.succeededOutputs ∧ output ∉ summary.failedOutputs ∧
      output ∈ summary.skippedOutputs)

/-- Whatever builds fail and in whatever order they end, no package is started before its
dependencies within the job set are built and installed. If the run completes then every output is
reported once, and the outputs that are reported as succeeded are those whose build has succeeded.
-/
theorem buildPackages_sound (hdisjoint : DisjointOutputs jobs) (fails : ℕ → Bool) :
    let run := x.buildPackages jobs fails (.start [])
    (∀ events ∈ run.2.states, Ordered x jobs events) ∧
      ∀ summary, run.1 = .ok summary →
        (∀ job ∈ jobs, ∀ out ∈ job.outputs, ReportedOnce summary out) ∧
        ∀ out, out ∈ summary.succeededOutputs ↔
          ∃ job ∈ jobs, out ∈ job.outputs ∧ (job.package, true) ∈ finishedOf run.2.now := by
  have hru : Runs x jobs (· = []) (x.buildPackages jobs) (Completed x jobs) :=
    satisfies_buildPackages
  have hst : ∀ events ∈ (History.start []).states, Ordered x jobs events := by
    simpa using ordered_nil
  obtain ⟨hord, hcom, -⟩ := hru fails (.start []) hst rfl
  refine ⟨hord, fun summary hok => ?_⟩
  obtain ⟨hnd, ended, skipped, hacc, hp, hend, hsk, hfin⟩ := hcom summary hok
  have hsuc : ∀ out, out ∈ summary.succeededOutputs ↔
      ∃ job ∈ ended, x.succeeds job = true ∧ out ∈ job.outputs := by
    simp [hacc.succeeded, and_assoc]
  have hfai : ∀ out, out ∈ summary.failedOutputs ↔
      ∃ job ∈ ended, x.succeeds job = false ∧ out ∈ job.outputs := by
    simp [hacc.failed, and_assoc]
  have hskippedOutput : ∀ out, out ∈ summary.skippedOutputs ↔
      ∃ job ∈ skipped, out ∈ job.outputs := by
    simp [hacc.skipped]
  -- A job is not both ended and skipped, since packages are different.
  have hbo : ∀ job ∈ ended, job ∉ skipped := by
    have hdi := hp.nodup_iff.mpr hnd
    rw [map_append] at hdi
    exact fun job hjob hjob' => disjoint_of_nodup_append hdi
      (mem_map_of_mem hjob) (mem_map_of_mem hjob')
  constructor
  · intro job hjob out hout
    have hsm : ∀ job' ∈ jobs, out ∈ job'.outputs → job' = job := fun job' hjob' hout' =>
      eq_of_output hdisjoint hjob' hjob hout' hout
    have hnotSucceeded : x.succeeds job = false ∨ job ∉ ended → out ∉ summary.succeededOutputs := by
      rintro hca hmem
      obtain ⟨job', hjob', hsu, hout'⟩ := (hsuc out).mp hmem
      obtain rfl := hsm job' (hend job' hjob') hout'
      rcases hca with hfa | hnot
      · rw [hfa] at hsu
        cases hsu
      · exact hnot hjob'
    have hnotFailed : x.succeeds job = true ∨ job ∉ ended → out ∉ summary.failedOutputs := by
      rintro hca hmem
      obtain ⟨job', hjob', hfa, hout'⟩ := (hfai out).mp hmem
      obtain rfl := hsm job' (hend job' hjob') hout'
      rcases hca with hsu | hnot
      · rw [hsu] at hfa
        cases hfa
      · exact hnot hjob'
    have hnotSkipped : job ∉ skipped → out ∉ summary.skippedOutputs := by
      intro hnot hmem
      obtain ⟨job', hjob', hout'⟩ := (hskippedOutput out).mp hmem
      obtain rfl := hsm job' (hsk job' hjob') hout'
      exact hnot hjob'
    obtain ⟨job', hjob', hpk⟩ := mem_map.mp (hp.mem_iff.mpr (mem_map_of_mem hjob))
    rcases mem_append.mp hjob' with hjob' | hjob'
    · obtain rfl := eq_of_package hnd (hend job' hjob') hjob hpk
      cases hsu : x.succeeds job' with
      | true =>
        exact .inl ⟨(hsuc out).mpr ⟨job', hjob', hsu, hout⟩,
          hnotFailed (.inl hsu), hnotSkipped (hbo job' hjob')⟩
      | false =>
        exact .inr (.inl ⟨hnotSucceeded (.inl hsu),
          (hfai out).mpr ⟨job', hjob', hsu, hout⟩, hnotSkipped (hbo job' hjob')⟩)
    · obtain rfl := eq_of_package hnd (hsk job' hjob') hjob hpk
      have hnot : job' ∉ ended := fun hmem => hbo job' hmem hjob'
      exact .inr (.inr ⟨hnotSucceeded (.inr hnot), hnotFailed (.inr hnot),
        (hskippedOutput out).mpr ⟨job', hjob', hout⟩⟩)
  · intro out
    rw [hsuc, hfin]
    constructor
    · rintro ⟨job, hjob, hsu, hout⟩
      exact ⟨job, hend job hjob, hout, mem_map.mpr ⟨job, hjob, by rw [hsu]⟩⟩
    · rintro ⟨job, hjob, hout, hmem⟩
      obtain ⟨job', hjob', heq⟩ := mem_map.mp hmem
      obtain ⟨hpk, hsu⟩ := Prod.mk.inj heq
      obtain rfl := eq_of_package hnd (hend job' hjob') hjob hpk
      exact ⟨job', hjob', hsu, hout⟩

end ParallelBuilder

/-! ### Two waves -/

def sampleBuilder : ParallelBuilder Text where
  maxConcurrent := 0
  validatePackageName _ := .ok ()
  review _ _ := .ok ()
  unattendedReview := false
  canWritePacmanDb := false
  privilegesFault := []
  installFault := []
  build authorized := .ok [authorized.package]
  nextJoined _ _ := 0
  debugTexts _ := []

def sampleJobs : List BuildJob :=
  [⟨"app", ["app", "app-doc"], ["lib", "glibc"]⟩, ⟨"lib", ["lib"], []⟩]

theorem buildPackages_sound_sample : ParallelBuilder.DisjointOutputs sampleJobs ∧
      ∃ summary, (sampleBuilder.buildPackages sampleJobs (fun _ => false) (.start [])).1 =
          .ok summary ∧ ParallelBuilder.ReportedOnce summary "app-doc".toList := by
  have hdj : ParallelBuilder.DisjointOutputs sampleJobs := by
    simp [ParallelBuilder.DisjointOutputs, sampleJobs]
  obtain ⟨-, hrep⟩ := ParallelBuilder.buildPackages_sound hdj fun _ => false
  have hok :
      (sampleBuilder.buildPackages sampleJobs (fun _ => false) (.start [])).1.isOk = true := by
    decide +kernel
  cases hrun : (sampleBuilder.buildPackages sampleJobs (fun _ => false) (.start [])).1 with
  | error e => rw [hrun] at hok; cases hok
  | ok summary => exact ⟨hdj, summary, rfl, (hrep summary hrun).1 _ mem_cons_self _ (by simp)⟩

end Omg.Aur
