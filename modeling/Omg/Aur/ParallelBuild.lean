import Mathlib.Data.Char
import Mathlib.Data.List.Lex
import Mathlib.Data.List.Sort
import Omg.Control.Steps
import Omg.Text.Basic

/-!
# Parallel builds of AUR packages

Package bases are built in waves: a wave has the bases whose dependencies within the job set were
all in earlier waves. Within a wave a number of builds run at a time, a new one is started when one
has ended, and the archives are installed when all have ended. A wave with a failure is the last
one, and the bases of later waves are skipped.

The order in which builds end is a parameter, and so are the results of the builds.

Source: `src/package_managers/aur/parallel_build.rs`, `src/package_managers/aur/client.rs`.
-/

namespace Omg.Aur

open Control Text

structure BuildJob where
  package : Text
  outputs : List Text
  dependencies : List Text

def findJob (jobs : List BuildJob) (package : Text) : Option BuildJob :=
  jobs.find? fun job => job.package = package

structure ParallelBuildSummary where
  succeededOutputs : List Text
  failedOutputs : List Text
  skippedOutputs : List Text
  failures : List (Text × AnyhowError)

namespace ParallelBuildSummary

/-- `ParallelBuildSummary::default`. -/
def empty : ParallelBuildSummary := ⟨[], [], [], []⟩

def recordJobResult (summary : ParallelBuildSummary) (job : BuildJob) :
    Result Unit → ParallelBuildSummary
  | .ok _ => { summary with succeededOutputs := summary.succeededOutputs ++ job.outputs }
  | .error e => { summary with
      failedOutputs := summary.failedOutputs ++ job.outputs
      failures := summary.failures ++ [(job.package, e)] }

def recordSkipped (summary : ParallelBuildSummary) (job : BuildJob) : ParallelBuildSummary :=
  { summary with skippedOutputs := summary.skippedOutputs ++ job.outputs }

def merge (summary other : ParallelBuildSummary) : ParallelBuildSummary where
  succeededOutputs := summary.succeededOutputs ++ other.succeededOutputs
  failedOutputs := summary.failedOutputs ++ other.failedOutputs
  skippedOutputs := summary.skippedOutputs ++ other.skippedOutputs
  failures := summary.failures ++ other.failures

end ParallelBuildSummary

/-- `HashMap::insert`, on the entries of a map. -/
def insertEntry (graph : List (Text × List Text)) (entry : Text × List Text) :
    List (Text × List Text) :=
  graph.filter (fun other => other.1 ≠ entry.1) ++ [entry]

/-- `build_dependency_graph`. -/
def buildDependencyGraph (jobs : List BuildJob) : List (Text × List Text) :=
  (jobs.map fun job => (job.package, job.dependencies.filter (· ∈ jobs.map BuildJob.package))).foldl
    insertEntry []

def isReady (graph : List (Text × List Text)) (satisfied : List Text) (package : Text) : Bool :=
  (graph.lookup package).all fun deps => deps.all (· ∈ satisfied)

def currentLevel (graph : List (Text × List Text)) (remaining satisfied : List Text) : List Text :=
  (remaining.filter (isReady graph satisfied)).insertionSort (· ≤ ·)

/-- The loop of `topological_levels`. A round takes at least one package away. -/
def levelsFrom (graph : List (Text × List Text)) (debugTexts : List Text → Text) :
    ℕ → List Text → List Text → Result (List (List Text))
  | 0, _, _ => .ok []
  | rounds + 1, remaining, satisfied =>
    if remaining = [] then .ok []
    else if currentLevel graph remaining satisfied = [] then
      bail ("Circular dependency detected in AUR packages: " ++
        debugTexts (remaining.take 5))
    else do
      let level := currentLevel graph remaining satisfied
      let later ← levelsFrom graph debugTexts rounds (remaining.filter (· ∉ level))
        (satisfied ++ level)
      pure (level :: later)

/-- `topological_levels`. -/
def topologicalLevels (debugTexts : List Text → Text) (graph : List (Text × List Text)) :
    Result (List (List Text)) :=
  levelsFrom graph debugTexts graph.length (graph.map Prod.fst) []

/-! ### The builder -/

inductive BuildEvent (A : Type)
  | started (package : Text)
  | finished (package : Text) (succeeded : Bool)
  | installed (archives : List A)

structure AuthorizedBuild where
  package : Text
  requestedOutputs : List Text
deriving DecidableEq

/-- `ParallelBuilder`. -/
structure ParallelBuilder (A : Type) where
  maxConcurrent : ℕ
  validatePackageName : Text → Result Unit
  review : Text → List Text → Result Unit
  unattendedReview : Bool
  canWritePacmanDb : Bool
  privilegesFault : AnyhowError
  installFault : AnyhowError
  build : AuthorizedBuild → Result (List A)
  /-- The task that is joined, by the number of the wave and of the tasks joined before. -/
  nextJoined : ℕ → ℕ → ℕ
  /-- `{:?}` of a list of texts. -/
  debugTexts : List Text → Text

abbrev BuildSteps (A : Type) := Steps (List (BuildEvent A)) AnyhowError

/-- The state of `build_level`. A task is known by its number. -/
structure Wave (A : Type) where
  queue : List Text
  nextId : ℕ
  tasks : List (ℕ × AuthorizedBuild)
  inFlightJobs : List (ℕ × BuildJob)
  joined : ℕ
  authorized : List (Text × AuthorizedBuild)
  archives : List A
  summary : ParallelBuildSummary

def missingJobMessage (package : Text) : Text :=
  "Missing build job for package base '" ++ package ++ ['\'']

def missingAuthorizationMessage (package : Text) : Text :=
  "Missing authorization for package base '" ++ package ++ ['\'']

def missingTaskMessage (id : ℕ) : Text :=
  "Missing build job for completed task " ++ decimal id

namespace ParallelBuilder

variable {A : Type} (x : ParallelBuilder A)

/-- `validate_unique_jobs`. -/
def validateUniqueJobs : List Text → List BuildJob → Result Unit
  | _, [] => .ok ()
  | seen, job :: jobs => do
    ensure (job.package ∉ seen)
      ("Duplicate AUR build job for package base '" ++ job.package ++ ['\''])
    validateUniqueJobs (job.package :: seen) jobs

/-- `authorize_package_outputs`. -/
def authorizePackageOutputs (package : Text) (outputs : List Text) :
    Result AuthorizedBuild := do
  x.validatePackageName package
  ensure (outputs ≠ []) ("AUR build plan for '" ++ package ++
    "' has no package outputs")
  outputs.forM x.validatePackageName
  x.review package outputs
  pure ⟨package, outputs⟩

def authorizeAll (jobs : List BuildJob) :
    List Text → Result (List (Text × AuthorizedBuild))
  | [] => .ok []
  | package :: packages => do
    let job ← required (findJob jobs package) (missingJobMessage package)
    let authorized ← x.authorizePackageOutputs job.package job.outputs
    let later ← authorizeAll jobs packages
    pure ((package, authorized) :: later)

def record (event : BuildEvent A) : BuildSteps A Unit :=
  Steps.assign fun events => events ++ [event]

/-- `concurrency_for_level`. -/
def concurrencyForLevel (levelLen : ℕ) : ℕ := min (max x.maxConcurrent 1) levelLen

def Wave.spawn (wave : Wave A) (package : Text) (job : BuildJob) (authorized : AuthorizedBuild) :
    Wave A :=
  { wave with
    nextId := wave.nextId + 1
    tasks := wave.tasks ++ [(wave.nextId, authorized)]
    inFlightJobs := (wave.nextId, job) :: wave.inFlightJobs
    authorized := wave.authorized.filter fun entry => entry.1 ≠ package }

def spawnTasks (jobs : List BuildJob) (concurrency : ℕ) :
    List Text → Wave A → BuildSteps A (Wave A)
  | [], wave => pure { wave with queue := [] }
  | package :: queue, wave =>
    if wave.tasks.length < concurrency then do
      let job ← liftM (required (findJob jobs package) (missingJobMessage package))
      let authorized ← liftM (required (wave.authorized.lookup package)
        (missingAuthorizationMessage package))
      record (.started authorized.package)
      spawnTasks jobs concurrency queue (Wave.spawn wave package job authorized)
    else pure { wave with queue := package :: queue }

def Wave.join (wave : Wave A) (index id : ℕ) (job : BuildJob)
    (result : Result (List A)) : Wave A :=
  { wave with
    tasks := wave.tasks.eraseIdx index
    inFlightJobs := wave.inFlightJobs.filter fun entry => entry.1 ≠ id
    joined := wave.joined + 1
    archives := wave.archives ++ (result.toOption.getD [])
    summary := wave.summary.recordJobResult job (result.map fun _ => ()) }

def joinTask (wave : Wave A) (index : ℕ) (task : ℕ × AuthorizedBuild) :
    BuildSteps A (Wave A) := do
  record (.finished task.2.package (x.build task.2).isOk)
  let job ← liftM (required (wave.inFlightJobs.lookup task.1) (missingTaskMessage task.1))
  pure (Wave.join wave index task.1 job (x.build task.2))

/-- The loop of `build_level`: tasks are spawned and one is joined, until none is in flight. A round
joins a task, so there is one round more than packages. -/
def drain (jobs : List BuildJob) (number concurrency : ℕ) : ℕ → Wave A → BuildSteps A (Wave A)
  | 0, wave => pure wave
  | rounds + 1, wave => do
    let wave ← spawnTasks jobs concurrency wave.queue wave
    let index := x.nextJoined number wave.joined % wave.tasks.length
    match wave.tasks[index]? with
    | none => pure wave
    | some task => do
      let wave ← x.joinTask wave index task
      drain jobs number concurrency rounds wave

def installArchives (archives : List A) : BuildSteps A Unit :=
  if archives.isEmpty then pure ()
  else Steps.step x.installFault fun events => (.ok (), events ++ [.installed archives])

/-- `build_level`, with the authorizations that are left. -/
def buildLevel (jobs : List BuildJob) (number : ℕ) (packages : List Text)
    (authorized : List (Text × AuthorizedBuild)) :
    BuildSteps A (ParallelBuildSummary × List (Text × AuthorizedBuild)) := do
  let wave ← x.drain jobs number (x.concurrencyForLevel packages.length) (packages.length + 1)
    ⟨packages, 0, [], [], 0, authorized, [], .empty⟩
  x.installArchives wave.archives
  pure (wave.summary, wave.authorized)

def skipPackages (jobs : List BuildJob) :
    List Text → ParallelBuildSummary → Result ParallelBuildSummary
  | [], summary => .ok summary
  | package :: packages, summary => do
    let job ← required (findJob jobs package) (missingJobMessage package)
    skipPackages jobs packages (summary.recordSkipped job)

def buildLevels (jobs : List BuildJob) :
    ℕ → List (List Text) → List (Text × AuthorizedBuild) → ParallelBuildSummary →
      BuildSteps A ParallelBuildSummary
  | _, [], _, summary => pure summary
  | number, level :: later, authorized, summary => do
    let built ← x.buildLevel jobs number level authorized
    if 0 < built.1.failedOutputs.length then
      liftM (skipPackages jobs later.flatten (summary.merge built.1))
    else buildLevels jobs (number + 1) later built.2 (summary.merge built.1)

def unattendedMessage : Text :=
  ("AUR PKGBUILD review is enabled, but this session has no interactive terminal. Run in an " ++
    "interactive terminal to review each PKGBUILD, or set aur.review_pkgbuild=false if you " ++
    "accept unreviewed AUR code.").toList

def preacquirePrivileges : BuildSteps A Unit :=
  if x.canWritePacmanDb then pure ()
  else Steps.step x.privilegesFault fun events => (.ok (), events)

def plan (jobs : List BuildJob) :
    Result (List (List Text) × List (Text × AuthorizedBuild)) := do
  validateUniqueJobs [] jobs
  ensure (!x.unattendedReview) unattendedMessage
  let levels ← topologicalLevels x.debugTexts (buildDependencyGraph jobs)
  let authorized ← x.authorizeAll jobs levels.flatten
  pure (levels, authorized)

/-- `build_packages`. -/
def buildPackages (jobs : List BuildJob) : BuildSteps A ParallelBuildSummary :=
  if jobs.isEmpty then pure .empty
  else do
    let planned ← liftM (x.plan jobs)
    x.preacquirePrivileges
    x.buildLevels jobs 1 planned.1 planned.2 .empty

end ParallelBuilder

end Omg.Aur
