import Mathlib.Data.List.Lex
import Omg.Debian.Version
import Omg.Graph.PostOrder

/-!
# The dependency resolver

The resolver computes the packages to install and to upgrade for a set of selected packages, in
four phases: the dependency closures of the selected packages are walked against the installed
state, the edges of the closure are recorded, the closure is sorted so that dependencies come
first, and the dependencies are checked again against the versions that the plan projects.

A hash map is an association list in which the first entry of a key counts, and the hash set of
selected packages is the list in which it happens to be enumerated.

Source: `src/package_managers/debian_db/resolver.rs`.
-/

namespace Omg.Debian

structure DebianPackage where
  name : Text
  version : Text
  depends : List Text
  size : UInt64
  installedSize : UInt64
deriving DecidableEq

inductive DependencyTarget
  | installed
  | available (name : Text)
deriving DecidableEq

/-- The result of a resolution; `toUpgrade` lists name, old version and new version. -/
structure ResolutionResult where
  toInstall : List Text
  toUpgrade : List (Text × Text × Text)
  toRemove : List Text
  downloadSize : UInt64
  installedSize : UInt64
deriving DecidableEq

/-- The state of the resolver. `selected` is the set of selected packages in the order in which
it is enumerated. -/
structure DependencyResolver where
  available : List (Text × DebianPackage)
  installed : List (Text × Text)
  selected : List Text
  selected_nodup : selected.Nodup
  depGraph : List (Text × List Text)

namespace DependencyResolver

variable (hostArch : Text) (r : DependencyResolver)

/-! ### The walk over a dependency closure -/

def dependencyTarget (dep : Dependency) : Option DependencyTarget :=
  dep.candidates.findSome? fun candidate =>
    if (r.installed.lookup candidate.name).any candidate.accepts then some .installed
    else match r.available.lookup candidate.name with
      | none => none
      | some package =>
        if candidate.accepts package.version then some (.available candidate.name) else none

/-- The name under which `{:?}` prints an operator. -/
def debugOp : VersionOp → Text
  | .eq => "Eq"
  | .ge => "Ge"
  | .gt => "Gt"
  | .le => "Le"
  | .lt => "Lt"

def unsatisfiedMessage (dep : Dependency) : Text :=
  "Cannot satisfy dependency: ".toList ++ dep.name ++
  (if dep.alternatives.isEmpty then []
    else "\n  Tried alternatives: ".toList ++
      List.intercalate ", ".toList (dep.alternatives.map Dependency.name)) ++
  (match dep.versionConstraint with
    | none => []
    | some constraint => " (version: ".toList ++ debugOp constraint.op ++ " ".toList ++
        constraint.version ++ ")".toList) ++
  ("\n💡 This dependency is not available in any enabled repository.\n" ++
    "Try:\n- omg sync (refresh package database)\n" ++
    "- Check that required repositories are enabled\n" ++
    "- Install the dependency manually first").toList

/-- The package that a dependency adds to the walk; `none` when it is installed already. -/
def resolveDependencyTarget (dep : Dependency) : Result (Option Text) :=
  match r.dependencyTarget dep with
  | some .installed => .ok none
  | some (.available name) => .ok (some name)
  | none => Text.bail (unsatisfiedMessage dep)

/-- The dependency of `name` written as `raw`, with the context that the source adds. -/
def parseDependencyOf (name raw : Text) : Result Dependency :=
  Text.withContext
    ("Invalid dependency '" ++ raw ++ "' for package '" ++ name ++ "'")
    (parseDependency hostArch raw)

/-- What the dependency `raw` of `name` adds on top of the stack of the walk. -/
def pushDependency (name : Text) (pushed : List Text) (raw : Text) :
    Result (List Text) := do
  let dependency ← parseDependencyOf hostArch name raw
  let target ← Text.withContext
    ("Cannot satisfy dependency '" ++ raw ++ "' for package '" ++ name ++
      "'")
    (r.resolveDependencyTarget dependency)
  return match target with
    | some dep => dep :: pushed
    | none => pushed

/-- The packages that visiting `name` puts on the stack, the top of the stack first. The source
goes through the dependencies from the last to the first. -/
def expandPackage (name : Text) : Result (List Text) :=
  match r.available.lookup name with
  | none => Text.bail ("Package '" ++ name ++ "' not found in repository")
  | some package => package.depends.reverse.foldlM (r.pushDependency hostArch name) []

def dependsOf (name : Text) : List Text :=
  match r.available.lookup name with
  | none => []
  | some package => package.depends

/-- A bound on the iterations of a walk: every available package and every dependency of it is
popped at most once. -/
def walkBound : ℕ := 1 + ((r.available.map Prod.fst).map fun name =>
  (r.dependsOf name).length + 1).sum

/-- Walk the dependency closure of `name`, given the visited packages and the packages collected
so far. -/
def resolvePackage (name : Text) (visited toInstall : List Text) :
    Result (Graph.Traversal Text) :=
  Graph.run (r.expandPackage hostArch) r.walkBound (Graph.start name visited toInstall)

def resolveClosure (name : Text) : Result (List Text) :=
  match r.resolvePackage hostArch name [] [] with
  | .error e => .error e
  | .ok t => .ok t.finished

def mergeClosure (toInstall closure : List Text) : List Text :=
  closure.foldl (fun acc pkg => if pkg ∈ acc then acc else acc ++ [pkg]) toInstall

def mergeClosures : List (Result (List Text)) → List Text →
    Result (List Text)
  | [], toInstall => .ok toInstall
  | .error e :: _, _ => .error e
  | .ok closure :: results, toInstall => mergeClosures results (mergeClosure toInstall closure)

def collectSequential : Result (List Text) :=
  match Graph.runAll (r.expandPackage hostArch) r.walkBound r.selected [] [] with
  | .error e => .error e
  | .ok (_, toInstall) => .ok toInstall

def collectParallel : Result (List Text) :=
  mergeClosures (r.selected.map (r.resolveClosure hostArch)) []

def collect : Result (List Text) :=
  if r.selected.length > 1 then r.collectParallel hostArch else r.collectSequential hostArch

/-! ### Edges and order -/

/-- The packages that the dependencies of `name` add, as a set. -/
def dependencyEdges (name : Text) (depends : List Text) : Result (List Text) :=
  depends.foldlM (fun edges raw => do
    let dependency ← parseDependencyOf hostArch name raw
    return match r.dependencyTarget dependency with
      | some (.available dep) => if dep ∈ edges then edges else dep :: edges
      | _ => edges) []

/-- `DependencyResolver::record_dependency_edges`. -/
def recordDependencyEdges : List Text → List (Text × List Text) →
    Result Unit × List (Text × List Text)
  | [], graph => (.ok (), graph)
  | name :: packages, graph =>
    if (graph.lookup name).isSome then recordDependencyEdges packages graph
    else match r.available.lookup name with
      | none => recordDependencyEdges packages graph
      | some package =>
        match r.dependencyEdges hostArch name package.depends with
        | .error e => (.error e, graph)
        | .ok edges => recordDependencyEdges packages ((name, edges) :: graph)

inductive Mark
  | visiting
  | ordered
deriving DecidableEq

structure SortState where
  stack : List (Text × Bool)
  states : List (Text × Mark)
  result : List Text

/-- The recorded edges of a package within `packages`, sorted. -/
def sortedDependencies (packages : List Text) (package : Text) : List Text :=
  ((((r.depGraph.lookup package).getD []).filter (· ∈ packages)).insertionSort (· ≤ ·)).dedup

/-- The loop of the topological sort, with a bound on its iterations. A package that is visited
again while it is being visited closes a cycle, which is broken there. -/
def orderLoop (packages : List Text) : ℕ → SortState → SortState
  | 0, s => s
  | n + 1, s =>
    match s.stack with
    | [] => s
    | (package, true) :: rest =>
      if s.states.lookup package = some .visiting then
        orderLoop packages n
          ⟨rest, (package, .ordered) :: s.states, s.result ++ [package]⟩
      else orderLoop packages n ⟨rest, s.states, s.result⟩
    | (package, false) :: rest =>
      match s.states.lookup package with
      | some _ => orderLoop packages n ⟨rest, s.states, s.result⟩
      | none => orderLoop packages n
          ⟨(r.sortedDependencies packages package).map (·, false) ++ (package, true) :: rest,
            (package, .visiting) :: s.states, s.result⟩

def sortedRoots (packages : List Text) : List Text := packages.dedup.insertionSort (· ≤ ·)

def orderBound (packages : List Text) : ℕ := 1 + ((sortedRoots packages).map fun package =>
  (r.sortedDependencies packages package).length + 1).sum

def orderRoot (packages : List Text) (acc : List (Text × Mark) × List Text) (root : Text) :
    List (Text × Mark) × List Text :=
  if acc.1.lookup root = some .ordered then acc
  else
    let s := r.orderLoop packages (r.orderBound packages) ⟨[(root, false)], acc.1, acc.2⟩
    (s.states, s.result)

def topologicalSort (packages : List Text) : List Text :=
  ((sortedRoots packages).foldl (r.orderRoot packages) ([], [])).2

/-! ### The projected state and the plan -/

/-- The installed versions, overwritten with the available versions of `packages`. -/
def projected (packages : List Text) : List (Text × Text) :=
  packages.foldl (fun versions name =>
    match r.available.lookup name with
    | some package => (name, package.version) :: versions
    | none => versions) r.installed

/-- Check one dependency of `name` against the projected versions. -/
def checkProjected (versions : List (Text × Text)) (name raw : Text) :
    Result Unit := do
  let dependency ← parseDependencyOf hostArch name raw
  Text.ensure (dependency.candidates.any (Dependency.metBy (versions.lookup ·)))
    ("Planned version changes leave dependency '" ++ raw ++ "' for package '" ++
      name ++ "' unsatisfied")

def validateProjectedDependencies (packages : List Text) : Result Unit :=
  packages.forM fun name =>
    match r.available.lookup name with
    | none => .ok ()
    | some package =>
      package.depends.forM (checkProjected hostArch (r.projected packages) name)

/-- Add one sorted package to the plan: a package that is installed is upgraded when the
installed version is older, and left alone otherwise. -/
def planPackage (plan : ResolutionResult) (name : Text) : ResolutionResult :=
  match r.available.lookup name with
  | none => plan
  | some pkg =>
    match r.installed.lookup name with
    | some installedVer =>
      if compareDebVersions installedVer pkg.version = .lt then
        { plan with
          toUpgrade := plan.toUpgrade ++ [(name, installedVer, pkg.version)]
          downloadSize := plan.downloadSize + pkg.size
          installedSize := plan.installedSize + pkg.installedSize }
      else plan
    | none =>
      { plan with
        toInstall := plan.toInstall ++ [name]
        downloadSize := plan.downloadSize + pkg.size
        installedSize := plan.installedSize + pkg.installedSize }

def planOf (sorted : List Text) : ResolutionResult :=
  sorted.foldl r.planPackage ⟨[], [], [], 0, 0⟩

/-- What `resolve` does once the packages of the plan are collected. -/
def resolveCollected (collected : Result (List Text)) :
    Result ResolutionResult × DependencyResolver :=
  match collected with
  | .error e => (.error e, r)
  | .ok toInstall =>
    let (recorded, graph) := r.recordDependencyEdges hostArch toInstall r.depGraph
    let r' := { r with depGraph := graph }
    match recorded with
    | .error e => (.error e, r')
    | .ok () =>
      let sorted := r'.topologicalSort toInstall
      match r'.validateProjectedDependencies hostArch sorted with
      | .error e => (.error e, r')
      | .ok () => (.ok (r'.planOf sorted), r')

def resolve : Result ResolutionResult × DependencyResolver :=
  r.resolveCollected hostArch (r.collect hostArch)

end DependencyResolver

end Omg.Debian
