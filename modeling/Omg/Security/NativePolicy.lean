import Omg.Control.Except
import Omg.Text.Basic

/-!
# Native package managers under an explicit policy

APT and DNF resolve dependencies themselves, so a policy cannot be enforced on what they finally
install. While an explicit policy is in force, their installations and upgrades are refused.

What the system, the user and the policy files answer during a call are parameters, and the call is
a function of them that gives its result and the commands that it hands to the system.

Source: `src/core/privilege.rs`, `src/core/security/policy.rs`, `src/package_managers/dnf.rs`.
-/

namespace Omg

open Text Control

namespace Path

/-- `Path::is_absolute`. -/
def isAbsolute (path : OsString) : Bool := path.head? = some (.char '/')

/-- The number of `Path::components`: the root, a dot in front, and the parts that are neither empty
nor a dot. -/
def componentCount (path : OsString) : ℕ :=
  (if isAbsolute path || (parts path).head? = some [.char '.'] then 1 else 0) +
    ((parts path).filter fun part => part ≠ [] && part ≠ [.char '.']).length

/-- `Path::join` of a path that is not absolute. -/
def join (directory path : OsString) : OsString := directory ++ .char '/' :: path

end Path

namespace Security

open Text (ensure bail withContext)

inductive ExitStatus
  | code (n : ℕ)
  | signal (n : ℕ)

def ExitStatus.success : ExitStatus → Bool
  | .code 0 => true
  | _ => false

structure NativeCommand where
  program : OsString
  args : List OsString

/-- What is found during a call, with policies of type `P`. -/
structure Surroundings (P : Type) where
  devMode : Bool
  debug : List Text → Text
  inheritedPolicy : Option P
  policyFileExists : Bool
  loadPolicyFile : Result P
  /-- The canonical path of an executable that only root controls. -/
  trustedExecutablePath : OsString → Result OsString
  yes : Bool
  attended : Bool
  /-- Whether `sudo` runs without a password. -/
  sudoValidates : Bool
  authenticate : Except Text Bool
  recordOperation : Text → Result Unit
  status : Except Text ExitStatus

section

variable {P : Type} [Inhabited P] [DecidableEq P] (env : Surroundings P)

def explicitPolicyExists : Bool := env.inheritedPolicy.isSome || env.policyFileExists

def loadDefault : Result P :=
  match env.inheritedPolicy with
  | some policy => .ok policy
  | none => env.loadPolicyFile

def planSupportMessage (backend : Text) : Text := backend ++
  (" cannot enforce an explicit OMG policy on its final dependency transaction; use a backend " ++
    "with prepared-plan policy enforcement").toList

def requireNativePlanSupport (backend : Text) : Result Unit := do
  let policy ← loadDefault env
  ensure (!explicitPolicyExists env && policy = default) (planSupportMessage backend)

lemma requireNativePlanSupport_ne_ok {env : Surroundings P}
    (h : explicitPolicyExists env) (backend : Text) :
    requireNativePlanSupport env backend ≠ .ok () := by
  intro hok
  obtain ⟨pol, -, hens⟩ := bind_eq_ok.mp hok
  simp [h] at hens

/-! ### Programs -/

def systemPath : List Text := ["/usr/sbin", "/usr/bin", "/sbin", "/bin"]

def invalidProgramMessage (program : Text) : Text := "Invalid system program: " ++ program

def noExecutableMessage (program : Text) : Text :=
  "No root-controlled system executable found for " ++ program

def isSystemProgram (program : Text) : Bool :=
  Path.isAbsolute (.ofText program) || Path.componentCount (.ofText program) = 1

def candidates (program : Text) : List OsString :=
  if Path.isAbsolute (.ofText program) then [.ofText program]
  else systemPath.map fun directory => Path.join (.ofText directory) (.ofText program)

def rootControlledProgramPath (program : Text) : Result OsString := do
  ensure (isSystemProgram program) (invalidProgramMessage program)
  match (candidates program).findSome? fun path => (env.trustedExecutablePath path).toOption with
  | some path => return path
  | none => bail (noExecutableMessage program)

def guardedOperations : List Text := ["install", "upgrade", "dist-upgrade", "full-upgrade"]

def isNativeManager (program : Text) : Bool :=
  match (Path.fileName (.ofText program)).bind OsString.toStr with
  | some name => name ∈ ["apt-get".toList, "dnf".toList]
  | none => false

def devModeMessage (program : Text) (args : Text) : Text :=
  ("Privilege elevation not supported in development mode.\n\nOptions:\n" ++
    "• Prime sudo credentials: omg doctor --turbo\n• Run directly with sudo: sudo ").toList ++
    program ++ ' ' :: args

def passwordMessage : Text :=
  ("Privilege elevation requires a password but no interactive terminal is available.\n\n" ++
    "Run 'omg doctor --turbo' interactively to prime sudo credentials,\n" ++
    "and use your administrator-approved sudo policy for automation.").toList

def validationMessage (error : Text) : Text :=
  "Failed to run sudo for credential validation: " ++ error

def authenticationMessage : Text := "sudo authentication failed"

/-- Obtain the right to run `sudo`, by a password if need be. -/
def authenticated : Result Unit :=
  if env.sudoValidates then .ok ()
  else if env.yes || !env.attended then bail passwordMessage
  else
    match env.authenticate with
    | .error error => bail (validationMessage error)
    | .ok success => ensure success authenticationMessage

def underSudoMessage (program error : Text) : Text :=
  "Failed to run " ++ program ++ " under sudo: " ++ error

def describeProgramFailure (program : Text) : ExitStatus → Text
  | .signal n => program ++ " was terminated by signal " ++ decimal n
  | .code n => program ++ " failed with exit code " ++ decimal n

def concluded (failure : ExitStatus → Text) (launchMessage : Text → AnyhowError) : Result Unit :=
  match env.status with
  | .error error => .error (launchMessage error)
  | .ok status => do
    env.recordOperation (if status.success then "succeeded" else "failed")
    if status.success then .ok () else bail (failure status)

def launched (prepared : Result NativeCommand) (conclusion : Result Unit) :
    Result Unit × List NativeCommand :=
  match prepared with
  | .error error => (.error error, [])
  | .ok command => (conclusion, [command])

def guardFirstArgument (program : Text) (args : List Text) : Result Unit :=
  if isNativeManager program && args.head?.any (· ∈ guardedOperations) then
    requireNativePlanSupport env program
  else .ok ()

def privilegedCommand (program : Text) (args : List Text) : Result NativeCommand := do
  ensure (!env.devMode) (devModeMessage program (env.debug args))
  guardFirstArgument env program args
  let programPath ← rootControlledProgramPath env program
  let sudoProgram ← rootControlledProgramPath env "sudo"
  authenticated env
  env.recordOperation "attempt"
  return ⟨sudoProgram, OsString.ofText "-n" :: OsString.ofText "--" :: programPath ::
    args.map OsString.ofText⟩

def runPrivilegedProgram (program : Text) (args : List Text) : Result Unit × List NativeCommand :=
  launched (privilegedCommand env program args)
    (concluded env (describeProgramFailure program) fun error => [underSudoMessage program error])

/-- The first argument that is no option. -/
def operation (args : List Text) : Option Text := args.find? fun arg => arg.head? ≠ some '-'

variable {env} {args : List Text} {program : Text}

/-! ### Refused commands -/

lemma launched_eq_nil {prepared : Result NativeCommand} {conclusion : Result Unit} :
    (launched prepared conclusion).2 = [] ↔ ∀ cmd, prepared ≠ .ok cmd := by
  cases prepared <;> simp [launched]

lemma runPrivilegedProgram_refuses (hpo : explicitPolicyExists env)
    (hman : isNativeManager program) (har : args.head?.any (· ∈ guardedOperations) = true) :
    (runPrivilegedProgram env program args).2 = [] := by
  refine launched_eq_nil.mpr fun cmd hok => ?_
  obtain ⟨-, -, hok⟩ := bind_eq_ok.mp hok
  obtain ⟨_, hgua, -⟩ := bind_eq_ok.mp hok
  rw [guardFirstArgument, hman, har, Bool.and_true] at hgua
  exact requireNativePlanSupport_ne_ok hpo _ hgua

lemma runPrivilegedProgram_of_not_isSystemProgram (hprg : isSystemProgram program = false) :
    (runPrivilegedProgram env program args).2 = [] := by
  refine launched_eq_nil.mpr fun cmd hok => ?_
  obtain ⟨-, -, hok⟩ := bind_eq_ok.mp hok
  obtain ⟨-, -, hok⟩ := bind_eq_ok.mp hok
  obtain ⟨path, hpt, -⟩ := bind_eq_ok.mp hok
  obtain ⟨_, hens, -⟩ := bind_eq_ok.mp hpt
  rw [hprg] at hens
  cases hens

variable (P) in
def permissive : Surroundings P where
  devMode := false
  debug _ := []
  inheritedPolicy := none
  policyFileExists := true
  loadPolicyFile := .ok default
  trustedExecutablePath path := .ok path
  yes := false
  attended := true
  sudoValidates := true
  authenticate := .ok true
  recordOperation _ := .ok ()
  status := .ok (.code 0)

omit [DecidableEq P] in
lemma rootControlledProgramPath_permissive (program : Text) (hprg : isSystemProgram program) :
    ∃ path, rootControlledProgramPath (permissive P) program = .ok path := by
  have hcan : ∃ path rest, candidates program = path :: rest := by
    unfold candidates
    split_ifs
    · exact ⟨_, [], rfl⟩
    · exact ⟨_, _, rfl⟩
  obtain ⟨path, rest, hpt⟩ := hcan
  refine ⟨path, ?_⟩
  unfold rootControlledProgramPath
  rw [hprg, hpt]
  rfl

lemma runPrivilegedProgram_permissive (hprg : isSystemProgram program)
    (har : args.head?.any (· ∈ guardedOperations) = false) :
    (runPrivilegedProgram (permissive P) program args).2 ≠ [] := by
  obtain ⟨path, hpt⟩ := rootControlledProgramPath_permissive (P := P) program hprg
  have hgua : guardFirstArgument (permissive P) program args = .ok () := by
    rw [guardFirstArgument, har, Bool.and_false, if_neg Bool.false_ne_true]
  have hok : ∃ cmd, privilegedCommand (permissive P) program args = .ok cmd := by
    unfold privilegedCommand
    rw [hgua, hpt]
    exact ⟨_, rfl⟩
  obtain ⟨cmd, hcom⟩ := hok
  exact fun hnil => launched_eq_nil.mp hnil cmd hcom

lemma head?_eq_operation (h : args.head?.any (· ∈ guardedOperations) = true) :
    args.head? = operation args := by
  have hopt : ∀ arg ∈ guardedOperations, arg.head? ≠ some '-' := by decide
  cases args with
  | nil => rfl
  | cons arg rest =>
    have harg : arg ∈ guardedOperations := by simpa using h
    simp [operation, hopt arg harg]

end

/-- Of the commands that install or upgrade with APT or DNF, the ones that are never run while an
explicit policy is in force are those with no option in front of the operation, and those whose
program is neither an absolute path nor a name. -/
theorem runPrivilegedProgram_refuses_iff (P : Type) [Inhabited P] [DecidableEq P] (program : Text)
    (args : List Text) (hmanager : isNativeManager program = true)
    (hargs : (operation args).any (· ∈ guardedOperations) = true) :
    (∀ env : Surroundings P, explicitPolicyExists env = true →
        (runPrivilegedProgram env program args).2 = []) ↔
      (args.head? = operation args ∨ isSystemProgram program = false) := by
  constructor
  · intro h
    by_contra hnei
    obtain ⟨hh, hprg⟩ := not_or.mp hnei
    refine runPrivilegedProgram_permissive (by simpa using hprg) ?_ (h (permissive P) rfl)
    exact Bool.eq_false_iff.mpr fun hgua => hh (head?_eq_operation hgua)
  · rintro (hh | hprg) env hpo
    · exact runPrivilegedProgram_refuses hpo hmanager (hh ▸ hargs)
    · exact runPrivilegedProgram_of_not_isSystemProgram hprg

/-- An installation by name, without options in front. -/
theorem runPrivilegedProgram_refuses_iff_install :
    (runPrivilegedProgram (permissive Unit) "apt-get".toList
      ["install".toList, "-y".toList]).2 = [] :=
  (runPrivilegedProgram_refuses_iff Unit "apt-get".toList ["install".toList, "-y".toList]
    (by decide +kernel) (by decide +kernel)).mpr (.inl (by decide +kernel)) (permissive Unit) rfl

/-- With an option in front, an installation is run in the presence of a policy file. -/
theorem exists_unrefused_install : isNativeManager "apt-get".toList = true ∧
    (operation ["-y".toList, "install".toList, "vim".toList]).any (· ∈ guardedOperations) = true ∧
    ∃ env : Surroundings Unit, explicitPolicyExists env = true ∧
      (runPrivilegedProgram env "apt-get".toList
        ["-y".toList, "install".toList, "vim".toList]).2 ≠ [] :=
  ⟨by decide +kernel, by decide +kernel, permissive Unit, rfl,
    runPrivilegedProgram_permissive (by decide +kernel) (by decide +kernel)⟩

end Security

end Omg
