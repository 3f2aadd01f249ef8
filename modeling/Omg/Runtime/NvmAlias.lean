import Omg.Runtime.Extract
import Omg.Text.Paragraphs

/-!
# The aliases of nvm

An alias is a file that names another alias or a version. The walk reads at most 64 files, each
below the alias directory, and ends at a name without a file.

What the file system answers does not change during a walk and is otherwise arbitrary. Only the
kinds of error that the walk tells apart are kept.

Source: `src/core/runtime_resolver.rs`.
-/

namespace Omg.Runtime

open Fs List Text

inductive IoErrorKind where
  | notFound
  | notADirectory
  | other
deriving DecidableEq

/-- Why the file of an alias cannot be used. -/
inductive AliasFailure where
  | escape
  | io (context : Option Text) (kind : IoErrorKind)
  | unreadable (context : Text) (error : AnyhowError)
deriving DecidableEq

inductive NvmAliasError where
  | invalidPath (name : Text)
  | cycle (name : Text)
  | tooDeep
  | failure (failure : AliasFailure)
deriving DecidableEq

/-- An absolute path, as the names of its components. -/
abbrev NamePath := List OsString

structure AliasDisk where
  canonicalize : NamePath → Except IoErrorKind NamePath
  isDir : NamePath → Bool
  symlinkMetadata : NamePath → Except IoErrorKind Unit
  readBoundedRegularFile : NamePath → Result (Option Text)

/-- `validate`: the alias is a relative path of plain names. -/
def isValidAlias (name : Text) : Bool :=
  name ≠ [] && (components (OsString.ofText name)).all fun
    | .normal _ => true
    | _ => false

def aliasNames (name : Text) : NamePath :=
  (components (OsString.ofText name)).filterMap fun
    | .normal name => some name
    | _ => none

/-- The first line that is not empty without its comment. -/
def aliasTarget (content : Text) : Option Text :=
  ((strLines content).map fun line => trim (line.takeWhile (· ≠ '#'))).find? (· ≠ [])

section

variable (disk : AliasDisk) (root : NamePath)

/-- Whether the alias is that of the default LTS version, in the file `lts/*`. -/
def isDefaultLts (name : Text) : Bool := name = "lts" && disk.isDir (root ++ aliasNames name)

/-- The file of an alias. A separator or a dot at the end of the alias is dropped, while `root.join`
keeps it and such a path of a file is not found. -/
def aliasCandidate (name : Text) : NamePath :=
  root ++ aliasNames name ++ if isDefaultLts disk root name then [[.char '*']] else []

def displayCandidate (name : Text) : Text :=
  root.flatMap (fun part => '/' :: part.toStringLossy) ++ '/' :: name ++
    if isDefaultLts disk root name then "/*".toList else []

/-- What there is for an alias: no file, or a failure, or a file without a line, or one with the
next alias. A file that was opened is kept. -/
inductive AliasLookup where
  | missing
  | failed (read : Option NamePath) (failure : AliasFailure)
  | empty (read : NamePath)
  | target (read : NamePath) (next : Text)

open AliasLookup

def AliasLookup.reads : AliasLookup → List NamePath
  | .missing => []
  | .failed read _ => read.toList
  | .empty read | .target read _ => [read]

def lookupAlias (name : Text) : AliasLookup :=
  let path := displayCandidate disk root name
  match disk.symlinkMetadata (aliasCandidate disk root name) with
  | .error .notFound => .missing
  | .error kind => .failed none (.io (some ("Failed to inspect nvm alias " ++ path)) kind)
  | .ok () =>
    match disk.canonicalize (aliasCandidate disk root name) with
    | .error kind => .failed none (.io (some ("Failed to resolve nvm alias " ++ path)) kind)
    | .ok canonical =>
      if ¬ root <+: canonical then .failed none .escape
      else match disk.readBoundedRegularFile canonical with
        | .error error => .failed (some canonical)
            (.unreadable ("Failed to read nvm alias " ++ path) error)
        | .ok none => .empty canonical
        | .ok (some content) =>
          match aliasTarget content with
          | none => .empty canonical
          | some next => .target canonical next

/-- The result at an alias without a file. `seen` holds the aliases before; the flag
`resolved_alias` of the source is set exactly when there are any. -/
def endOfChain (seen : List Text) (current : Text) : Option Text :=
  if seen = [] then none else some current

/-- `n` iterations of the loop, with the files that are read. -/
def follow : ℕ → List Text → Text → Except NvmAliasError (Option Text) × List NamePath
  | 0, _, _ => (.error .tooDeep, [])
  | n + 1, seen, current =>
    if !isValidAlias current then (.error (.invalidPath current), [])
    else if seen.contains current then (.error (.cycle current), [])
    else match lookupAlias disk root current with
      | .missing => (.ok (endOfChain seen current), [])
      | .failed read failure => (.error (.failure failure), read.toList)
      | .empty read => (.ok none, [read])
      | .target read next =>
        ((follow n (current :: seen) next).1, read :: (follow n (current :: seen) next).2)

end

/-- The alias directory, if there is one. -/
def aliasRoot (disk : AliasDisk) (nvmDir : NamePath) : Except AliasFailure (Option NamePath) :=
  match disk.canonicalize (nvmDir ++ [OsString.ofText "alias"]) with
  | .error .notFound => .ok none
  | .error kind => .error (.io (some "Failed to resolve nvm alias directory") kind)
  | .ok root =>
    match disk.canonicalize nvmDir with
    | .error kind => .error (.io none kind)
    | .ok home => if home <+: root then .ok (some root) else .error .escape

/-- The result, and the files that are read. -/
def resolveNvmAlias (disk : AliasDisk) (nvmDir : NamePath) (name : Text) :
    Except NvmAliasError (Option Text) × List NamePath :=
  if !isValidAlias name then (.error (.invalidPath name), [])
  else match aliasRoot disk nvmDir with
    | .error failure => (.error (.failure failure), [])
    | .ok none => (.ok none, [])
    | .ok (some root) => follow disk root 64 [] name

/-! ### The walk -/

section

variable {disk : AliasDisk} {root : NamePath} {n : ℕ} {seen : List Text} {name v : Text}

/-- From `name` through the aliases of the list to `last`, each replaced by the line of its file. -/
def Walk (disk : AliasDisk) (root : NamePath) : Text → List Text → Text → Prop
  | name, [], last => name = last
  | name, x :: names, last => x = name ∧ ∃ read next,
      lookupAlias disk root name = .target read next ∧ Walk disk root next names last

lemma of_mem_reads {name : Text} {path : NamePath}
    (h : path ∈ (lookupAlias disk root name).reads) : root <+: path := by
  unfold lookupAlias at h
  repeat' split at h
  all_goals simp_all [AliasLookup.reads]

lemma follow_reads : ∀ (n : ℕ) (seen : List Text) (name : Text),
    (follow disk root n seen name).2.length ≤ n ∧
      ∀ path ∈ (follow disk root n seen name).2, root <+: path
  | 0, _, _ => by simp [follow]
  | n + 1, seen, name => by
    have hrds : ∀ path ∈ (lookupAlias disk root name).reads, root <+: path := fun _ => of_mem_reads
    unfold follow
    split_ifs
    · simp
    · simp
    · cases hlk : lookupAlias disk root name with
      | missing => simp
      | failed read failure => cases read <;> simp_all [AliasLookup.reads]
      | empty read => simp_all [AliasLookup.reads]
      | target read next =>
        obtain ⟨hlen, hro⟩ := follow_reads n (name :: seen) next
        simp_all [AliasLookup.reads]

lemma follow_of_target {read : NamePath} {next : Text} (hv : isValidAlias name)
    (hsn : name ∉ seen) (h : lookupAlias disk root name = .target read next) :
    (follow disk root (n + 1) seen name).1 = (follow disk root n (name :: seen) next).1 := by
  simp [follow, hv, hsn, h]

/-- Where the walk does not go on, one iteration decides. -/
lemma follow_eq_follow_one (h : isValidAlias name → name ∉ seen →
      ∀ read next, lookupAlias disk root name ≠ .target read next) :
    (follow disk root (n + 1) seen name).1 = (follow disk root 1 seen name).1 := by
  unfold follow
  split_ifs with hv hsn
  · rfl
  · rfl
  · cases hlk : lookupAlias disk root name with
    | target read next => exact absurd hlk (h (by simpa using hv) (by simpa using hsn) _ _)
    | _ => rfl

/-- **How the loop ends.** Some walk through distinct valid aliases leads to the place where it
stops. -/
lemma follow_eq_iff {r : Except NvmAliasError (Option Text)} (hr : r ≠ .error .tooDeep) :
    (follow disk root n seen name).1 = r ↔ ∃ ns last, Walk disk root name ns last ∧
      ns.length < n ∧ ns.Nodup ∧ (∀ x ∈ ns, isValidAlias x ∧ x ∉ seen) ∧
      (follow disk root 1 (ns.reverse ++ seen) last).1 = r := by
  induction n generalizing seen name with
  | zero => simp [follow, hr.symm]
  | succ n ih =>
    by_cases hgo : ∃ read next, isValidAlias name = true ∧ name ∉ seen ∧
        lookupAlias disk root name = .target read next
    · obtain ⟨read, next, hv, hsn, hlk⟩ := hgo
      have hsto : (follow disk root 1 seen name).1 ≠ r := by
        rw [follow_of_target hv hsn hlk]
        exact hr.symm
      rw [follow_of_target hv hsn hlk, ih]
      constructor
      · rintro ⟨ns, last, hwk, hlen, hnd, hall, hend⟩
        refine ⟨name :: ns, last, ⟨rfl, read, next, hlk, hwk⟩, by simpa using hlen,
          nodup_cons.mpr ⟨fun hmem => (hall name hmem).2 mem_cons_self, hnd⟩, ?_,
            by simpa using hend⟩
        exact forall_mem_cons.mpr ⟨⟨hv, hsn⟩, fun x hx =>
          ⟨(hall x hx).1, fun h => (hall x hx).2 (mem_cons_of_mem _ h)⟩⟩
      · rintro ⟨_ | ⟨x, ns⟩, last, hwk, hlen, hnd, hall, hend⟩
        · obtain rfl : name = last := hwk
          exact absurd hend hsto
        · obtain ⟨rfl, read', next', hlk', hwk⟩ := hwk
          obtain ⟨rfl, rfl⟩ : read = read' ∧ next = next' := by simpa [hlk] using hlk'
          obtain ⟨hx, hnd⟩ := nodup_cons.mp hnd
          refine ⟨ns, last, hwk, by simpa using hlen, hnd, fun y hy => ?_, by simpa using hend⟩
          obtain ⟨hy₁, hy₂⟩ := hall y (mem_cons_of_mem _ hy)
          exact ⟨hy₁, fun h => (mem_cons.mp h).elim (fun h => hx (h ▸ hy)) hy₂⟩
    · rw [follow_eq_follow_one fun hv hsn read next h => hgo ⟨read, next, hv, hsn, h⟩]
      constructor
      · exact fun h => ⟨[], name, rfl, by simp, nodup_nil, by simp, h⟩
      · rintro ⟨_ | ⟨x, ns⟩, last, hwk, -, -, hall, hend⟩
        · obtain rfl : name = last := hwk
          exact hend
        · obtain ⟨rfl, read, next, hlk, -⟩ := hwk
          obtain ⟨hv, hsn⟩ := hall x mem_cons_self
          exact absurd ⟨read, next, hv, hsn, hlk⟩ hgo

lemma follow_one_eq_some_iff : (follow disk root 1 seen name).1 = .ok (some v) ↔
    name = v ∧ isValidAlias name ∧
      (v ∉ seen ∧ lookupAlias disk root v = .missing ∧ seen ≠ []) := by
  cases hv : isValidAlias name <;> by_cases hsn : name ∈ seen <;>
    simp only [follow, hv, hsn, contains_iff_mem] <;>
    cases hlk : lookupAlias disk root name <;> by_cases hnil : seen = [] <;>
    simp [endOfChain, hnil] <;> rintro rfl <;> simp_all

lemma follow_one_eq_cycle_iff : (follow disk root 1 seen name).1 = .error (.cycle v) ↔
    name = v ∧ isValidAlias name ∧ v ∈ seen := by
  cases hv : isValidAlias name <;> by_cases hsn : name ∈ seen <;>
    simp only [follow, hv, hsn, contains_iff_mem] <;>
    cases hlk : lookupAlias disk root name <;> simp <;> rintro rfl <;> simp_all

/-- The walk from `name` through `names` to `last` is one the loop can take. -/
structure Followed (disk : AliasDisk) (root : NamePath) (name : Text) (names : List Text)
    (last : Text) : Prop where
  walk : Walk disk root name names last
  length_le : names.length ≤ 63
  nodup : names.Nodup
  valid : ∀ x ∈ names ++ [last], isValidAlias x = true

lemma follow_eq_iff_followed {r : Except NvmAliasError (Option Text)} (hr : r ≠ .error .tooDeep)
    {P : List Text → Prop} (hP : ∀ seen last, (follow disk root 1 seen last).1 = r ↔
      last = v ∧ isValidAlias last ∧ P seen) : (follow disk root 64 [] name).1 = r ↔
      ∃ ns, Followed disk root name ns v ∧ P ns.reverse := by
  rw [follow_eq_iff hr]
  constructor
  · rintro ⟨ns, last, hwk, hlen, hnd, hall, hend⟩
    rw [append_nil, hP] at hend
    obtain ⟨rfl, hv, hla⟩ := hend
    refine ⟨ns, ⟨hwk, Nat.lt_succ_iff.mp hlen, hnd, fun x hx => ?_⟩, hla⟩
    rcases mem_append.mp hx with hx | hx
    · exact (hall x hx).1
    · rwa [mem_singleton.mp hx]
  · rintro ⟨ns, ⟨hwk, hlen, hnd, hv⟩, hla⟩
    refine ⟨ns, v, hwk, Nat.lt_succ_of_le hlen, hnd,
      fun x hx => ⟨hv x (mem_append_left _ hx), not_mem_nil⟩, ?_⟩
    rw [append_nil, hP]
    exact ⟨rfl, hv v (by simp), hla⟩

end

variable (disk : AliasDisk) (nvmDir : NamePath) (name : Text)

lemma resolveNvmAlias_of_aliasRoot {root : NamePath} (h : aliasRoot disk nvmDir = .ok (some root)) :
    resolveNvmAlias disk nvmDir name = follow disk root 64 [] name := by
  unfold resolveNvmAlias
  split_ifs with hv
  · simp [follow, hv]
  · rw [h]

lemma resolveNvmAlias_of_not_aliasRoot (h : ∀ root, aliasRoot disk nvmDir ≠ .ok (some root)) :
    (resolveNvmAlias disk nvmDir name).2 = [] ∧
      (∀ v, (resolveNvmAlias disk nvmDir name).1 ≠ .ok (some v)) ∧
      ∀ v, (resolveNvmAlias disk nvmDir name).1 ≠ .error (.cycle v) := by
  cases hv : isValidAlias name <;> rcases hro : aliasRoot disk nvmDir with _ | _ | root <;>
    simp_all [resolveNvmAlias]

/-- The alias directory of the next lemma: `a` names `b/c`, and `b` is a file. -/
def fileBelowFile : AliasDisk where
  canonicalize := .ok
  isDir _ := false
  symlinkMetadata path :=
    if path.getLast? = some (OsString.ofText ['c']) then .error .notADirectory else .ok ()
  readBoundedRegularFile _ := .ok (some "b/c")

end Omg.Runtime
