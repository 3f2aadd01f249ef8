import Mathlib.Data.Char
import Mathlib.Data.List.Lex
import Omg.Control.Except
import Omg.Graph.Kahn
import Omg.Text.Paragraphs

/-!
# Planning a removal

The planner reads the status file of dpkg, refuses to remove packages on which other installed
packages depend, and orders the requested packages so that dependents come before what they depend
on.

Source: `src/package_managers/debian_db/transaction.rs`, `src/package_managers/debian_db/db.rs`.
-/

namespace Omg.Debian

open List Text Relation Omg.Graph

/-! ### Reading the status file -/

structure InstalledRemovalPackage where
  essential : Bool
  isProtected : Bool
  dependencyGroups : List (List Text)
  deriving DecidableEq

def alternativeName (alternative : Text) : Option Text :=
  ((splitWhitespace alternative).head?.map fun word => word.takeWhile (· ≠ ':')).filter (· ≠ [])

def appendRemovalDependencyGroups (value : Text) : List (List Text) :=
  ((value.splitOn ',').map fun group =>
    (group.splitOn '|').filterMap alternativeName).filter (· ≠ [])

structure RemovalParagraph where
  name : Option Text
  info : InstalledRemovalPackage
  readingDependencies : Bool

def RemovalParagraph.start : RemovalParagraph := ⟨none, ⟨false, false, []⟩, false⟩

namespace RemovalParagraph

def addGroups (p : RemovalParagraph) (value : Text) : RemovalParagraph :=
  { p with info := { p.info with
      dependencyGroups := p.info.dependencyGroups ++
        appendRemovalDependencyGroups (trim value) } }

def readField (p : RemovalParagraph) (line : Text) : RemovalParagraph :=
  let p := { p with readingDependencies := false }
  match stripPrefix "Package:" line, stripPrefix "Essential:" line,
      stripPrefix "Protected:" line,
      (stripPrefix "Depends:" line).or
        (stripPrefix "Pre-Depends:" line) with
  | some value, _, _, _ => { p with name := some (trim value) }
  | none, some value, _, _ => { p with info := { p.info with
      essential := eqIgnoreAsciiCase (trim value) "yes" } }
  | none, none, some value, _ => { p with info := { p.info with
      isProtected := eqIgnoreAsciiCase (trim value) "yes" } }
  | none, none, none, some value => { p with readingDependencies := true }.addGroups value
  | none, none, none, none => p

def readLine (p : RemovalParagraph) (line : Text) : RemovalParagraph :=
  if startsWithAny [' ', '\t'] line then
    if p.readingDependencies then p.addGroups line else p
  else p.readField line

end RemovalParagraph

def readRemovalParagraph (paragraph : Text) : RemovalParagraph :=
  (strLines paragraph).foldl RemovalParagraph.readLine .start

def hasInstalledLine (paragraph : Text) : Bool :=
  "Status: install ok installed" ∈ strLines paragraph

def addRemovalParagraph (installed : List (Text × InstalledRemovalPackage)) (paragraph : Text) :
    List (Text × InstalledRemovalPackage) :=
  if hasInstalledLine paragraph then
    match (readRemovalParagraph paragraph).name with
    | some name => (name, (readRemovalParagraph paragraph).info) :: installed
    | none => installed
  else installed

def installedForRemoval (status : Text) : List (Text × InstalledRemovalPackage) :=
  (splitBlank status).foldl addRemovalParagraph []

section

variable (installed : List (Text × InstalledRemovalPackage)) (requested : List Text)

def checkRequested (name : Text) : Result Unit :=
  match installed.lookup name with
  | none => bail (name ++ " is not installed")
  | some info => ensure (!info.essential && !info.isProtected)
      ("Refusing to remove protected Debian package '" ++ name ++ "'")

def groupBlocks (alternatives : List Text) : Bool :=
  alternatives.any (· ∈ requested) &&
    !alternatives.any fun name => (installed.lookup name).isSome && decide (name ∉ requested)

def removalBlockers : List Text :=
  ((installed.map Prod.fst).dedup.filter fun dependent =>
    decide (dependent ∉ requested) &&
      (installed.lookup dependent).any fun info =>
        info.dependencyGroups.any (groupBlocks installed requested)).insertionSort (· ≤ ·)

def removalDependencies (name : Text) : List Text :=
  ((((installed.lookup name).map fun info => info.dependencyGroups.flatten).getD []).filter
    (· ∈ requested)).dedup.insertionSort (· ≤ ·)

def removalOrder : List Text :=
  let ordered := Graph.kahnOrder requested (removalDependencies installed requested)
  if ordered.length ≠ requested.length then
    ordered ++ (requested.filter (· ∉ ordered)).insertionSort (· ≤ ·)
  else ordered

end

def planDebianRemoval (status : Text) (requested : List Text) : Result (List Text) := do
  let installed := installedForRemoval status
  let requested := requested.dedup
  requested.forM (checkRequested installed)
  let blockers := removalBlockers installed requested
  ensure blockers.isEmpty
    ("Cannot remove requested packages because these installed packages depend on them: " ++
      List.intercalate ", " blockers)
  return removalOrder installed requested

/-! ### How the rest of the package manager reads a paragraph -/

def statusParagraphIsInstalled (paragraph : Text) : Bool :=
  match (strLines paragraph).findSome? (stripPrefix "Status:") with
  | none => false
  | some status =>
    match splitWhitespace status with
    | [_, ok, installed] => ok == "ok" && installed == "installed"
    | _ => false

/-- The variables of the loop of `status_dependency_names`; the names are kept in their groups. -/
structure UnfoldedFields where
  value : Text
  selected : Bool
  groups : List (List Text)

namespace UnfoldedFields

def finish (f : UnfoldedFields) : UnfoldedFields :=
  if f.selected then ⟨[], false, f.groups ++ appendRemovalDependencyGroups f.value⟩
  else { f with selected := false }

def readField (f : UnfoldedFields) (line : Text) : UnfoldedFields :=
  match splitOnce ':' line with
  | none => f
  | some (name, contents) =>
    if eqIgnoreAsciiCase name "Depends" ||
        eqIgnoreAsciiCase name "Pre-Depends" then
      { f with selected := true, value := f.value ++ trim contents }
    else f

def readLine (f : UnfoldedFields) (line : Text) : UnfoldedFields :=
  if startsWithAny [' ', '\t'] line then
    if f.selected then { f with value := f.value ++ ' ' :: trim line } else f
  else f.finish.readField line

end UnfoldedFields

def statusDependencyGroups (paragraph : Text) : List (List Text) :=
  ((strLines paragraph).foldl UnfoldedFields.readLine ⟨[], false, []⟩).finish.groups

/-! ### The order -/

variable {status : Text} {requested order : List Text}

/-- A paragraph of an installed package, for the planner or for the rest of the package manager. -/
def IsInstalledParagraph (paragraph : Text) : Prop :=
  hasInstalledLine paragraph = true ∨ statusParagraphIsInstalled paragraph = true

/-- The alternatives of the dependencies of a paragraph, as the planner or as the rest of the
package manager reads them. -/
def ListsAlternative (paragraph p : Text) : Prop :=
  p ∈ (readRemovalParagraph paragraph).info.dependencyGroups.flatten ∨
    p ∈ (statusDependencyGroups paragraph).flatten

/-- An installed paragraph of the requested `d` lists the requested `p`. -/
def RemovalEdge (status : Text) (requested : List Text) (d p : Text) : Prop :=
  d ∈ requested ∧ p ∈ requested ∧ ∃ paragraph ∈ splitBlank status,
    IsInstalledParagraph paragraph ∧ (readRemovalParagraph paragraph).name = some d ∧
      ListsAlternative paragraph p

/-- What an installed paragraph of a requested package lists among the requested packages stands, as
the planner reads it, in every paragraph of that package that the planner takes. -/
def ListsAlike (status : Text) (requested : List Text) : Prop :=
  ∀ d p, RemovalEdge status requested d p → ∀ paragraph ∈ splitBlank status,
    hasInstalledLine paragraph = true → (readRemovalParagraph paragraph).name = some d →
      p ∈ (readRemovalParagraph paragraph).info.dependencyGroups.flatten

/-! The planner has the last one of the paragraphs of a name. -/

def plannerInfo (name paragraph : Text) : Option InstalledRemovalPackage :=
  if hasInstalledLine paragraph = true ∧ (readRemovalParagraph paragraph).name = some name then
    some (readRemovalParagraph paragraph).info
  else none

lemma lookup_installedForRemoval (status name : Text) : (installedForRemoval status).lookup name =
    (splitBlank status).reverse.findSome? (plannerInfo name) := by
  unfold installedForRemoval
  induction splitBlank status using List.reverseRecOn with
  | nil => rfl
  | append_singleton paragraphs paragraph ih =>
    rw [foldl_append, foldl_cons, foldl_nil, reverse_append, reverse_singleton, singleton_append,
      findSome?_cons, ← ih, addRemovalParagraph, plannerInfo]
    by_cases hline : hasInstalledLine paragraph = true
    · cases hname : (readRemovalParagraph paragraph).name with
      | none => simp [hline]
      | some other =>
        by_cases heq : name = other
        · subst heq
          simp [hline, lookup_cons_self]
        · simp [hline, lookup_cons, beq_eq_false_iff_ne.mpr heq, Ne.symm heq]
    · simp [hline]

lemma exists_paragraph_of_lookup {name : Text} {info : InstalledRemovalPackage}
    (h : (installedForRemoval status).lookup name = some info) :
    ∃ paragraph ∈ splitBlank status, hasInstalledLine paragraph = true ∧
      (readRemovalParagraph paragraph).name = some name ∧
      (readRemovalParagraph paragraph).info = info := by
  rw [lookup_installedForRemoval] at h
  obtain ⟨paragraph, hmem, hinfo⟩ := exists_of_findSome?_eq_some h
  unfold plannerInfo at hinfo
  split_ifs at hinfo with hseen
  exact ⟨paragraph, mem_reverse.mp hmem, hseen.1, hseen.2, Option.some.inj hinfo⟩

lemma exists_lookup_of_paragraph {name paragraph : Text} (hmem : paragraph ∈ splitBlank status)
    (hline : hasInstalledLine paragraph = true)
    (hname : (readRemovalParagraph paragraph).name = some name) :
    ∃ info, (installedForRemoval status).lookup name = some info := by
  rw [lookup_installedForRemoval]
  refine Option.isSome_iff_exists.mp (findSome?_isSome_iff.mpr
    ⟨paragraph, mem_reverse.mpr hmem, ?_⟩)
  simp [plannerInfo, hline, hname]

lemma checkRequested_ok {installed : List (Text × InstalledRemovalPackage)} {name : Text}
    (h : checkRequested installed name = .ok ()) : ∃ info, installed.lookup name = some info := by
  unfold checkRequested at h
  cases hlookup : installed.lookup name with
  | none => simp [hlookup, bail] at h
  | some info => exact ⟨info, rfl⟩

lemma planDebianRemoval_ok (h : planDebianRemoval status requested = .ok order) :
    (∀ name ∈ requested, ∃ info, (installedForRemoval status).lookup name = some info) ∧
      removalBlockers (installedForRemoval status) requested.dedup = [] ∧
      order = removalOrder (installedForRemoval status) requested.dedup := by
  obtain ⟨_, hchecked, h⟩ := Control.bind_eq_ok.mp h
  obtain ⟨_, hblocked, h⟩ := Control.bind_eq_ok.mp h
  rw [ensure_eq_ok, List.isEmpty_iff] at hblocked
  refine ⟨fun name hname => ?_, hblocked, (Except.ok.inj h).symm⟩
  exact checkRequested_ok (Control.forM_eq_ok_iff.mp hchecked name (mem_dedup.mpr hname))

lemma mem_removalDependencies {installed : List (Text × InstalledRemovalPackage)} {d p : Text} :
    p ∈ removalDependencies installed requested d ↔ p ∈ requested ∧
        ∃ info, installed.lookup d = some info ∧ p ∈ info.dependencyGroups.flatten := by
  rw [removalDependencies, mem_insertionSort, mem_dedup, mem_filter]
  cases installed.lookup d with
  | none => simp
  | some info => simp [and_comm]

lemma nodup_removalDependencies (installed : List (Text × InstalledRemovalPackage)) (d : Text) :
    (removalDependencies installed requested d).Nodup :=
  (perm_insertionSort _ _).nodup_iff.mpr (nodup_dedup _)

/-- The edges of the planner are those of the status text. -/
lemma succEdge_eq (h : planDebianRemoval status requested = .ok order)
    (halike : ListsAlike status requested) : Graph.SuccEdge requested.dedup
        (removalDependencies (installedForRemoval status) requested.dedup) =
      RemovalEdge status requested := by
  funext d p
  rw [Graph.SuccEdge, mem_removalDependencies, mem_dedup, mem_dedup]
  refine propext ⟨?_, fun hedge => ?_⟩
  · rintro ⟨hd, hp, info, hlookup, hmem⟩
    obtain ⟨paragraph, hpar, hline, hname, rfl⟩ := exists_paragraph_of_lookup hlookup
    exact ⟨hd, hp, paragraph, hpar, .inl hline, hname, .inl hmem⟩
  · obtain ⟨info, hlookup⟩ := (planDebianRemoval_ok h).1 d hedge.1
    obtain ⟨paragraph, hpar, hline, hname, rfl⟩ := exists_paragraph_of_lookup hlookup
    exact ⟨hedge.1, hedge.2.1, _, hlookup, halike d p hedge paragraph hpar hline hname⟩

lemma removalOrder_eq {installed : List (Text × InstalledRemovalPackage)} {nds : List Text}
    (hnos : nds.Nodup) : removalOrder installed nds =
      kahnOrder nds (removalDependencies installed nds) ++ (nds.filter
          (· ∉ kahnOrder nds (removalDependencies installed nds))).insertionSort (· ≤ ·) := by
  obtain ⟨hnd, hmem, -, -⟩ := kahnOrder_spec hnos (nodup_removalDependencies installed)
    fun _ _ _ hb => (mem_removalDependencies.mp hb).1
  unfold removalOrder
  dsimp only
  split_ifs with hlen
  · rfl
  · -- If all packages are ordered then nothing is left.
    have hall : ∀ x ∈ nds, x ∈ kahnOrder nds (removalDependencies installed nds) := by
      have hp := (hnd.subperm hmem).perm_of_length_le (by omega)
      exact fun x hx => hp.mem_iff.mpr hx
    have hnil : nds.filter (· ∉ kahnOrder nds (removalDependencies installed nds)) = [] := by
      rw [filter_eq_nil_iff]
      intro x hx
      simpa using hall x hx
    rw [hnil, insertionSort_nil, append_nil]

def cyclicStatus : Text :=
  ("Package: a\nStatus: install ok installed\n\n" ++
    "Package: b\nStatus: install ok installed\nDepends: a, c\n\n" ++
    "Package: c\nStatus: install ok installed\nDepends: b\n").toList

def simpleStatus : Text :=
  ("Package: app\nStatus: install ok installed\nDepends: lib (>= 1) | other\n\n" ++
    "Package: lib\nStatus: install ok installed\n\n" ++
    "Package: other\nStatus: install ok installed\n").toList

/-- The packages of `simpleStatus`, with the groups that both readers find. -/
lemma simpleStatus_groups : ∀ paragraph ∈ splitBlank simpleStatus,
    hasInstalledLine paragraph = true ∧ statusParagraphIsInstalled paragraph = true ∧
      statusDependencyGroups paragraph =
        (readRemovalParagraph paragraph).info.dependencyGroups ∧
      statusDependencyGroups paragraph =
        if (readRemovalParagraph paragraph).name = some "app".toList then
          [["lib".toList, "other".toList]] else [] := by
  decide +kernel

def InstalledName (status : Text) (name : Text) : Prop :=
  ∃ paragraph ∈ splitBlank status, statusParagraphIsInstalled paragraph = true ∧
    (readRemovalParagraph paragraph).name = some name

/-- A paragraph has the line that the planner looks for, and each of its dependency groups stands,
on one line of a field that the planner knows, in every paragraph of its name that has this line. A
held package, a field name in lower case, a group that is broken over two lines and a package that
is installed for two architectures with different dependencies are excluded by it. -/
structure ReadAlike (status paragraph name : Text) : Prop where
  hasLine : hasInstalledLine paragraph = true
  groups : ∀ other ∈ splitBlank status, hasInstalledLine other = true →
    (readRemovalParagraph other).name = some name → ∀ group ∈ statusDependencyGroups paragraph,
      group ∈ (readRemovalParagraph other).info.dependencyGroups

/-- A group that the planner has does not block an accepted removal. -/
lemma exists_remaining {name : Text} {info : InstalledRemovalPackage} {group : List Text}
    (h : planDebianRemoval status requested = .ok order)
    (hlookup : (installedForRemoval status).lookup name = some info) (hkept : name ∉ requested)
    (hgroup : group ∈ info.dependencyGroups) (hrequested : ∃ x ∈ group, x ∈ requested) :
    ∃ x ∈ group, (∃ info, (installedForRemoval status).lookup x = some info) ∧ x ∉ requested := by
  have hlisted : name ∈ (installedForRemoval status).map Prod.fst := by
    obtain ⟨before, after, heq, -⟩ := lookup_eq_some_iff.mp hlookup
    rw [heq]
    simp
  have hblocked : name ∉ removalBlockers (installedForRemoval status) requested.dedup := by
    rw [(planDebianRemoval_ok h).2.1]
    exact not_mem_nil
  rw [removalBlockers, mem_insertionSort, mem_filter, mem_dedup, hlookup] at hblocked
  simp only [hlisted, hkept, mem_dedup, not_false_eq_true, decide_true, Bool.true_and,
    Option.any_some, true_and, any_eq_true, not_exists, not_and] at hblocked
  obtain ⟨x, hx, hreq⟩ := hrequested
  have hfree := hblocked group hgroup
  rw [groupBlocks, Bool.and_eq_true, Bool.not_eq_true', not_and, Bool.not_eq_false] at hfree
  obtain ⟨y, hy, hremains⟩ := any_eq_true.mp
    (hfree (any_eq_true.mpr ⟨x, hx, by simpa using hreq⟩))
  rw [Bool.and_eq_true, Option.isSome_iff_exists, decide_eq_true_eq, mem_dedup] at hremains
  exact ⟨y, hy, hremains⟩

def heldStatus : Text :=
  ("Package: lib\nStatus: install ok installed\n\n" ++
    "Package: app\nStatus: hold ok installed\nDepends: lib\n").toList

end Omg.Debian
