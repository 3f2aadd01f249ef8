import Omg.Aur.ArtifactInspector
import Omg.Debian.Unpack

/-!
# Two checks of symbolic links

The links in an archive are checked by counting names, those in a checkout by following the target
on full paths. Both admit the targets that lead from the directory of the link to a place below the
root, without leaving the root on the way.

A path of a checkout is given by its names, from the root of the file system.

Source: `src/package_managers/aur/client.rs` and `src/package_managers/aur/artifact_inspector.rs`.
-/

namespace Omg.Aur

open Control Fs Text List
open Debian (resolveLexically ClimbsAtMost isSome_resolveLexically climbsAtMost_iff)
open Omg.Runtime (components)

def linkMessage (problem : String) (linkPath : List OsString) (target : OsString) : Text :=
  problem.toList ++ '/' :: List.intercalate ['/'] (linkPath.map OsString.toStringLossy) ++
    " -> " ++ target.toStringLossy

def resolveTarget (root linkPath : List OsString) (target : OsString) :
    List OsString → List (Component OsString) → Result (List OsString)
  | resolved, [] => .ok resolved
  | resolved, .normal part :: rest => resolveTarget root linkPath target (resolved ++ [part]) rest
  | resolved, .curDir :: rest => resolveTarget root linkPath target resolved rest
  | resolved, .parentDir :: rest =>
    if root <+: resolved ∧ resolved ≠ root ∧ resolved ≠ [] then
      resolveTarget root linkPath target resolved.dropLast rest
    else bail (linkMessage "AUR source symlink escapes the checkout: " linkPath target)
  | _, .rootDir :: _ => bail (linkMessage "AUR source symlink must be relative: " linkPath target)

/-- `contained_aur_symlink_target`. -/
def containedAurSymlinkTarget (root linkPath : List OsString) (target : OsString) :
    Result Unit := do
  ensure ((components target).head? ≠ some .rootDir)
    (linkMessage "AUR source symlink must be relative: " linkPath target)
  let resolved ← resolveTarget root linkPath target
    (if linkPath = [] then root else linkPath.dropLast) (components target)
  ensure (root <+: resolved ∧ resolved ≠ root)
    (linkMessage "AUR source symlink escapes the checkout: " linkPath target)

variable {mbr : Text} {root linkPath : List OsString} {target : OsString}
  {resolved : List OsString} {cs : List (Component OsString)}

lemma linkDepth_eq_ok {dp : ℕ} : linkDepth mbr resolved.length cs = .ok dp ↔
    ∃ ns, resolveLexically resolved cs = some ns ∧ ns.length = dp := by
  fun_induction resolveLexically resolved cs with
  | case1 => simp [linkDepth]
  | case2 resolved part rest ih => exact ih
  | case3 resolved rest ih => exact ih
  | case4 => simp [linkDepth, bail]
  | case5 name resolved rest ih => exact ih
  | case6 => simp [linkDepth, bail]

lemma resolveTarget_eq_ok {place : List OsString} :
    resolveTarget root linkPath target (root ++ resolved.reverse) cs = .ok place ↔
      ∃ ns, resolveLexically resolved cs = some ns ∧ root ++ ns.reverse = place := by
  fun_induction resolveLexically resolved cs with
  | case1 => simp [resolveTarget]
  | case2 resolved part rest ih => simpa [resolveTarget] using ih
  | case3 resolved rest ih => exact ih
  | case4 => simp [resolveTarget, bail]
  | case5 name resolved rest ih =>
    have hdr : (root ++ (name :: resolved).reverse).dropLast = root ++ resolved.reverse := by
      rw [reverse_cons, ← append_assoc, dropLast_concat]
    rw [resolveTarget, if_pos (by simp), hdr]
    exact ih
  | case6 => simp [resolveTarget, bail]

/-- A link in a directory has a relative target that leads to a place below the root. On the way it
does not leave the root. -/
def LeadsBelow (directory : List OsString) (target : OsString) : Prop :=
  (components target).head? ≠ some .rootDir ∧
    (∀ part, part <+: components target → (resolveLexically directory.reverse part).isSome) ∧
    ∃ names, resolveLexically directory.reverse (components target) = some names ∧ names ≠ []

lemma forall_isPrefix_isSome {ns : List OsString} (h : resolveLexically resolved cs = some ns)
    {part : List (Component OsString)} (hpa : part <+: cs) :
    (resolveLexically resolved part).isSome := by
  have hwh : ClimbsAtMost resolved.length cs := isSome_resolveLexically.mp (by rw [h]; rfl)
  obtain ⟨hro, hcli⟩ := climbsAtMost_iff.mp hwh
  exact isSome_resolveLexically.mpr (climbsAtMost_iff.mpr
    ⟨fun hmem => hro (hpa.subset hmem), fun st hst => hcli st (hst.trans hpa)⟩)

lemma leadsBelow_iff {directory : List OsString} :
    LeadsBelow directory target ↔ (components target).head? ≠ some .rootDir ∧
      ∃ names, resolveLexically directory.reverse (components target) = some names ∧ names ≠ [] :=
  ⟨fun h => ⟨h.1, h.2.2⟩, fun ⟨hrel, names, hns, hne⟩ =>
    ⟨hrel, fun _ => forall_isPrefix_isSome hns, names, hns, hne⟩⟩

/-- **The checks agree.** For a link with at least one name, the last one of which is its own, both
checks admit the targets that lead below the root. -/
theorem link_checks_agree (root : List OsString) (directory : List Text) (name : Text)
    (target : OsString) :
    (validateRelativeLink (List.intercalate ['/'] (directory ++ [name])) directory.length target
        false = .ok () ↔ LeadsBelow (directory.map OsString.ofText) target) ∧
    (containedAurSymlinkTarget root (root ++ (directory ++ [name]).map OsString.ofText) target =
        .ok () ↔ LeadsBelow (directory.map OsString.ofText) target) := by
  rw [leadsBelow_iff]
  constructor
  · have hlen : directory.length = (directory.map OsString.ofText).reverse.length := by simp
    rw [validateRelativeLink]
    simp only [bind_eq_ok, hlen, linkDepth_eq_ok, Bool.false_eq_true, if_false]
    constructor
    · rintro ⟨_, hrel, depth, ⟨names, hns, rfl⟩, hpos⟩
      exact ⟨by simpa using hrel, names, hns, length_pos_iff.mp (by simpa using hpos)⟩
    · rintro ⟨hrel, names, hns, hne⟩
      exact ⟨(), by simpa using hrel, _, ⟨names, hns, rfl⟩, by simpa using length_pos_iff.mpr hne⟩
  · have hst : (root ++ (directory ++ [name]).map OsString.ofText).dropLast =
        root ++ (directory.map OsString.ofText).reverse.reverse := by
      rw [map_append, map_singleton, ← append_assoc, dropLast_concat, reverse_reverse]
    rw [containedAurSymlinkTarget, if_neg (by simp), hst]
    simp only [bind_eq_ok, resolveTarget_eq_ok]
    constructor
    · rintro ⟨_, hrel, place, ⟨names, hns, rfl⟩, hbel⟩
      refine ⟨by simpa using hrel, names, hns, ?_⟩
      rintro rfl
      simp at hbel
    · rintro ⟨hrel, names, hns, hne⟩
      exact ⟨(), by simpa using hrel, _, ⟨names, hns, rfl⟩, by simpa using hne⟩

end Omg.Aur
