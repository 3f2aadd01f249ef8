import Omg.Fs.Disk

/-!
# Changes below one directory

A directory that is empty at first is filled, and nothing else on the disk is touched. The inodes
below it are then those that did not exist before, so that `Contained` can be said without looking
at paths: every other inode is as it was, and no entry below the directory leads to one of them.
-/

namespace Omg.Fs

open List Disk

variable {N : Type} [DecidableEq N] {old disk disk' : Disk N} {dest : Location N}

structure Destination (disk : Disk N) (dest : Location N) : Prop where
  valid : disk.Valid dest
  empty : ∃ mode, disk.nodes[dest.inode]? = some (.directory mode [])
  once : ∀ loc : Location N, loc <:+ dest → loc.inode = dest.inode → loc = dest

omit [DecidableEq N] in
def Inside (disk₀ : Disk N) (dest : Location N) (i : ℕ) : Prop := i = dest.inode ∨ disk₀.size ≤ i

/-- The disk differs from `disk₀` below the destination only. -/
structure Contained (disk₀ : Disk N) (dest : Location N) (disk : Disk N) : Prop where
  size_le : disk₀.size ≤ disk.size
  /-- No other inode is modified. Entries and permissions belong to an inode. -/
  outside : ∀ i < disk₀.size, i ≠ dest.inode → disk.nodes[i]? = disk₀.nodes[i]?
  /-- The destination gets entries, but its permissions are kept. -/
  destination : ∃ mode entries, disk₀.nodes[dest.inode]? = some (.directory mode []) ∧
    disk.nodes[dest.inode]? = some (.directory mode entries)
  inside : ∀ i name j, Inside disk₀ dest i → disk.lookup i name = some j → disk₀.size ≤ j

structure Tree (disk₀ : Disk N) (dest : Location N) (disk : Disk N) : Prop
    extends Contained disk₀ dest disk where
  closed : ∀ i name j, Inside disk₀ dest i → disk.lookup i name = some j → j < disk.size
  unique : ∀ i name i' name' j, Inside disk₀ dest i → Inside disk₀ dest i' →
    disk.lookup i name = some j → disk.lookup i' name' = some j → disk.IsDirectory j →
    i = i' ∧ name = name'

def NoLinks (disk₀ disk : Disk N) : Prop := ∀ i, disk₀.size ≤ i → disk.target i = none

/-- The path of every symbolic link inside is one of `paths`. -/
def Recorded (disk₀ : Disk N) (dest : Location N) (paths : List (List N)) (disk : Disk N) : Prop :=
  ∀ i name j, Inside disk₀ dest i → disk.lookup i name = some j → disk.target j ≠ none →
    ∃ path loc, disk.descend dest path = some loc ∧ loc.inode = i ∧ name :: path ∈ paths

structure Keeps (disk disk' : Disk N) : Prop where
  isDirectory : ∀ i, disk.IsDirectory i → disk'.IsDirectory i
  lookup : ∀ i name j, disk.lookup i name = some j → disk.IsDirectory j →
    disk'.lookup i name = some j

lemma Keeps.refl (disk : Disk N) : Keeps disk disk := ⟨fun _ h => h, fun _ _ _ h _ => h⟩

lemma Keeps.trans {d₁ d₂ disk₃ : Disk N} (h : Keeps d₁ d₂) (h' : Keeps d₂ disk₃) : Keeps d₁ disk₃ :=
  ⟨fun i hi => h'.isDirectory i (h.isDirectory i hi), fun i name j hj hdir =>
    h'.lookup i name j (h.lookup i name j hj hdir) (h.isDirectory j hdir)⟩

lemma Keeps.descend (h : Keeps disk disk') {loc loc' : Location N} {path : List N}
    (hpt : disk.descend loc path = some loc') : disk'.descend loc path = some loc' := by
  induction path generalizing loc' with
  | nil => exact hpt
  | cons name path ih =>
    obtain ⟨par, i, hpa, hi, hdir, rfl⟩ := descend_cons_eq_some.mp hpt
    exact descend_cons_eq_some.mpr
      ⟨par, i, ih hpa, h.lookup _ _ _ hi hdir, h.isDirectory i hdir, rfl⟩

lemma Destination.tree (h : Destination old dest) : Tree old dest old := by
  obtain ⟨mode, hmd⟩ := h.empty
  have hno : ∀ i name j, Inside old dest i → old.lookup i name ≠ some j := by
    rintro i name j (rfl | hi) hj
    · simp [Disk.lookup, Disk.entries, hmd, Node.entries] at hj
    · have hlt := Disk.lt_size_of_isDirectory (Disk.isDirectory_of_lookup hj)
      omega
  exact {
    size_le := Nat.le_refl _
    outside := fun i _ _ => rfl
    destination := ⟨mode, [], hmd, hmd⟩
    inside := fun i name j hi hj => absurd hj (hno i name j hi)
    closed := fun i name j hi hj => absurd hj (hno i name j hi)
    unique := fun i name _ _ j hi _ hj => absurd hj (hno i name j hi) }

omit [DecidableEq N] in
lemma noLinks_refl (old : Disk N) : NoLinks old old := by
  intro i hi
  simp [target, List.getElem?_eq_none hi]

namespace Tree

variable (h : Tree old dest disk)
include h

lemma inode_lt : dest.inode < old.size := by
  obtain ⟨mode, es, hmd, -⟩ := h.destination
  exact (List.getElem?_eq_some_iff.mp hmd).1

lemma isDirectory_dest : disk.IsDirectory dest.inode := by
  obtain ⟨mode, es, -, hes⟩ := h.destination
  simp [IsDirectory, entries, hes, Node.entries]

lemma valid_dest (hde : Destination old dest) : disk.Valid dest := by
  have hsf : ∀ loc, loc <:+ dest → disk.Valid loc := by
    intro loc
    induction loc with
    | nil => exact fun _ => trivial
    | cons e loc ih =>
      intro hloc
      have hpa : loc <:+ dest := (suffix_cons _ _).trans hloc
      refine ⟨?_, ih hpa⟩
      -- The parent is not the destination, so it is outside and has not changed.
      have hne : Location.inode loc ≠ dest.inode := by
        intro heq
        have hlen := hloc.length_le
        rw [← hde.once loc hpa heq] at hlen
        simp only [length_cons] at hlen
        omega
      have hlk := (Disk.valid_suffix hde.valid hloc).1
      have hlt := Disk.lt_size_of_isDirectory (Disk.isDirectory_of_lookup hlk)
      rw [Disk.lookup, Disk.entries, h.outside _ hlt hne]
      exact hlk
  exact hsf dest (suffix_refl _)

variable {loc : Location N} {path : List N} {i : ℕ} {name : N}

lemma inside_of_suffix (hloc : disk.Valid loc) (hsf : dest <:+ loc) :
    Inside old dest loc.inode := by
  induction loc with
  | nil => rw [suffix_nil.mp hsf]; exact .inl rfl
  | cons e loc ih =>
    rcases suffix_cons_iff.mp hsf with rfl | hsf
    · exact .inl rfl
    · exact .inr (h.inside _ _ _ (ih hloc.2 hsf) hloc.1)

lemma lt_size_of_suffix (hloc : disk.Valid loc) (hsf : dest <:+ loc) : loc.inode < disk.size := by
  have hde : dest.inode < disk.size := Nat.lt_of_lt_of_le h.inode_lt h.size_le
  cases loc with
  | nil => rwa [suffix_nil.mp hsf] at hde
  | cons e loc =>
    rcases suffix_cons_iff.mp hsf with rfl | hsf
    · exact hde
    · exact h.closed _ _ _ (h.inside_of_suffix hloc.2 hsf) hloc.1

section

variable (hpt : disk.descend dest path = some loc)

include hpt

lemma inside_of_descend : Inside old dest loc.inode := by
  induction path generalizing loc with
  | nil =>
    cases hpt
    exact .inl rfl
  | cons name path ih =>
    obtain ⟨par, i, hpa, hi, -, rfl⟩ := descend_cons_eq_some.mp hpt
    exact .inr (h.inside _ _ _ (ih hpa) hi)

lemma isDirectory_of_descend : disk.IsDirectory loc.inode := by
  cases path with
  | nil =>
    cases hpt
    exact h.isDirectory_dest
  | cons name path =>
    obtain ⟨par, i, -, -, hdir, rfl⟩ := descend_cons_eq_some.mp hpt
    exact hdir

lemma descend_unique {loc' : Location N} {path' : List N}
    (hpt' : disk.descend dest path' = some loc')
    (hino : loc.inode = loc'.inode) : path = path' ∧ loc = loc' := by
  have hba := h.inode_lt
  induction path generalizing loc loc' path' with
  | nil =>
    cases hpt
    cases path' with
    | nil =>
      cases hpt'
      exact ⟨rfl, rfl⟩
    | cons name' path' =>
      obtain ⟨par', i', hpa', hi', -, rfl⟩ := descend_cons_eq_some.mp hpt'
      have hle := h.inside _ _ _ (h.inside_of_descend hpa') hi'
      rw [Location.inode_cons] at hino
      omega
  | cons name path ih =>
    obtain ⟨par, i, hpa, hi, hdir, rfl⟩ := descend_cons_eq_some.mp hpt
    have hle := h.inside _ _ _ (h.inside_of_descend hpa) hi
    cases path' with
    | nil =>
      cases hpt'
      rw [Location.inode_cons] at hino
      omega
    | cons name' path' =>
      obtain ⟨par', i', hpa', hi', -, rfl⟩ := descend_cons_eq_some.mp hpt'
      obtain rfl : i = i' := hino
      obtain ⟨hpar, rfl⟩ := h.unique _ _ _ _ _ (h.inside_of_descend hpa)
        (h.inside_of_descend hpa') hi hi' hdir
      obtain ⟨rfl, rfl⟩ := ih hpa hpa' hpar
      exact ⟨rfl, rfl⟩

end

/-! ### Changes -/

lemma update {g : Node N → Node N} (hi : old.size ≤ i) (hg : Node.KeepsShape g) :
    Tree old dest (disk.update i g) := by
  have hlt := h.inode_lt
  refine ⟨⟨?_, ?_, ?_, ?_⟩, ?_, ?_⟩
  · rw [size_update]
    exact h.size_le
  · intro k hk hne
    rw [nodes_update_of_ne (by omega)]
    exact h.outside k hk hne
  · rw [nodes_update_of_ne (by omega)]
    exact h.destination
  · intro k name j hk hj
    rw [lookup_update_of_keepsShape hg] at hj
    exact h.inside k name j hk hj
  · intro k name j hk hj
    rw [lookup_update_of_keepsShape hg] at hj
    rw [size_update]
    exact h.closed k name j hk hj
  · intro k name k' name' j hk hk' hj hj' hdir
    rw [lookup_update_of_keepsShape hg] at hj hj'
    exact h.unique k name k' name' j hk hk' hj hj' ((isDirectory_update hg.entries_eq j).mp hdir)

section

variable (hi : Inside old dest i)

include hi

lemma alter {f : List (N × ℕ) → List (N × ℕ)}
    (hin : ∀ k name j, Inside old dest k → (disk.update i (.alter f)).lookup k name = some j →
      old.size ≤ j ∧ j < disk.size)
    (hun : ∀ k name k' name' j, Inside old dest k → Inside old dest k' →
      (disk.update i (.alter f)).lookup k name = some j → (disk.update i (.alter f)).lookup k' name'
      = some j → disk.IsDirectory j → k = k' ∧ name = name') :
    Tree old dest (disk.update i (.alter f)) := by
  refine ⟨⟨?_, ?_, ?_, ?_⟩, ?_, ?_⟩
  · rw [size_update]
    exact h.size_le
  · intro k hk hne
    have hki : k ≠ i := by
      rintro rfl
      rcases hi with hi | hi
      · exact hne hi
      · omega
    rw [nodes_update_of_ne hki]
    exact h.outside k hk hne
  · obtain ⟨mode, es, hmd, hes⟩ := h.destination
    by_cases hde : dest.inode = i
    · refine ⟨mode, f es, hmd, ?_⟩
      rw [hde, nodes_update_self, ← hde, hes]
      rfl
    · exact ⟨mode, es, hmd, by rw [nodes_update_of_ne hde, hes]⟩
  · exact fun k name j hk hj => (hin k name j hk hj).1
  · intro k name j hk hj
    rw [size_update]
    exact (hin k name j hk hj).2
  · exact fun k name k' name' j hk hk' hj hj' hdir => hun k name k' name' j hk hk' hj hj'
      ((isDirectory_update (Node.entries_alter f) j).mp hdir)

lemma add {j : ℕ} (hdir : disk.IsDirectory i) (hj : old.size ≤ j) (hlt : j < disk.size)
    (hf : disk.IsDirectory j → ∀ k y, Inside old dest k → disk.lookup k y ≠ some j) :
    Tree old dest (disk.add i name j) := by
  have hlk : ∀ {k y j'}, (disk.add i name j).lookup k y = some j' →
      (k = i ∧ y = name ∧ j' = j) ∨ disk.lookup k y = some j' := by
    intro k y j' hj'
    rw [lookup_add hdir] at hj'
    split_ifs at hj' with hky
    · exact .inl ⟨hky.1, hky.2, (Option.some.inj hj').symm⟩
    · exact .inr hj'
  refine h.alter hi (fun k y j' hk hj' => ?_) (fun k y k' y' j' hk hk' hj' hj'' hdir' => ?_)
  · rcases hlk hj' with ⟨-, -, rfl⟩ | hj'
    · exact ⟨hj, hlt⟩
    · exact ⟨h.inside k y j' hk hj', h.closed k y j' hk hj'⟩
  · rcases hlk hj' with ⟨rfl, rfl, rfl⟩ | hold
    · rcases hlk hj'' with ⟨rfl, rfl, -⟩ | hold'
      · exact ⟨rfl, rfl⟩
      · exact absurd hold' (hf hdir' k' y' hk')
    · rcases hlk hj'' with ⟨-, -, rfl⟩ | hold'
      · exact absurd hold (hf hdir' k y hk)
      · exact h.unique k y k' y' j' hk hk' hold hold' hdir'

end

lemma grow {node : Node N} (hnd : ∀ es, node.entries = some es → es = []) :
    Tree old dest (disk.grow node) := by
  have hle := h.size_le
  have hlt := h.inode_lt
  refine ⟨⟨?_, ?_, ?_, ?_⟩, ?_, ?_⟩
  · rw [size_grow]
    omega
  · intro k hk hne
    rw [nodes_grow, if_neg (by omega)]
    exact h.outside k hk hne
  · rw [nodes_grow, if_neg (by omega)]
    exact h.destination
  · intro k name j hk hj
    rw [lookup_grow hnd] at hj
    exact h.inside k name j hk hj
  · intro k name j hk hj
    rw [lookup_grow hnd] at hj
    rw [size_grow]
    exact Nat.lt_succ_of_lt (h.closed k name j hk hj)
  · intro k name k' name' j hk hk' hj hj' hdir
    rw [lookup_grow hnd] at hj hj'
    have hj_lt := h.closed k name j hk hj
    rw [isDirectory_grow, if_neg (by omega)] at hdir
    exact h.unique k name k' name' j hk hk' hj hj' hdir

lemma make {node : Node N} (hi : Inside old dest i) (hdir : disk.IsDirectory i)
    (hnd : ∀ es, node.entries = some es → es = []) : Tree old dest (disk.make i name node) := by
  have hlt := lt_size_of_isDirectory hdir
  refine (h.grow hnd).add hi ?_ h.size_le ?_ ?_
  · rwa [isDirectory_grow, if_neg (by omega)]
  · rw [size_grow]
    omega
  · intro _ k y hk hj
    rw [lookup_grow hnd] at hj
    exact absurd (h.closed k y _ hk hj) (Nat.lt_irrefl _)

end Tree

/-! ### What the changes keep -/

namespace Keeps

variable {i : ℕ} {name : N}

lemma update {g : Node N → Node N} (hg : Node.KeepsShape g) : Keeps disk (disk.update i g) := by
  refine ⟨fun k hk => (isDirectory_update hg.entries_eq k).mpr hk, fun k name j hj _ => ?_⟩
  rwa [lookup_update_of_keepsShape hg]

lemma add {j : ℕ} (hdir : disk.IsDirectory i) (hno : disk.lookup i name = none) :
    Keeps disk (disk.add i name j) := by
  refine ⟨fun k hk => (isDirectory_update (Node.entries_alter _) k).mpr hk, fun k y j hj _ => ?_⟩
  rw [lookup_add hdir, if_neg]
  · exact hj
  · rintro ⟨rfl, rfl⟩
    rw [hno] at hj
    cases hj

lemma make {node : Node N} (hdir : disk.IsDirectory i) (hno : disk.lookup i name = none)
    (hnd : ∀ es, node.entries = some es → es = []) : Keeps disk (disk.make i name node) := by
  have hgr : Keeps disk (disk.grow node) := by
    refine ⟨fun k hk => ?_, fun k y j hj _ => ?_⟩
    · have hlt := lt_size_of_isDirectory hk
      rwa [isDirectory_grow, if_neg (by omega)]
    · rwa [lookup_grow hnd]
  refine hgr.trans (Keeps.add (hgr.isDirectory i hdir) ?_)
  rwa [lookup_grow hnd]

end Keeps

omit [DecidableEq N] in
lemma target_make (i : ℕ) (name : N) (node : Node N) (k : ℕ) :
    (disk.make i name node).target k = if k = disk.size then node.target else disk.target k := by
  rw [make, add, target_update (Node.target_alter _), target_grow]

lemma lookup_make {i : ℕ} (hdir : disk.IsDirectory i) {node : Node N}
    (hnd : ∀ es, node.entries = some es → es = []) (name : N) (k : ℕ) (y : N) :
    (disk.make i name node).lookup k y =
      if k = i ∧ y = name then some disk.size else disk.lookup k y := by
  have hlt := lt_size_of_isDirectory hdir
  rw [make, lookup_add, lookup_grow hnd]
  rwa [isDirectory_grow, if_neg (by omega)]

omit [DecidableEq N] in
lemma isDirectory_make {i : ℕ} {name : N} {node : Node N} (h : node.entries.isSome) :
    (disk.make i name node).IsDirectory disk.size := by
  rw [make, add, isDirectory_update (Node.entries_alter _), isDirectory_grow, if_pos rfl]
  exact h

namespace NoLinks

variable (h : NoLinks old disk)
include h

omit [DecidableEq N] in
lemma make {i : ℕ} {name : N} {node : Node N} (hnd : node.target = none) :
    NoLinks old (disk.make i name node) := by
  intro k hk
  rw [target_make]
  split_ifs
  · exact hnd
  · exact h k hk

omit [DecidableEq N] in
lemma update {i : ℕ} {g : Node N → Node N} (hg : ∀ node, (g node).target = node.target) :
    NoLinks old (disk.update i g) := by
  intro k hk
  rw [target_update hg]
  exact h k hk

lemma walk (htr : Tree old dest disk) {loc : Location N} {path : List N}
    (hpt : disk.descend dest path = some loc) (lk : ℕ) (bel : List N) :
    (∀ i ∈ (disk.walk lk loc (bel.map .normal)).1, Inside old dest i) ∧
      ∀ loc', (disk.walk lk loc (bel.map .normal)).2 = .ok loc' →
        (old.size ≤ loc.inode ∨ bel ≠ [] → old.size ≤ loc'.inode) ∧
        (disk.IsDirectory loc'.inode → disk.descend dest (bel.reverse ++ path) = some loc') := by
  have hin := htr.inside_of_descend hpt
  induction bel generalizing loc path with
  | nil =>
    rw [map_nil, walk_nil]
    refine ⟨by simp, fun loc' hloc' => ?_⟩
    cases hloc'
    exact ⟨fun h => h.resolve_right fun h => h rfl, fun _ => hpt⟩
  | cons name bel ih =>
    cases hlk : disk.lookup loc.inode name with
    | none =>
      obtain ⟨e, he, hsr⟩ := walk_normal_of_lookup_eq_none hlk lk (bel.map .normal)
      refine ⟨fun i hi => hsr i hi ▸ hin, fun loc' hloc' => ?_⟩
      rw [map_cons, he] at hloc'
      cases hloc'
    | some j =>
      have hj := htr.inside _ _ _ hin hlk
      rw [map_cons, walk_normal hlk (h j hj)]
      by_cases hdir : disk.IsDirectory j
      · have hpt' : disk.descend dest (name :: path) = some ((name, j) :: loc) :=
          descend_cons_eq_some.mpr ⟨loc, j, hpt, hlk, hdir, rfl⟩
        obtain ⟨hsr, hres⟩ := ih hpt' (.inr hj)
        refine ⟨forall_mem_cons.mpr ⟨hin, hsr⟩, fun loc' hloc' => ?_⟩
        rw [reverse_cons, append_assoc]
        exact ⟨fun _ => (hres loc' hloc').1 (.inl hj), (hres loc' hloc').2⟩
      · have hf : ¬ disk.IsDirectory (Location.inode ((name, j) :: loc)) := hdir
        obtain ⟨hsr, hres⟩ := walk_of_not_isDirectory hf lk (bel.map .normal)
        refine ⟨fun i hi => ?_, fun loc' hloc' => ?_⟩
        · rw [Walk.after, hsr] at hi
          exact mem_singleton.mp hi ▸ hin
        · rw [hres loc' hloc']
          exact ⟨fun _ => hj, fun hdir' => absurd hdir' hf⟩

end NoLinks

namespace Recorded

variable {paths : List (List N)}

lemma of_noLinks (htr : Tree old dest disk) (h : NoLinks old disk) :
    Recorded old dest paths disk :=
  fun i name j hi hj hli => absurd (h j (htr.inside i name j hi hj)) hli

lemma make (htr : Tree old dest disk) (h : Recorded old dest paths disk)
    {loc : Location N} {path : List N} {name : N} {tgt : List (Component N)}
    (hpt : disk.descend dest path = some loc) (hno : disk.lookup loc.inode name = none)
    (hmem : name :: path ∈ paths) :
    Recorded old dest paths (disk.make loc.inode name (.symlink tgt)) := by
  have hdir := htr.isDirectory_of_descend hpt
  have hnd : ∀ es, (Node.symlink tgt).entries = some es → es = [] := by rintro es ⟨⟩
  have hke := Keeps.make hdir hno hnd
  intro i y j hi hj hli
  rw [lookup_make hdir hnd] at hj
  split_ifs at hj with hiy
  · obtain ⟨rfl, rfl⟩ := hiy
    exact ⟨path, loc, hke.descend hpt, rfl, hmem⟩
  · have hlt := htr.closed i y j hi hj
    rw [target_make, if_neg (by omega)] at hli
    obtain ⟨path', loc', hpt', hloc', hmem'⟩ := h i y j hi hj hli
    exact ⟨path', loc', hke.descend hpt', hloc', hmem'⟩

lemma add (h : Recorded old dest paths disk) {i j : ℕ} {name : N} (hdir : disk.IsDirectory i)
    (hno : disk.lookup i name = none) (hj : disk.target j = none) :
    Recorded old dest paths (disk.add i name j) := by
  have hke : Keeps disk (disk.add i name j) := Keeps.add hdir hno
  intro k y j' hk hj' hli
  rw [Disk.add, Disk.target_update (Node.target_alter _)] at hli
  rw [Disk.lookup_add hdir] at hj'
  split_ifs at hj'
  · obtain rfl := Option.some.inj hj'
    exact absurd hj hli
  · obtain ⟨path, loc, hpt, hloc, hmem⟩ := h k y j' hk hj' hli
    exact ⟨path, loc, hke.descend hpt, hloc, hmem⟩

end Recorded

end Omg.Fs
