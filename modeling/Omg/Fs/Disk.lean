import Mathlib.Algebra.Ring.Nat
import Mathlib.Data.List.Infix

/-!
# Directories, files and symbolic links

A disk is a table of inodes. A directory maps names to inodes, so a file can have several names. A
location is a path without symbolic links: the names and inodes from an object up to the root. A
path is resolved component by component, `..` leaves the directory that was really reached, and a
symbolic link is replaced by its target.
-/

namespace Omg.Fs

open List Option

inductive Component (N : Type)
  | normal (name : N)
  | curDir
  | parentDir
  | rootDir
deriving DecidableEq

inductive Node (N : Type)
  | directory (mode : ℕ) (entries : List (N × ℕ))
  | file (mode : ℕ) (contents : List UInt8)
  | symlink (target : List (Component N))
deriving DecidableEq

inductive Errno
  | notFound
  | alreadyExists
  | notADirectory
  | isADirectory
  | notPermitted
  | tooManyLinks
  | fault
deriving DecidableEq

def Node.entries {N : Type} : Node N → Option (List (N × ℕ))
  | .directory _ entries => some entries
  | _ => none

def Node.target {N : Type} : Node N → Option (List (Component N))
  | .symlink target => some target
  | _ => none

/-- The entries of a directory are changed by `f`. -/
def Node.alter {N : Type} (f : List (N × ℕ) → List (N × ℕ)) : Node N → Node N
  | .directory mode entries => .directory mode (f entries)
  | node => node

def Node.append {N : Type} (bytes : List UInt8) : Node N → Node N
  | .file mode contents => .file mode (contents ++ bytes)
  | node => node

def Node.chmod {N : Type} (mode : ℕ) : Node N → Node N
  | .directory _ entries => .directory mode entries
  | .file _ contents => .file mode contents
  | node => node

def Node.KeepsShape {N : Type} (g : Node N → Node N) : Prop :=
  ∀ node, (g node).entries = node.entries ∧ (g node).target = node.target

variable {N : Type}

lemma Node.KeepsShape.entries_eq {N : Type} {g : Node N → Node N} (hg : KeepsShape g)
    (node : Node N) : (g node).entries = node.entries.map id := by
  simpa using (hg node).1

lemma Node.keepsShape_append (bs : List UInt8) : KeepsShape (append bs : Node N → Node N) := by
  intro node
  cases node <;> exact ⟨rfl, rfl⟩

lemma Node.keepsShape_chmod (mode : ℕ) : KeepsShape (chmod mode : Node N → Node N) := by
  intro node
  cases node <;> exact ⟨rfl, rfl⟩

lemma Node.entries_alter (f : List (N × ℕ) → List (N × ℕ)) (node : Node N) :
    (node.alter f).entries = node.entries.map f := by
  cases node <;> rfl

lemma Node.target_alter (f : List (N × ℕ) → List (N × ℕ)) (node : Node N) :
    (node.alter f).target = node.target := by
  cases node <;> rfl

structure Disk (N : Type) where
  nodes : List (Node N)

/-- The names and inodes on the way to an object, its own first. -/
abbrev Location (N : Type) : Type := List (N × ℕ)

namespace Location

variable {N : Type}

def inode : Location N → ℕ
  | [] => 0
  | (_, i) :: _ => i

lemma inode_cons (name : N) (i : ℕ) (loc : Location N) : inode ((name, i) :: loc) = i := rfl

def names (loc : Location N) : List N := loc.map Prod.fst

end Location

namespace Disk

variable {N : Type} (disk : Disk N) {i : ℕ}

def size : ℕ := disk.nodes.length

def entries (i : ℕ) : Option (List (N × ℕ)) := disk.nodes[i]?.bind Node.entries

def target (i : ℕ) : Option (List (Component N)) := disk.nodes[i]?.bind Node.target

def IsDirectory (i : ℕ) : Prop := (disk.entries i).isSome

instance (i : ℕ) : Decidable (disk.IsDirectory i) :=
  inferInstanceAs (Decidable ((disk.entries i).isSome = true))

lemma lt_size_of_isDirectory {disk : Disk N} (h : disk.IsDirectory i) : i < disk.size := by
  obtain ⟨es, hes⟩ := isSome_iff_exists.mp h
  obtain ⟨node, hnd, -⟩ := bind_eq_some_iff.mp hes
  exact (List.getElem?_eq_some_iff.mp hnd).1

lemma target_eq_none_of_isDirectory {disk : Disk N} (h : disk.IsDirectory i) :
    disk.target i = none := by
  obtain ⟨entries, hes⟩ := isSome_iff_exists.mp h
  obtain ⟨node, hnd, hn⟩ := bind_eq_some_iff.mp hes
  cases node with
  | directory mode es => simp [target, hnd, Node.target]
  | file mode contents => cases hn
  | symlink target => cases hn

def components (path : List N) : List (Component N) := path.reverse.map .normal

@[simp] lemma components_cons (name : N) (path : List N) :
    components (name :: path) = components path ++ [.normal name] := by
  simp [components]

variable [DecidableEq N]

def lookup (i : ℕ) (name : N) : Option ℕ := (disk.entries i).bind (List.lookup name)

def Valid : Location N → Prop
  | [] => True
  | (name, i) :: loc => disk.lookup (Location.inode loc) name = some i ∧ Valid loc

/-- The outcome of a resolution: the directories that were searched, and the location. -/
abbrev Walk (N : Type) : Type := List ℕ × Except Errno (Location N)

/-- The directory `i` was searched first. -/
def Walk.after (i : ℕ) (r : Walk N) : Walk N := (i :: r.1, r.2)

/-- Resolution of a path from a location on. What remains to be resolved when a symbolic link is
met is given to `follow`. -/
def walkWith (follow : Location N → List (Component N) → Walk N) :
    Location N → List (Component N) → Walk N
  | loc, [] => ([], .ok loc)
  | loc, c :: rest =>
    match disk.entries loc.inode with
    | none => ([], .error .notADirectory)
    | some entries =>
      Walk.after loc.inode <|
        match c with
        | .curDir => walkWith follow loc rest
        | .parentDir => walkWith follow loc.tail rest
        | .rootDir => walkWith follow [] rest
        | .normal name =>
          match entries.lookup name with
          | none => ([], .error .notFound)
          | some i =>
            match disk.target i with
            | some target => follow loc (target ++ rest)
            | none => walkWith follow ((name, i) :: loc) rest

/-- Resolution of a path that may pass through at most `links` symbolic links. -/
def walk : ℕ → Location N → List (Component N) → Walk N
  | 0 => disk.walkWith fun _ _ => ([], .error .tooManyLinks)
  | links + 1 => disk.walkWith (walk links)

/-- The location below `loc` at the path `path`, last component first, if all the components are
directories. -/
def descend (loc : Location N) : List N → Option (Location N)
  | [] => some loc
  | name :: path =>
    (descend loc path).bind fun parent =>
      (disk.lookup parent.inode name).bind fun i =>
        if disk.IsDirectory i then some ((name, i) :: parent) else none

/-- The inode `i` is changed by `g`. -/
def update (i : ℕ) (g : Node N → Node N) : Disk N := ⟨disk.nodes.modify i g⟩

/-- A new entry of the directory `i`. -/
def add (i : ℕ) (name : N) (j : ℕ) : Disk N := disk.update i (.alter ((name, j) :: ·))

def grow (node : Node N) : Disk N := ⟨disk.nodes ++ [node]⟩

/-- A new inode, and an entry for it in the directory `i`. -/
def make (i : ℕ) (name : N) (node : Node N) : Disk N := (disk.grow node).add i name disk.size

/-- The directory `i` loses the entry `name`. The inode stays. -/
def remove (i : ℕ) (name : N) : Disk N :=
  disk.update i (.alter (List.filter fun entry => entry.1 ≠ name))

variable {disk} {name : N} {loc loc' : Location N}

lemma lookup_eq {es : List (N × ℕ)} (h : disk.entries i = some es) (name : N) :
    disk.lookup i name = es.lookup name := by
  simp [lookup, h]

lemma isDirectory_of_lookup {j : ℕ} (h : disk.lookup i name = some j) : disk.IsDirectory i := by
  obtain ⟨es, hes, -⟩ := bind_eq_some_iff.mp h
  simp [IsDirectory, hes]

lemma valid_suffix (h : disk.Valid loc) (hloc : loc' <:+ loc) : disk.Valid loc' := by
  induction loc with
  | nil => exact (suffix_nil.mp hloc) ▸ h
  | cons e loc ih =>
    rcases suffix_cons_iff.mp hloc with rfl | hloc
    · exact h
    · exact ih h.2 hloc

lemma eq_of_names_eq (h : disk.Valid loc) (h' : disk.Valid loc')
    (hns : loc.names = loc'.names) : loc = loc' := by
  induction loc generalizing loc' with
  | nil => exact (map_eq_nil_iff.mp hns.symm).symm
  | cons e loc ih =>
    obtain ⟨name, i⟩ := e
    obtain ⟨⟨name', i'⟩, rest, rfl, rfl, hr⟩ := map_eq_cons_iff.mp hns.symm
    obtain rfl := ih h.2 h'.2 hr.symm
    have hi : some i = some i' := h.1.symm.trans h'.1
    rw [some.inj hi]

lemma suffix_of_names_suffix (h : disk.Valid loc) (h' : disk.Valid loc')
    (hns : loc'.names <:+ loc.names) : loc' <:+ loc := by
  obtain ⟨bel, hbel⟩ := hns
  obtain ⟨loc₁, loc₂, rfl, -, hloc₂⟩ := append_eq_map_iff.mp hbel
  have hv := valid_suffix h (suffix_append loc₁ loc₂)
  exact eq_of_names_eq h' hv hloc₂.symm ▸ suffix_append loc₁ loc₂

/-! ### Resolution -/

structure Resolved (disk : Disk N) (loc : Location N) : Prop where
  valid : disk.Valid loc
  target_eq_none : disk.target loc.inode = none

lemma Resolved.suffix (hloc : disk.Valid loc) (hdir : disk.IsDirectory loc.inode)
    (hsf : loc' <:+ loc) : disk.Resolved loc' := by
  refine ⟨valid_suffix hloc hsf, target_eq_none_of_isDirectory ?_⟩
  induction loc with
  | nil => exact (suffix_nil.mp hsf) ▸ hdir
  | cons e loc ih =>
    rcases suffix_cons_iff.mp hsf with rfl | hsf
    · exact hdir
    · exact ih hloc.2 (isDirectory_of_lookup hloc.1) hsf

lemma resolved_of_walkWith {follow : Location N → List (Component N) → Walk N}
    (hfol : ∀ {loc path loc'}, disk.Resolved loc → (follow loc path).2 = .ok loc' → disk.Resolved
      loc') {path : List (Component N)} (hloc : disk.Resolved loc)
    (h : (disk.walkWith follow loc path).2 = .ok loc') : disk.Resolved loc' := by
  induction path generalizing loc with
  | nil =>
    cases h
    exact hloc
  | cons c rest ih =>
    unfold walkWith at h
    cases hes : disk.entries loc.inode with
    | none => simp [hes] at h
    | some es =>
      have hdir : disk.IsDirectory loc.inode := by simp [IsDirectory, hes]
      simp only [hes, Walk.after] at h
      cases c with
      | curDir => exact ih hloc h
      | parentDir => exact ih (.suffix hloc.valid hdir (tail_suffix loc)) h
      | rootDir => exact ih (.suffix hloc.valid hdir nil_suffix) h
      | normal name =>
        cases hn : es.lookup name with
        | none => simp [hn] at h
        | some i =>
          cases ht : disk.target i with
          | some tgt =>
            simp only [hn, ht] at h
            exact hfol hloc h
          | none =>
            simp only [hn, ht] at h
            have hres : disk.Resolved ((name, i) :: loc) :=
              ⟨⟨(lookup_eq hes name).trans hn, hloc.valid⟩, ht⟩
            exact ih hres h

lemma resolved_of_walk {lk : ℕ} {path : List (Component N)} (hloc : disk.Resolved loc)
    (h : (disk.walk lk loc path).2 = .ok loc') : disk.Resolved loc' := by
  induction lk generalizing loc path loc' with
  | zero =>
    refine resolved_of_walkWith ?_ hloc h
    intro loc path loc' _ h
    cases h
  | succ lk ih => exact resolved_of_walkWith ih hloc h

lemma walk_normal {lk : ℕ} {rest : List (Component N)}
    (hlk : disk.lookup loc.inode name = some i) (ht : disk.target i = none) :
    disk.walk lk loc (.normal name :: rest) =
      .after loc.inode (disk.walk lk ((name, i) :: loc) rest) := by
  obtain ⟨es, hes⟩ := isSome_iff_exists.mp (isDirectory_of_lookup hlk)
  rw [lookup_eq hes] at hlk
  cases lk <;> simp only [walk, walkWith, hes, hlk, ht]

lemma walk_normal_of_lookup_eq_none (hlk : disk.lookup loc.inode name = none) (lk : ℕ)
    (rest : List (Component N)) : ∃ e, (disk.walk lk loc (.normal name :: rest)).2 = .error e ∧
      ∀ i ∈ (disk.walk lk loc (.normal name :: rest)).1, i = loc.inode := by
  cases hes : disk.entries loc.inode with
  | none => cases lk <;> simp [walk, walkWith, hes]
  | some es =>
    rw [lookup_eq hes] at hlk
    cases lk <;> simp [walk, walkWith, hes, hlk, Walk.after]

lemma walk_of_not_isDirectory (h : ¬ disk.IsDirectory loc.inode) (lk : ℕ)
    (path : List (Component N)) : (disk.walk lk loc path).1 = [] ∧
      ∀ loc', (disk.walk lk loc path).2 = .ok loc' → loc' = loc := by
  have hes : disk.entries loc.inode = none := by simpa [IsDirectory] using h
  cases path with
  | nil => cases lk <;> simp [walk, walkWith]
  | cons c rest => cases lk <;> simp [walk, walkWith, hes]

lemma walk_nil (lk : ℕ) (loc : Location N) : disk.walk lk loc [] = ([], .ok loc) := by
  cases lk <;> rfl

lemma descend_cons_eq_some {path : List N} :
    disk.descend loc (name :: path) = some loc' ↔ ∃ par i, disk.descend loc path = some par ∧
      disk.lookup par.inode name = some i ∧ disk.IsDirectory i ∧ loc' = (name, i) :: par := by
  simp only [descend, bind_eq_some_iff, ite_none_right_eq_some, some.injEq]
  constructor
  · rintro ⟨par, hpa, i, hi, hdir, rfl⟩
    exact ⟨par, i, hpa, hi, hdir, rfl⟩
  · rintro ⟨par, i, hpa, hi, hdir, rfl⟩
    exact ⟨par, hpa, i, hi, hdir, rfl⟩

lemma walk_of_descend {path : List N} (h : disk.descend loc path = some loc') (links : ℕ)
    (rest : List (Component N)) :
    (disk.walk links loc (components path ++ rest)).2 = (disk.walk links loc' rest).2 ∧
      ∀ i ∈ (disk.walk links loc (components path ++ rest)).1, i ∈ (disk.walk links loc' rest).1 ∨
          ∃ path' parent, disk.descend loc path' = some parent ∧ parent.inode = i := by
  induction path generalizing loc' rest with
  | nil =>
    cases h
    exact ⟨rfl, fun i hi => .inl hi⟩
  | cons name path ih =>
    obtain ⟨parent, i, hpa, hi, hdir, rfl⟩ := descend_cons_eq_some.mp h
    obtain ⟨hres, hsr⟩ := ih hpa (.normal name :: rest)
    rw [components_cons, append_assoc]
    rw [walk_normal hi (target_eq_none_of_isDirectory hdir)] at hres hsr
    refine ⟨hres, fun j hj => ?_⟩
    rcases hsr j hj with hj | hj
    · rcases mem_cons.mp hj with rfl | hj
      · exact .inr ⟨path, parent, hpa, rfl⟩
      · exact .inl hj
    · exact .inr hj

/-! ### What the changes do -/

section

omit [DecidableEq N]

variable {i : ℕ} {g : Node N → Node N} {f : List (N × ℕ) → List (N × ℕ)}

lemma nodes_update_of_ne {k : ℕ} (hk : k ≠ i) : (disk.update i g).nodes[k]? = disk.nodes[k]? := by
  simp [update, Ne.symm hk]

lemma nodes_update_self : (disk.update i g).nodes[i]? = disk.nodes[i]?.map g := by
  simp [update]

lemma size_update : (disk.update i g).size = disk.size := by
  simp [update, size]

lemma entries_update (hg : ∀ node, (g node).entries = node.entries.map f) (k : ℕ) :
    (disk.update i g).entries k = if k = i then (disk.entries k).map f else disk.entries k := by
  by_cases hk : k = i
  · subst hk
    simp only [entries, nodes_update_self]
    cases disk.nodes[k]? <;> simp [hg]
  · simp [entries, nodes_update_of_ne hk, hk]

lemma target_update (hg : ∀ node, (g node).target = node.target) (k : ℕ) :
    (disk.update i g).target k = disk.target k := by
  by_cases hk : k = i
  · subst hk
    simp only [target, nodes_update_self]
    cases disk.nodes[k]? <;> simp [hg]
  · simp [target, nodes_update_of_ne hk]

lemma isDirectory_update (hg : ∀ node, (g node).entries = node.entries.map f) (k : ℕ) :
    (disk.update i g).IsDirectory k ↔ disk.IsDirectory k := by
  unfold IsDirectory
  rw [entries_update hg]
  split_ifs <;> simp

end

lemma lookup_update_of_keepsShape {g : Node N → Node N} (hg : Node.KeepsShape g) (k : ℕ)
    (name : N) : (disk.update i g).lookup k name = disk.lookup k name := by
  simp [lookup, entries_update hg.entries_eq]

lemma lookup_cons_of_ne {es : List (N × ℕ)} {y : N} {j : ℕ} (h : y ≠ name) :
    List.lookup y ((name, j) :: es) = es.lookup y := by
  simp [lookup_cons, beq_eq_false_iff_ne.mpr h]

lemma lookup_add (hi : disk.IsDirectory i) (name : N) (j k : ℕ) (y : N) :
    (disk.add i name j).lookup k y = if k = i ∧ y = name then some j else disk.lookup k y := by
  obtain ⟨es, hes⟩ := isSome_iff_exists.mp hi
  unfold lookup add
  rw [entries_update (Node.entries_alter _)]
  by_cases hk : k = i
  · subst hk
    by_cases hy : y = name
    · simp [hes, hy]
    · simp [hes, lookup_cons_of_ne hy, hy]
  · simp [hk]

lemma lookup_filter_ne (es : List (N × ℕ)) (name y : N) :
    (es.filter fun e => e.1 ≠ name).lookup y = if y = name then none else es.lookup y := by
  induction es with
  | nil => simp
  | cons e es ih =>
    obtain ⟨name', j⟩ := e
    by_cases hn : name' = name
    · rw [filter_cons_of_neg (by simpa using hn), ih]
      by_cases hy : y = name
      · simp [hy]
      · rw [if_neg hy, if_neg hy, lookup_cons_of_ne (hn ▸ hy)]
    · rw [filter_cons_of_pos (by simpa using hn)]
      by_cases hy : y = name'
      · subst hy
        simp [hn]
      · rw [lookup_cons_of_ne hy, lookup_cons_of_ne hy, ih]

lemma lookup_remove (i : ℕ) (name : N) (k : ℕ) (y : N) : (disk.remove i name).lookup k y =
      if k = i ∧ y = name then none else disk.lookup k y := by
  unfold lookup remove
  rw [entries_update (Node.entries_alter _)]
  by_cases hk : k = i
  · subst hk
    cases disk.entries k with
    | none => simp
    | some es => simpa using lookup_filter_ne es name y
  · simp [hk]

section

variable {node : Node N}

omit [DecidableEq N] in
lemma nodes_grow (k : ℕ) :
    (disk.grow node).nodes[k]? = if k = disk.size then some node else disk.nodes[k]? := by
  unfold grow size
  rcases Nat.lt_trichotomy k disk.nodes.length with hk | hk | hk
  · simp [getElem?_append_left hk, Nat.ne_of_lt hk]
  · simp [hk]
  · simp [Nat.ne_of_gt hk, List.getElem?_eq_none (Nat.le_of_lt hk),
      getElem?_append_right (Nat.le_of_lt hk), Nat.sub_ne_zero_of_lt hk]

omit [DecidableEq N] in
lemma nodes_size : disk.nodes[disk.size]? = none := by
  simp [size]

omit [DecidableEq N] in
lemma size_grow : (disk.grow node).size = disk.size + 1 := by
  simp [grow, size]

omit [DecidableEq N] in
lemma target_grow (k : ℕ) :
    (disk.grow node).target k = if k = disk.size then node.target else disk.target k := by
  unfold target
  rw [nodes_grow]
  split_ifs <;> rfl

omit [DecidableEq N] in
lemma isDirectory_grow (k : ℕ) : (disk.grow node).IsDirectory k ↔
    if k = disk.size then node.entries.isSome = true else disk.IsDirectory k := by
  unfold IsDirectory entries
  rw [nodes_grow]
  split_ifs <;> rfl

lemma lookup_grow (hnd : ∀ entries, node.entries = some entries → entries = []) (k : ℕ)
    (y : N) : (disk.grow node).lookup k y = disk.lookup k y := by
  unfold lookup entries
  rw [nodes_grow]
  split_ifs with hk
  · subst hk
    cases hes : node.entries with
    | none => simp [nodes_size, hes]
    | some entries => simp [nodes_size, hes, hnd entries hes]
  · rfl

end

end Disk

/-!
### Names that are links to inodes

The same file may have several names: a hard link gives it one more, and a rename moves one. A
symbolic link is a file of its own kind, and links and renames do not follow it. Renaming a name to
another name of the same file succeeds and does nothing, so both names stay.

Only the names of files are changed; directories are not linked, moved or removed. Whether the
directory of a name exists is fixed.
-/

open Function

inductive Kind
  | regular
  | symlink
  | directory
  | other
  deriving DecidableEq

/-- The inodes that the names of type `P` are links to. -/
structure Names (P : Type) where
  inode : P → Option ℕ
  kind : ℕ → Kind
  mode : ℕ → ℕ
  isReachable : P → Bool

namespace Names

variable {P : Type} [DecidableEq P] (fs : Names P)

/-- `lstat`. -/
def lstat (p : P) : Except Errno Kind :=
  match fs.inode p with
  | some i => .ok (fs.kind i)
  | none => .error .notFound

omit [DecidableEq P] in
variable {fs} in
lemma inode_of_lstat_error {p : P} {e : Errno} (h : fs.lstat p = .error e) : fs.inode p = none := by
  unfold lstat at h
  split at h
  · cases h
  · assumption

/-- The name `p` becomes a link to `i`. -/
def put (p : P) (i : Option ℕ) : Names P := { fs with inode := update fs.inode p i }

@[simp] lemma inode_put_self (p : P) (i : Option ℕ) : (fs.put p i).inode p = i := update_self ..

lemma inode_put_of_ne {p q : P} (h : q ≠ p) (i : Option ℕ) :
    (fs.put p i).inode q = fs.inode q := update_of_ne h ..

/-- `linkat`, without following a symbolic link. -/
def link (source target : P) : Except Errno Unit × Names P :=
  match fs.inode source with
  | none => (.error .notFound, fs)
  | some i =>
    if fs.kind i = .directory then (.error .notPermitted, fs)
    else if fs.isReachable target = false then (.error .notFound, fs)
    else if (fs.inode target).isSome then (.error .alreadyExists, fs)
    else (.ok (), fs.put target (some i))

/-- `rename` of a name of a file. -/
def rename (source target : P) : Except Errno Unit × Names P :=
  match fs.inode source with
  | none => (.error .notFound, fs)
  | some i =>
    if fs.kind i = .directory then (.error .notPermitted, fs)
    else if fs.isReachable target = false then (.error .notFound, fs)
    else
      match fs.inode target with
      | some j =>
        if i = j then (.ok (), fs)
        else if fs.kind j = .directory then (.error .isADirectory, fs)
        else (.ok (), (fs.put source none).put target (some i))
      | none => (.ok (), (fs.put source none).put target (some i))

/-- `unlink`. -/
def unlink (p : P) : Except Errno Unit × Names P :=
  match fs.inode p with
  | none => (.error .notFound, fs)
  | some i => if fs.kind i = .directory then (.error .isADirectory, fs) else (.ok (), fs.put p none)

/-- `chmod` of a name of a regular file. -/
def chmod (p : P) (mode : ℕ) : Except Errno Unit × Names P :=
  match fs.inode p with
  | none => (.error .notFound, fs)
  | some i =>
    if fs.kind i = .regular then (.ok (), { fs with mode := update fs.mode i mode })
    else (.error .notPermitted, fs)

/-- `fsync` of the directory of a name. -/
def syncParent (p : P) : Except Errno Unit := if fs.isReachable p then .ok () else .error .notFound

def Unchanged (r : Except Errno Unit × Names P) : Prop := (∃ e, r.1 = .error e) ∧ r.2 = fs

lemma link_cases (src tgt : P) : fs.Unchanged (fs.link src tgt) ∨
      (∃ i, fs.inode src = some i ∧ fs.kind i ≠ .directory ∧ fs.inode tgt = none ∧
        fs.link src tgt = (.ok (), fs.put tgt (some i))) := by
  unfold link
  cases hsrc : fs.inode src with
  | none => exact .inl ⟨⟨_, rfl⟩, rfl⟩
  | some i =>
    dsimp only
    split_ifs with hki hre ht
    · exact .inl ⟨⟨_, rfl⟩, rfl⟩
    · exact .inl ⟨⟨_, rfl⟩, rfl⟩
    · exact .inl ⟨⟨_, rfl⟩, rfl⟩
    · exact .inr ⟨i, rfl, hki, by simpa using ht, rfl⟩

/-- The file of the name `source` has the name `target`. It lost its name `source`, unless both were
names of it. -/
structure Moved (source target : P) (fs' : Names P) : Prop where
  exists_source : ∃ i, fs.inode source = some i
  inode_target : fs'.inode target = fs.inode source
  frame : ∀ p, p ≠ source → p ≠ target → fs'.inode p = fs.inode p
  inode_source : fs'.inode source = fs.inode source ∨ fs'.inode source = none
  source_of_free : fs.inode target = none → fs'.inode source = none

variable {fs} in
lemma Moved.put {src tgt : P} {i : ℕ} (hne : src ≠ tgt) (hsrc : fs.inode src = some i) :
    fs.Moved src tgt ((fs.put src none).put tgt (some i)) := by
  have hlo : ((fs.put src none).put tgt (some i)).inode src = none := by
    rw [inode_put_of_ne _ hne, inode_put_self]
  refine ⟨⟨i, hsrc⟩, ?_, fun p hp hp' => ?_, .inr hlo, fun _ => hlo⟩
  · rw [inode_put_self, hsrc]
  · rw [inode_put_of_ne _ hp', inode_put_of_ne _ hp]

lemma rename_cases {src tgt : P} (hne : src ≠ tgt) : fs.Unchanged (fs.rename src tgt) ∨
      ∃ fs', fs.rename src tgt = (.ok (), fs') ∧ fs.Moved src tgt fs' := by
  unfold rename
  cases hsrc : fs.inode src with
  | none => exact .inl ⟨⟨_, rfl⟩, rfl⟩
  | some i =>
    dsimp only
    split_ifs with hki hre
    · exact .inl ⟨⟨_, rfl⟩, rfl⟩
    · exact .inl ⟨⟨_, rfl⟩, rfl⟩
    · cases ht : fs.inode tgt with
      | none => exact .inr ⟨_, rfl, .put hne hsrc⟩
      | some j =>
        dsimp only
        split_ifs with hsm hdir
        · subst hsm
          refine .inr ⟨_, rfl, ⟨i, hsrc⟩, ht.trans hsrc.symm, fun _ _ _ => rfl,
            .inl rfl, fun hno => ?_⟩
          rw [ht] at hno
          cases hno
        · exact .inl ⟨⟨_, rfl⟩, rfl⟩
        · exact .inr ⟨_, rfl, .put hne hsrc⟩

lemma unlink_cases (p : P) :
    fs.Unchanged (fs.unlink p) ∨ fs.unlink p = (.ok (), fs.put p none) := by
  unfold unlink
  cases fs.inode p with
  | none => exact .inl ⟨⟨_, rfl⟩, rfl⟩
  | some i =>
    dsimp only
    split_ifs
    · exact .inl ⟨⟨_, rfl⟩, rfl⟩
    · exact .inr rfl

omit [DecidableEq P] in
lemma inode_chmod (p : P) (mode : ℕ) : (fs.chmod p mode).2.inode = fs.inode := by
  unfold chmod
  cases fs.inode p with
  | none => rfl
  | some i =>
    dsimp only
    split_ifs <;> rfl

end Names

end Omg.Fs
