import Omg.Fs.Contained

/-!
# Where a path leads while a disk changes

A path leads to a place, which is a directory and a name in it; the object with this name need not
exist. While objects are made, and while files and links are replaced by files, a path that led to a
place leads to this place or nowhere, and the same holds while entries are removed.
-/

namespace Omg.Fs

open Disk Option

variable {N : Type}

/-- Nodes of the same kind with the same contents. The permissions and the entries of a directory
may differ. -/
def Node.SameContent : Node N → Node N → Prop
  | .directory _ _, .directory _ _ => True
  | .file _ contents, .file _ contents' => contents = contents'
  | .symlink target, .symlink target' => target = target'
  | _, _ => False

namespace Node

lemma SameContent.refl (node : Node N) : node.SameContent node := by
  cases node <;> trivial

lemma SameContent.trans {a b c : Node N} (h : a.SameContent b) (h' : b.SameContent c) :
    a.SameContent c := by
  cases a <;> cases b <;> cases c <;> simp_all [SameContent]

lemma sameContent_chmod (mode : ℕ) (node : Node N) : node.SameContent (node.chmod mode) := by
  cases node <;> trivial

lemma sameContent_alter (f : List (N × ℕ) → List (N × ℕ)) (node : Node N) :
    node.SameContent (node.alter f) := by
  cases node <;> trivial

end Node

namespace Disk

def Intact (disk disk' : Disk N) : Prop :=
  ∀ (i : ℕ) (node : Node N), disk.nodes[i]? = some node →
    ∃ node', disk'.nodes[i]? = some node' ∧ node.SameContent node'

lemma Intact.refl (disk : Disk N) : disk.Intact disk := fun _ node h => ⟨node, h, .refl node⟩

lemma Intact.trans {disk₁ disk₂ disk₃ : Disk N} (h : disk₁.Intact disk₂)
    (h' : disk₂.Intact disk₃) : disk₁.Intact disk₃ := by
  intro i node hnd
  obtain ⟨node₂, hnd₂, hsm⟩ := h i node hnd
  obtain ⟨node₃, hnd₃, hsm'⟩ := h' i node₂ hnd₂
  exact ⟨node₃, hnd₃, hsm.trans hsm'⟩

def Traversable (disk : Disk N) (i : ℕ) : Prop := disk.IsDirectory i ∨ (disk.target i).isSome

variable [DecidableEq N]

def Closed (disk : Disk N) : Prop := ∀ i name j, disk.lookup i name = some j → j < disk.size

/-- The path of a directory, from the location `root`, leads to the directory `i`. -/
def Leads (disk : Disk N) (links : ℕ) (root : Location N) (path : List N) (i : ℕ) : Prop :=
  ∃ loc, (disk.walk links root (components path)).2 = .ok loc ∧ disk.IsDirectory loc.inode ∧
    loc.inode = i

def directoryAt (disk : Disk N) (links : ℕ) (root : Location N) (path : List N) : Except Errno ℕ :=
  match (disk.walk links root (components path)).2 with
  | .error e => .error e
  | .ok loc => if disk.IsDirectory loc.inode then .ok loc.inode else .error .notADirectory

lemma directoryAt_eq_ok {disk : Disk N} {links i : ℕ} {root : Location N} {path : List N} :
    disk.directoryAt links root path = .ok i ↔ disk.Leads links root path i := by
  unfold directoryAt Leads
  cases (disk.walk links root (components path)).2 with
  | error e => simp
  | ok loc =>
    by_cases hdir : disk.IsDirectory loc.inode
    · simp [hdir]
    · simp [hdir]

lemma walkWith_ne_alreadyExists {disk : Disk N} {follow : Location N → List (Component N) → Walk N}
    (hfol : ∀ loc path, (follow loc path).2 ≠ .error .alreadyExists) (loc : Location N)
    (path : List (Component N)) : (disk.walkWith follow loc path).2 ≠ .error .alreadyExists := by
  induction path generalizing loc with
  | nil => simp [walkWith]
  | cons c rest ih =>
    unfold walkWith
    cases disk.entries loc.inode with
    | none => simp
    | some es =>
      simp only [Walk.after]
      cases c with
      | curDir => exact ih loc
      | parentDir => exact ih loc.tail
      | rootDir => exact ih []
      | normal name =>
        simp only
        cases es.lookup name with
        | none => simp
        | some i =>
          simp only
          cases disk.target i with
          | some tgt => exact hfol loc _
          | none => exact ih _

lemma directoryAt_ne_alreadyExists {disk : Disk N} {links : ℕ} {root : Location N}
    {path : List N} : disk.directoryAt links root path ≠ .error .alreadyExists := by
  have hwk : ∀ loc path, (disk.walk links loc path).2 ≠ .error .alreadyExists := by
    induction links with
    | zero => exact walkWith_ne_alreadyExists fun _ _ => nofun
    | succ links ih => exact walkWith_ne_alreadyExists ih
  have hne := hwk root (components path)
  unfold directoryAt
  split
  · next e he =>
    rw [he] at hne
    intro heq
    cases heq
    exact hne rfl
  · split_ifs <;> nofun

/-! ### Resolution in three disks -/

section

variable {d₀ d₁ d₂ : Disk N}

/-- What is looked into in the last disk, and was there in the first one, is there in between. -/
structure Between (d₀ d₁ d₂ : Disk N) : Prop where
  lookup : ∀ {i name j j'}, d₀.lookup i name = some j → d₂.lookup i name = some j' →
    d₂.Traversable j' → j' = j ∧ d₁.lookup i name = some j
  target : ∀ {i name j}, d₀.lookup i name = some j → d₂.Traversable j →
    d₀.target j = d₂.target j ∧ d₁.target j = d₂.target j
  isDirectory : ∀ {i}, d₀.IsDirectory i → d₂.IsDirectory i → d₁.IsDirectory i

lemma walkWith_between (h : Between d₀ d₁ d₂) {f₀ f₁ f₂ : Location N → List (Component N) → Walk N}
    (hf : ∀ {loc path l l'}, (f₀ loc path).2 = .ok l → (f₂ loc path).2 = .ok l' →
      d₂.IsDirectory l'.inode → (f₁ loc path).2 = .ok l ∧ l' = l)
    {loc l l' : Location N} {path : List (Component N)}
    (h₀ : (d₀.walkWith f₀ loc path).2 = .ok l) (h₂ : (d₂.walkWith f₂ loc path).2 = .ok l')
    (hdir : d₂.IsDirectory l'.inode) : (d₁.walkWith f₁ loc path).2 = .ok l ∧ l' = l := by
  induction path generalizing loc with
  | nil =>
    cases h₀
    cases h₂
    exact ⟨rfl, rfl⟩
  | cons c rest ih =>
    unfold walkWith at h₀ h₂ ⊢
    cases hes₀ : d₀.entries loc.inode with
    | none => simp [hes₀] at h₀
    | some entries₀ =>
    cases hes₂ : d₂.entries loc.inode with
    | none => simp [hes₂] at h₂
    | some entries₂ =>
    have hloc₀ : d₀.IsDirectory loc.inode := by simp [IsDirectory, hes₀]
    have hloc₂ : d₂.IsDirectory loc.inode := by simp [IsDirectory, hes₂]
    obtain ⟨entries₁, hes₁⟩ := isSome_iff_exists.mp (h.isDirectory hloc₀ hloc₂)
    simp only [hes₀, hes₂, hes₁, Walk.after] at h₀ h₂ ⊢
    cases c with
    | normal name =>
      cases hn₀ : entries₀.lookup name with
      | none => simp [hn₀] at h₀
      | some i =>
      cases hn₂ : entries₂.lookup name with
      | none => simp [hn₂] at h₂
      | some i' =>
      have hlk₀ : d₀.lookup loc.inode name = some i := (lookup_eq hes₀ name).trans hn₀
      have hlk₂ : d₂.lookup loc.inode name = some i' := (lookup_eq hes₂ name).trans hn₂
      by_cases htr : d₂.Traversable i'
      · obtain ⟨rfl, hlk₁⟩ := h.lookup hlk₀ hlk₂ htr
        obtain ⟨ht₀, ht₁⟩ := h.target hlk₀ htr
        rw [lookup_eq hes₁] at hlk₁
        simp only [hn₀, hn₂, hlk₁, ht₀, ht₁] at h₀ h₂ ⊢
        cases ht₂ : d₂.target i' with
        | some tgt =>
          simp only [ht₂] at h₀ h₂ ⊢
          exact hf h₀ h₂ hdir
        | none =>
          simp only [ht₂] at h₀ h₂ ⊢
          exact ih h₀ h₂
      · -- A file is the end of the resolution, and it is no directory.
        obtain ⟨hnotDir, ht₂⟩ := not_or.mp htr
        rw [not_isSome_iff_eq_none] at ht₂
        simp only [hn₂, ht₂] at h₂
        cases rest with
        | nil =>
          cases h₂
          exact absurd hdir hnotDir
        | cons c' rest =>
          have hno : d₂.entries i' = none := by simpa [IsDirectory] using hnotDir
          unfold walkWith at h₂
          simp [Location.inode_cons, hno] at h₂
    | _ => exact ih h₀ h₂

lemma walk_between (h : Between d₀ d₁ d₂) {links : ℕ} {loc l l' : Location N}
    {path : List (Component N)} (h₀ : (d₀.walk links loc path).2 = .ok l)
    (h₂ : (d₂.walk links loc path).2 = .ok l') (hdir : d₂.IsDirectory l'.inode) :
    (d₁.walk links loc path).2 = .ok l ∧ l' = l := by
  induction links generalizing loc path l l' with
  | zero =>
    refine walkWith_between h ?_ h₀ h₂ hdir
    intro loc path l l' hl
    cases hl
  | succ links ih => exact walkWith_between h ih h₀ h₂ hdir

end

end Disk

/-! ### Growing and shrinking -/

variable [DecidableEq N] {d d₀ d₁ d₂ d' : Disk N}

structure Grows (d d' : Disk N) : Prop where
  size_le : d.size ≤ d'.size
  lookup : ∀ {i name j}, d.lookup i name = some j →
    d'.lookup i name = some j ∨ ∃ j', d'.lookup i name = some j' ∧ ¬d'.Traversable j'
  target : ∀ {i}, i < d.size → d'.target i = d.target i
  isDirectory : ∀ {i}, i < d.size → (d'.IsDirectory i ↔ d.IsDirectory i)

structure Shrinks (d d' : Disk N) : Prop where
  lookup : ∀ {i name j}, d'.lookup i name = some j → d.lookup i name = some j
  target : ∀ i, d'.target i = d.target i
  isDirectory : ∀ i, d'.IsDirectory i ↔ d.IsDirectory i

lemma Grows.refl (d : Disk N) : Grows d d :=
  ⟨le_refl _, .inl, fun _ => rfl, fun _ => .rfl⟩

lemma Grows.traversable_iff (h : Grows d d') {i : ℕ} (hi : i < d.size) :
    d'.Traversable i ↔ d.Traversable i := by
  rw [Disk.Traversable, Disk.Traversable, h.isDirectory hi, h.target hi]

lemma Grows.trans (h : Grows d₀ d₁) (h' : Grows d₁ d₂) (hcl : d₁.Closed) : Grows d₀ d₂ where
  size_le := h.size_le.trans h'.size_le
  lookup := by
    intro i name j hj
    rcases h.lookup hj with hj | ⟨j', hj', hf⟩
    · exact h'.lookup hj
    · rcases h'.lookup hj' with hj'' | hrpl
      · exact .inr ⟨j', hj'', by rwa [h'.traversable_iff (hcl _ _ _ hj')]⟩
      · exact .inr hrpl
  target hi := (h'.target (hi.trans_le h.size_le)).trans (h.target hi)
  isDirectory hi := (h'.isDirectory (hi.trans_le h.size_le)).trans (h.isDirectory hi)

lemma Shrinks.refl (d : Disk N) : Shrinks d d := ⟨fun h => h, fun _ => rfl, fun _ => .rfl⟩

lemma Shrinks.trans (h : Shrinks d₀ d₁) (h' : Shrinks d₁ d₂) : Shrinks d₀ d₂ :=
  ⟨fun hj => h.lookup (h'.lookup hj), fun i => (h'.target i).trans (h.target i),
    fun i => (h'.isDirectory i).trans (h.isDirectory i)⟩

lemma Grows.between (h : Grows d₀ d₁) (h' : Grows d₁ d₂) (hcl₀ : d₀.Closed)
    (hcl₁ : d₁.Closed) : Between d₀ d₁ d₂ where
  lookup := by
    intro i name j j' hj hj' htr
    rcases h.lookup hj with hj₁ | ⟨k, hk, hf⟩
    · rcases h'.lookup hj₁ with hj₂ | ⟨k, hk, hf⟩
      · rw [hj'] at hj₂
        exact ⟨some.inj hj₂, hj₁⟩
      · rw [hj'] at hk
        exact absurd (some.inj hk ▸ htr) hf
    · rcases h'.lookup hk with hk₂ | ⟨k', hk', hf'⟩
      · rw [hj'] at hk₂
        obtain rfl := some.inj hk₂
        exact absurd ((h'.traversable_iff (hcl₁ _ _ _ hk)).mp htr) hf
      · rw [hj'] at hk'
        exact absurd (some.inj hk' ▸ htr) hf'
  target := by
    intro i name j hj _
    have hlt := hcl₀ _ _ _ hj
    have hsm := h'.target (hlt.trans_le h.size_le)
    exact ⟨(hsm.trans (h.target hlt)).symm, hsm.symm⟩
  isDirectory := by
    intro i hi _
    exact (h.isDirectory (lt_size_of_isDirectory hi)).mpr hi

lemma Grows.between_shrinks (h : Grows d₀ d₁) (h' : Shrinks d₁ d₂) (hcl₀ : d₀.Closed) :
    Between d₀ d₁ d₂ where
  lookup := by
    intro i name j j' hj hj' htr
    rcases h.lookup hj with hj₁ | ⟨k, hk, hf⟩
    · rw [h'.lookup hj'] at hj₁
      exact ⟨some.inj hj₁, by rw [h'.lookup hj', hj₁]⟩
    · rw [h'.lookup hj'] at hk
      obtain rfl := some.inj hk
      rw [Disk.Traversable, h'.isDirectory, h'.target] at htr
      exact absurd htr hf
  target := by
    intro i name j hj _
    exact ⟨((h'.target j).trans (h.target (hcl₀ _ _ _ hj))).symm, (h'.target j).symm⟩
  isDirectory := by
    intro i hi _
    exact (h.isDirectory (lt_size_of_isDirectory hi)).mpr hi

section

variable {links i i' : ℕ} {root : Location N} {path : List N}

lemma Disk.Leads.between (h : Between d₀ d₁ d₂) (h₀ : d₀.Leads links root path i)
    (h₂ : d₂.Leads links root path i') : d₁.Leads links root path i ∧ i' = i := by
  obtain ⟨loc, hloc, hdir, rfl⟩ := h₀
  obtain ⟨loc', hloc', hdir', rfl⟩ := h₂
  obtain ⟨hloc₁, rfl⟩ := walk_between h hloc hloc' hdir'
  exact ⟨⟨loc', hloc₁, h.isDirectory hdir hdir', rfl⟩, rfl⟩

lemma Disk.Leads.isDirectory (h : d.Leads links root path i) : d.IsDirectory i := by
  obtain ⟨loc, -, hdir, rfl⟩ := h
  exact hdir

end

/-! ### Steps -/

/-- The entry `name` of the directory `i` is replaced. -/
def Disk.replace (d : Disk N) (i : ℕ) (name : N) (j : ℕ) : Disk N := (d.remove i name).add i name j

section

variable {i j : ℕ} {name : N}

lemma grows_update {g : Node N → Node N} (hg : Node.KeepsShape g) : Grows d (d.update i g) where
  size_le := size_update.ge
  lookup h := .inl ((lookup_update_of_keepsShape hg _ _).trans h)
  target _ := target_update (fun node => (hg node).2) _
  isDirectory _ := isDirectory_update (f := id) (fun node => by simp [(hg node).1]) _

lemma grows_grow {node : Node N} (hnd : ∀ es, node.entries = some es → es = []) :
    Grows d (d.grow node) where
  size_le := by
    rw [size_grow]
    exact Nat.le_succ _
  lookup h := .inl ((lookup_grow hnd _ _).trans h)
  target hi := by rw [target_grow, if_neg (Nat.ne_of_lt hi)]
  isDirectory hi := by rw [isDirectory_grow, if_neg (Nat.ne_of_lt hi)]

lemma grows_add (hi : d.IsDirectory i) (hno : d.lookup i name = none) :
    Grows d (d.add i name j) where
  size_le := size_update.ge
  lookup := by
    intro k y j' h
    rw [lookup_add hi]
    by_cases hk : k = i ∧ y = name
    · rw [hk.1, hk.2, hno] at h
      cases h
    · rw [if_neg hk]
      exact .inl h
  target _ := target_update (Node.target_alter _) _
  isDirectory _ := isDirectory_update (Node.entries_alter _) _

lemma isDirectory_remove (k : ℕ) : (d.remove i name).IsDirectory k ↔ d.IsDirectory k :=
  isDirectory_update (Node.entries_alter _) k

lemma lookup_replace (hi : d.IsDirectory i) (k : ℕ) (y : N) :
    (d.replace i name j).lookup k y = if k = i ∧ y = name then some j else d.lookup k y := by
  rw [replace, lookup_add ((isDirectory_remove i).mpr hi), lookup_remove]
  split_ifs <;> rfl

lemma target_replace (k : ℕ) : (d.replace i name j).target k = d.target k := by
  rw [replace, add, target_update (Node.target_alter _), remove,
    target_update (Node.target_alter _)]

lemma isDirectory_replace (k : ℕ) : (d.replace i name j).IsDirectory k ↔ d.IsDirectory k :=
  (isDirectory_update (Node.entries_alter _) k).trans (isDirectory_remove k)

lemma size_replace : (d.replace i name j).size = d.size := by
  rw [replace, add, size_update, remove, size_update]

lemma grows_replace (hi : d.IsDirectory i) (hj : ¬d.Traversable j) :
    Grows d (d.replace i name j) where
  size_le := size_replace.ge
  lookup := by
    intro k y j' h
    rw [lookup_replace hi]
    by_cases hk : k = i ∧ y = name
    · rw [if_pos hk]
      refine .inr ⟨j, rfl, ?_⟩
      rwa [Disk.Traversable, isDirectory_replace, target_replace]
    · rw [if_neg hk]
      exact .inl h
  target _ := target_replace _
  isDirectory _ := isDirectory_replace _

lemma shrinks_remove : Shrinks d (d.remove i name) where
  lookup := by
    intro k y j h
    rw [lookup_remove] at h
    split_ifs at h
    exact h
  target k := target_update (Node.target_alter _) k
  isDirectory k := isDirectory_remove k

end

/-!
### Entries that survive

A list of paths is recorded while objects are made on a disk, and later the objects at these paths
are removed, directories only if they are empty. An entry that was on the disk before, and has not
been replaced, survives this if no recorded path leads to it, or if it is a directory that holds
another such entry.
-/

variable {N : Type} [DecidableEq N] {o d d' : Disk N} {i : ℕ} {name : N}

def Kept (d₀ d : Disk N) (i : ℕ) (name : N) : Prop :=
  ∃ j, d₀.lookup i name = some j ∧ d.lookup i name = some j

def HoldsKept (d₀ d : Disk N) (i : ℕ) : Prop := ∃ name, Kept d₀ d i name

def SafePlace (d₀ d : Disk N) (i : ℕ) (name : N) : Prop :=
  ∀ j, d₀.lookup i name = some j → d.lookup i name = some j → d.IsDirectory j ∧ HoldsKept d₀ d j

/-- A path that has led to a directory since it was recorded, or nowhere, and the place in this
directory is safe. -/
def Settled (links : ℕ) (root : Location N) (d₀ d : Disk N) (parent : List N) (name : N) : Prop :=
  ∃ (dᵣ : Disk N) (i : ℕ), dᵣ.Closed ∧ Grows dᵣ d ∧ dᵣ.Leads links root parent i ∧
    (d.Leads links root parent i → SafePlace d₀ d i name)

structure Extends (d d' : Disk N) : Prop extends Grows d d' where
  keeps : ∀ {i name j}, d.lookup i name = some j → d'.lookup i name = some j

lemma Extends.kept_iff (h : Extends d d') (h₀ : Grows o d) :
    Kept o d' i name ↔ Kept o d i name := by
  constructor
  · rintro ⟨j, hj₀, hj'⟩
    have hso : ∃ k, d.lookup i name = some k := by
      rcases h₀.lookup hj₀ with hj | ⟨k, hk, -⟩
      · exact ⟨j, hj⟩
      · exact ⟨k, hk⟩
    obtain ⟨k, hk⟩ := hso
    rw [h.keeps hk] at hj'
    exact ⟨j, hj₀, hk.trans hj'⟩
  · rintro ⟨j, hj₀, hj⟩
    exact ⟨j, hj₀, h.keeps hj⟩

lemma Extends.safePlace (h : Extends d d') (h₀ : Grows o d) (hcl : d.Closed)
    (hsa : SafePlace o d i name) : SafePlace o d' i name := by
  intro j hj₀ hj'
  obtain ⟨k, hk₀, hk⟩ := (h.kept_iff h₀).mp ⟨j, hj₀, hj'⟩
  obtain rfl : j = k := Option.some.inj (hj₀.symm.trans hk₀)
  obtain ⟨hdir, y, hy⟩ := hsa j hj₀ hk
  exact ⟨(h.isDirectory (hcl _ _ _ hk)).mpr hdir, y, (h.kept_iff h₀).mpr hy⟩

lemma safePlace_of_not_kept (h : ¬Kept o d i name) : SafePlace o d i name :=
  fun j hj₀ hj => absurd ⟨j, hj₀, hj⟩ h

/-! ### Recorded paths -/

section

variable {links : ℕ} {root : Location N} {parent : List N} {name : N}

lemma settled_of_leads (hcl : d.Closed) {i : ℕ} (hle : d.Leads links root parent i)
    (hsa : SafePlace o d i name) : Settled links root o d parent name :=
  ⟨d, i, hcl, .refl d, hle, fun _ => hsa⟩

lemma Settled.mono (h : Settled links root o d parent name) (hgw : Grows d d')
    (hcl : d.Closed) (hsa : ∀ i, d.Leads links root parent i → SafePlace o d i name →
      SafePlace o d' i name) : Settled links root o d' parent name := by
  obtain ⟨dᵣ, i, hclosedᵣ, hgrowsᵣ, hleadsᵣ, hpla⟩ := h
  refine ⟨dᵣ, i, hclosedᵣ, hgrowsᵣ.trans hgw hcl, hleadsᵣ, fun hle' => ?_⟩
  have hle := (hleadsᵣ.between (hgrowsᵣ.between hgw hclosedᵣ hcl) hle').1
  exact hsa i hle (hpla hle)

lemma Settled.extend (h : Settled links root o d parent name) (hext : Extends d d')
    (h₀ : Grows o d) (hcl : d.Closed) : Settled links root o d' parent name :=
  h.mono hext.toGrows hcl fun _ _ hsa => hext.safePlace h₀ hcl hsa

lemma kept_replace {i k : ℕ} {y : N} (hi : d.IsDirectory i) (hk : ∀ a b, o.lookup a b ≠ some k)
    {a : ℕ} {b : N} : Kept o (d.replace i y k) a b ↔ Kept o d a b ∧ ¬(a = i ∧ b = y) := by
  by_cases hab : a = i ∧ b = y
  · refine iff_of_false ?_ fun h => h.2 hab
    rintro ⟨j, hj₀, hj⟩
    rw [lookup_replace hi, if_pos hab] at hj
    exact hk a b (hj₀.trans hj.symm)
  · rw [Kept, Kept, lookup_replace hi, if_neg hab, and_iff_left hab]

lemma Settled.replace (h : Settled links root o d parent name) {i k : ℕ} {y : N}
    (hi : d.IsDirectory i) (hf : ¬d.Traversable k) (hk : ∀ a b, o.lookup a b ≠ some k)
    (hcl : d.Closed) (hot : Kept o d i y → (∃ y', y' ≠ y ∧ Kept o d i y') ∨
      ∀ a, d.Leads links root parent a → d.lookup a name ≠ some i) :
    Settled links root o (d.replace i y k) parent name := by
  refine h.mono (grows_replace hi hf) hcl fun a hle hsa j hj₀ hj => ?_
  obtain ⟨⟨j', hj₀', hj'⟩, -⟩ := (kept_replace hi hk).mp ⟨j, hj₀, hj⟩
  obtain rfl : j = j' := Option.some.inj (hj₀.symm.trans hj₀')
  obtain ⟨hdir, y', hy'⟩ := hsa j hj₀ hj'
  refine ⟨(isDirectory_replace j).mpr hdir, ?_⟩
  by_cases hrpl : j = i ∧ y' = y
  · obtain ⟨rfl, rfl⟩ := hrpl
    rcases hot hy' with ⟨y'', hne, hy''⟩ | hno
    · exact ⟨y'', (kept_replace hi hk).mpr ⟨hy'', fun heq => hne heq.2⟩⟩
    · exact absurd hj' (hno a hle)
  · exact ⟨y', (kept_replace hi hk).mpr ⟨hy', hrpl⟩⟩

lemma Settled.not_kept (h : Settled links root o d parent name) (hshr : Shrinks d d')
    (hke : ∀ i name, Kept o d i name → Kept o d' i name) {i j : ℕ}
    (hle : d'.Leads links root parent i) (hj : d'.lookup i name = some j)
    (hrem : d'.IsDirectory j → d'.entries j = some []) : ¬Kept o d i name := by
  obtain ⟨dᵣ, iᵣ, hclosedᵣ, hgrowsᵣ, hleadsᵣ, hpla⟩ := h
  obtain ⟨hle₁, rfl⟩ := hleadsᵣ.between (hgrowsᵣ.between_shrinks hshr hclosedᵣ) hle
  rintro ⟨j', hj₀, hj'⟩
  obtain rfl : j = j' := Option.some.inj ((hshr.lookup hj).symm.trans hj')
  obtain ⟨hdir, y, hy⟩ := hpla hle₁ j hj₀ hj'
  obtain ⟨k, -, hk⟩ := hke j y hy
  rw [lookup_eq (hrem ((hshr.isDirectory j).mpr hdir))] at hk
  cases hk

end

/-! ### Steps -/

section

variable {i j : ℕ} {name : N} {g : Node N → Node N} {node : Node N}

lemma extends_update (hg : Node.KeepsShape g) : Extends d (d.update i g) where
  toGrows := grows_update hg
  keeps h := (lookup_update_of_keepsShape hg _ _).trans h

lemma extends_grow (hnd : ∀ es, node.entries = some es → es = []) : Extends d (d.grow node) where
  toGrows := grows_grow hnd
  keeps h := (lookup_grow hnd _ _).trans h

lemma extends_add (hi : d.IsDirectory i) (hno : d.lookup i name = none) :
    Extends d (d.add i name j) where
  toGrows := grows_add hi hno
  keeps := by
    intro k y j' h
    rw [lookup_add hi, if_neg]
    · exact h
    · rintro ⟨rfl, rfl⟩
      rw [hno] at h
      cases h

lemma closed_update (h : d.Closed) (hg : Node.KeepsShape g) : (d.update i g).Closed := by
  intro k y j hj
  rw [lookup_update_of_keepsShape hg] at hj
  rw [size_update]
  exact h k y j hj

lemma closed_grow (h : d.Closed) (hnd : ∀ es, node.entries = some es → es = []) :
    (d.grow node).Closed := by
  intro k y j hj
  rw [lookup_grow hnd] at hj
  rw [size_grow]
  exact (h k y j hj).trans (Nat.lt_succ_self _)

lemma closed_add (h : d.Closed) (hi : d.IsDirectory i) (hj : j < d.size) :
    (d.add i name j).Closed := by
  intro k y j' hj'
  rw [lookup_add hi] at hj'
  rw [add, size_update]
  split_ifs at hj'
  · cases hj'
    exact hj
  · exact h k y j' hj'

lemma closed_replace (h : d.Closed) (hi : d.IsDirectory i) (hj : j < d.size) :
    (d.replace i name j).Closed := by
  intro k y j' hj'
  rw [lookup_replace hi] at hj'
  rw [size_replace]
  split_ifs at hj'
  · cases hj'
    exact hj
  · exact h k y j' hj'

omit [DecidableEq N] in
lemma Disk.intact_update (hg : ∀ node : Node N, node.SameContent (g node)) :
    d.Intact (d.update i g) := by
  intro k node hnd
  by_cases hk : k = i
  · subst hk
    exact ⟨g node, by rw [nodes_update_self, hnd]; rfl, hg node⟩
  · exact ⟨node, by rw [nodes_update_of_ne hk, hnd], .refl node⟩

omit [DecidableEq N] in
lemma Disk.intact_grow : d.Intact (d.grow node) := by
  intro k node' hnd
  refine ⟨node', ?_, .refl node'⟩
  have hlt : k < d.size := (List.getElem?_eq_some_iff.mp hnd).1
  rw [nodes_grow, if_neg (Nat.ne_of_lt hlt), hnd]

omit [DecidableEq N] in
lemma Disk.Intact.update_new (h : o.Intact d) (hi : o.size ≤ i) : o.Intact (d.update i g) := by
  intro k node hnd
  obtain ⟨node', hnd', hsm⟩ := h k node hnd
  have hlt : k < o.size := (List.getElem?_eq_some_iff.mp hnd).1
  exact ⟨node', by rw [nodes_update_of_ne (by omega), hnd'], hsm⟩

omit [DecidableEq N] in
lemma Disk.intact_add : d.Intact (d.add i name j) := intact_update (Node.sameContent_alter _)

lemma Disk.intact_remove : d.Intact (d.remove i name) := intact_update (Node.sameContent_alter _)

lemma Disk.intact_replace : d.Intact (d.replace i name j) := intact_remove.trans intact_add

end

end Omg.Fs
