import Omg.Runtime.Extract

/-!
# Extraction stays below its destination

Until the last entry has been read there are no symbolic links below the destination, so that every
path is resolved through directories that the extractor made. The links are made in such
directories, at names that are free, and nothing is written after the first of them.
-/

namespace Omg.Runtime

open Control Fs Text List Disk Steps Node RelPath

namespace Extraction

variable (x : Extraction) (disk₀ : Disk OsString)

/-- The disk was changed below the destination only, and only there it was searched by calls other
than `canonicalize`. -/
structure Safe (w : World) : Prop where
  tree : Tree disk₀ x.dest w.disk
  entered : ∀ i ∈ w.entered, Inside disk₀ x.dest i

def Direct (path : List OsString) (disk : Disk OsString) : Prop :=
  NoLinks disk₀ disk ∨ ∃ loc, disk.descend x.dest path = some loc

structure Building (disk₁ : Disk OsString) (w : World) : Prop where
  noLinks : NoLinks disk₀ w.disk
  keeps : Keeps disk₁ w.disk

/-- What is assumed of `Entry::unpack`. When it is called while there are no symbolic links below
the destination, every step of it changes and searches the disk below the destination only, it
leaves no symbolic links there, and the directories stay where they are. -/
structure UnpackContained (unpack : Unpack) : Prop where
  safe : ∀ entry p fails (h : History World), (∀ w ∈ h.states, x.Safe disk₀ w) →
    NoLinks disk₀ h.now.disk → ∀ w ∈ (unpack entry p fails h).2.states, x.Safe disk₀ w
  noLinks : ∀ entry p fails (h : History World), (∀ w ∈ h.states, x.Safe disk₀ w) →
    NoLinks disk₀ h.now.disk → NoLinks disk₀ (unpack entry p fails h).2.now.disk
  keeps : ∀ entry p fails (h : History World), (∀ w ∈ h.states, x.Safe disk₀ w) →
    NoLinks disk₀ h.now.disk → Keeps h.now.disk (unpack entry p fails h).2.now.disk

variable {x} {old : Disk OsString} {w : World} {path : List OsString} {E : Errno → World → Prop}
  {links : List PendingArchiveLink} {paths : List (List OsString)}

/-! ### Calls -/

lemma Safe.noLinks_walk (h : x.Safe old w) (hlin : NoLinks old w.disk) (path : List OsString) :
    (∀ i ∈ (w.disk.walk x.maxLinks x.dest (Disk.components path)).1, Inside old x.dest i) ∧
      ∀ loc, (w.disk.walk x.maxLinks x.dest (Disk.components path)).2 = .ok loc →
        w.disk.IsDirectory loc.inode → w.disk.descend x.dest path = some loc := by
  have hde : w.disk.descend x.dest [] = some x.dest := rfl
  obtain ⟨hsr, hres⟩ := hlin.walk h.tree hde x.maxLinks path.reverse
  refine ⟨hsr, fun loc hloc => ?_⟩
  have hdescend := (hres loc hloc).2
  rwa [reverse_reverse, append_nil] at hdescend

lemma Safe.walk (h : x.Safe old w) (hpt : x.Direct old path w.disk) :
    (∀ i ∈ (w.disk.walk x.maxLinks x.dest (Disk.components path)).1, Inside old x.dest i) ∧
      ∀ loc, (w.disk.walk x.maxLinks x.dest (Disk.components path)).2 = .ok loc →
        w.disk.IsDirectory loc.inode → w.disk.descend x.dest path = some loc := by
  rcases hpt with hlin | ⟨loc, hloc⟩
  · exact h.noLinks_walk hlin path
  · obtain ⟨hres, hsr⟩ := Disk.walk_of_descend hloc x.maxLinks []
    rw [append_nil, Disk.walk_nil] at hres hsr
    refine ⟨fun i hi => ?_, fun loc' hloc' _ => ?_⟩
    · rcases hsr i hi with hi | ⟨path', par, hpa, rfl⟩
      · cases hi
      · exact h.tree.inside_of_descend hpa
    · rw [hres] at hloc'
      cases hloc'
      exact hloc

lemma Safe.resolved {α : Type} {act : Location OsString → World → Except Errno α × World}
    {Q : α → World → Prop} (h : x.Safe old w)
    (hsr : ∀ i ∈ (w.disk.walk x.maxLinks x.dest (Disk.components path)).1, Inside old x.dest i)
    (her : ∀ e w', w'.disk = w.disk → E e w')
    (hact : ∀ loc w', (w.disk.walk x.maxLinks x.dest (Disk.components path)).2 = .ok loc → w'.disk =
      w.disk → x.Safe old w' → Steps.Ends (x.Safe old) Q E (act loc w')) :
    Steps.Ends (x.Safe old) Q E (x.resolved path act w) := by
  unfold Extraction.resolved
  generalize w.disk.walk x.maxLinks x.dest (Disk.components path) = r at hsr hact
  obtain ⟨searched, res⟩ := r
  have hsa : x.Safe old { w with entered := searched ++ w.entered } :=
    ⟨h.tree, forall_mem_append.mpr ⟨hsr, h.entered⟩⟩
  cases res with
  | error e => exact .error hsa (her e _ rfl)
  | ok loc => exact hact loc _ rfl rfl hsa

lemma Safe.inDirectory {α : Type} {act : Location OsString → World → Except Errno α × World}
    {Q : α → World → Prop} (h : x.Safe old w) (hpt : x.Direct old path w.disk)
    (her : ∀ e w', w'.disk = w.disk → E e w')
    (hact : ∀ par w', w.disk.descend x.dest path = some par → w'.disk = w.disk → x.Safe old
      w' → Ends (x.Safe old) Q E (act par w')) :
    Ends (x.Safe old) Q E (x.inDirectory path act w) := by
  obtain ⟨hsr, hres⟩ := h.walk hpt
  refine h.resolved hsr her fun loc w' hloc hd hsa => ?_
  split_ifs with hdir
  · rw [hd] at hdir
    exact hact loc w' (hres loc hloc hdir) hd hsa
  · exact .error hsa (her _ w' hd)

lemma satisfies_create {p : RelPath} {node : Node OsString} {P : World → Prop}
    {Q : ℕ → World → Prop} (hnd : ∀ es, node.entries = some es → es = [])
    (hpt : ∀ w, x.Safe old w → P w → x.Direct old p.parent w.disk)
    (her : ∀ e w w', x.Safe old w → P w → w'.disk = w.disk → E e w')
    (hok : ∀ w w' par, x.Safe old w → P w → w.disk.descend x.dest p.parent = some par →
      w.disk.lookup par.inode p.name = none → w'.disk = w.disk.make par.inode p.name node → Q
      w.disk.size w') : Satisfies (x.Safe old) P (x.create p node) Q E := by
  refine .step (fun w h hP => her _ w w h hP rfl) fun w h hP => ?_
  refine h.inDirectory (hpt w h hP) (fun e w' hw' => her e w w' h hP hw') ?_
  intro par w' hpa hd hsa
  have hdir := h.tree.isDirectory_of_descend hpa
  cases hlk : w'.disk.lookup par.inode p.name with
  | some j => exact .error hsa (her _ w w' h hP hd)
  | none =>
    rw [hd] at hlk
    refine .ok ⟨?_, hsa.entered⟩ ?_
    · rw [hd]
      exact h.tree.make (h.tree.inside_of_descend hpa) hdir hnd
    · rw [hd]
      exact hok w _ par h hP hpa hlk rfl

/-! ### Before the links -/

section

variable {new : Disk OsString} {p : RelPath} {j : ℕ}

lemma Building.of_disk_eq {w w' : World} (h : Building old new w) (hd : w'.disk = w.disk) :
    Building old new w' :=
  ⟨hd ▸ h.noLinks, hd ▸ h.keeps⟩

lemma satisfies_create_building {node : Node OsString} {Q : ℕ → World → Prop}
    (hnd : ∀ es, node.entries = some es → es = []) (ht : node.target = none)
    (hok : ∀ w w' par, x.Safe old w → w.disk.descend x.dest p.parent = some par →
      w.disk.lookup par.inode p.name = none → Keeps w.disk w'.disk →
      w'.disk = w.disk.make par.inode p.name node → Building old new w' → Q w.disk.size w') :
    Satisfies (x.Safe old) (Building old new) (x.create p node) Q
      (fun _ => Building old new) := by
  refine satisfies_create hnd (fun w _ hP => .inl hP.noLinks)
    (fun e w w' _ hP hd => hP.of_disk_eq hd) ?_
  intro w w' par h hP hpa hno hd
  have hke : Keeps w.disk w'.disk := hd ▸ Keeps.make (h.tree.isDirectory_of_descend hpa) hno hnd
  exact hok w w' par h hpa hno hke hd ⟨hd ▸ hP.noLinks.make ht, hP.keeps.trans hke⟩

lemma satisfies_mkdir (path : List OsString) :
    Satisfies (x.Safe old) (Building old new) (x.mkdir path)
      (fun _ w => Building old new w ∧ ∃ loc, w.disk.descend x.dest path = some loc)
      (fun _ => Building old new) := by
  cases path with
  | nil => exact .step (fun w _ hP => hP) fun w h hP => .error h hP
  | cons name parentPath =>
    have hnd : ∀ es, (directory x.directoryMode [] : Node OsString).entries =
        some es → es = [] := by
      rintro es ⟨⟩
      rfl
    refine .bind (satisfies_create_building hnd rfl ?_) fun _ =>
      .pure fun w _ hw => hw
    intro w w' par h hpa hno hke hd hP
    have hdir := h.tree.isDirectory_of_descend hpa
    refine ⟨hP, _, descend_cons_eq_some.mpr ⟨par, w.disk.size, hke.descend hpa, ?_, ?_, rfl⟩⟩
    · rw [hd, lookup_make hdir hnd, if_pos ⟨rfl, rfl⟩]
    · rw [hd]
      exact isDirectory_make rfl

/-- What `is_dir` finds is a directory below the destination. -/
lemma satisfies_isDir (path : List OsString) :
    Satisfies (x.Safe old) (Building old new) (x.isDir path)
      (fun fd w => Building old new w ∧
        (fd → ∃ loc, w.disk.descend x.dest path = some loc)) (fun _ => Building old new) := by
  refine .tryCatch (.step (fun w _ hP => hP) fun w h hP => ?_)
    fun e => .pure fun w _ hP => ⟨hP, by simp⟩
  obtain ⟨hsr, hres⟩ := h.noLinks_walk hP.noLinks path
  refine h.resolved hsr (fun e w' hd => hP.of_disk_eq hd) ?_
  intro loc w' hloc hd hsa
  refine .ok hsa ⟨hP.of_disk_eq hd, fun hdir => ⟨loc, ?_⟩⟩
  rw [decide_eq_true_eq, hd] at hdir
  rw [hd]
  exact hres loc hloc hdir

lemma satisfies_unlessDir (path : List OsString) (e : Errno) :
    Satisfies (x.Safe old) (Building old new) (x.unlessDir path e)
      (fun _ w => Building old new w ∧ ∃ loc, w.disk.descend x.dest path = some loc)
      (fun _ => Building old new) := by
  refine .bind (satisfies_isDir path) fun fd => ?_
  cases fd with
  | false => exact .throw fun w _ hw => hw.1
  | true => exact .pure fun w _ hw => ⟨hw.1, hw.2 rfl⟩

lemma satisfies_createDirAll (path : List OsString) :
    Satisfies (x.Safe old) (Building old new) (x.createDirAll path)
      (fun _ w => Building old new w ∧ ∃ loc, w.disk.descend x.dest path = some loc)
      (fun _ => Building old new) := by
  induction path with
  | nil => exact .tryCatch (satisfies_mkdir []) (satisfies_unlessDir [])
  | cons name par ih =>
    refine .tryCatch (satisfies_mkdir (name :: par)) fun e => ?_
    split_ifs
    · refine .bind (ih.post fun _ w hw => hw.1) fun _ => ?_
      exact .tryCatch (satisfies_mkdir (name :: par)) (satisfies_unlessDir (name :: par))
    · exact satisfies_unlessDir (name :: par) e

lemma satisfies_io {α : Type} {y : IoM α} {P : World → Prop} {Q : α → World → Prop}
    {E : World → Prop} (hy : Satisfies (x.Safe old) P y Q fun _ => E) :
    Satisfies (x.Safe old) P (io y) Q fun _ => E :=
  hy.mapError fun _ _ hw => hw

lemma UnpackContained.stays {unpack : Unpack} (h : x.UnpackContained old unpack) (entry : Entry)
    (p : RelPath) : Stays (x.Safe old) (Building old new) (unpack entry p) := by
  intro fails history hsafe hbuilding
  have hend : Building old new (unpack entry p fails history).2.now :=
    ⟨h.noLinks entry p fails history hsafe hbuilding.noLinks,
      hbuilding.keeps.trans (h.keeps entry p fails history hsafe hbuilding.noLinks)⟩
  exact ⟨h.safe entry p fails history hsafe hbuilding.noLinks, fun _ _ => hend, fun _ _ => hend⟩

lemma unpackContained_of_stays {unpack : Unpack}
    (h : ∀ new entry p, Stays (x.Safe old) (Building old new) (unpack entry p)) :
    x.UnpackContained old unpack := by
  have hend : ∀ entry p fails (history : History World), (∀ w ∈ history.states, x.Safe old w) →
      NoLinks old history.now.disk →
      (∀ w ∈ (unpack entry p fails history).2.states, x.Safe old w) ∧
        Building old history.now.disk (unpack entry p fails history).2.now := by
    intro entry p fails history hsafe hlinks
    obtain ⟨hstates, hok, herror⟩ :=
      h history.now.disk entry p fails history hsafe ⟨hlinks, .refl _⟩
    refine ⟨hstates, ?_⟩
    cases hrun : (unpack entry p fails history).1 with
    | ok a => exact hok a hrun
    | error e => exact herror e hrun
  exact ⟨fun entry p fails history hsafe hlinks => (hend entry p fails history hsafe hlinks).1,
    fun entry p fails history hsafe hlinks => (hend entry p fails history hsafe hlinks).2.noLinks,
    fun entry p fails history hsafe hlinks => (hend entry p fails history hsafe hlinks).2.keeps⟩

variable (new) in
lemma satisfies_extractEntry {unpack : Unpack} (hunpack : x.UnpackContained old unpack)
    (select : Selector) (entry : Entry) (p : RelPath) :
    Satisfies (x.Safe old) (Building old new) (x.extractEntry unpack select entry p)
      (fun link w => Building old new w ∧
        ∀ l ∈ link, ∃ loc, w.disk.descend x.dest l.path.parent = some loc)
      (fun _ => Building old new) := by
  refine .bind (satisfies_io (satisfies_createDirAll p.parent)) fun _ => ?_
  cases entry.entryType with
  | directory =>
    refine .bind (Q := fun _ => Building old new) ?_ fun _ => .pure fun w _ hP => ⟨hP, by simp⟩
    exact (satisfies_io (satisfies_createDirAll p.path)).mono (fun _ hw => hw.1)
      (fun _ _ hw => hw.1) (fun _ _ hw => hw)
  | regular =>
    refine .bind (Q := fun _ => Building old new) ?_ fun _ => .pure fun w _ hP => ⟨hP, by simp⟩
    exact (hunpack.stays entry p).pre fun _ hw => hw.1
  | symlink =>
    refine .bind (.check fun _ _ hw => hw.1) fun target => ?_
    refine .bind (.check fun _ _ hw => hw.1) fun _ => ?_
    refine .pure fun w _ hw => ⟨hw.1, ?_⟩
    rintro l ⟨⟩
    exact hw.2
  | link =>
    refine .bind (.check fun _ _ hw => hw.1) fun target => ?_
    refine .bind (.check fun _ _ hw => hw.1) fun selected => ?_
    refine .bind (.check fun _ _ hw => hw.1) fun target => ?_
    refine .pure fun w _ hw => ⟨hw.1, ?_⟩
    rintro l ⟨⟩
    exact hw.2
  | other => exact .throw fun w _ hw => hw.1

end

def Pending (x : Extraction) (links : List PendingArchiveLink) (disk : Disk OsString) : Prop :=
  ∀ l ∈ links, ∃ loc, disk.descend x.dest l.path.parent = some loc

lemma Pending.keeps {disk disk' : Disk OsString} (h : x.Pending links disk)
    (hke : Keeps disk disk') : x.Pending links disk' := by
  intro l hl
  obtain ⟨loc, hloc⟩ := h l hl
  exact ⟨loc, hke.descend hloc⟩

lemma satisfies_extractEntries {unpack : Unpack} (hunpack : x.UnpackContained old unpack)
    (select : Selector) (archive : Archive) (budget : ArchiveEntryBudget)
    (pending : List PendingArchiveLink) :
    Satisfies (x.Safe old) (fun w => NoLinks old w.disk ∧ x.Pending pending w.disk)
      (x.extractEntries unpack select budget pending archive)
      (fun links w => NoLinks old w.disk ∧ x.Pending links w.disk) (fun _ _ => True) := by
  induction archive generalizing budget pending with
  | nil => exact .pure fun w _ hw => hw
  | cons item rest ih =>
    cases item with
    | error e => exact .throw fun _ _ _ => trivial
    | ok entry =>
      refine .bind (.check fun _ _ _ => trivial) fun budget => ?_
      refine .bind (.check fun _ _ _ => trivial) fun sel => ?_
      cases sel with
      | none => exact ih budget pending
      | some p =>
        refine .bind ?_ fun lk => ih budget _
        refine .of_forall fun w _ hw => ?_
        refine (satisfies_extractEntry w.disk hunpack select entry p).mono ?_ ?_ fun _ _ _ =>
          trivial
        · rintro w' rfl
          exact ⟨hw.1, .refl _⟩
        · rintro lk w' ⟨hP, hli⟩
          refine ⟨hP.noLinks, fun l hl => ?_⟩
          rcases mem_append.mp hl with hl | hl
          · exact hw.2.keeps hP.keeps l hl
          · exact hli l (Option.mem_toList.mp hl)

/-! ### The links -/

/-- What `canonicalize` returns is the location of something that is not a link. -/
lemma satisfies_canonicalize (hde : Destination old x.dest) {P : World → Prop}
    (hP : ∀ w w' : World, w'.disk = w.disk → P w → P w') (path : List OsString) :
    Steps.Satisfies (x.Safe old) P (x.canonicalize path) (fun loc w => P w ∧ w.disk.Resolved loc ∧
        (w.disk.walk x.maxLinks x.dest (Disk.components path)).2 = .ok loc) (fun _ => P) := by
  refine .step (fun w _ hw => hw) fun w h hw => ⟨⟨h.tree, h.entered⟩, fun loc hloc => ?_,
    fun e _ => hP w _ rfl hw⟩
  have hres : w.disk.Resolved x.dest :=
    ⟨h.tree.valid_dest hde, Disk.target_eq_none_of_isDirectory h.tree.isDirectory_dest⟩
  exact ⟨hP w _ rfl hw, Disk.resolved_of_walk hres hloc, hloc⟩

/-- The links that remain have directories, and the symbolic links that were made are known. -/
structure Linking (x : Extraction) (disk₀ : Disk OsString) (paths : List (List OsString))
    (links : List PendingArchiveLink) (w : World) : Prop where
  recorded : Recorded disk₀ x.dest paths w.disk
  pending : x.Pending links w.disk

lemma Linking.of_disk_eq {w' : World} (hd : w'.disk = w.disk)
    (h : x.Linking old paths links w) : x.Linking old paths links w' :=
  ⟨hd ▸ h.recorded, hd ▸ h.pending⟩

lemma satisfies_symlink {p : RelPath} (hp : p.path ∈ paths) (tgt : OsString) :
    Satisfies (x.Safe old) (x.Linking old paths (.symbolic p tgt :: links))
      (x.symlink tgt p) (fun _ => x.Linking old paths links) (fun _ _ => True) := by
  unfold symlink
  split_ifs
  · exact .throw fun _ _ _ => trivial
  · refine .bind ?_ fun _ => .pure fun w _ hw => hw
    have hnd : ∀ es, (Node.symlink (pathComponents tgt)).entries = some es → es = [] := by
      rintro es ⟨⟩
    refine satisfies_create hnd (fun w _ hw => .inr (hw.pending _ mem_cons_self))
      (fun _ _ _ _ _ _ => trivial) ?_
    intro w w' par h hw hpa hno hd
    have hke : Keeps w.disk w'.disk := hd ▸ Keeps.make (h.tree.isDirectory_of_descend hpa) hno hnd
    refine ⟨hd ▸ hw.recorded.make h.tree hpa hno hp, ?_⟩
    exact fun l hl => hw.pending.keeps hke l (mem_cons_of_mem _ hl)

lemma Safe.suffix_of_names (h : x.Safe old w) (hde : Destination old x.dest)
    {loc : Location OsString} (hloc : w.disk.Resolved loc)
    (hns : x.dest.names.isSuffixOf loc.names) : x.dest <:+ loc :=
  suffix_of_names_suffix hloc.valid (h.tree.valid_dest hde) (isSuffixOf_iff_suffix.mp hns)

lemma satisfies_hardLink (hde : Destination old x.dest) (p tgt : RelPath)
    {file : Location OsString} (hf : x.dest.names.isSuffixOf file.names) :
    Satisfies (x.Safe old)
      (fun w => x.Linking old paths (.hard p tgt :: links) w ∧ w.disk.Resolved file)
      (x.hardLink file p) (fun _ => x.Linking old paths links) (fun _ _ => True) := by
  refine .step (fun _ _ _ => trivial) fun w h hw => ?_
  refine h.inDirectory (.inr (hw.1.pending _ mem_cons_self)) (fun _ _ _ => trivial) ?_
  intro par w' hpa hd hsa
  rw [hd]
  cases hlk : w.disk.lookup par.inode p.name with
  | some j => exact .error hsa trivial
  | none =>
    simp only
    split_ifs with hdir
    · exact .error hsa trivial
    · have hparentDir := h.tree.isDirectory_of_descend hpa
      have hsf := h.suffix_of_names hde hw.2 hf
      have hne : file.inode ≠ x.dest.inode := fun heq => hdir (heq ▸ h.tree.isDirectory_dest)
      have hnew := (h.tree.inside_of_suffix hw.2.valid hsf).resolve_left hne
      have hlt := h.tree.lt_size_of_suffix hw.2.valid hsf
      have hke : Keeps w.disk (w.disk.add par.inode p.name file.inode) := .add hparentDir hlk
      refine .ok ⟨?_, hsa.entered⟩ ⟨hw.1.recorded.add hparentDir hlk hw.2.target_eq_none, ?_⟩
      · exact h.tree.add (h.tree.inside_of_descend hpa) hparentDir hnew hlt
          fun hdir' => absurd hdir' hdir
      · exact fun l hl => hw.1.pending.keeps hke l (mem_cons_of_mem _ hl)

lemma satisfies_createArchiveLink (hde : Destination old x.dest) {lk : PendingArchiveLink}
    (hpat : ∀ p ∈ symbolicPaths [lk], p.path ∈ paths) :
    Satisfies (x.Safe old) (x.Linking old paths (lk :: links))
      (x.createArchiveLink x.dest lk) (fun _ => x.Linking old paths links) (fun _ _ => True) := by
  cases lk with
  | symbolic p tgt =>
    exact (satisfies_symlink (hpat p (by simp [symbolicPaths])) tgt).mapError fun _ _ _ => trivial
  | hard p tgt =>
    refine .bind ((satisfies_canonicalize hde (fun _ _ => Linking.of_disk_eq) _).mapError
      fun _ _ _ => trivial) fun file => ?_
    refine .bind (Q := fun _ w => (x.Linking old paths (.hard p tgt :: links) w ∧
      w.disk.Resolved file) ∧ x.dest.names.isSuffixOf file.names = true)
      (.lift ?_ fun _ _ _ _ _ => trivial) fun _ => .of_forall fun w _ hw => ?_
    · exact fun _ w hens _ hw => ⟨⟨hw.1, hw.2.1⟩, ensure_eq_ok.mp hens⟩
    · refine .mapError (E := fun _ _ => True) ?_ fun _ _ _ => trivial
      refine (satisfies_hardLink hde p tgt hw.2).pre ?_
      rintro w' rfl
      exact hw.1

lemma satisfies_createLinks (hde : Destination old x.dest) (links : List PendingArchiveLink)
    (hpat : ∀ p ∈ symbolicPaths links, p.path ∈ paths) :
    Satisfies (x.Safe old) (x.Linking old paths links) (x.createLinks x.dest links)
      (fun _ => x.Linking old paths []) (fun _ _ => True) := by
  induction links with
  | nil => exact .pure fun _ _ hw => hw
  | cons lk links ih =>
    have hap : symbolicPaths (lk :: links) = symbolicPaths [lk] ++ symbolicPaths links := by
      simp only [symbolicPaths, ← filterMap_append, singleton_append]
    rw [hap, forall_mem_append] at hpat
    exact .bind (satisfies_createArchiveLink hde hpat.1) fun _ => ih hpat.2

def LeadsInside (x : Extraction) (disk : Disk OsString) (path : List OsString) : Prop :=
  ∃ loc, (disk.walk x.maxLinks x.dest (Disk.components path)).2 = .ok loc ∧ x.dest <:+ loc

lemma satisfies_checkLinks (hde : Destination old x.dest) {P : Disk OsString → Prop}
    (paths : List RelPath) :
    Satisfies (x.Safe old) (fun w => P w.disk) (x.checkLinks x.dest paths)
      (fun _ w => P w.disk ∧ ∀ p ∈ paths, x.LeadsInside w.disk p.path) (fun _ _ => True) := by
  induction paths generalizing P with
  | nil => exact .pure fun w _ hw => ⟨hw, by simp⟩
  | cons p paths ih =>
    have hstb : ∀ w w' : World, w'.disk = w.disk → P w.disk → P w'.disk := fun w w' hd hw => hd ▸ hw
    refine .bind ((satisfies_canonicalize hde hstb _).mapError fun _ _ _ => trivial) fun loc => ?_
    refine .bind (Q := fun _ w => P w.disk ∧ x.LeadsInside w.disk p.path)
      (.lift ?_ fun _ _ _ _ _ => trivial) fun _ => ?_
    · intro _ w hens h hw
      exact ⟨hw.1, loc, hw.2.2, h.suffix_of_names hde hw.2.1 (ensure_eq_ok.mp hens)⟩
    · refine (ih (P := fun disk => P disk ∧ x.LeadsInside disk p.path)).post ?_
      exact fun _ w hw => ⟨hw.1.1, forall_mem_cons.mpr ⟨hw.1.2, hw.2⟩⟩

lemma satisfies_createArchiveLinks (hde : Destination old x.dest)
    (links : List PendingArchiveLink) : Steps.Satisfies (x.Safe old)
      (x.Linking old ((symbolicPaths links).map RelPath.path) links) (x.createArchiveLinks links)
      (fun _ w => Recorded old x.dest ((symbolicPaths links).map RelPath.path) w.disk ∧
        ∀ p ∈ symbolicPaths links, x.LeadsInside w.disk p.path) (fun _ _ => True) := by
  refine .bind ((satisfies_canonicalize hde (fun _ _ => Linking.of_disk_eq) _).mapError
    fun _ _ _ => trivial) fun root => .of_forall fun w _ hw => ?_
  obtain rfl : x.dest = root := by
    have hro : (w.disk.walk x.maxLinks x.dest (Disk.components [])).2 = .ok x.dest := by
      rw [Disk.components, reverse_nil, map_nil, Disk.walk_nil]
    rw [hro] at hw
    exact Except.ok.inj hw.2.2
  refine .mono ?_ (fun w' hw' => hw' ▸ hw.1) (fun _ _ hw => hw) (fun _ _ hw => hw)
  refine .bind (satisfies_createLinks hde links fun p hp => mem_map_of_mem hp) fun _ => ?_
  exact (satisfies_checkLinks hde _).pre fun _ hw => hw.recorded

/-! ### The whole extraction -/

def LinksResolveInside (x : Extraction) (disk : Disk OsString) : Prop :=
  ∀ path parent name i, disk.descend x.dest path = some parent →
    disk.lookup parent.inode name = some i → disk.target i ≠ none →
    ∃ loc, (disk.walk x.maxLinks parent [.normal name]).2 = .ok loc ∧ x.dest <:+ loc

lemma linksResolveInside_of_recorded (h : x.Safe old w) {paths : List RelPath}
    (hrec : Recorded old x.dest (paths.map RelPath.path) w.disk)
    (hpat : ∀ p ∈ paths, x.LeadsInside w.disk p.path) : x.LinksResolveInside w.disk := by
  intro path par name i hpa hi hli
  obtain ⟨path', par', hpa', hino, hmem⟩ := hrec _ _ _ (h.tree.inside_of_descend hpa) hi hli
  -- The directory has one path, so the path that was checked is the one in question.
  obtain ⟨rfl, rfl⟩ := h.tree.descend_unique hpa' hpa hino
  obtain ⟨p, hp, hpt⟩ := mem_map.mp hmem
  obtain ⟨loc, hloc, hsf⟩ := hpat p hp
  rw [hpt, components_cons, (walk_of_descend hpa _ _).1] at hloc
  exact ⟨loc, hloc, hsf⟩

lemma satisfies_extractTarEntries (hde : Destination old x.dest) {unpack : Unpack}
    (hunpack : x.UnpackContained old unpack) (select : Selector) (archive : Archive) :
    Satisfies (x.Safe old) (fun w => w.disk = old) (x.extractTarEntries unpack select archive)
      (fun _ w => x.LinksResolveInside w.disk) (fun _ _ => True) := by
  have hst : ∀ w : World, w.disk = old → NoLinks old w.disk ∧ x.Pending [] w.disk := by
    rintro w rfl
    exact ⟨noLinks_refl _, by simp [Pending]⟩
  refine .bind ((satisfies_extractEntries hunpack select archive {} []).pre hst) fun links =>
    .of_forall fun w h hw => ?_
  have hlin : x.Linking old ((symbolicPaths links).map path) links w :=
    ⟨.of_noLinks h.tree hw.1, hw.2⟩
  refine (satisfies_createArchiveLinks hde links).and_invariant.mono ?_ ?_ fun _ _ _ => trivial
  · rintro w' rfl
    exact hlin
  · exact fun _ w' hw' => linksResolveInside_of_recorded hw'.1 hw'.2.1 hw'.2.2

/-- Into an empty directory, whatever the archive and its selected part, and whichever steps fail:
after every step, what is outside the destination is as it was and has no name inside, and calls
other than `canonicalize` have searched directories inside only. After success every symbolic link
below the destination leads to something inside. -/
theorem extraction_contained (x : Extraction) {disk₀ : Disk OsString}
    (hdest : Destination disk₀ x.dest) {unpack : Unpack}
    (hunpack : x.UnpackContained disk₀ unpack) (stripComponents : ℕ) (archive : Archive)
    (fails : ℕ → Bool) :
    let run := x.extractTarEntries unpack (strippedArchivePath stripComponents) archive fails
      (.start { disk := disk₀ })
    (∀ w ∈ run.2.states, Contained disk₀ x.dest w.disk ∧
        ∀ i ∈ w.entered, Inside disk₀ x.dest i) ∧
      (run.1 = .ok () → x.LinksResolveInside run.2.now.disk) := by
  have hst : ∀ w ∈ (History.start ({ disk := disk₀ } : World)).states, x.Safe disk₀ w := by
    rintro w hw
    obtain rfl := mem_singleton.mp hw
    exact ⟨hdest.tree, by simp⟩
  obtain ⟨hsts, hok, -⟩ :=
    satisfies_extractTarEntries hdest hunpack (strippedArchivePath stripComponents) archive fails
      (.start { disk := disk₀ }) hst rfl
  exact ⟨fun w hw => ⟨(hsts w hw).tree.toContained, (hsts w hw).entered⟩, hok ()⟩

/-! ### A detour through the outside -/

section

variable {new : Disk OsString} {p : RelPath} {j : ℕ}

/-- `File::create_new`, with the file as a handle. -/
def createNew (x : Extraction) (p : RelPath) : IoM ℕ := x.create p (.file x.fileMode [])

/-- A call that changes an open file. -/
def modify (file : ℕ) (g : Node OsString → Node OsString) : IoM Unit :=
  .step .fault fun w => (.ok (), { w with disk := w.disk.update file g })

/-- The data that the archive yields is written to the file. -/
def writeData (file : ℕ) : List (Except Text (List UInt8)) → ResultM Unit
  | [] => pure ()
  | .error e :: _ => throw [e]
  | .ok bytes :: rest => do
    io (modify file (.append bytes))
    writeData file rest

/-- The calls that `Entry::unpack` makes for a file whose name is free. -/
def unpackNew (x : Extraction) (entry : Entry) (p : RelPath) : ResultM Unit := do
  let file ← io (x.createNew p)
  writeData file entry.data
  match entry.mode with
  | some mode => io (modify file (.chmod (mode % 0o1000)))
  | none => pure ()

lemma satisfies_createNew : Satisfies (x.Safe old) (Building old new) (x.createNew p)
      (fun j w => Building old new w ∧ old.size ≤ j) (fun _ => Building old new) := by
  refine satisfies_create_building (by rintro es ⟨⟩) rfl ?_
  intro w w' par h _ _ _ _ hbuilding
  exact ⟨hbuilding, h.tree.size_le⟩

lemma satisfies_modify (hj : old.size ≤ j) {g : Node OsString → Node OsString}
    (hg : Node.KeepsShape g) : Stays (x.Safe old) (Building old new) (modify j g) :=
  .step (fun _ _ hbuilding => hbuilding) fun _ h hbuilding =>
    .ok ⟨h.tree.update hj hg, h.entered⟩
      ⟨hbuilding.noLinks.update fun node => (hg node).2, hbuilding.keeps.trans (.update hg)⟩

lemma satisfies_writeData (hj : old.size ≤ j) (data : List (Except Text (List UInt8))) :
    Stays (x.Safe old) (Building old new) (writeData j data) := by
  induction data with
  | nil => exact .pure fun w _ hbuilding => hbuilding
  | cons item data ih =>
    cases item with
    | error e => exact .throw fun w _ hbuilding => hbuilding
    | ok bytes =>
      exact .bind (satisfies_io (satisfies_modify hj (keepsShape_append bytes))) fun _ => ih

lemma unpackContained_unpackNew : x.UnpackContained old x.unpackNew := by
  refine unpackContained_of_stays fun new entry p => ?_
  refine .bind (satisfies_io satisfies_createNew) fun j => .of_forall fun w _ hw => ?_
  refine .mono ?_ (fun w' hw' => hw' ▸ hw.1) (fun _ _ hw' => hw') (fun _ _ hw' => hw')
  refine .bind (satisfies_writeData hw.2 entry.data) fun _ => ?_
  cases entry.mode with
  | none => exact .pure fun w _ hbuilding => hbuilding
  | some mode => exact satisfies_io (satisfies_modify hw.2 (keepsShape_chmod _))

end

def sampleDisk : Disk OsString := ⟨[.directory 0o755 [(.ofText "dest", 1)], .directory 0o755 []]⟩

def sample : Extraction where
  maxLinks := 40
  directoryMode := 0o755
  fileMode := 0o644
  destDir := .ofText "/dest"
  dest := [(.ofText "dest", 1)]

def sampleEntry (entryType : EntryType) (path : String) (linkName : Option String) : Entry where
  path := .ofText path.toList
  entryType := entryType
  linkName := linkName.map fun name => .ofText name.toList
  ustar := true
  mode := some 0o755
  data := if entryType = .regular then [.ok [35, 33]] else []

lemma sampleDisk_destination : Destination sampleDisk sample.dest := by
  refine ⟨⟨by decide +kernel, trivial⟩, ⟨0o755, rfl⟩, fun loc hloc heq => ?_⟩
  rcases suffix_cons_iff.mp hloc with rfl | hloc
  · rfl
  · obtain rfl := suffix_nil.mp hloc
    cases heq

def detour : Archive :=
  [.ok (sampleEntry .directory "d" none), .ok (sampleEntry .regular "d/run" none),
    .ok (sampleEntry .symlink "d/a" (some "..")),
    .ok (sampleEntry .symlink "x" (some "d/a/../dest/d"))]

theorem extraction_contained_detour : Destination sampleDisk sample.dest ∧
    sample.UnpackContained sampleDisk sample.unpackNew ∧
    let run := sample.extractTarEntries sample.unpackNew (strippedArchivePath 0) detour
      (fun _ => false) (.start { disk := sampleDisk })
    (∀ w ∈ run.2.states, Contained sampleDisk sample.dest w.disk ∧
        ∀ i ∈ w.entered, Inside sampleDisk sample.dest i) ∧
      run.1 = .ok () ∧ sample.LinksResolveInside run.2.now.disk := by
  obtain ⟨hstates, hlinks⟩ := extraction_contained sample sampleDisk_destination
    unpackContained_unpackNew 0 detour fun _ => false
  refine ⟨sampleDisk_destination, unpackContained_unpackNew, hstates, ?_, hlinks ?_⟩ <;>
    decide +kernel

/-- The target `d/a/../dest/d` does not leave the destination as text, but `d/a` leads to the
destination itself and `..` out of it. The archive is accepted, and the directory above the
destination was searched for the name `dest`. -/
theorem exists_search_outside : Destination sampleDisk sample.dest ∧
    sample.UnpackContained sampleDisk sample.unpackNew ∧
    let run := sample.extractTarEntries sample.unpackNew (strippedArchivePath 0) detour
      (fun _ => false) (.start { disk := sampleDisk })
    run.1 = .ok () ∧ ∃ i ∈ run.2.now.probed, ¬ Inside sampleDisk sample.dest i := by
  refine ⟨sampleDisk_destination, unpackContained_unpackNew, by decide +kernel, 0, ?_, ?_⟩
  · decide +kernel
  · rintro (h | h)
    · cases h
    · exact absurd h (by decide)

end Extraction

end Omg.Runtime
