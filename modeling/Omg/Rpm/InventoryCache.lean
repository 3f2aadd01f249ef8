import Mathlib.Data.List.Perm.Basic
import Omg.Codec.Framing
import Omg.Text.Basic

/-!
# The cache of the RPM inventory

A load observes the generation of the database and a fingerprint of its package rows, reads the
packages, checks that the observation is still current and puts the packages into the cache. A later
call answers from the cache if the observation is current then. Commits of other processes may fall
between any two of these steps, and loads run concurrently.

The database is given by the sequence of its states, one for every commit, and time is the number of
commits. The metadata of the database files may or may not show a commit, so the checks of it may
succeed or fail at any time. A generation that did not change excludes a commit in between; one that
changed says nothing.

Source: `src/package_managers/dnf.rs`.
-/

namespace Omg.Rpm

open Codec Text List Function

/-- A row of the table `Packages`. The number is that of a signed integer in two's complement. -/
structure Row where
  hnum : Fin (2 ^ 64)
  blob : List UInt8
  blob_lt : blob.length < 2 ^ 64
deriving DecidableEq

def rowBytes (row : Row) : List UInt8 := 1 :: (bigEndian 8 row.hnum ++ framed row.blob)

def inventoryHeader : List UInt8 :=
  ("OMG RPM Packages inventory v1".toList.map fun c => UInt8.ofNat c.toNat) ++ [0]

/-- What `fingerprint_inventory` feeds to the hash. -/
def inventoryPreimage (rows : List Row) : List UInt8 :=
  inventoryHeader ++ (rows.flatMap rowBytes ++ 0 :: bigEndian 8 rows.length)

lemma rowBytes_append_inj {row row' : Row} {x y : List UInt8}
    (h : rowBytes row ++ x = rowBytes row' ++ y) : row = row' ∧ x = y := by
  simp only [rowBytes, cons_append, append_assoc, List.cons.injEq, true_and] at h
  obtain ⟨hnum, hr⟩ := append_inj h (by simp)
  obtain ⟨hbl, hxy⟩ := framed_append_inj row.blob_lt row'.blob_lt hr
  have hnum' := bigEndian_inj row.hnum.isLt row'.hnum.isLt hnum
  obtain ⟨hnum₁, blob, hlt⟩ := row
  obtain ⟨hnum₂, blob', hlt'⟩ := row'
  obtain rfl : hnum₁ = hnum₂ := Fin.ext hnum'
  obtain rfl : blob = blob' := hbl
  exact ⟨rfl, hxy⟩

lemma flatMap_rowBytes_inj {rows rows' : List Row} {x y : List UInt8}
    (h : rows.flatMap rowBytes ++ 0 :: x = rows'.flatMap rowBytes ++ 0 :: y) : rows = rows' := by
  induction rows generalizing rows' with
  | nil =>
    cases rows' with
    | nil => rfl
    | cons row' rows' => simp [rowBytes] at h
  | cons row rows ih =>
    cases rows' with
    | nil => simp [rowBytes] at h
    | cons row' rows' =>
      simp only [flatMap_cons, append_assoc] at h
      obtain ⟨rfl, hr⟩ := rowBytes_append_inj h
      rw [ih hr]

lemma inventoryPreimage_injective : Injective inventoryPreimage := by
  intro rows rows' h
  exact flatMap_rowBytes_inj (append_cancel_left h)

section

variable {P : Type} (name : P → Text)

def insertGroup (package : P) : List (Text × List P) → List (Text × List P)
  | [] => [(name package, [package])]
  | group :: groups =>
    if group.1 = name package then (group.1, group.2 ++ [package]) :: groups
    else group :: insertGroup package groups

/-- The packages as `publish_installed_packages` groups them. -/
def groupByName (packages : List P) : List (Text × List P) :=
  packages.foldl (fun groups package => insertGroup name package groups) []

lemma flatMap_insertGroup_perm (pkg : P) (gps : List (Text × List P)) :
    ((insertGroup name pkg gps).flatMap Prod.snd).Perm (gps.flatMap Prod.snd ++ [pkg]) := by
  induction gps with
  | nil => simp [insertGroup]
  | cons gp gps ih =>
    unfold insertGroup
    split_ifs
    · simp only [flatMap_cons, append_assoc]
      exact (perm_append_comm).append_left _
    · simp only [flatMap_cons, append_assoc]
      exact ih.append_left _

lemma flatMap_groupByName_perm (packages : List P) :
    ((groupByName name packages).flatMap Prod.snd).Perm packages := by
  have hfd : ∀ gps, ((packages.foldl (fun gps pkg => insertGroup name pkg gps)
      gps).flatMap Prod.snd).Perm (gps.flatMap Prod.snd ++ packages) := by
    induction packages with
    | nil => simp
    | cons pkg packages ih =>
      intro gps
      refine (ih _).trans ?_
      have hins := (flatMap_insertGroup_perm name pkg gps).append_right packages
      simpa using hins
  unfold groupByName
  exact hfd []

/-- `read_rpm_sqlite_connection`: a header that cannot be parsed makes it fail. -/
def readPackages (parse : List UInt8 → Option P) (rows : List Row) : Option (List P) :=
  rows.mapM fun row => parse row.blob

end

/-! ### The cache -/

namespace Cache

structure Observation (D : Type) where
  generation : ℕ
  fingerprint : D

structure Snapshot (P D : Type) where
  observation : Observation D
  packages : List (Text × List P)

/-- Where a call of `load_installed_packages_blocking` is. -/
inductive Load (P D : Type)
  | idle
  /-- `is_current` of the cached snapshot, before the generation is read. The call started at the
  given time. -/
  | checking (start : ℕ) (snapshot : Snapshot P D)
  /-- The generation is another one, and the fingerprint has to be compared. -/
  | comparing (start : ℕ) (snapshot : Snapshot P D)
  /-- The contents match, and the metadata has to be checked again. -/
  | confirmed (start : ℕ) (snapshot : Snapshot P D)
  | missed
  /-- `RpmDatabaseObservation::read`, after the generation was read. -/
  | observing (generation : ℕ)
  | observed (observation : Option (Observation D))
  | loaded (observation : Option (Observation D)) (packages : List P)
  /-- `is_current` before publication, where the generation is another one. -/
  | recomparing (observation : Observation D) (packages : List P)
  | publishable (observation : Observation D) (packages : List P)

structure Hit (P : Type) where
  start : ℕ
  stop : ℕ
  inventory : List P

structure State (P D : Type) where
  now : ℕ := 0
  cache : Option (Snapshot P D) := none
  loads : ℕ → Load P D := fun _ => .idle
  hits : List (Hit P) := []

namespace State

variable {P D : Type}

/-- The call with number `i` goes on to `load`. -/
def goto (s : State P D) (i : ℕ) (load : Load P D) : State P D :=
  { s with loads := update s.loads i load }

def setCache (s : State P D) (cache : Option (Snapshot P D)) : State P D :=
  { s with cache := cache }

def answer (s : State P D) (hit : Hit P) : State P D := { s with hits := hit :: s.hits }

end State

section

variable {P D : Type} (name : P → Text) (parse : List UInt8 → Option P)
  (sha256 : List UInt8 → D) (db : ℕ → List Row)

/-- `fingerprint_inventory` at a time. -/
def fingerprintAt (time : ℕ) : D := sha256 (inventoryPreimage (db time))

/-- One step of a load, a commit of another process, or an invalidation. The packages that a load
reads at a time with the observation it made meet `Reads`. -/
inductive Step (Reads : ℕ → Observation D → Prop) : State P D → State P D → Prop
  | commit (s) : Step Reads s { s with now := s.now + 1 }
  | invalidate (s : State P D) : Step Reads s (s.setCache none)
  | start (s : State P D) (i snapshot) (hi : s.loads i = .idle) (hcache : s.cache = some snapshot) :
      Step Reads s (s.goto i (.checking s.now snapshot))
  | startEmpty (s : State P D) (i) (hi : s.loads i = .idle) (hcache : s.cache = none) :
      Step Reads s (s.goto i .missed)
  /-- The generation can be the same only if there was no commit. -/
  | sameGeneration (s : State P D) (i start snapshot) (hi : s.loads i = .checking start snapshot)
      (hgeneration : snapshot.observation.generation = s.now) :
      Step Reads s (s.goto i (.confirmed start snapshot))
  | otherGeneration (s : State P D) (i start snapshot)
      (hi : s.loads i = .checking start snapshot) :
      Step Reads s (s.goto i (.comparing start snapshot))
  | sameContents (s : State P D) (i start snapshot) (hi : s.loads i = .comparing start snapshot)
      (hcontents : fingerprintAt sha256 db s.now = snapshot.observation.fingerprint) :
      Step Reads s (s.goto i (.confirmed start snapshot))
  | miss (s : State P D) (i start snapshot)
      (hi : s.loads i = .checking start snapshot ∨ s.loads i = .comparing start snapshot ∨
        s.loads i = .confirmed start snapshot) :
      Step Reads s (s.goto i .missed)
  | hit (s : State P D) (i start snapshot) (groups : List (Text × List P))
      (hi : s.loads i = .confirmed start snapshot) (hgroups : groups.Perm snapshot.packages) :
      Step Reads s ((s.goto i .idle).answer ⟨start, s.now, groups.flatMap Prod.snd⟩)
  | observe (s : State P D) (i) (hi : s.loads i = .missed) :
      Step Reads s (s.goto i (.observing s.now))
  | fingerprint (s : State P D) (i generation) (hi : s.loads i = .observing generation) :
      Step Reads s
        (s.goto i (.observed (some ⟨generation, fingerprintAt sha256 db s.now⟩)))
  | unobserved (s : State P D) (i generation)
      (hi : s.loads i = .missed ∨ s.loads i = .observing generation) :
      Step Reads s (s.goto i (.observed none))
  | read (s : State P D) (i observation packages inventory)
      (hi : s.loads i = .observed (some observation))
      (hread : readPackages parse (db s.now) = some inventory) (hperm : packages.Perm inventory)
      (hReads : Reads s.now observation) :
      Step Reads s (s.goto i (.loaded (some observation) packages))
  /-- Another connection, or the command `rpm`. -/
  | fallback (s : State P D) (i observation packages) (hi : s.loads i = .observed observation) :
      Step Reads s (s.goto i (.loaded none packages))
  | resameGeneration (s : State P D) (i observation packages)
      (hi : s.loads i = .loaded (some observation) packages)
      (hgeneration : observation.generation = s.now) :
      Step Reads s (s.goto i (.publishable observation packages))
  | reotherGeneration (s : State P D) (i observation packages)
      (hi : s.loads i = .loaded (some observation) packages) :
      Step Reads s (s.goto i (.recomparing observation packages))
  | resameContents (s : State P D) (i observation packages)
      (hi : s.loads i = .recomparing observation packages)
      (hcontents : fingerprintAt sha256 db s.now = observation.fingerprint) :
      Step Reads s (s.goto i (.publishable observation packages))
  | publish (s : State P D) (i observation packages)
      (hi : s.loads i = .publishable observation packages) :
      Step Reads s ((s.goto i .idle).setCache (some ⟨observation, groupByName name packages⟩))
  | discard (s : State P D) (i) (observation : Option (Observation D)) (packages)
      (hi : s.loads i = .loaded observation packages ∨
        ∃ o, s.loads i = .recomparing o packages ∨ s.loads i = .publishable o packages) :
      Step Reads s ((s.goto i .idle).setCache none)

def Reachable (Reads : ℕ → Observation D → Prop) (s : State P D) : Prop :=
  Relation.ReflTransGen (Step name parse sha256 db Reads) {} s

def Hit.Current (hit : Hit P) : Prop :=
  ∃ time inventory, hit.start ≤ time ∧ time ≤ hit.stop ∧
    readPackages parse (db time) = some inventory ∧ hit.inventory.Perm inventory

/-! ### What holds in every state -/

def Backed (now : ℕ) (observation : Observation D) (packages : List P) : Prop :=
  ∃ time inventory, observation.generation ≤ time ∧ time ≤ now ∧
    fingerprintAt sha256 db time = observation.fingerprint ∧
    readPackages parse (db time) = some inventory ∧ packages.Perm inventory

def LoadInv (now : ℕ) : Load P D → Prop
  | .checking start snapshot | .comparing start snapshot =>
    start ≤ now ∧ Backed parse sha256 db now snapshot.observation
      (snapshot.packages.flatMap Prod.snd)
  | .confirmed start snapshot =>
    Hit.Current parse db ⟨start, now, snapshot.packages.flatMap Prod.snd⟩
  | .observing generation => generation ≤ now
  | .observed (some observation) => observation.generation ≤ now
  | .loaded (some observation) packages | .recomparing observation packages
  | .publishable observation packages => Backed parse sha256 db now observation packages
  | .idle | .missed | .observed none | .loaded none _ => True

structure Inv (s : State P D) : Prop where
  cache : ∀ snapshot, s.cache = some snapshot →
    Backed parse sha256 db s.now snapshot.observation (snapshot.packages.flatMap Prod.snd)
  loads : ∀ i, LoadInv parse sha256 db s.now (s.loads i)
  hits : ∀ hit ∈ s.hits, hit.Current parse db

variable {parse sha256 db} {now : ℕ} {observation : Observation D} {packages : List P}
  {s : State P D}

lemma Backed.mono {now' : ℕ} (h : Backed parse sha256 db now observation packages)
    (hle : now ≤ now') : Backed parse sha256 db now' observation packages := by
  obtain ⟨time, inv, hgeneration, hti, hr⟩ := h
  exact ⟨time, inv, hgeneration, Nat.le_trans hti hle, hr⟩

lemma Hit.Current.mono {st stop stop' : ℕ} {inv : List P}
    (h : Hit.Current parse db ⟨st, stop, inv⟩) (hle : stop ≤ stop') :
    Hit.Current parse db ⟨st, stop', inv⟩ := by
  obtain ⟨time, inv', hst, hsto, hr⟩ := h
  exact ⟨time, inv', hst, Nat.le_trans hsto hle, hr⟩

lemma LoadInv.mono {now' : ℕ} {load : Load P D} (h : LoadInv parse sha256 db now load)
    (hle : now ≤ now') : LoadInv parse sha256 db now' load := by
  cases load with
  | idle => trivial
  | missed => trivial
  | confirmed st snap => exact Hit.Current.mono h hle
  | observing gen => exact Nat.le_trans h hle
  | observed observation =>
    cases observation with
    | none => trivial
    | some observation => exact Nat.le_trans h hle
  | loaded observation packages =>
    cases observation with
    | none => trivial
    | some observation => exact Backed.mono h hle
  | recomparing observation packages => exact Backed.mono h hle
  | publishable observation packages => exact Backed.mono h hle
  | _ st snap => exact ⟨Nat.le_trans h.1 hle, h.2.mono hle⟩

lemma Backed.current_of_generation (h : Backed parse sha256 db now observation packages)
    (hgeneration : observation.generation = now) :
    ∃ inv, readPackages parse (db now) = some inv ∧ packages.Perm inv := by
  obtain ⟨time, inv, hle, hle', -, hread, hperm⟩ := h
  obtain rfl : time = now := Nat.le_antisymm hle' (hgeneration ▸ hle)
  exact ⟨inv, hread, hperm⟩

lemma Backed.current_of_contents (hsha : Injective sha256)
    (h : Backed parse sha256 db now observation packages)
    (hcontents : fingerprintAt sha256 db now = observation.fingerprint) :
    ∃ inv, readPackages parse (db now) = some inv ∧ packages.Perm inv := by
  obtain ⟨time, inv, -, -, hfin, hread, hperm⟩ := h
  have hro : db now = db time :=
    inventoryPreimage_injective (hsha (hcontents.trans hfin.symm))
  exact ⟨inv, hro ▸ hread, hperm⟩

section

variable (h : Inv parse sha256 db s)

include h

lemma Inv.goto {i : ℕ} {load : Load P D}
    (hld : LoadInv parse sha256 db s.now load) : Inv parse sha256 db (s.goto i load) := by
  refine ⟨h.cache, fun j => ?_, h.hits⟩
  by_cases hj : j = i
  · subst hj
    simpa [State.goto] using hld
  · simpa [State.goto, update_of_ne hj] using h.loads j

lemma Inv.idle (i : ℕ) : Inv parse sha256 db (s.goto i .idle) :=
  h.goto trivial

lemma Inv.setCache {cache : Option (Snapshot P D)}
    (hcache : ∀ snap, cache = some snap → Backed parse sha256 db s.now snap.observation
      (snap.packages.flatMap Prod.snd)) : Inv parse sha256 db (s.setCache cache) :=
  ⟨hcache, h.loads, h.hits⟩

end

variable {name}

lemma Inv.step (hsha : Injective sha256) {s' : State P D} (h : Inv parse sha256 db s)
    (hs : Step name parse sha256 db (fun time observation => fingerprintAt sha256 db time =
      observation.fingerprint) s s') : Inv parse sha256 db s' := by
  cases hs with
  | commit =>
    have hle := Nat.le_succ s.now
    exact ⟨fun snapshot hcache => (h.cache snapshot hcache).mono hle,
      fun i => (h.loads i).mono hle, h.hits⟩
  | invalidate => exact h.setCache (by simp)
  | start i snapshot hi hcache => exact h.goto ⟨Nat.le_refl _, h.cache snapshot hcache⟩
  | sameGeneration i start snapshot hi hgeneration =>
    have hld : LoadInv parse sha256 db s.now (.checking start snapshot) := hi ▸ h.loads i
    obtain ⟨inventory, hread, hperm⟩ := hld.2.current_of_generation hgeneration
    exact h.goto ⟨s.now, inventory, hld.1, Nat.le_refl _, hread, hperm⟩
  | otherGeneration i start snapshot hi =>
    have hld : LoadInv parse sha256 db s.now (.checking start snapshot) := hi ▸ h.loads i
    exact h.goto hld
  | sameContents i start snapshot hi hcontents =>
    have hld : LoadInv parse sha256 db s.now (.comparing start snapshot) := hi ▸ h.loads i
    obtain ⟨inventory, hread, hperm⟩ := hld.2.current_of_contents hsha hcontents
    exact h.goto ⟨s.now, inventory, hld.1, Nat.le_refl _, hread, hperm⟩
  | miss i start snapshot hi => exact h.goto trivial
  | hit i start snapshot groups hi hgroups =>
    have hld : LoadInv parse sha256 db s.now (.confirmed start snapshot) := hi ▸ h.loads i
    obtain ⟨time, inventory, hst, hsto, hread, hperm⟩ := hld
    have hid := h.idle i
    refine ⟨hid.cache, hid.loads, forall_mem_cons.mpr ⟨?_, h.hits⟩⟩
    exact ⟨time, inventory, hst, hsto, hread, (hgroups.flatMap_right _).trans hperm⟩
  | observe i hi => exact h.goto (Nat.le_refl _)
  | fingerprint i generation hi =>
    have hld : LoadInv parse sha256 db s.now (.observing generation) := hi ▸ h.loads i
    exact h.goto hld
  | read i observation packages inventory hi hread hperm hReads =>
    have hld : LoadInv parse sha256 db s.now (.observed (some observation)) := hi ▸ h.loads i
    exact h.goto ⟨s.now, inventory, hld, Nat.le_refl _, hReads, hread, hperm⟩
  | fallback i observation packages hi => exact h.goto trivial
  | resameGeneration i observation packages hi hgeneration =>
    have hld : LoadInv parse sha256 db s.now (.loaded (some observation) packages) := hi ▸ h.loads i
    exact h.goto hld
  | reotherGeneration i observation packages hi =>
    have hld : LoadInv parse sha256 db s.now (.loaded (some observation) packages) := hi ▸ h.loads i
    exact h.goto hld
  | resameContents i observation packages hi hcontents =>
    have hld : LoadInv parse sha256 db s.now (.recomparing observation packages) := hi ▸ h.loads i
    exact h.goto hld
  | publish i observation packages hi =>
    have hld : LoadInv parse sha256 db s.now (.publishable observation packages) := hi ▸ h.loads i
    refine (h.idle i).setCache ?_
    rintro snapshot ⟨⟩
    obtain ⟨time, inventory, hgeneration, hti, hfin, hread, hperm⟩ := hld
    exact ⟨time, inventory, hgeneration, hti, hfin, hread,
      (flatMap_groupByName_perm name packages).trans hperm⟩
  | discard i observation packages hi => exact (h.idle i).setCache (by simp)
  | _ i hi hcache => exact h.goto trivial

/-- In every run in which each load reads its packages from rows with the fingerprint it observed,
every answer from the cache is the inventory of a state of the database during the call. -/
theorem current_of_hit (name : P → Text) (parse : List UInt8 → Option P)
    (sha256 : List UInt8 → D) (hsha : Function.Injective sha256) (db : ℕ → List Row)
    {s : State P D}
    (hrun : Reachable name parse sha256 db
      (fun time observation => fingerprintAt sha256 db time = observation.fingerprint) s)
    (hit : Hit P) (hhit : hit ∈ s.hits) : hit.Current parse db := by
  suffices h : Inv parse sha256 db s from h.hits hit hhit
  clear hhit
  induction hrun with
  | refl => exact ⟨by simp, fun _ => trivial, by simp⟩
  | tail _ hs ih => exact ih.step hsha hs

end

/-! ### Contents that return -/

def sampleRow (n : Fin (2 ^ 64)) : Row := ⟨n, [UInt8.ofNat n], by simp⟩

def restored (time : ℕ) : List Row :=
  if time = 1 then [sampleRow 1, sampleRow 2] else [sampleRow 1]

def sampleObservation : Observation (List UInt8) := ⟨0, fingerprintAt id restored 0⟩

/-- The cache after a load that read `packages`. -/
def sampleSnapshot (packages : List (List UInt8)) : Snapshot (List UInt8) (List UInt8) :=
  ⟨sampleObservation, groupByName (fun _ => []) packages⟩

def observedState : State (List UInt8) (List UInt8) :=
  (((({} : State (List UInt8) (List UInt8)).goto 0 .missed).goto 0 (.observing 0)).goto 0
    (.observed (some sampleObservation)))

lemma reachable_observedState (Reads : ℕ → Observation (List UInt8) → Prop) :
    Reachable (fun _ => []) some id restored Reads observedState :=
  .tail (.tail (.tail .refl (.startEmpty _ 0 rfl rfl)) (.observe _ 0 rfl)) (.fingerprint _ 0 0 rfl)

/-- A load without commits, and an answer from the cache. -/
theorem current_of_hit_quiet : ∃ s : State (List UInt8) (List UInt8),
    Reachable (fun _ => []) some id restored
      (fun time observation => fingerprintAt id restored time = observation.fingerprint) s ∧
    ⟨0, 0, [[1]]⟩ ∈ s.hits ∧ Hit.Current some restored ⟨0, 0, [[1]]⟩ := by
  have hrun := reachable_observedState
    (fun time observation => fingerprintAt id restored time = observation.fingerprint)
  have hread := hrun.tail (.read _ 0 sampleObservation [[1]] [[1]] rfl rfl (.refl _) rfl)
  have hpub := (hread.tail (.resameGeneration _ 0 _ _ rfl rfl)).tail (.publish _ 0 _ _ rfl)
  have hhit := ((hpub.tail (.start _ 0 (sampleSnapshot [[1]]) rfl rfl)).tail
    (.sameGeneration _ 0 0 _ rfl rfl)).tail (.hit _ 0 0 _ _ rfl (.refl _))
  exact ⟨_, hhit, mem_cons_self, current_of_hit _ _ _ injective_id _ hhit _ mem_cons_self⟩

/-- A load observes one package, reads two, and one of them is removed again before it publishes
them. A call that starts and ends afterwards answers with two packages. -/
theorem exists_hit_not_current : ∃ s : State (List UInt8) (List UInt8),
    Reachable (fun _ => []) some id restored (fun _ _ => True) s ∧
    ∃ hit ∈ s.hits, ¬ hit.Current some restored := by
  have hread := ((reachable_observedState fun _ _ => True).tail (.commit _)).tail
    (.read _ 0 sampleObservation [[1], [2]] [[1], [2]] rfl rfl (.refl _) trivial)
  have hpub := (((hread.tail (.commit _)).tail (.reotherGeneration _ 0 _ _ rfl)).tail
    (.resameContents _ 0 _ _ rfl rfl)).tail (.publish _ 0 _ _ rfl)
  have hhit := (((hpub.tail (.start _ 0 (sampleSnapshot [[1], [2]]) rfl rfl)).tail
    (.otherGeneration _ 0 2 _ rfl)).tail (.sameContents _ 0 2 _ rfl rfl)).tail
    (.hit _ 0 2 _ _ rfl (.refl _))
  refine ⟨_, hhit, _, mem_cons_self, ?_⟩
  rintro ⟨time, inv, hst, hsto, hread, hperm⟩
  obtain rfl : time = 2 := Nat.le_antisymm hsto hst
  cases hread
  exact absurd hperm.length_eq (by decide)

end Cache

end Omg.Rpm
