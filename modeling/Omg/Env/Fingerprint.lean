import Mathlib.Data.Char
import Mathlib.Data.List.Destutter
import Mathlib.Data.List.DropRight
import Omg.Collections.SortedMap
import Omg.Text.Basic

/-!
# Environment fingerprints

An environment is the versions of its runtimes and the list of its packages. Its fingerprint is a
digest of the runtimes and packages after trimming, sorting and removing repetitions, and a lockfile
carries the fingerprint of its contents. Whether an environment has drifted from a lockfile is
decided twice: by comparing fingerprints, and by comparing the entries.

The digest function and the TOML format are parameters. What is written to a file is the value that
the format gives, and reading and writing the file are left out.

Source: `src/core/env/fingerprint.rs`.
-/

namespace Omg

open List Text Function

namespace Text

lemma trim_trim (s : Text) : trim (trim s) = trim s := by
  have hend : ∀ t : Text, trimEnd t = t.rdropWhile isWhitespace := fun t => rfl
  have hst : trimStart (trim s) = trim s := by
    -- The first character that is left is the one that stopped the trimming at the start.
    rw [trim, hend]
    refine dropWhile_eq_self_iff.mpr fun hlen => ?_
    have hpx : (trimStart s).rdropWhile isWhitespace <+: trimStart s :=
      rdropWhile_prefix isWhitespace (trimStart s)
    have hlen' : 0 < (trimStart s).length := lt_of_lt_of_le hlen hpx.length_le
    have hf := hpx.getElem hlen
    rw [hf]
    exact dropWhile_get_zero_not isWhitespace s hlen'
  rw [trim, hst, hend, trim, hend, rdropWhile_idempotent]

end Text

namespace Env

open Collections (SortedMap)

/-- The captured state of an environment. The runtimes are a `BTreeMap`. -/
structure EnvironmentState where
  schemaVersion : ℕ
  runtimes : SortedMap Text Text
  packages : List Text
  timestamp : ℤ
  hash : Text
  deriving DecidableEq

namespace EnvironmentState

def currentSchemaVersion : ℕ := 1

/-- The trimmed runtimes in the order of their names, and the trimmed packages in order, without
empty ones and without repetitions. The sort of the runtimes is stable. -/
def normalizedParts (s : EnvironmentState) : List (Text × Text) × List Text :=
  let runtimes := s.runtimes.entries.map fun e => (trim e.1, trim e.2)
  let runtimes := runtimes.insertionSort fun a b => a.1 ≤ b.1
  let packages := (s.packages.map trim).filter fun pkg => !pkg.isEmpty
  let packages := (packages.insertionSort (· ≤ ·)).destutter (· ≠ ·)
  (runtimes, packages)

def normalize (s : EnvironmentState) : EnvironmentState :=
  { s with runtimes := SortedMap.ofList s.normalizedParts.1, packages := s.normalizedParts.2 }

def digestedBytes (parts : List (Text × Text) × List Text) : Bytes :=
  (parts.1.flatMap fun e => utf8 e.1 ++ utf8 [':'] ++ utf8 e.2 ++ utf8 [';']) ++
    parts.2.flatMap fun pkg => utf8 pkg ++ utf8 [';']

def calculateHash (sha256 : Bytes → Bytes) (s : EnvironmentState) : Text :=
  hexEncode (sha256 (digestedBytes s.normalizedParts))

def Normalized (s : EnvironmentState) : Prop := s.normalize = s

instance (s : EnvironmentState) : Decidable s.Normalized :=
  inferInstanceAs (Decidable (s.normalize = s))

/-! ### What normalizing does -/

lemma pairwise_runtimes (s : EnvironmentState) :
    s.normalizedParts.1.Pairwise fun a b => a.1 ≤ b.1 := by
  exact pairwise_insertionSort _ _

lemma pairwise_packages (s : EnvironmentState) : s.normalizedParts.2.Pairwise (· < ·) := by
  have hle : s.normalizedParts.2.Pairwise (· ≤ ·) :=
    (pairwise_insertionSort (· ≤ ·) _).sublist (destutter_sublist _ _)
  have hne : s.normalizedParts.2.IsChain (· ≠ ·) := isChain_destutter _ _
  refine isChain_iff_pairwise.mp (isChain_iff_getElem.mpr fun i hi => ?_)
  exact lt_of_le_of_ne (isChain_iff_getElem.mp hle.isChain i hi) (isChain_iff_getElem.mp hne i hi)

variable {s : EnvironmentState}

lemma trim_of_mem_runtimes {e : Text × Text} (he : e ∈ s.normalizedParts.1) :
    trim e.1 = e.1 ∧ trim e.2 = e.2 := by
  have hmem := (perm_insertionSort _ _).mem_iff.mp he
  obtain ⟨e', -, rfl⟩ := mem_map.mp hmem
  exact ⟨trim_trim e'.1, trim_trim e'.2⟩

lemma trim_of_mem_packages {pkg : Text} (hpkg : pkg ∈ s.normalizedParts.2) :
    trim pkg = pkg ∧ pkg.isEmpty = false := by
  have hmem := (perm_insertionSort _ _).mem_iff.mp ((destutter_sublist _ _).mem hpkg)
  obtain ⟨hmap, hnon⟩ := mem_filter.mp hmem
  obtain ⟨pkg', -, rfl⟩ := mem_map.mp hmap
  exact ⟨trim_trim pkg', by simpa using hnon⟩

lemma insertionSort_of_pairwise {es : List (Text × Text)} (h : es.Pairwise fun a b => a.1 < b.1) :
    es.insertionSort (fun a b => a.1 ≤ b.1) = es :=
  (h.imp le_of_lt).insertionSort_eq

lemma normalizedParts_normalize (s : EnvironmentState) :
    s.normalize.normalizedParts = (s.normalize.runtimes.entries, s.normalize.packages) := by
  refine Prod.ext ?_ ?_
  · have hmap : (s.normalize.runtimes.entries.map fun e => (trim e.1, trim e.2)) =
        s.normalize.runtimes.entries := by
      refine (map_congr_left fun e he => ?_).trans (map_id _)
      obtain ⟨hn, hver⟩ :=
        trim_of_mem_runtimes ((SortedMap.ofList_subperm s.normalizedParts.1).subset he)
      exact Prod.ext hn hver
    change (s.normalize.runtimes.entries.map fun e => (trim e.1, trim e.2)).insertionSort
      (fun a b => a.1 ≤ b.1) = s.normalize.runtimes.entries
    rw [hmap, insertionSort_of_pairwise s.normalize.runtimes.sorted]
  · have hmap : s.normalizedParts.2.map trim = s.normalizedParts.2 :=
      (map_congr_left fun pkg hpkg => (trim_of_mem_packages hpkg).1).trans (map_id _)
    have hfil : (s.normalizedParts.2.filter fun pkg => !pkg.isEmpty) = s.normalizedParts.2 :=
      filter_eq_self.mpr fun pkg hpkg => by simp [(trim_of_mem_packages hpkg).2]
    have hlt := pairwise_packages s
    have hso : s.normalizedParts.2.insertionSort (· ≤ ·) = s.normalizedParts.2 :=
      (hlt.imp le_of_lt).insertionSort_eq
    have hded : s.normalizedParts.2.destutter (· ≠ ·) = s.normalizedParts.2 :=
      destutter_of_isChain _ _ (hlt.imp ne_of_lt).isChain
    change (((s.normalizedParts.2.map trim).filter fun pkg => !pkg.isEmpty).insertionSort
      (· ≤ ·)).destutter (· ≠ ·) = s.normalizedParts.2
    rw [hmap, hfil, hso, hded]

lemma normalize_normalize (s : EnvironmentState) : s.normalize.normalize = s.normalize := by
  have hrt : SortedMap.ofList s.normalize.normalizedParts.1 = s.normalize.runtimes := by
    rw [normalizedParts_normalize]
    exact SortedMap.ext (SortedMap.ofList_eq_self s.normalize.runtimes.sorted)
  have hpks : s.normalize.normalizedParts.2 = s.normalize.packages := by
    rw [normalizedParts_normalize]
  conv_lhs => rw [normalize, hrt, hpks]

lemma Normalized.normalizedParts (hs : Normalized s) :
    s.normalizedParts = (s.runtimes.entries, s.packages) := by
  have h := normalizedParts_normalize s
  rwa [hs] at h

lemma Normalized.pairwise_packages (hs : Normalized s) : s.packages.Pairwise (· < ·) := by
  have h := EnvironmentState.pairwise_packages s
  rwa [hs.normalizedParts] at h

/-! ### The digested text -/

def runtimeRecord (e : Text × Text) : Text := e.1 ++ ':' :: e.2

def terminated (records : List Text) : Text := records.flatMap fun record => record ++ [';']

def records (parts : List (Text × Text) × List Text) : List Text :=
  parts.1.map runtimeRecord ++ parts.2

lemma digestedBytes_eq (pts : List (Text × Text) × List Text) :
    digestedBytes pts = utf8 (terminated (records pts)) := by
  simp [digestedBytes, terminated, records, runtimeRecord, utf8, flatMap_map, flatMap_assoc]

lemma calculateHash_eq_iff {sha256 : Bytes → Bytes} (hsha256 : Injective sha256)
    {t : EnvironmentState} : s.calculateHash sha256 = t.calculateHash sha256 ↔
      terminated (records s.normalizedParts) = terminated (records t.normalizedParts) := by
  refine ⟨fun h => ?_, fun h => ?_⟩
  · have hby := hsha256 (hexEncode_injective h)
    rw [digestedBytes_eq, digestedBytes_eq] at hby
    exact utf8_injective hby
  · rw [calculateHash, calculateHash, digestedBytes_eq, digestedBytes_eq, h]

def pieces (records : List Text) : List Text := records.flatMap fun record => record.splitOn ';'

lemma splitOn_terminated (l : List Text) : (terminated l).splitOn ';' = pieces l ++ [[]] := by
  induction l with
  | nil => rfl
  | cons rec l ih =>
    have hcn : terminated (rec :: l) = rec ++ ';' :: terminated l := by simp [terminated]
    rw [hcn, splitOn_append_cons_self, ih]
    simp [pieces]

lemma terminated_eq_iff {l l' : List Text} :
    terminated l = terminated l' ↔ pieces l = pieces l' := by
  refine ⟨fun h => ?_, fun h => ?_⟩
  · have hsp := congrArg (List.splitOn ';') h
    rw [splitOn_terminated, splitOn_terminated] at hsp
    exact append_cancel_right hsp
  · have hsp : (terminated l).splitOn ';' = (terminated l').splitOn ';' := by
      rw [splitOn_terminated, splitOn_terminated, h]
    have hj : [';'].intercalate ((terminated l).splitOn ';') = terminated l :=
      intercalate_splitOn ';'
    rw [← hj, hsp, intercalate_splitOn]

lemma pieces_eq_self {l : List Text} (hl : ∀ record ∈ l, ';' ∉ record) : pieces l = l := by
  have hsin : ∀ record ∈ l, record.splitOn ';' = [record] := fun record h =>
    splitOn_eq_singleton (hl record h)
  rw [pieces, flatMap_congr hsin, flatMap_singleton']

lemma length_terminated (l : List Text) :
    (terminated l).length = (l.map fun rec => rec.length + 1).sum := by
  simp [terminated]

lemma calculateHash_normalize_iff {sha256 : Bytes → Bytes} (hsha256 : Injective sha256)
    (s : EnvironmentState) : s.normalize.calculateHash sha256 = s.calculateHash sha256 ↔
      (s.runtimes.entries.map fun e => trim e.1).Nodup := by
  have hns : (s.normalizedParts.1.map Prod.fst).Perm
      (s.runtimes.entries.map fun e => trim e.1) := by
    refine ((perm_insertionSort _ _).map Prod.fst).trans (List.Perm.of_eq ?_)
    rw [map_map]
    rfl
  rw [calculateHash_eq_iff hsha256, ← hns.nodup_iff, normalizedParts_normalize]
  refine ⟨fun h => ?_, fun hnd => ?_⟩
  · -- A runtime that is dropped makes the text shorter.
    have hlen := congrArg List.length h
    simp only [length_terminated, records, map_append, sum_append, map_map] at hlen
    have hsum := Nat.add_right_cancel hlen
    have hp := Collections.perm_of_subperm_of_sum_eq (fun _ => Nat.succ_pos _)
      (SortedMap.ofList_subperm s.normalizedParts.1) hsum
    exact (hp.map Prod.fst).nodup_iff.mp (SortedMap.nodup_keys _)
  · have hlt : s.normalizedParts.1.Pairwise fun a b => a.1 < b.1 :=
      (pairwise_runtimes s).imp₂ (fun _ _ hle hne => lt_of_le_of_ne hle hne) (pairwise_map.mp hnd)
    have hke : s.normalize.runtimes.entries = s.normalizedParts.1 := SortedMap.ofList_eq_self hlt
    rw [hke]
    rfl

/-! ### Lockfiles -/

/-- The TOML format of lockfiles: writing a state, reading a state, and reading the schema version
of an arbitrary document. The contents of a file that is no TOML have no document, and a document
may have no schema version. -/
structure LockfileFormat (C : Type) where
  toStringPretty : EnvironmentState → Result C
  fromStr : C → Result EnvironmentState
  schemaVersionOf : C → Option (Option ℤ)
  fromStr_toStringPretty : ∀ {s content}, toStringPretty s = .ok content → fromStr content = .ok s
  schemaVersionOf_toStringPretty : ∀ {s content}, toStringPretty s = .ok content →
    schemaVersionOf content = some (some (s.schemaVersion : ℤ))

def newerSchemaMessage (version : ℤ) : Text :=
  "Lockfile was written by a newer omg (schema version " ++ (toString version).toList ++
    "). Upgrade omg to read it."

def parseMessage : Text := "Failed to parse lockfile"

def integrityMessage : Text :=
  "Lockfile integrity check failed: stored hash does not match contents"

section

variable {C : Type} (format : LockfileFormat C) (sha256 : Bytes → Bytes)

def saved (s : EnvironmentState) : EnvironmentState :=
  let normalized := normalize { s with schemaVersion := currentSchemaVersion }
  { normalized with hash := normalized.calculateHash sha256 }

def save (s : EnvironmentState) : Result C := format.toStringPretty (s.saved sha256)

def checkSchemaVersion (content : C) : Result Unit :=
  match format.schemaVersionOf content with
  | some version =>
    let version := version.getD currentSchemaVersion
    if currentSchemaVersion < version then bail (newerSchemaMessage version) else .ok ()
  | none => .ok ()

def parseLockfile (content : C) : Result EnvironmentState := do
  checkSchemaVersion format content
  let state ← withContext parseMessage (format.fromStr content)
  let normalized := state.normalize
  let calculatedHash := normalized.calculateHash sha256
  ensure (state.hash = calculatedHash) integrityMessage
  return { normalized with hash := calculatedHash }

lemma normalize_saved (s : EnvironmentState) : (s.saved sha256).normalize = s.saved sha256 := by
  have h := normalize_normalize { s with schemaVersion := currentSchemaVersion }
  have hps : ∀ (t : EnvironmentState) (hash : Text),
      normalize { t with hash := hash } = { t.normalize with hash := hash } := fun _ _ => rfl
  unfold saved
  rw [hps, h]

lemma hash_saved (s : EnvironmentState) :
    (s.saved sha256).hash = (s.saved sha256).calculateHash sha256 := rfl

lemma parseLockfile_of_save {s : EnvironmentState} {txt : C} (h : s.save format sha256 = .ok txt) :
    parseLockfile format sha256 txt = .ok (s.saved sha256) := by
  have hsch : checkSchemaVersion format txt = .ok () := by
    unfold checkSchemaVersion
    rw [format.schemaVersionOf_toStringPretty h]
    exact if_neg (lt_irrefl _)
  have hha : decide ((s.saved sha256).hash = (s.saved sha256).calculateHash sha256) = true :=
    decide_eq_true (hash_saved sha256 s)
  unfold parseLockfile
  rw [hsch, format.fromStr_toStringPretty h]
  change (do
    ensure ((s.saved sha256).hash = (s.saved sha256).normalize.calculateHash sha256)
      integrityMessage
    return { (s.saved sha256).normalize with
      hash := (s.saved sha256).normalize.calculateHash sha256 }) = Except.ok (s.saved sha256)
  rw [normalize_saved, hha]
  rfl

end

end EnvironmentState

/-! ### Drift -/

/-- The differences between two states. A runtime of another version comes with the expected and
the actual version. -/
structure DriftReport where
  hasDrift : Bool
  missingRuntimes : List Text
  differentRuntimes : List (Text × Text × Text)
  extraRuntimes : List Text
  missingPackages : List Text
  extraPackages : List Text

namespace DriftReport

variable (expected actual : EnvironmentState)

def checkRuntime (report : DriftReport) (e : Text × Text) : DriftReport :=
  match actual.runtimes.get e.1 with
  | some actualVer =>
    if e.2 ≠ actualVer then
      { report with
        differentRuntimes := report.differentRuntimes ++ [(e.1, e.2, actualVer)]
        hasDrift := true }
    else report
  | none => { report with missingRuntimes := report.missingRuntimes ++ [e.1], hasDrift := true }

def checkExtraRuntime (report : DriftReport) (name : Text) : DriftReport :=
  if (expected.runtimes.get name).isNone then
    { report with extraRuntimes := report.extraRuntimes ++ [name], hasDrift := true }
  else report

def checkPackage (report : DriftReport) (pkg : Text) : DriftReport :=
  if pkg ∉ actual.packages then
    { report with missingPackages := report.missingPackages ++ [pkg], hasDrift := true }
  else report

def checkExtraPackage (report : DriftReport) (pkg : Text) : DriftReport :=
  if pkg ∉ expected.packages then
    { report with extraPackages := report.extraPackages ++ [pkg], hasDrift := true }
  else report

def compare : DriftReport :=
  let report : DriftReport := ⟨false, [], [], [], [], []⟩
  let report := expected.runtimes.entries.foldl (checkRuntime actual) report
  let report := actual.runtimes.keys.foldl (checkExtraRuntime expected) report
  let report := expected.packages.foldl (checkPackage actual) report
  actual.packages.foldl (checkExtraPackage expected) report

lemma hasDrift_foldl {α : Type} {check : DriftReport → α → DriftReport} {Agrees : α → Prop}
    (hs : ∀ rpt a, (check rpt a).hasDrift = false ↔ rpt.hasDrift = false ∧ Agrees a)
    (rpt : DriftReport) (l : List α) :
    (l.foldl check rpt).hasDrift = false ↔ rpt.hasDrift = false ∧ ∀ a ∈ l, Agrees a := by
  induction l generalizing rpt with
  | nil => simp
  | cons a l ih => rw [foldl_cons, ih, hs, forall_mem_cons, and_assoc]

section

variable (rpt : DriftReport)

include rpt

lemma hasDrift_checkRuntime (e : Text × Text) : (checkRuntime actual rpt e).hasDrift = false ↔
      rpt.hasDrift = false ∧ actual.runtimes.get e.1 = some e.2 := by
  unfold checkRuntime
  cases hget : actual.runtimes.get e.1 with
  | none => simp
  | some actualVer =>
    by_cases hver : e.2 = actualVer
    · simp [hver]
    · simp [hver, Ne.symm hver]

lemma hasDrift_checkExtraRuntime (name : Text) :
    (checkExtraRuntime expected rpt name).hasDrift = false ↔
      rpt.hasDrift = false ∧ (expected.runtimes.get name).isNone = false := by
  unfold checkExtraRuntime
  split_ifs with h <;> simp [h]

lemma hasDrift_checkPackage (pkg : Text) : (checkPackage actual rpt pkg).hasDrift = false ↔
      rpt.hasDrift = false ∧ pkg ∈ actual.packages := by
  unfold checkPackage
  split_ifs with h <;> simp_all

lemma hasDrift_checkExtraPackage (pkg : Text) :
    (checkExtraPackage expected rpt pkg).hasDrift = false ↔
      rpt.hasDrift = false ∧ pkg ∈ expected.packages := by
  unfold checkExtraPackage
  split_ifs with h <;> simp_all

end

variable {expected actual}

lemma compare_hasDrift_iff : (compare expected actual).hasDrift = false ↔
      expected.runtimes = actual.runtimes ∧
        ∀ pkg, pkg ∈ expected.packages ↔ pkg ∈ actual.packages := by
  have hloo : (compare expected actual).hasDrift = false ↔
      (∀ e ∈ expected.runtimes.entries, actual.runtimes.get e.1 = some e.2) ∧
      (∀ name ∈ actual.runtimes.keys, (expected.runtimes.get name).isNone = false) ∧
      (∀ pkg ∈ expected.packages, pkg ∈ actual.packages) ∧
      ∀ pkg ∈ actual.packages, pkg ∈ expected.packages := by
    unfold compare
    rw [hasDrift_foldl (hasDrift_checkExtraPackage expected),
      hasDrift_foldl (hasDrift_checkPackage actual),
      hasDrift_foldl (hasDrift_checkExtraRuntime expected),
      hasDrift_foldl (hasDrift_checkRuntime actual)]
    simp only [true_and, and_assoc]
  rw [hloo]
  constructor
  · rintro ⟨hsub, hext, hpks, hpks'⟩
    refine ⟨SortedMap.ext_of_mem fun e => ⟨fun he => ?_, fun he => ?_⟩,
      fun pkg => ⟨hpks pkg, hpks' pkg⟩⟩
    · exact SortedMap.mem_iff_get.mpr (hsub e he)
    · -- The expected version of an actual runtime is the actual one.
      obtain ⟨ver, hver⟩ := Option.isSome_iff_exists.mp
        (Option.isNone_eq_false_iff.mp (hext e.1 (mem_map_of_mem he)))
      have hact := hsub (e.1, ver) (SortedMap.mem_iff_get.mpr hver)
      rw [SortedMap.mem_iff_get.mp he] at hact
      rw [SortedMap.mem_iff_get, hact, hver]
  · rintro ⟨hrt, hpks⟩
    rw [hrt]
    refine ⟨fun e he => SortedMap.mem_iff_get.mp he, fun name hn => ?_,
      fun pkg => (hpks pkg).mp, fun pkg => (hpks pkg).mpr⟩
    obtain ⟨e, he, rfl⟩ := mem_map.mp hn
    rw [SortedMap.mem_iff_get.mp he]
    rfl

lemma compare_hasDrift_iff_of_normalized (hexp : expected.Normalized)
    (hact : actual.Normalized) : (compare expected actual).hasDrift = false ↔
      expected.runtimes = actual.runtimes ∧ expected.packages = actual.packages := by
  rw [compare_hasDrift_iff]
  refine and_congr_right fun _ => ⟨fun h => ?_, fun h pkg => by rw [h]⟩
  have hsor := hexp.pairwise_packages
  have hsor' := hact.pairwise_packages
  have hp : expected.packages.Perm actual.packages :=
    (perm_ext_iff_of_nodup (hsor.imp ne_of_lt) (hsor'.imp ne_of_lt)).mpr h
  exact hp.eq_of_pairwise (fun a b _ _ hab hba => absurd hab (lt_asymm hba)) hsor hsor'

end DriftReport

open DriftReport

/-! ### Fingerprints and drift -/

namespace EnvironmentState

/-- The names of a state do not have the characters that the digest puts between them. A version
may have colons. -/
def Plain (s : EnvironmentState) : Prop :=
  (∀ e ∈ s.runtimes.entries, ':' ∉ e.1 ∧ ';' ∉ e.1 ∧ ';' ∉ e.2) ∧
    ∀ pkg ∈ s.packages, ':' ∉ pkg ∧ ';' ∉ pkg

instance (s : EnvironmentState) : Decidable s.Plain := inferInstanceAs (Decidable (_ ∧ _))

variable {s t : EnvironmentState} {sha256 : Bytes → Bytes}

lemma notMem_records (hs : s.Plain) {rec : Text}
    (h : rec ∈ records (s.runtimes.entries, s.packages)) : ';' ∉ rec := by
  rcases mem_append.mp h with h | h
  · obtain ⟨e, he, rfl⟩ := mem_map.mp h
    obtain ⟨-, hn, hver⟩ := hs.1 e he
    simp [runtimeRecord, hn, hver]
  · exact (hs.2 rec h).2

lemma filter_records (hs : s.Plain) :
    ((records (s.runtimes.entries, s.packages)).filter (':' ∈ ·)) =
        s.runtimes.entries.map runtimeRecord ∧
      ((records (s.runtimes.entries, s.packages)).filter (':' ∉ ·)) = s.packages := by
  have hrt : ∀ rec ∈ s.runtimes.entries.map runtimeRecord, ':' ∈ rec := by
    intro rec h
    obtain ⟨e, -, rfl⟩ := mem_map.mp h
    simp [runtimeRecord]
  have hpks : ∀ pkg ∈ s.packages, ':' ∉ pkg := fun pkg h => (hs.2 pkg h).1
  constructor
  · rw [records, filter_append, filter_eq_self.mpr (by simpa using hrt),
      filter_eq_nil_iff.mpr (by simpa using hpks), append_nil]
  · rw [records, filter_append, filter_eq_nil_iff.mpr (by simpa using hrt),
      filter_eq_self.mpr (by simpa using hpks), nil_append]

lemma map_runtimeRecord_injOn {l l' : List (Text × Text)} (hl : ∀ e ∈ l, ':' ∉ e.1)
    (hl' : ∀ e ∈ l', ':' ∉ e.1) (h : l.map runtimeRecord = l'.map runtimeRecord) : l = l' := by
  induction l generalizing l' with
  | nil => exact (map_eq_nil_iff.mp h.symm).symm
  | cons e l ih => cases l' with
    | nil => simp at h
    | cons e' l' =>
      obtain ⟨hn, hta⟩ := forall_mem_cons.mp hl
      obtain ⟨hn', hta'⟩ := forall_mem_cons.mp hl'
      obtain ⟨hrc, hr⟩ := List.cons.inj h
      obtain ⟨hfst, hsnd⟩ := append_cons_inj hn hn' hrc
      rw [Prod.ext hfst hsnd, ih hta hta' hr]

lemma eq_of_pieces_records (hs : s.Plain) (ht : t.Plain)
    (h : pieces (records (s.runtimes.entries, s.packages)) = pieces
      (records (t.runtimes.entries, t.packages))) :
    s.runtimes = t.runtimes ∧ s.packages = t.packages := by
  have hrs := h
  rw [pieces_eq_self fun _ => notMem_records hs, pieces_eq_self fun _ => notMem_records ht] at hrs
  refine ⟨SortedMap.ext ?_, ?_⟩
  · refine map_runtimeRecord_injOn (fun e he => (hs.1 e he).1) (fun e he => (ht.1 e he).1) ?_
    rw [← (filter_records hs).1, hrs, (filter_records ht).1]
  · rw [← (filter_records hs).2, hrs, (filter_records ht).2]

section

variable (hsha256 : Injective sha256) (hs : s.Normalized) (ht : t.Normalized)

include hsha256 hs ht

lemma calculateHash_eq_iff_pieces : s.calculateHash sha256 = t.calculateHash sha256 ↔
      pieces (records (s.runtimes.entries, s.packages)) =
        pieces (records (t.runtimes.entries, t.packages)) := by
  rw [calculateHash_eq_iff hsha256, hs.normalizedParts, ht.normalizedParts, terminated_eq_iff]

lemma hash_eq_iff_of_plain (hspl : s.Plain) (htpl : t.Plain) :
    s.calculateHash sha256 = t.calculateHash sha256 ↔
      (compare s t).hasDrift = false := by
  rw [calculateHash_eq_iff_pieces hsha256 hs ht, compare_hasDrift_iff_of_normalized hs ht]
  refine ⟨eq_of_pieces_records hspl htpl, ?_⟩
  rintro ⟨hrt, hpks⟩
  rw [hrt, hpks]

lemma hash_eq_iff_hasDrift_iff : (s.calculateHash sha256 = t.calculateHash sha256 ↔
        (compare s t).hasDrift = false) ↔
      ((s.runtimes = t.runtimes ∧ s.packages = t.packages) ∨
        pieces (records (s.runtimes.entries, s.packages)) ≠
          pieces (records (t.runtimes.entries, t.packages))) := by
  rw [calculateHash_eq_iff_pieces hsha256 hs ht, compare_hasDrift_iff_of_normalized hs ht]
  have hsm : s.runtimes = t.runtimes ∧ s.packages = t.packages →
      pieces (records (s.runtimes.entries, s.packages)) =
        pieces (records (t.runtimes.entries, t.packages)) := by
    rintro ⟨hrt, hpks⟩
    rw [hrt, hpks]
  constructor
  · intro hiff
    by_cases hes : s.runtimes = t.runtimes ∧ s.packages = t.packages
    · exact .inl hes
    · exact .inr fun hpc => hes (hiff.mp hpc)
  · rintro (hes | hpc)
    · exact ⟨fun _ => hes, hsm⟩
    · exact ⟨fun h => absurd h hpc, hsm⟩

end

end EnvironmentState

open EnvironmentState

/-- Fingerprints and drift, with a digest that has no collisions. Between normalized states, equal
fingerprints mean no drift, and no drift means equal fingerprints, just if the states have the same
entries or the records of their entries, cut at the semicolons, have different pieces; for plain
states this is always so. Normalizing preserves the fingerprint just if no two names of runtimes are
equal after trimming. What is saved is accepted in any case. -/
theorem fingerprint_decides_drift {C : Type} (format : LockfileFormat C) (sha256 : Bytes → Bytes)
    (hsha256 : Function.Injective sha256) :
    (∀ s t : EnvironmentState, s.Normalized → t.Normalized →
      ((s.calculateHash sha256 = t.calculateHash sha256 ↔
          (DriftReport.compare s t).hasDrift = false) ↔
        ((s.runtimes = t.runtimes ∧ s.packages = t.packages) ∨
          pieces (records (s.runtimes.entries, s.packages)) ≠
            pieces (records (t.runtimes.entries, t.packages))))) ∧
    (∀ s t : EnvironmentState, s.Normalized → t.Normalized → s.Plain → t.Plain →
      (s.calculateHash sha256 = t.calculateHash sha256 ↔
        (DriftReport.compare s t).hasDrift = false)) ∧
    (∀ s : EnvironmentState, s.normalize.calculateHash sha256 = s.calculateHash sha256 ↔
      (s.runtimes.entries.map fun e => Text.trim e.1).Nodup) ∧
    ∀ (s : EnvironmentState) (content : C), s.save format sha256 = .ok content →
      parseLockfile format sha256 content = .ok (s.saved sha256) :=
  ⟨fun _ _ => hash_eq_iff_hasDrift_iff hsha256, fun _ _ => hash_eq_iff_of_plain hsha256,
    calculateHash_normalize_iff hsha256, fun _ _ => parseLockfile_of_save format sha256⟩

def EnvironmentState.LockfileFormat.verbatim : LockfileFormat EnvironmentState where
  toStringPretty := .ok
  fromStr := .ok
  schemaVersionOf s := some (some s.schemaVersion)
  fromStr_toStringPretty h := by cases h; rfl
  schemaVersionOf_toStringPretty h := by cases h; rfl

def EnvironmentState.ofEntries (runtimes : List (Text × Text)) (packages : List Text) :
    EnvironmentState :=
  ⟨currentSchemaVersion, SortedMap.ofList runtimes, packages, 0, []⟩

/-- Another version of a runtime changes the fingerprint, and it is reported as drift. -/
theorem fingerprint_decides_drift_upgrade :
    (DriftReport.compare (ofEntries [("go".toList, "1".toList)] ["git".toList])
        (ofEntries [("go".toList, "2".toList)] ["git".toList])).hasDrift = true ∧
      (ofEntries [("go".toList, "1".toList)] ["git".toList]).calculateHash id ≠
        (ofEntries [("go".toList, "2".toList)] ["git".toList]).calculateHash id := by
  have h := (fingerprint_decides_drift LockfileFormat.verbatim id injective_id).2.1
    (ofEntries [("go", "1")] ["git"])
    (ofEntries [("go", "2")] ["git"])
    (by decide +kernel) (by decide +kernel) (by decide +kernel) (by decide +kernel)
  have hdrift : (DriftReport.compare (ofEntries [("go", "1")] ["git"])
      (ofEntries [("go", "2")] ["git"])).hasDrift = true := by decide +kernel
  exact ⟨hdrift, fun hsame => Bool.false_ne_true ((h.mp hsame).symm.trans hdrift)⟩

/-- A runtime and a package that is written like it have the same fingerprint, and drift is
reported. Two runtimes whose names differ by a space have another fingerprint before they are
normalized than after. -/
theorem exists_fingerprint_collision : (∃ s t : EnvironmentState, s.Normalized ∧ t.Normalized ∧
      (∀ sha256, s.calculateHash sha256 = t.calculateHash sha256) ∧
      (DriftReport.compare s t).hasDrift = true) ∧
    ∃ s : EnvironmentState, ∀ sha256, Function.Injective sha256 →
      s.normalize.calculateHash sha256 ≠ s.calculateHash sha256 := by
  refine ⟨⟨ofEntries [("a", "1")] [], ofEntries [] ["a:1"],
    by decide +kernel, by decide +kernel, fun sha256 => ?_, by decide +kernel⟩,
    ofEntries [("a", "1"), (" a", "2")] [], fun sha256 hsha256 => ?_⟩
  · have hby : digestedBytes (ofEntries [("a", "1")] []).normalizedParts =
        digestedBytes (ofEntries [] ["a:1"]).normalizedParts := by decide +kernel
    rw [calculateHash, calculateHash, hby]
  · rw [Ne, calculateHash_normalize_iff hsha256]
    decide +kernel

end Env

end Omg
