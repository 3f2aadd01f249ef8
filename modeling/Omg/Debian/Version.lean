import Mathlib.Data.Char
import Mathlib.Data.Int.Order.Basic
import Omg.Text.Basic

/-!
# Comparing Debian package versions

The comparator of Debian versions `[epoch:]upstream[-revision]`: the epochs are compared as numbers,
then the upstream parts and the revisions by alternating runs of non-digits and digits.

Source: `src/package_managers/types.rs`, module `debian_version`.
-/

open Std (ReflCmp OrientedCmp TransCmp)

namespace Omg.Debian

/-- The rank of a character in a run of non-digits: `~` first, then letters, then the rest. -/
def debCharacterOrder (c : Char) : ℤ :=
  if c = '~' then -1 else if c.isAlpha then c.toNat else c.toNat + 256

/-- Compare two runs of non-digits; the end of a run sorts after `~` and before anything else. -/
def compareDebNonDigits : Text → Text → Ordering
  | [], [] => .eq
  | c :: _, [] => if c = '~' then .lt else .gt
  | [], c :: _ => if c = '~' then .gt else .lt
  | a :: as, b :: bs =>
    (compare (debCharacterOrder a) (debCharacterOrder b)).then (compareDebNonDigits as bs)

def compareDebNumericStrings (a b : Text) : Ordering :=
  let a := a.dropWhile (· == '0')
  let b := b.dropWhile (· == '0')
  (compare a.length b.length).then (compare a b)

def splitAtDebDigit (value : Text) : Text × Text :=
  (value.takeWhile fun c => !c.isDigit, value.dropWhile fun c => !c.isDigit)

def splitAtDebNonDigit (value : Text) : Text × Text :=
  (value.takeWhile Char.isDigit, value.dropWhile Char.isDigit)

/-- The loop of `compareDebPart`, with a bound on its iterations. -/
def compareDebPartLoop : ℕ → Text → Text → Ordering
  | 0, _, _ => .eq
  | n + 1, a, b =>
    let (aNonDigit, aAfter) := splitAtDebDigit a
    let (bNonDigit, bAfter) := splitAtDebDigit b
    (compareDebNonDigits aNonDigit bNonDigit).then <|
      let (aNumber, aNext) := splitAtDebNonDigit aAfter
      let (bNumber, bNext) := splitAtDebNonDigit bAfter
      if aNumber.isEmpty && bNumber.isEmpty then .eq
      else (compareDebNumericStrings aNumber bNumber).then (compareDebPartLoop n aNext bNext)

/-- Compare two upstream parts or two revisions. Every iteration consumes a character of one of
the two texts, so the lengths bound their number. -/
def compareDebPart (a b : Text) : Ordering := compareDebPartLoop (a.length + b.length + 1) a b

/-- The epoch of a version and the rest; an epoch that is not a 64-bit number counts as `0`. -/
def splitDebEpoch (version : Text) : ℕ × Text :=
  match Text.splitOnce ':' version with
  | some (epoch, rest) => ((Text.parseUnsigned (2 ^ 64) epoch).getD 0, rest)
  | none => (0, version)

def splitDebRevision (version : Text) : Text × Text :=
  (Text.rsplitOnce '-' version).getD (version, [])

def compareDebVersions (a b : Text) : Ordering :=
  let (epochA, restA) := splitDebEpoch a
  let (epochB, restB) := splitDebEpoch b
  (compare epochA epochB).then <|
    let (upstreamA, revisionA) := splitDebRevision restA
    let (upstreamB, revisionB) := splitDebRevision restB
    (compareDebPart upstreamA upstreamB).then (compareDebPart revisionA revisionB)

/-- A run of non-digits as a list of ranks, its end having rank `0`. -/
def nonDigitRanks (s : Text) : List ℤ := s.map debCharacterOrder ++ [0]

lemma debCharacterOrder_tilde : debCharacterOrder '~' = -1 := rfl

lemma debCharacterOrder_pos {c : Char} (h : c ≠ '~') : 0 < debCharacterOrder c := by
  rw [debCharacterOrder, if_neg h]
  split_ifs with halp
  · by_contra hle
    have hz : c.toNat = 0 := by omega
    have hnul : c = Char.ofNat 0 := by rw [← hz, Char.ofNat_toNat]
    subst hnul
    revert halp
    decide
  · omega

lemma compareDebNonDigits_eq (a b : Text) :
    compareDebNonDigits a b = compare (nonDigitRanks a) (nonDigitRanks b) := by
  induction a generalizing b with
  | nil =>
    cases b with
    | nil => rfl
    | cons c bs =>
      by_cases hc : c = '~'
      · subst hc
        rfl
      · have hlt : compare (0 : ℤ) (debCharacterOrder c) = .lt :=
          compare_lt_iff_lt.mpr (debCharacterOrder_pos hc)
        simp [compareDebNonDigits, nonDigitRanks, hc, hlt]
  | cons c as ih =>
    cases b with
    | nil =>
      by_cases hc : c = '~'
      · subst hc
        rfl
      · have hgt : compare (debCharacterOrder c) (0 : ℤ) = .gt :=
          compare_gt_iff_gt.mpr (debCharacterOrder_pos hc)
        simp [compareDebNonDigits, nonDigitRanks, hc, hgt]
    | cons d bs =>
      rw [compareDebNonDigits, ih bs]
      simp [nonDigitRanks]

instance compareDebNonDigits_transCmp : TransCmp compareDebNonDigits := by
  have h : compareDebNonDigits = compareOn nonDigitRanks := by
    funext a b
    exact compareDebNonDigits_eq a b
  rw [h]
  infer_instance

instance compareDebNumericStrings_transCmp : TransCmp compareDebNumericStrings := by
  have h : compareDebNumericStrings =
      compareLex (compareOn fun s => (s.dropWhile (· == '0')).length)
        (compareOn fun s : Text => s.dropWhile (· == '0')) := by
    funext a b
    rfl
  rw [h]
  infer_instance

/-! ### Upstream parts and revisions -/

def debNonDigit (s : Text) : Text := (splitAtDebDigit s).1

def debNumber (s : Text) : Text := (splitAtDebNonDigit (splitAtDebDigit s).2).1

def debRest (s : Text) : Text := (splitAtDebNonDigit (splitAtDebDigit s).2).2

lemma debRest_of_debNumber_eq_nil {s : Text} (h : debNumber s = []) : debRest s = [] := by
  simp only [debNumber, debRest, splitAtDebNonDigit, splitAtDebDigit] at h ⊢
  cases hs : s.dropWhile fun c => !c.isDigit with
  | nil => rfl
  | cons c rest =>
    have hc : c.isDigit = true := by
      have hh := List.head_dropWhile_not (fun c : Char => !c.isDigit)
        (show s.dropWhile (fun c => !c.isDigit) ≠ [] by simp [hs])
      simpa [hs] using hh
    simp [hs, hc] at h

lemma length_debRest_le (s : Text) : (debRest s).length ≤ s.length - 1 := by
  simp only [debRest, splitAtDebNonDigit, splitAtDebDigit]
  cases s with
  | nil => rfl
  | cons c cs =>
    have hle := (List.dropWhile_sublist (fun c : Char => !c.isDigit) (l := cs)).length_le
    have hle' := fun l : Text => (List.dropWhile_sublist Char.isDigit (l := l)).length_le
    by_cases hc : c.isDigit = true
    · simp only [List.dropWhile_cons, hc, Bool.not_true, Bool.false_eq_true, if_false]
      exact hle' cs
    · simp only [List.dropWhile_cons, hc]
      exact Nat.le_trans (hle' _) hle

def compareDebHead : Text → Text → Ordering :=
  compareLex (fun a b => compareDebNonDigits (debNonDigit a) (debNonDigit b))
    fun a b => compareDebNumericStrings (debNumber a) (debNumber b)

/-- At most `n` iterations of the comparison, without the early exit of the loop. -/
def compareDebBlocks : ℕ → Text → Text → Ordering
  | 0 => fun _ _ => .eq
  | n + 1 => compareLex compareDebHead fun a b => compareDebBlocks n (debRest a) (debRest b)

lemma compareDebBlocks_nil (n : ℕ) : compareDebBlocks n [] [] = .eq := by
  induction n with
  | zero => rfl
  | succ n ih => exact ih

lemma compareDebPartLoop_succ (n : ℕ) (a b : Text) : compareDebPartLoop (n + 1) a b =
    (compareDebNonDigits (debNonDigit a) (debNonDigit b)).then
      (if (debNumber a).isEmpty && (debNumber b).isEmpty then .eq
        else (compareDebNumericStrings (debNumber a) (debNumber b)).then
          (compareDebPartLoop n (debRest a) (debRest b))) := rfl

lemma compareDebHead_eq (a b : Text) :
    compareDebHead a b = (compareDebNonDigits (debNonDigit a) (debNonDigit b)).then
      (compareDebNumericStrings (debNumber a) (debNumber b)) := rfl

lemma compareDebPartLoop_eq (n : ℕ) (a b : Text) :
    compareDebPartLoop n a b = compareDebBlocks n a b := by
  induction n generalizing a b with
  | zero => rfl
  | succ n ih =>
    rw [compareDebPartLoop_succ, compareDebBlocks, compareLex, compareDebHead_eq,
      Ordering.then_assoc, ih]
    split_ifs with hem
    · rw [Bool.and_eq_true, List.isEmpty_iff, List.isEmpty_iff] at hem
      rw [debRest_of_debNumber_eq_nil hem.1, debRest_of_debNumber_eq_nil hem.2,
        compareDebBlocks_nil, hem.1, hem.2]
      rfl
    · rfl

lemma compareDebBlocks_succ_of_length_le {n : ℕ} {a b : Text} (ha : a.length ≤ n)
    (hb : b.length ≤ n) : compareDebBlocks (n + 1) a b = compareDebBlocks n a b := by
  induction n generalizing a b with
  | zero =>
    obtain rfl := List.eq_nil_of_length_eq_zero (Nat.le_zero.mp ha)
    obtain rfl := List.eq_nil_of_length_eq_zero (Nat.le_zero.mp hb)
    rfl
  | succ n ih =>
    have hr (s : Text) (hs : s.length ≤ n + 1) : (debRest s).length ≤ n := by
      have := length_debRest_le s
      omega
    change (compareDebHead a b).then (compareDebBlocks (n + 1) (debRest a) (debRest b)) =
      (compareDebHead a b).then (compareDebBlocks n (debRest a) (debRest b))
    rw [ih (hr a ha) (hr b hb)]

lemma compareDebPart_eq_blocks {a b : Text} {n : ℕ} (ha : a.length ≤ n) (hb : b.length ≤ n) :
    compareDebPart a b = compareDebBlocks n a b := by
  have hstb : ∀ k, compareDebBlocks (max a.length b.length + k) a b =
      compareDebBlocks (max a.length b.length) a b := by
    intro k
    induction k with
    | zero => rfl
    | succ k ih =>
      rw [← Nat.add_assoc, compareDebBlocks_succ_of_length_le (by omega) (by omega), ih]
  rw [compareDebPart, compareDebPartLoop_eq]
  obtain ⟨k, hk⟩ := Nat.exists_eq_add_of_le (show max a.length b.length ≤ n by omega)
  obtain ⟨k', hk'⟩ := Nat.exists_eq_add_of_le
    (show max a.length b.length ≤ a.length + b.length + 1 by omega)
  rw [hk, hk', hstb, hstb]

lemma transCmp_comap {α β : Type} (cmp : β → β → Ordering) [TransCmp cmp] (f : α → β) :
    TransCmp fun a b => cmp (f a) (f b) where
  eq_swap := OrientedCmp.eq_swap
  isLE_trans := TransCmp.isLE_trans

instance compareDebHead_transCmp : TransCmp compareDebHead :=
  have := transCmp_comap compareDebNonDigits debNonDigit
  have := transCmp_comap compareDebNumericStrings debNumber
  inferInstanceAs (TransCmp (compareLex _ _))

instance compareDebBlocks_transCmp (n : ℕ) : TransCmp (compareDebBlocks n) := by
  induction n with
  | zero => exact { eq_swap := rfl, isLE_trans := fun _ _ => rfl }
  | succ n ih =>
    have := transCmp_comap (compareDebBlocks n) debRest
    exact inferInstanceAs (TransCmp (compareLex _ _))

instance compareDebPart_transCmp : TransCmp compareDebPart where
  eq_swap {a b} := by
    rw [compareDebPart_eq_blocks (le_max_left a.length b.length) (le_max_right _ _),
      compareDebPart_eq_blocks (le_max_right a.length b.length) (le_max_left _ _)]
    exact OrientedCmp.eq_swap
  isLE_trans {a b c} := by
    have ha : a.length ≤ max a.length (max b.length c.length) := by omega
    have hb : b.length ≤ max a.length (max b.length c.length) := by omega
    have hc : c.length ≤ max a.length (max b.length c.length) := by omega
    rw [compareDebPart_eq_blocks ha hb, compareDebPart_eq_blocks hb hc,
      compareDebPart_eq_blocks ha hc]
    exact TransCmp.isLE_trans

/-! ### Versions -/

def debUpstream (version : Text) : Text := (splitDebRevision (splitDebEpoch version).2).1

def debRevision (version : Text) : Text := (splitDebRevision (splitDebEpoch version).2).2

lemma compareDebVersions_eq (a b : Text) :
    compareDebVersions a b = (compare (splitDebEpoch a).1 (splitDebEpoch b).1).then
      ((compareDebPart (debUpstream a) (debUpstream b)).then
        (compareDebPart (debRevision a) (debRevision b))) := rfl

/-- **The comparator is a total preorder.** -/
instance compareDebVersions_transCmp : TransCmp compareDebVersions := by
  have h : compareDebVersions = compareLex (compareOn fun a => (splitDebEpoch a).1)
      (compareLex (fun a b => compareDebPart (debUpstream a) (debUpstream b))
        fun a b => compareDebPart (debRevision a) (debRevision b)) := by
    funext a b
    exact compareDebVersions_eq a b
  have := transCmp_comap compareDebPart debUpstream
  have := transCmp_comap compareDebPart debRevision
  rw [h]
  infer_instance

/-!
### Hashing Debian package versions

Versions are keys of hashed collections, and two versions are the same key if the comparator says
that they are equal. The hash therefore has to forget what the comparator forgets: leading zeros, a
number that is zero or missing at the end of a part, and how an epoch is written.

A hasher is a function of what is written to it, in order, so a hash is the list of these writes.
-/

open List Ordering

inductive HashWrite
  /-- `Hasher::write_u64`. -/
  | u64 (n : ℕ)
  /-- `Hasher::write_u8`. -/
  | u8 (n : ℕ)
  /-- `Hasher::write`. -/
  | bytes (b : Bytes)
  deriving DecidableEq

def hashStr (s : Text) : List HashWrite := [.bytes (Text.utf8 s), .u8 0xff]

def hashRun (s : Text) : List HashWrite := if s.isEmpty then [] else hashStr s

/-- `trim_start_matches('0')`. -/
def trimZeros (s : Text) : Text := s.dropWhile (· == '0')

def hashDebPartLoop : ℕ → Text → List HashWrite
  | 0, _ => []
  | n + 1, part =>
    if part.isEmpty then []
    else
      let (nonDigits, rest) := splitAtDebDigit part
      let (digits, rest) := splitAtDebNonDigit rest
      hashRun nonDigits ++ hashRun (trimZeros digits) ++ hashDebPartLoop n rest

/-- The writes for an upstream part or a revision. Every iteration consumes a character, so the
length bounds their number. -/
def hashDebPart (part : Text) : List HashWrite := hashDebPartLoop part.length part

/-- `hash_deb_version`: the writes for a version. Each part is followed by an empty string. -/
def hashDebVersion (version : Text) : List HashWrite :=
  let (epoch, rest) := splitDebEpoch version
  let (upstream, revision) := splitDebRevision rest
  .u64 epoch :: (hashDebPart upstream ++ hashStr [] ++ (hashDebPart revision ++ hashStr []))

/-! ### What the comparator forgets about one run -/

lemma debCharacterOrder_of_isAlpha {c : Char} (h : c.isAlpha) :
    debCharacterOrder c = c.toNat ∧ c.toNat < 256 := by
  have htil : c ≠ '~' := by
    rintro rfl
    cases h
  have hbou := Text.toNat_of_isAlphanum (c := c) (by simp [Char.isAlphanum, h])
  exact ⟨by rw [debCharacterOrder, if_neg htil, if_pos h], by omega⟩

lemma debCharacterOrder_of_not_isAlpha {c : Char} (htil : c ≠ '~') (h : ¬c.isAlpha) :
    debCharacterOrder c = c.toNat + 256 := by
  rw [debCharacterOrder, if_neg htil, if_neg h]

lemma debCharacterOrder_injective : Function.Injective debCharacterOrder := by
  intro c d h
  by_cases hc : c = '~'
  · subst hc
    by_contra hd
    have hpos := debCharacterOrder_pos (Ne.symm hd)
    rw [← h, debCharacterOrder_tilde] at hpos
    omega
  by_cases hd : d = '~'
  · subst hd
    have hpos := debCharacterOrder_pos hc
    rw [h, debCharacterOrder_tilde] at hpos
    omega
  -- Letters rank below 256 and all other characters from 256 on.
  have hco : c.toNat = d.toNat := by
    by_cases hcl : c.isAlpha = true <;> by_cases hdl : d.isAlpha = true
    · have hc' := debCharacterOrder_of_isAlpha hcl
      have hd' := debCharacterOrder_of_isAlpha hdl
      omega
    · have hc' := debCharacterOrder_of_isAlpha hcl
      have hd' := debCharacterOrder_of_not_isAlpha hd hdl
      omega
    · have hc' := debCharacterOrder_of_not_isAlpha hc hcl
      have hd' := debCharacterOrder_of_isAlpha hdl
      omega
    · have hc' := debCharacterOrder_of_not_isAlpha hc hcl
      have hd' := debCharacterOrder_of_not_isAlpha hd hdl
      omega
  rw [← Char.ofNat_toNat c, hco, Char.ofNat_toNat]

lemma nonDigitRanks_injective : Function.Injective nonDigitRanks := by
  intro a b h
  exact map_injective_iff.mpr debCharacterOrder_injective (append_cancel_right h)

lemma compareDebNonDigits_eq_eq {a b : Text} (h : compareDebNonDigits a b = .eq) : a = b := by
  rw [compareDebNonDigits_eq] at h
  exact nonDigitRanks_injective (Std.LawfulEqOrd.eq_of_compare h)

lemma trimmed_of_compareDebNumericStrings {a b : Text}
    (h : compareDebNumericStrings a b = .eq) : trimZeros a = trimZeros b := by
  have hth : (compare (trimZeros a).length (trimZeros b).length).then
      (compare (trimZeros a) (trimZeros b)) = .eq := h
  exact Std.LawfulEqOrd.eq_of_compare (then_eq_eq.mp hth).2

/-! ### Parts -/

def hashDebHead (part : Text) : List HashWrite :=
  hashRun (debNonDigit part) ++ hashRun (trimZeros (debNumber part))

lemma hashDebPartLoop_succ (n : ℕ) (part : Text) :
    hashDebPartLoop (n + 1) part = hashDebHead part ++ hashDebPartLoop n (debRest part) := by
  cases part with
  | nil =>
    cases n with
    | zero => rfl
    | succ n => rfl
  | cons c part => rfl

lemma hashDebPartLoop_congr {n m : ℕ} {part : Text} (hn : part.length ≤ n)
    (hm : part.length ≤ m) : hashDebPartLoop n part = hashDebPartLoop m part := by
  induction n generalizing m part with
  | zero =>
    obtain rfl := eq_nil_of_length_eq_zero (Nat.le_zero.mp hn)
    cases m with
    | zero => rfl
    | succ m => rfl
  | succ n ih =>
    cases m with
    | zero =>
      obtain rfl := eq_nil_of_length_eq_zero (Nat.le_zero.mp hm)
      rfl
    | succ m =>
      have hr := length_debRest_le part
      have hlp : hashDebPartLoop n (debRest part) = hashDebPartLoop m (debRest part) :=
        ih (by omega) (by omega)
      rw [hashDebPartLoop_succ, hashDebPartLoop_succ, hlp]

lemma hashDebPart_eq (part : Text) :
    hashDebPart part = hashDebHead part ++ hashDebPart (debRest part) := by
  have hr := length_debRest_le part
  rw [hashDebPart, hashDebPartLoop_congr (le_refl _) (Nat.le_succ _), hashDebPartLoop_succ,
    hashDebPartLoop_congr (by omega) (le_refl _), hashDebPart]

lemma hashDebHead_of_compareDebHead {a b : Text} (h : compareDebHead a b = .eq) :
    hashDebHead a = hashDebHead b := by
  obtain ⟨hnonDigit, hnum⟩ := then_eq_eq.mp h
  rw [hashDebHead, hashDebHead, compareDebNonDigits_eq_eq hnonDigit,
    trimmed_of_compareDebNumericStrings hnum]

lemma hashDebPart_of_compareDebBlocks {n : ℕ} {a b : Text} (ha : a.length ≤ n)
    (hb : b.length ≤ n) (h : compareDebBlocks n a b = .eq) : hashDebPart a = hashDebPart b := by
  induction n generalizing a b with
  | zero =>
    rw [eq_nil_of_length_eq_zero (Nat.le_zero.mp ha), eq_nil_of_length_eq_zero (Nat.le_zero.mp hb)]
  | succ n ih =>
    obtain ⟨hh, hr⟩ := then_eq_eq.mp h
    have hla := length_debRest_le a
    have hlb := length_debRest_le b
    rw [hashDebPart_eq a, hashDebPart_eq b, hashDebHead_of_compareDebHead hh,
      ih (by omega) (by omega) hr]

lemma hashDebPart_of_compareDebPart {a b : Text} (h : compareDebPart a b = .eq) :
    hashDebPart a = hashDebPart b := by
  have ha : a.length ≤ a.length + b.length := Nat.le_add_right ..
  have hb : b.length ≤ a.length + b.length := Nat.le_add_left ..
  rw [compareDebPart_eq_blocks ha hb] at h
  exact hashDebPart_of_compareDebBlocks ha hb h

/-! ### Versions -/

lemma hashDebVersion_eq (ver : Text) : hashDebVersion ver = .u64 (splitDebEpoch ver).1 ::
      (hashDebPart (debUpstream ver) ++ hashStr [] ++
        (hashDebPart (debRevision ver) ++ hashStr [])) := rfl

lemma hashDebVersion_of_compareDebVersions {a b : Text} (h : compareDebVersions a b = .eq) :
    hashDebVersion a = hashDebVersion b := by
  rw [compareDebVersions_eq, then_eq_eq, then_eq_eq] at h
  obtain ⟨hep, hups, hrev⟩ := h
  rw [hashDebVersion_eq, hashDebVersion_eq, Std.LawfulEqOrd.eq_of_compare hep,
    hashDebPart_of_compareDebPart hups, hashDebPart_of_compareDebPart hrev]

/-- **Versions are ordered by a total preorder, and the hash respects its equality.** -/
theorem compareDebVersions_preorder_hash : (∀ a, compareDebVersions a a = .eq) ∧
      (∀ a b, compareDebVersions b a = (compareDebVersions a b).swap) ∧
      (∀ a b c, (compareDebVersions a b).isLE = true → (compareDebVersions b c).isLE = true →
        (compareDebVersions a c).isLE = true) ∧
      ∀ a b, compareDebVersions a b = .eq → hashDebVersion a = hashDebVersion b := by
  refine ⟨fun a => ReflCmp.compare_self, fun a b => OrientedCmp.eq_swap, ?_, ?_⟩
  · intro a b c hab hbc
    exact TransCmp.isLE_trans hab hbc
  · intro a b h
    exact hashDebVersion_of_compareDebVersions h

theorem compareDebVersions_preorder_hash_zeros :
    hashDebVersion "01:1.0a0-00".toList = hashDebVersion "1:1.00a".toList :=
  compareDebVersions_preorder_hash.2.2.2 _ _ (by decide +kernel)

/-!
### Dependency fields of Debian packages

A dependency group `a (>= 1) | b` of a `Depends:` field is parsed into its first alternative,
which carries the others. Names may have the architecture qualifier of the host or `native`;
every other qualifier, and every constraint that is not understood, is an error.

Source: `src/package_managers/debian_db/resolver.rs` and `src/package_managers/debian_db/db.rs`.
-/

open Text

inductive VersionOp
  | eq
  | ge
  | gt
  | le
  | lt
deriving DecidableEq, Repr

structure VersionConstraint where
  op : VersionOp
  version : Text
deriving DecidableEq, Repr

/-- A dependency of a `Depends:` field, with its alternatives. -/
structure Dependency where
  name : Text
  versionConstraint : Option VersionConstraint
  alternatives : List Dependency

def Dependency.candidates (dep : Dependency) : List Dependency := dep :: dep.alternatives

def debianArch (arch : Text) : Text :=
  if arch = "x86_64" then "amd64"
  else if arch = "aarch64" then "arm64"
  else if arch = "x86" then "i386"
  else if arch = "arm" then "armhf"
  else arch

/-- Parse a constraint such as `>= 2.38`. The legacy operators `>` and `<` mean `>=` and `<=`. -/
def parseVersionConstraint (s : Text) : Result VersionConstraint := do
  let s := trim s
  let (op, version) ←
    if let some version := stripPrefix ">=" s then pure (VersionOp.ge, version)
    else if let some version := stripPrefix ">>" s then pure (VersionOp.gt, version)
    else if let some version := stripPrefix "<=" s then pure (VersionOp.le, version)
    else if let some version := stripPrefix "<<" s then pure (VersionOp.lt, version)
    else if let some version := stripPrefix "=" s then pure (VersionOp.eq, version)
    else if let some version := stripPrefix ">" s then pure (VersionOp.ge, version)
    else if let some version := stripPrefix "<" s then pure (VersionOp.le, version)
    else bail ("unsupported dependency version constraint '" ++ s ++ "'")
  let version := trim version
  ensure (!version.isEmpty) "dependency version is empty"
  return ⟨op, version⟩

section

variable (hostArch : Text)

/-- `parse_dependency_name`. -/
def parseDependencyName (rawName : Text) : Result Text := do
  let rawName := trim rawName
  let (name, qualifier) := match splitOnce ':' rawName with
    | some (name, qualifier) => (name, some qualifier)
    | none => (rawName, none)
  ensure (!name.isEmpty) "dependency package name is empty"
  if let some qualifier := qualifier then
    ensure (qualifier == "native" || qualifier == hostArch)
      ("dependency architecture qualifier ':" ++ qualifier ++
        "' is not supported by the pure Debian resolver")
  return name

/-- `parse_single_dep`. -/
def parseSingleDep (s : Text) : Result Dependency := do
  match splitOnce '(' s with
  | some (rawName, remainder) =>
    let name ← parseDependencyName hostArch (trim rawName)
    match splitOnce ')' remainder with
    | none =>
      bail "dependency version constraint is missing a closing parenthesis"
    | some (constraintStr, _) =>
      let constraint ← parseVersionConstraint constraintStr
      return ⟨name, some constraint, []⟩
  | none =>
    ensure (!s.contains ')')
      "dependency contains a closing parenthesis without an opening parenthesis"
    let name ← parseDependencyName hostArch s
    return ⟨name, none, []⟩

/-- Parse a dependency group such as `libc6 (>= 2.38) | libc6.1`. -/
def parseDependency (s : Text) : Result Dependency := do
  let parts := ((trim s).splitOn '|').map trim
  let dependency ← parseSingleDep hostArch (parts.headD [])
  let alternatives ← parts.tail.mapM (parseSingleDep hostArch)
  return { dependency with alternatives := alternatives }

end

def versionSatisfies (version : Text) (constraint : VersionConstraint) : Bool :=
  let cmp := compareDebVersions version constraint.version
  match constraint.op with
  | .eq => cmp == .eq
  | .ge => cmp != .lt
  | .gt => cmp == .gt
  | .le => cmp != .gt
  | .lt => cmp == .lt

lemma versionSatisfies_congr {v w : Text} (h : compareDebVersions v w = .eq)
    (constraint : VersionConstraint) :
    versionSatisfies v constraint = versionSatisfies w constraint := by
  have hcmp : compareDebVersions v constraint.version = compareDebVersions w constraint.version :=
    Std.TransCmp.congr_left h
  simp only [versionSatisfies, hcmp]

def Dependency.accepts (candidate : Dependency) (version : Text) : Bool :=
  candidate.versionConstraint.all (versionSatisfies version)

lemma Dependency.accepts_congr (cand : Dependency) {v w : Text}
    (h : compareDebVersions v w = .eq) : cand.accepts v = cand.accepts w := by
  unfold accepts
  cases cand.versionConstraint with
  | none => rfl
  | some constraint => exact versionSatisfies_congr h constraint

def Dependency.metBy (versions : Text → Option Text) (candidate : Dependency) : Bool :=
  (versions candidate.name).any candidate.accepts

end Omg.Debian
