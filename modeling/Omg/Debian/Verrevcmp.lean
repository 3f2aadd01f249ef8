import Omg.Debian.Version

/-!
# The comparison of versions in dpkg

In dpkg the parts of two versions are compared by `verrevcmp`, which walks both texts in lock step,
one character at a time. The comparator of this repository cuts off a run of non-digits and a run of
digits at a time instead.
-/

namespace Omg.Debian

open Option Ordering

/-! ### The reference -/

/-- `order`, of a character or the end of the text. -/
def dpkgOrder : Option Char → ℤ
  | none => 0
  | some c =>
    if c.isDigit then 0
    else if c.isAlpha then c.toNat
    else if c = '~' then -1
    else c.toNat + 256

def startsWithDigit (s : Text) : Bool := s.head?.any Char.isDigit

def startsWithNonDigit (s : Text) : Bool := s.head?.any fun c => !c.isDigit

/-- The first inner loop: the difference of the first characters with different orders, or what is
left of both texts. -/
def verrevNonDigits : Text → Text → Except ℤ (Text × Text)
  | [], [] => .ok ([], [])
  | a, b =>
    if startsWithNonDigit a || startsWithNonDigit b then
      if dpkgOrder a.head? = dpkgOrder b.head? then verrevNonDigits a.tail b.tail
      else .error (dpkgOrder a.head? - dpkgOrder b.head?)
    else .ok (a, b)
  termination_by a b => a.length + b.length
  decreasing_by
    rename_i h
    rcases a with _ | ⟨c, a⟩ <;> rcases b with _ | ⟨d, b⟩ <;>
      simp_all [startsWithNonDigit]
    omega

def verrevDigits : ℤ → Text → Text → ℤ × Text × Text
  | firstDiff, a :: as, b :: bs =>
    if a.isDigit && b.isDigit then
      verrevDigits (if firstDiff = 0 then (a.toNat : ℤ) - b.toNat else firstDiff) as bs
    else (firstDiff, a :: as, b :: bs)
  | firstDiff, as, bs => (firstDiff, as, bs)

def verrevDecide : ℤ × Text × Text → Except ℤ (Text × Text)
  | (firstDiff, a, b) =>
    if startsWithDigit a then .error 1
    else if startsWithDigit b then .error (-1)
    else if firstDiff = 0 then .ok (a, b)
    else .error firstDiff

def verrevStep (a b : Text) : Except ℤ (Text × Text) := do
  let (a, b) ← verrevNonDigits a b
  verrevDecide (verrevDigits 0 (a.dropWhile (· == '0')) (b.dropWhile (· == '0')))

/-- `verrevcmp` of dpkg, with a bound on its iterations. -/
def verrevcmp : ℕ → Text → Text → Option ℤ
  | 0, _, _ => none
  | n + 1, a, b =>
    if a.isEmpty && b.isEmpty then some 0
    else match verrevStep a b with
      | .error difference => some difference
      | .ok (a, b) => verrevcmp n a b

/-- The loop of `compareDebPart`, with no result if it has not ended after `n` iterations. -/
def compareDebPartRun : ℕ → Text → Text → Option Ordering
  | 0, _, _ => none
  | n + 1, a, b =>
    match compareDebNonDigits (debNonDigit a) (debNonDigit b) with
    | .eq =>
      if (debNumber a).isEmpty && (debNumber b).isEmpty then some .eq
      else match compareDebNumericStrings (debNumber a) (debNumber b) with
        | .eq => compareDebPartRun n (debRest a) (debRest b)
        | other => some other
    | other => some other

/-! ### Runs of non-digits -/

variable {c : Char} {s a b : Text}

lemma dpkgOrder_of_nonDigit (h : c.isDigit = false) : dpkgOrder (some c) = debCharacterOrder c := by
  rw [dpkgOrder, debCharacterOrder, if_neg (by simp [h])]
  by_cases hc : c = '~'
  · subst hc
    rfl
  · rw [if_neg hc, if_neg hc]

lemma dpkgOrder_ne_zero (h : c.isDigit = false) : dpkgOrder (some c) ≠ 0 := by
  rw [dpkgOrder_of_nonDigit h]
  by_cases hc : c = '~'
  · subst hc
    decide
  · have hpos := debCharacterOrder_pos hc
    omega

lemma compare_sub_zero (x y : ℤ) : compare (x - y) 0 = compare x y := by
  rcases lt_trichotomy x y with h | h | h
  · rw [compare_lt_iff_lt.mpr h, compare_lt_iff_lt.mpr (by omega)]
  · rw [compare_eq_iff_eq.mpr h, compare_eq_iff_eq.mpr (by omega)]
  · rw [compare_gt_iff_gt.mpr h, compare_gt_iff_gt.mpr (by omega)]

def NonDigitsAgree (a b : Text) (result : Except ℤ (Text × Text)) : Prop :=
  match result with
  | .ok rest => compareDebNonDigits (debNonDigit a) (debNonDigit b) = .eq ∧
      rest = ((splitAtDebDigit a).2, (splitAtDebDigit b).2)
  | .error difference => difference ≠ 0 ∧
      compareDebNonDigits (debNonDigit a) (debNonDigit b) = compare difference 0

lemma debNonDigit_of_digits (h : startsWithNonDigit s = false) :
    debNonDigit s = [] ∧ (splitAtDebDigit s).2 = s := by
  cases s with
  | nil => exact ⟨rfl, rfl⟩
  | cons c s =>
    have hc : c.isDigit = true := by simpa [startsWithNonDigit] using h
    simp [debNonDigit, splitAtDebDigit, hc]

lemma debNonDigit_cons_of_nonDigit (s : Text) (h : c.isDigit = false) :
    debNonDigit (c :: s) = c :: debNonDigit s ∧
      (splitAtDebDigit (c :: s)).2 = (splitAtDebDigit s).2 := by
  simp [debNonDigit, splitAtDebDigit, h]

lemma compareDebNonDigits_cons_nil (s : Text) (h : c.isDigit = false) :
    compareDebNonDigits (c :: s) [] = compare (dpkgOrder (some c)) 0 := by
  rw [dpkgOrder_of_nonDigit h, compareDebNonDigits]
  split_ifs with hc
  · subst hc
    rfl
  · exact (compare_gt_iff_gt.mpr (debCharacterOrder_pos hc)).symm

lemma compareDebNonDigits_nil_cons (s : Text) (h : c.isDigit = false) :
    compareDebNonDigits [] (c :: s) = compare 0 (dpkgOrder (some c)) := by
  rw [dpkgOrder_of_nonDigit h, compareDebNonDigits]
  split_ifs with hc
  · subst hc
    rfl
  · exact (compare_lt_iff_lt.mpr (debCharacterOrder_pos hc)).symm

lemma agree_of_digits (ha : startsWithNonDigit a = false) (hb : startsWithNonDigit b = false) :
    NonDigitsAgree a b (verrevNonDigits a b) := by
  have hlp : verrevNonDigits a b = .ok (a, b) := by
    unfold verrevNonDigits
    split
    · rfl
    · simp [ha, hb]
  obtain ⟨hrn, hres⟩ := debNonDigit_of_digits ha
  obtain ⟨hru, hrst⟩ := debNonDigit_of_digits hb
  rw [hlp]
  exact ⟨by rw [hrn, hru]; rfl, by rw [hres, hrst]⟩

lemma agree_of_ne (h : (startsWithNonDigit a || startsWithNonDigit b) = true)
    (hne : dpkgOrder a.head? ≠ dpkgOrder b.head?)
    (hcmp : compareDebNonDigits (debNonDigit a) (debNonDigit b) = compare (dpkgOrder a.head?)
      (dpkgOrder b.head?)) : NonDigitsAgree a b (verrevNonDigits a b) := by
  have hlp : verrevNonDigits a b = .error (dpkgOrder a.head? - dpkgOrder b.head?) := by
    unfold verrevNonDigits
    split
    · exact absurd rfl hne
    · rw [if_pos h, if_neg hne]
  rw [hlp]
  refine ⟨by omega, ?_⟩
  rw [hcmp, compare_sub_zero]

lemma verrevNonDigits_cons {d : Char} (a b : Text) (hc : c.isDigit = false)
    (heq : dpkgOrder (some c) = dpkgOrder (some d)) :
    verrevNonDigits (c :: a) (d :: b) = verrevNonDigits a b := by
  rw [verrevNonDigits.eq_def]
  simp [startsWithNonDigit, hc, heq]

lemma dpkgOrder_head?_of_digits (h : startsWithNonDigit s = false) : dpkgOrder s.head? = 0 := by
  cases s with
  | nil => rfl
  | cons c s =>
    have hc : c.isDigit = true := by simpa [startsWithNonDigit] using h
    simp [dpkgOrder, hc]

lemma agree_of_nonDigit_left (a : Text) (hc : c.isDigit = false)
    (hb : startsWithNonDigit b = false) :
    NonDigitsAgree (c :: a) b (verrevNonDigits (c :: a) b) := by
  have hz := dpkgOrder_head?_of_digits hb
  refine agree_of_ne (by simp [startsWithNonDigit, hc]) ?_ ?_
  · rw [hz]
    exact dpkgOrder_ne_zero hc
  · rw [hz, (debNonDigit_cons_of_nonDigit a hc).1, (debNonDigit_of_digits hb).1]
    exact compareDebNonDigits_cons_nil _ hc

lemma agree_of_nonDigit_right {d : Char} (b : Text) (ha : startsWithNonDigit a = false)
    (hd : d.isDigit = false) : NonDigitsAgree a (d :: b) (verrevNonDigits a (d :: b)) := by
  have hz := dpkgOrder_head?_of_digits ha
  refine agree_of_ne (by simp [startsWithNonDigit, hd]) ?_ ?_
  · rw [hz]
    exact (dpkgOrder_ne_zero hd).symm
  · rw [hz, (debNonDigit_cons_of_nonDigit b hd).1, (debNonDigit_of_digits ha).1]
    exact compareDebNonDigits_nil_cons _ hd

lemma verrevNonDigits_agree (a b : Text) : NonDigitsAgree a b (verrevNonDigits a b) := by
  induction a generalizing b with
  | nil =>
    cases b with
    | nil => exact agree_of_digits rfl rfl
    | cons d b =>
      cases hd : d.isDigit with
      | true => exact agree_of_digits rfl (by simp [startsWithNonDigit, hd])
      | false => exact agree_of_nonDigit_right b rfl hd
  | cons c a ih =>
    cases hc : c.isDigit with
    | true =>
      have ha : startsWithNonDigit (c :: a) = false := by simp [startsWithNonDigit, hc]
      cases b with
      | nil => exact agree_of_digits ha rfl
      | cons d b =>
        cases hd : d.isDigit with
        | true => exact agree_of_digits ha (by simp [startsWithNonDigit, hd])
        | false => exact agree_of_nonDigit_right b ha hd
    | false =>
      cases b with
      | nil => exact agree_of_nonDigit_left a hc rfl
      | cons d b =>
        cases hd : d.isDigit with
        | true => exact agree_of_nonDigit_left a hc (by simp [startsWithNonDigit, hd])
        | false =>
          obtain ⟨hru, hrst⟩ := debNonDigit_cons_of_nonDigit a hc
          obtain ⟨hrnd, hres⟩ := debNonDigit_cons_of_nonDigit b hd
          have hcmp : compareDebNonDigits (debNonDigit (c :: a)) (debNonDigit (d :: b)) =
              (compare (dpkgOrder (some c)) (dpkgOrder (some d))).then
                (compareDebNonDigits (debNonDigit a) (debNonDigit b)) := by
            rw [hru, hrnd, compareDebNonDigits, dpkgOrder_of_nonDigit hc, dpkgOrder_of_nonDigit hd]
          by_cases heq : dpkgOrder (some c) = dpkgOrder (some d)
          · rw [compare_eq_iff_eq.mpr heq] at hcmp
            rw [verrevNonDigits_cons a b hc heq]
            have hih := ih b
            unfold NonDigitsAgree at ⊢
            rw [hcmp, hrst, hres]
            exact hih
          · refine agree_of_ne (by simp [startsWithNonDigit, hc]) heq ?_
            rw [hcmp, List.head?_cons, List.head?_cons]
            cases h : compare (dpkgOrder (some c)) (dpkgOrder (some d)) with
            | eq => exact absurd (compare_eq_iff_eq.mp h) heq
            | _ => rfl

/-! ### Runs of digits -/

def firstDifference : Text → Text → ℤ
  | a :: as, b :: bs =>
    if (a.toNat : ℤ) - b.toNat = 0 then firstDifference as bs else (a.toNat : ℤ) - b.toNat
  | _, _ => 0

lemma compare_char (c d : Char) : compare c d = compare (c.toNat : ℤ) (d.toNat : ℤ) := by
  rcases lt_trichotomy c.toNat d.toNat with h | h | h
  · rw [compare_lt_iff_lt.mpr (show c < d from h), compare_lt_iff_lt.mpr (by omega)]
  · rw [compare_eq_iff_eq.mpr (Char.toNat_inj.mp h), compare_eq_iff_eq.mpr (by omega)]
  · rw [compare_gt_iff_gt.mpr (show d < c from h), compare_gt_iff_gt.mpr (by omega)]

lemma compare_firstDifference {x y : Text} (h : x.length = y.length) :
    compare (firstDifference x y) 0 = compare x y := by
  rw [List.compare_eq_compareLex]
  induction x generalizing y with
  | nil =>
    cases y with
    | nil => rfl
    | cons d y => cases h
  | cons c x ih =>
    cases y with
    | nil => cases h
    | cons d y =>
      rw [List.compareLex_cons_cons, ← ih (Nat.succ.inj h), compare_char, firstDifference,
        ← compare_sub_zero (c.toNat : ℤ)]
      split_ifs with hz
      · rw [compare_eq_iff_eq.mpr hz, eq_then]
      · cases hcmp : compare ((c.toNat : ℤ) - d.toNat) 0 with
        | eq => exact absurd (compare_eq_iff_eq.mp hcmp) hz
        | _ => rfl

/-- What the last inner loop returns for runs of digits `x` and `y`. -/
structure DigitsAgree (firstDiff : ℤ) (x y a b : Text) (result : ℤ × Text × Text) : Prop where
  shorter : x.length < y.length → startsWithDigit result.2.1 = false ∧
    startsWithDigit result.2.2 = true
  longer : y.length < x.length → startsWithDigit result.2.1 = true
  same : x.length = y.length →
    result = (if firstDiff = 0 then firstDifference x y else firstDiff, a, b)

lemma verrevDigits_of_nonDigit_left (fdf : ℤ) (b : Text) (ha : startsWithDigit a = false) :
    verrevDigits fdf a b = (fdf, a, b) := by
  cases a with
  | nil => rfl
  | cons c a =>
    cases b with
    | nil => rfl
    | cons d b =>
      have hc : c.isDigit = false := ha
      simp [verrevDigits, hc]

lemma verrevDigits_of_nonDigit_right (fdf : ℤ) (a : Text) (hb : startsWithDigit b = false) :
    verrevDigits fdf a b = (fdf, a, b) := by
  cases a with
  | nil => rfl
  | cons c a =>
    cases b with
    | nil => rfl
    | cons d b =>
      have hd : d.isDigit = false := hb
      simp [verrevDigits, hd]

lemma verrevDigits_agree (fdf : ℤ) {x y : Text} (hx : ∀ c ∈ x, c.isDigit)
    (hy : ∀ c ∈ y, c.isDigit) (ha : startsWithDigit a = false) (hb : startsWithDigit b = false) :
    DigitsAgree fdf x y a b (verrevDigits fdf (x ++ a) (y ++ b)) := by
  induction x generalizing y fdf with
  | nil =>
    rw [List.nil_append, verrevDigits_of_nonDigit_left fdf _ ha]
    cases y with
    | nil =>
      refine ⟨fun h => absurd h (lt_irrefl _), fun h => absurd h (lt_irrefl _), fun _ => ?_⟩
      simp only [firstDifference, List.nil_append]
      split_ifs with hz
      · rw [hz]
      · rfl
    | cons d y =>
      refine ⟨fun _ => ⟨ha, ?_⟩, fun h => absurd h (Nat.not_lt_zero _), fun h => ?_⟩
      · exact hy d List.mem_cons_self
      · cases h
  | cons c x ih =>
    have hc : c.isDigit = true := hx c List.mem_cons_self
    cases y with
    | nil =>
      rw [List.nil_append, verrevDigits_of_nonDigit_right fdf _ hb]
      refine ⟨fun h => absurd h (Nat.not_lt_zero _), fun _ => ?_, fun h => ?_⟩
      · exact hc
      · cases h
    | cons d y =>
      have hd : d.isDigit = true := hy d List.mem_cons_self
      have hih := ih (if fdf = 0 then (c.toNat : ℤ) - d.toNat else fdf)
        (fun e he => hx e (List.mem_cons_of_mem _ he))
        (fun e he => hy e (List.mem_cons_of_mem _ he))
      rw [List.cons_append, List.cons_append, verrevDigits, if_pos (by simp [hc, hd])]
      refine ⟨fun h => hih.shorter (Nat.lt_of_succ_lt_succ h),
        fun h => hih.longer (Nat.lt_of_succ_lt_succ h), fun h => ?_⟩
      rw [hih.same (Nat.succ.inj h), firstDifference]
      split_ifs <;> rfl

lemma startsWithDigit_debRest (s : Text) : startsWithDigit (debRest s) = false := by
  rw [startsWithDigit, debRest, splitAtDebNonDigit]
  cases hr : (splitAtDebDigit s).2.dropWhile Char.isDigit with
  | nil => rfl
  | cons c rest =>
    have hh := List.head_dropWhile_not Char.isDigit
      (show (splitAtDebDigit s).2.dropWhile Char.isDigit ≠ [] by simp [hr])
    simpa [hr] using hh

lemma dropWhile_zero_eq (s : Text) : (splitAtDebDigit s).2.dropWhile (· == '0') =
      (debNumber s).dropWhile (· == '0') ++ debRest s := by
  have hsp : (splitAtDebDigit s).2 = debNumber s ++ debRest s :=
    List.takeWhile_append_dropWhile.symm
  have hr : (debRest s).dropWhile (· == '0') = debRest s := by
    have hst := startsWithDigit_debRest s
    cases h : debRest s with
    | nil => rfl
    | cons c rest =>
      have hc : (c == '0') = false := by
        rw [beq_eq_false_iff_ne]
        rintro rfl
        rw [h] at hst
        exact absurd hst (by simp [startsWithDigit])
      rw [List.dropWhile_cons, hc]
      rfl
  rw [hsp, List.dropWhile_append, hr]
  split_ifs with hem
  · rw [List.isEmpty_iff.mp hem, List.nil_append]
  · rfl

lemma isDigit_of_mem_dropWhile (h : c ∈ (debNumber s).dropWhile (· == '0')) : c.isDigit := by
  have hmem : c ∈ debNumber s := (List.dropWhile_sublist _).mem h
  exact List.all_eq_true.mp List.all_takeWhile c hmem

/-! ### The loops -/

/-- What an iteration has to return: the result of comparing the first runs, if they differ, and
otherwise the rests. -/
def StepAgrees (a b : Text) (result : Except ℤ (Text × Text)) : Prop :=
  match result with
  | .ok rest => compareDebHead a b = .eq ∧ rest = (debRest a, debRest b)
  | .error difference => difference ≠ 0 ∧ compareDebHead a b = compare difference 0

lemma verrevDecide_agrees (a b : Text)
    (h : compareDebNonDigits (debNonDigit a) (debNonDigit b) = .eq) :
    StepAgrees a b (verrevDecide (verrevDigits 0 ((splitAtDebDigit a).2.dropWhile (· == '0'))
      ((splitAtDebDigit b).2.dropWhile (· == '0')))) := by
  have hag := verrevDigits_agree 0 (x := (debNumber a).dropWhile (· == '0'))
    (y := (debNumber b).dropWhile (· == '0')) (fun _ => isDigit_of_mem_dropWhile)
    (fun _ => isDigit_of_mem_dropWhile) (startsWithDigit_debRest a) (startsWithDigit_debRest b)
  have hh : compareDebHead a b = (compare ((debNumber a).dropWhile (· == '0')).length
      ((debNumber b).dropWhile (· == '0')).length).then
        (compare ((debNumber a).dropWhile (· == '0')) ((debNumber b).dropWhile (· == '0'))) := by
    rw [compareDebHead_eq, h]
    rfl
  rw [dropWhile_zero_eq, dropWhile_zero_eq]
  rcases lt_trichotomy ((debNumber a).dropWhile (· == '0')).length
    ((debNumber b).dropWhile (· == '0')).length with hlt | heq | hgt
  · obtain ⟨ha, hb⟩ := hag.shorter hlt
    simp only [verrevDecide, ha, hb]
    refine ⟨by decide, ?_⟩
    rw [hh, compare_lt_iff_lt.mpr hlt]
    rfl
  · rw [heq, compare_eq_iff_eq.mpr rfl, ← compare_firstDifference heq] at hh
    rw [hag.same heq, if_pos rfl]
    simp only [verrevDecide, startsWithDigit_debRest, Bool.false_eq_true, if_false]
    split_ifs with hz
    · exact ⟨by rw [hh, hz]; rfl, rfl⟩
    · exact ⟨hz, hh⟩
  · simp only [verrevDecide, hag.longer hgt]
    refine ⟨by decide, ?_⟩
    rw [hh, compare_gt_iff_gt.mpr hgt]
    rfl

lemma verrevStep_agrees (a b : Text) : StepAgrees a b (verrevStep a b) := by
  have hag := verrevNonDigits_agree a b
  unfold verrevStep
  cases hlp : verrevNonDigits a b with
  | error diff =>
    rw [hlp] at hag
    obtain ⟨hne, hcmp⟩ := hag
    refine ⟨hne, ?_⟩
    rw [compareDebHead_eq, hcmp]
    cases h : compare diff 0 with
    | eq => exact absurd (compare_eq_iff_eq.mp h) hne
    | _ => rfl
  | ok rest =>
    rw [hlp] at hag
    obtain ⟨hcmp, rfl⟩ := hag
    exact verrevDecide_agrees a b hcmp

lemma compareDebPartRun_of_ne (n : ℕ) (h : compareDebHead a b ≠ .eq) :
    compareDebPartRun (n + 1) a b = some (compareDebHead a b) := by
  rw [compareDebHead_eq] at h ⊢
  rw [compareDebPartRun]
  cases hnon : compareDebNonDigits (debNonDigit a) (debNonDigit b) with
  | eq =>
    rw [hnon] at h
    split_ifs with hem
    · rw [Bool.and_eq_true, List.isEmpty_iff, List.isEmpty_iff] at hem
      rw [hem.1, hem.2] at h
      exact absurd rfl h
    · cases hnum : compareDebNumericStrings (debNumber a) (debNumber b) with
      | eq => exact absurd hnum h
      | _ => rfl
  | _ => rfl

lemma compareDebPartRun_of_eq (n : ℕ) (h : compareDebHead a b = .eq) :
    compareDebPartRun (n + 1) a b = if (debNumber a).isEmpty && (debNumber b).isEmpty then some .eq
      else compareDebPartRun n (debRest a) (debRest b) := by
  rw [compareDebHead_eq, then_eq_eq] at h
  rw [compareDebPartRun, h.1]
  rw [h.2]

lemma length_debRest_add_lt (h : (a.isEmpty && b.isEmpty) = false) :
    (debRest a).length + (debRest b).length < a.length + b.length := by
  have ha := length_debRest_le a
  have hb := length_debRest_le b
  have hpos : a.length ≠ 0 ∨ b.length ≠ 0 := by
    rw [Bool.and_eq_false_iff] at h
    simpa using h
  omega

lemma verrevcmp_run (n : ℕ) (a b : Text) (hn : a.length + b.length < n) :
    ∃ diff, verrevcmp n a b = some diff ∧ compareDebPartRun n a b = some (compare diff 0) := by
  induction n generalizing a b with
  | zero => cases hn
  | succ n ih =>
    have hs := verrevStep_agrees a b
    rw [verrevcmp]
    cases hem : a.isEmpty && b.isEmpty with
    | true =>
      rw [Bool.and_eq_true, List.isEmpty_iff, List.isEmpty_iff] at hem
      obtain ⟨rfl, rfl⟩ := hem
      exact ⟨0, rfl, rfl⟩
    | false =>
      have hlt := length_debRest_add_lt hem
      cases hres : verrevStep a b with
      | error diff =>
        rw [hres] at hs
        obtain ⟨hne, hh⟩ := hs
        refine ⟨diff, rfl, ?_⟩
        rw [← hh]
        refine compareDebPartRun_of_ne n ?_
        rw [hh]
        exact fun h => hne (compare_eq_iff_eq.mp h)
      | ok rest =>
        rw [hres] at hs
        obtain ⟨hh, rfl⟩ := hs
        obtain ⟨diff, hver, hrun⟩ := ih (debRest a) (debRest b) (by omega)
        refine ⟨diff, hver, ?_⟩
        rw [compareDebPartRun_of_eq n hh]
        split_ifs with hnum
        · -- Without numbers both rests are empty, and the loop of dpkg ends with them.
          rw [Bool.and_eq_true, List.isEmpty_iff, List.isEmpty_iff] at hnum
          rw [debRest_of_debNumber_eq_nil hnum.1, debRest_of_debNumber_eq_nil hnum.2] at hrun
          cases n with
          | zero => cases hrun
          | succ n => exact hrun
        · exact hrun

lemma verrevcmp_succ {n : ℕ} {diff : ℤ} (h : verrevcmp n a b = some diff) :
    verrevcmp (n + 1) a b = some diff := by
  induction n generalizing a b with
  | zero => cases h
  | succ n ih =>
    rw [verrevcmp] at h ⊢
    split_ifs at h ⊢ with hem
    · exact h
    · cases hres : verrevStep a b with
      | error diff =>
        rw [hres] at h
        exact h
      | ok rest =>
        rw [hres] at h
        exact ih h

lemma compareDebPartLoop_of_run {n : ℕ} {order : Ordering}
    (h : compareDebPartRun n a b = some order) : compareDebPartLoop n a b = order := by
  induction n generalizing a b with
  | zero => cases h
  | succ n ih =>
    rw [compareDebPartRun] at h
    rw [compareDebPartLoop_succ]
    cases hnon : compareDebNonDigits (debNonDigit a) (debNonDigit b) with
    | eq =>
      rw [hnon] at h
      split_ifs at h ⊢ with hem
      · exact some.inj h
      · cases hnum : compareDebNumericStrings (debNumber a) (debNumber b) with
        | eq => rw [hnum] at h; exact ih h
        | _ => rw [hnum] at h; exact some.inj h
    | _ => rw [hnon] at h; exact some.inj h

/-- **The comparators agree.** The loop of `compareDebPart` ends on all texts, so does the one of
dpkg, and their results have the same sign. -/
theorem compareDebPart_eq_verrevcmp (a b : Text) :
    ∃ difference, compareDebPart a b = compare difference 0 ∧
      ∀ n, a.length + b.length < n →
        verrevcmp n a b = some difference ∧
          compareDebPartRun n a b = some (compareDebPart a b) := by
  obtain ⟨difference, hver, hrun⟩ := verrevcmp_run (a.length + b.length + 1) a b (by omega)
  have hpa : compareDebPart a b = compare difference 0 := compareDebPartLoop_of_run hrun
  refine ⟨difference, hpa, fun n hn => ?_⟩
  have hsta : verrevcmp n a b = some difference := by
    induction n, hn using Nat.le_induction with
    | base => exact hver
    | succ n _ ih => exact verrevcmp_succ ih
  obtain ⟨diff', hver', hrun'⟩ := verrevcmp_run n a b hn
  obtain rfl := some.inj (hsta.symm.trans hver')
  exact ⟨hsta, by rw [hrun', hpa]⟩

end Omg.Debian
