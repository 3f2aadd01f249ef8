import Mathlib.Data.List.Induction

/-!
# The trailing count of failed requests

The health gate counts the failed requests of a trailing window with one start and one counter.
A failure that comes a window's length after the start opens a new window, and the counter then
forgets the failures that came shortly before it.

Source: `src/core/metrics.rs`.
-/

namespace Omg.Daemon

open List

def failureHealthWindowMs : UInt64 := 300000

/-- No failure has been recorded yet: `u64::MAX`. -/
def failureWindowUnset : UInt64 := 18446744073709551615

structure Metrics where
  failuresWindowStartMs : UInt64 := failureWindowUnset
  failuresInWindow : UInt64 := 0

namespace Metrics

def recordRequestFailureAt (m : Metrics) (nowMs : UInt64) : Metrics :=
  if m.failuresWindowStartMs ≠ failureWindowUnset ∧
      nowMs - m.failuresWindowStartMs < failureHealthWindowMs then
    { m with failuresInWindow := m.failuresInWindow + 1 }
  else ⟨nowMs, 1⟩

def requestFailuresWithinWindow (m : Metrics) (nowMs : UInt64) : UInt64 :=
  if m.failuresWindowStartMs = failureWindowUnset ∨
      failureHealthWindowMs ≤ nowMs - m.failuresWindowStartMs then 0
  else m.failuresInWindow

/-- The metrics after failures at these times, recorded one after another. -/
def recordAll (times : List UInt64) : Metrics := times.foldl recordRequestFailureAt {}

/-- The failures within the health window that ends at `now`, when none is after `now`. -/
def recent (now : UInt64) (times : List UInt64) : List UInt64 :=
  times.filter (now - · < failureHealthWindowMs)

/-- The failures since the last one that opened a window. -/
def currentWindow (times : List UInt64) : List UInt64 :=
  times.foldl (fun w t => if t - w.headD failureWindowUnset < failureHealthWindowMs ∧ w ≠ [] then
    w ++ [t] else [t]) []

/-- The start and the counter stand for the current window. -/
lemma recordAll_eq {ts : List UInt64} (hset : ∀ t ∈ ts, t < failureWindowUnset) :
    currentWindow ts <:+ ts ∧ recordAll ts =
      ⟨(currentWindow ts).headD failureWindowUnset, .ofNat (currentWindow ts).length⟩ := by
  induction ts using reverseRecOn with
  | nil => exact ⟨suffix_rfl, rfl⟩
  | append_singleton ts t ih =>
    obtain ⟨hsuf, hrec⟩ := ih fun x hx => hset x (mem_append_left _ hx)
    simp only [recordAll, currentWindow, foldl_append] at hsuf hrec ⊢
    rw [hrec]
    generalize foldl _ [] ts = w at hsuf ⊢
    cases w with
    | nil => simp [recordRequestFailureAt]
    | cons s w =>
      have hne := UInt64.ne_of_lt (hset s (mem_append_left _ (hsuf.mem mem_cons_self)))
      by_cases hlt : t - s < failureHealthWindowMs
      · obtain ⟨pre, rfl⟩ := hsuf
        simp [recordRequestFailureAt, hne, hlt]
      · simp [recordRequestFailureAt, hlt]

/-- The count is that of the failures within the window exactly when there are none, or when they
are the failures of the current window and the counter has not wrapped. -/
theorem requestFailuresWithinWindow_eq_iff (times : List UInt64) (now : UInt64)
    (hsorted : times.Pairwise (· ≤ ·)) (hset : ∀ t ∈ times, t < failureWindowUnset)
    (hnow : ∀ t ∈ times, t ≤ now) :
    ((recordAll times).requestFailuresWithinWindow now).toNat = (recent now times).length ↔
      recent now times = [] ∨
        recent now times = currentWindow times ∧ (recent now times).length < UInt64.size := by
  obtain ⟨hsuf, hrec⟩ := recordAll_eq hset
  rw [hrec]
  cases hw : currentWindow times with
  | nil => simpa [requestFailuresWithinWindow, @eq_comm _ 0] using fun h _ => h
  | cons s w =>
    rw [hw] at hsuf
    have hne := UInt64.ne_of_lt (hset s (hsuf.mem mem_cons_self))
    by_cases hlt : now - s < failureHealthWindowMs
    · -- the window is open, and all of its failures are recent
      have hall : (s :: w).Sublist (recent now times) := by
        have hsub := hsuf.sublist.filter (now - · < failureHealthWindowMs)
        rwa [filter_eq_self.mpr fun t ht => ?_] at hsub
        have hst : s ≤ t := by
          rcases mem_cons.mp ht with rfl | ht
          · exact UInt64.le_refl _
          · exact rel_of_pairwise_cons (hsorted.sublist hsuf.sublist) ht
        have htn := hnow t (hsuf.mem ht)
        rw [UInt64.lt_iff_toNat_lt, UInt64.toNat_sub_of_le _ _ (UInt64.le_trans hst htn)] at hlt
        rw [decide_eq_true_iff, UInt64.lt_iff_toNat_lt, UInt64.toNat_sub_of_le _ _ htn]
        rw [UInt64.le_iff_toNat_le] at hst
        omega
      have hlen := hall.length_le
      simp only [requestFailuresWithinWindow, headD_cons, hne, UInt64.not_le.mpr hlt, or_self,
        if_false, UInt64.toNat_ofNat']
      have hmod := Nat.mod_le (s :: w).length (2 ^ 64)
      constructor
      · intro heq
        have hbound := Nat.mod_lt (s :: w).length (Nat.two_pow_pos 64)
        exact .inr ⟨(hall.eq_of_length (by omega)).symm, heq ▸ hbound⟩
      · rintro (hnil | ⟨heq, hbound⟩)
        · rw [hnil] at hall
          cases hall
        · rw [heq] at hbound ⊢
          exact Nat.mod_eq_of_lt hbound
    · have hmem : recent now times ≠ s :: w := fun heq => by
        have hs : s ∈ recent now times := heq ▸ mem_cons_self
        exact hlt (of_decide_eq_true (mem_filter.mp hs).2)
      simp [requestFailuresWithinWindow, UInt64.not_lt.mp hlt, hmem, @eq_comm _ 0]

theorem requestFailuresWithinWindow_eq_iff_two :
    ((recordAll [1, 2]).requestFailuresWithinWindow 3).toNat = (recent 3 [1, 2]).length ↔
      recent 3 [1, 2] = [] ∨
        recent 3 [1, 2] = currentWindow [1, 2] ∧ (recent 3 [1, 2]).length < UInt64.size :=
  requestFailuresWithinWindow_eq_iff _ _ (by decide) (by simp [failureWindowUnset]) (by simp)

/-- The failure one millisecond ago is not counted. -/
theorem requestFailuresWithinWindow_forgets :
    ((recordAll [0, 299999]).requestFailuresWithinWindow 300000).toNat = 0 ∧
      (recent 300000 [0, 299999]).length = 1 := by
  decide

end Metrics

end Omg.Daemon
