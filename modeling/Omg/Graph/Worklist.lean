import Mathlib.Data.Finset.Card
import Mathlib.Order.Bounds.Basic

/-!
# Closing a set under successors with a list of pending elements

A loop keeps the set of the elements that it has seen, and a list of those of them whose successors
it has not looked at. A successor that is new is put into both. The successors of an element may be
an error, which ends the loop.

Each element is pending at most once, so that the loop ends if the elements that can be seen are
finitely many. If it ends without an error then the set is the least one that holds the first
elements and the successors of its elements.
-/

namespace Omg.Graph

open List

variable {α ε : Type} [DecidableEq α]

structure Worklist (α : Type) where
  seen : Finset α
  pending : List α

def SuccClosed (expand : α → Except ε (List α)) (s : Set α) : Prop :=
  ∀ a ∈ s, ∀ bs, expand a = .ok bs → ∀ b ∈ bs, b ∈ s

namespace Worklist

def add (w : Worklist α) (a : α) : Worklist α :=
  if a ∈ w.seen then w else ⟨insert a w.seen, a :: w.pending⟩

def run (expand : α → Except ε (List α)) : ℕ → Worklist α → Option (Except ε (Finset α))
  | 0, _ => none
  | n + 1, w =>
    match w.pending with
    | [] => some (.ok w.seen)
    | a :: rest =>
      match expand a with
      | .error e => some (.error e)
      | .ok bs => run expand n (bs.foldl add ⟨w.seen, rest⟩)

/-! ### New elements -/

variable {w : Worklist α} {a : α} {bs : List α} {expand : α → Except ε (List α)}

lemma mem_foldl_add {b : α} : b ∈ (bs.foldl add w).seen ↔ b ∈ w.seen ∨ b ∈ bs := by
  induction bs generalizing w with
  | nil => simp
  | cons c bs ih =>
    rw [foldl_cons, ih, add]
    split_ifs with hc
    · refine ⟨fun h => ?_, fun h => ?_⟩
      · exact h.imp_right (mem_cons_of_mem c)
      · rcases h with h | h
        · exact .inl h
        · rcases mem_cons.mp h with rfl | h
          · exact .inl hc
          · exact .inr h
    · simp only [Finset.mem_insert, mem_cons]
      exact ⟨fun h => by tauto, fun h => by tauto⟩

lemma mem_pending_foldl_add {b : α} :
    b ∈ (bs.foldl add w).pending ↔ b ∈ w.pending ∨ b ∈ bs ∧ b ∉ w.seen := by
  induction bs generalizing w with
  | nil => simp
  | cons c bs ih =>
    rw [foldl_cons, ih, add]
    split_ifs with hc
    · refine or_congr_right ⟨fun h => ⟨mem_cons_of_mem c h.1, h.2⟩, fun h => ⟨?_, h.2⟩⟩
      rcases mem_cons.mp h.1 with rfl | hb
      · exact absurd hc h.2
      · exact hb
    · simp only [mem_cons]
      by_cases hbc : b = c
      · subst hbc
        simp [hc]
      · simp [hbc]

def measure (univ : Finset α) (w : Worklist α) : ℕ := (univ \ w.seen).card + w.pending.length

lemma measure_foldl_add {univ : Finset α} (h : ∀ b ∈ bs, b ∈ univ) :
    measure univ (bs.foldl add w) = measure univ w := by
  induction bs generalizing w with
  | nil => rfl
  | cons c bs ih =>
    rw [foldl_cons, ih fun b hb => h b (mem_cons_of_mem c hb), add]
    split_ifs with hc
    · rfl
    · have hmem : c ∈ univ \ w.seen := Finset.mem_sdiff.mpr ⟨h c mem_cons_self, hc⟩
      have hca := Finset.card_erase_add_one hmem
      have hera : univ \ insert c w.seen = (univ \ w.seen).erase c := by rw [Finset.sdiff_insert]
      simp only [measure, hera, length_cons]
      omega

/-! ### The loop -/

lemma exists_run {univ : Finset α} (hun : SuccClosed expand (univ : Set α)) {n : ℕ}
    {w : Worklist α} (hpe : ∀ a ∈ w.pending, a ∈ univ) (hn : measure univ w < n) :
    ∃ res, run expand n w = some res := by
  induction n generalizing w with
  | zero => omega
  | succ n ih =>
    unfold run
    cases hw : w.pending with
    | nil => exact ⟨_, rfl⟩
    | cons a rest =>
      simp only
      cases ha : expand a with
      | error e => exact ⟨_, rfl⟩
      | ok bs =>
        have hmem : a ∈ univ := hpe a (by simp [hw])
        have hbs : ∀ b ∈ bs, b ∈ univ := hun a hmem bs ha
        refine ih (fun b hb => ?_) ?_
        · rcases mem_pending_foldl_add.mp hb with hb | ⟨hb, -⟩
          · exact hpe b (by simp only [hw, mem_cons]; exact .inr hb)
          · exact hbs b hb
        · have hmea : measure univ ⟨w.seen, rest⟩ + 1 = measure univ w := by
            simp only [measure, hw, length_cons]
            omega
          rw [measure_foldl_add hbs]
          omega

structure Invariant (expand : α → Except ε (List α)) (w : Worklist α) : Prop where
  pending : ∀ a ∈ w.pending, a ∈ w.seen
  closed : ∀ a ∈ w.seen, a ∉ w.pending → ∃ bs, expand a = .ok bs ∧ ∀ b ∈ bs, b ∈ w.seen

lemma Invariant.step {rest : List α} (h : Invariant expand w) (hw : w.pending = a :: rest)
    (ha : expand a = .ok bs) : Invariant expand (bs.foldl add ⟨w.seen, rest⟩) := by
  constructor
  · intro b hb
    rw [mem_foldl_add]
    rcases mem_pending_foldl_add.mp hb with hb | hb
    · exact .inl (h.pending b (hw ▸ mem_cons_of_mem a hb))
    · exact .inr hb.1
  · intro b hb hnot
    rw [mem_pending_foldl_add, not_or, not_and_not_right] at hnot
    have hsn : b ∈ w.seen := (mem_foldl_add.mp hb).elim id hnot.2
    by_cases hab : b = a
    · subst hab
      exact ⟨bs, ha, fun c hc => mem_foldl_add.mpr (.inr hc)⟩
    · obtain ⟨cs, hcs, hcl⟩ := h.closed b hsn (by
        rw [hw, mem_cons, not_or]
        exact ⟨hab, hnot.1⟩)
      exact ⟨cs, hcs, fun c hc => mem_foldl_add.mpr (.inl (hcl c hc))⟩

lemma run_ok {n : ℕ} {s : Finset α} (hw : Invariant expand w) (h : run expand n w = some (.ok s)) :
    (∀ a ∈ w.seen, a ∈ s) ∧ (∀ a ∈ s, ∃ bs, expand a = .ok bs ∧ ∀ b ∈ bs, b ∈ s) ∧
      ∀ t : Set α, (∀ a ∈ w.seen, a ∈ t) → SuccClosed expand t → ∀ a ∈ s, a ∈ t := by
  induction n generalizing w with
  | zero => cases h
  | succ n ih =>
    unfold run at h
    cases hpe : w.pending with
    | nil =>
      rw [hpe] at h
      obtain rfl : w.seen = s := by simpa using h
      exact ⟨fun _ ha => ha, fun a ha => hw.closed a ha (by simp [hpe]), fun t ht _ => ht⟩
    | cons a rest =>
      rw [hpe] at h
      simp only at h
      cases ha : expand a with
      | error e => simp [ha] at h
      | ok bs =>
        rw [ha] at h
        obtain ⟨hsub, hcl, hlea⟩ := ih (hw.step hpe ha) h
        refine ⟨fun b hb => hsub b (mem_foldl_add.mpr (.inl hb)), hcl,
          fun t ht hsc => hlea t (fun b hb => ?_) hsc⟩
        rcases mem_foldl_add.mp hb with hb | hb
        · exact ht b hb
        · exact hsc a (ht a (hw.pending a (by simp [hpe]))) bs ha b hb

lemma exists_of_run_error {n : ℕ} {e : ε} {t : Set α} (ht : ∀ a ∈ w.seen, a ∈ t)
    (hsc : SuccClosed expand t) (hpe : ∀ a ∈ w.pending, a ∈ w.seen)
    (h : run expand n w = some (.error e)) : ∃ a ∈ t, expand a = .error e := by
  induction n generalizing w with
  | zero => cases h
  | succ n ih =>
    unfold run at h
    cases hw : w.pending with
    | nil => simp [hw] at h
    | cons a rest =>
      rw [hw] at h
      simp only at h
      have hat : a ∈ t := ht a (hpe a (by simp [hw]))
      cases ha : expand a with
      | error e' =>
        rw [ha] at h
        obtain rfl : e' = e := by simpa using h
        exact ⟨a, hat, ha⟩
      | ok bs =>
        rw [ha] at h
        refine ih (fun b hb => ?_) (fun b hb => ?_) h
        · exact (mem_foldl_add.mp hb).elim (ht b) (hsc a hat bs ha b)
        · rw [mem_foldl_add]
          rcases mem_pending_foldl_add.mp hb with hb | hb
          · exact .inl (hpe b (hw ▸ mem_cons_of_mem a hb))
          · exact .inr hb.1

end Worklist

end Omg.Graph
