import Mathlib.Data.List.Basic

/-!
# Computations that can fail

Inversion lemmas for `Except`: what is known when a computation succeeds.
-/

namespace Omg.Control

open List Except

universe u

variable {ε : Type*}

lemma bind_eq_ok {α β : Type u} {x : Except ε α} {f : α → Except ε β} {b : β} :
    (x >>= f) = .ok b ↔ ∃ a, x = .ok a ∧ f a = .ok b := by
  cases x <;> simp [bind, Except.bind]

lemma forM_eq_ok_iff {α : Type*} {f : α → Except ε Unit} : ∀ {l : List α},
    forM l f = .ok () ↔ ∀ a ∈ l, f a = .ok ()
  | [] => by simp [pure, Except.pure]
  | a :: l => by
    rw [forM_cons, forall_mem_cons, ← forM_eq_ok_iff, bind_eq_ok]
    exact ⟨fun ⟨_, ha, hl⟩ => ⟨ha, hl⟩, fun ⟨ha, hl⟩ => ⟨(), ha, hl⟩⟩

lemma exists_error_iff {α : Type*} {x : Except ε α} : (∃ e, x = .error e) ↔ ¬ ∃ a, x = .ok a := by
  cases x <;> simp

lemma map_eq_ok {α β : Type*} {f : α → β} {x : Except ε α} {b : β} :
    x.map f = .ok b ↔ ∃ a, x = .ok a ∧ f a = b := by
  cases x <;> simp [Except.map]

lemma exists_mapM {α β : Type} {f : α → Except ε β} {l : List α}
    (h : ∀ a ∈ l, ∃ b, f a = .ok b) : ∃ ress, l.mapM f = .ok ress := by
  induction l with
  | nil => exact ⟨[], rfl⟩
  | cons a l ih =>
    obtain ⟨⟨b, hb⟩, hl⟩ := forall_mem_cons.mp h
    obtain ⟨ress, hres⟩ := ih hl
    refine ⟨b :: ress, ?_⟩
    rw [mapM_cons, hb]
    exact bind_eq_ok.mpr ⟨b, rfl, bind_eq_ok.mpr ⟨ress, hres, rfl⟩⟩

lemma forall_of_mapM {α β : Type} {f : α → Except ε β} {P : α → β → Prop} {l : List α}
    {ress : List β} (h : l.mapM f = .ok ress)
    (hf : ∀ a ∈ l, ∀ b, f a = .ok b → P a b) : ∀ b ∈ ress, ∃ a ∈ l, P a b := by
  induction l generalizing ress with
  | nil =>
    obtain rfl : [] = ress := ok.inj h
    simp
  | cons a l ih =>
    rw [mapM_cons] at h
    obtain ⟨b, hb, h⟩ := bind_eq_ok.mp h
    obtain ⟨rest, hr, h⟩ := bind_eq_ok.mp h
    obtain rfl : b :: rest = ress := ok.inj h
    intro b' hb'
    rcases mem_cons.mp hb' with rfl | hb'
    · exact ⟨a, mem_cons_self, hf a mem_cons_self b' hb⟩
    · obtain ⟨a', ha', hP⟩ := ih hr (fun a ha => hf a (mem_cons_of_mem _ ha)) b' hb'
      exact ⟨a', mem_cons_of_mem _ ha', hP⟩

lemma exists_of_mapM {α β : Type} {f : α → Except ε β} {l : List α} {ress : List β}
    (h : l.mapM f = .ok ress) : ∀ a ∈ l, ∃ b ∈ ress, f a = .ok b := by
  induction l generalizing ress with
  | nil => simp
  | cons a l ih =>
    rw [mapM_cons] at h
    obtain ⟨b, hb, h⟩ := bind_eq_ok.mp h
    obtain ⟨rest, hr, h⟩ := bind_eq_ok.mp h
    obtain rfl : b :: rest = ress := ok.inj h
    refine forall_mem_cons.mpr ⟨⟨b, mem_cons_self, hb⟩, fun a' ha' => ?_⟩
    obtain ⟨b', hb', hf⟩ := ih hr a' ha'
    exact ⟨b', mem_cons_of_mem _ hb', hf⟩

end Omg.Control
