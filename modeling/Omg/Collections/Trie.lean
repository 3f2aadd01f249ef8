import Mathlib.Data.List.Induction
import Mathlib.Data.List.Nodup

/-!
# Tries in a growing list

A trie holds the numbers of keys. Its nodes stand in a list, the root first, and lead to their
children by position. Each node stands for a word: the one that leads to it from the root.
-/

namespace Omg.Collections

open List

structure TrieNode (α : Type) where
  children : List (α × ℕ)
  index : Option ℕ

namespace Trie

variable {α : Type} [DecidableEq α] {nodes : List (TrieNode α)} {words : List (List α)} {i : ℕ}
  {w : List α}

def child (nodes : List (TrieNode α)) (node : ℕ) (a : α) : Option ℕ :=
  nodes[node]?.bind fun n => n.children.lookup a

def index (nodes : List (TrieNode α)) (node : ℕ) : Option ℕ := nodes[node]?.bind TrieNode.index

def addChild (nodes : List (TrieNode α)) (node : ℕ) (a : α) : List (TrieNode α) :=
  (nodes.modify node fun n => { n with children := (a, nodes.length) :: n.children }) ++
    [⟨[], none⟩]

def extend (nodes : List (TrieNode α)) (node : ℕ) (a : α) : List (TrieNode α) × ℕ :=
  match child nodes node a with
  | some next => (nodes, next)
  | none => (addChild nodes node a, nodes.length)

def reach (nodes : List (TrieNode α)) (node : ℕ) (key : List α) : List (TrieNode α) × ℕ :=
  key.foldl (fun r a => extend r.1 r.2 a) (nodes, node)

def insert (nodes : List (TrieNode α)) (key : List α) (n : ℕ) : List (TrieNode α) :=
  (reach nodes 0 key).1.modify (reach nodes 0 key).2 fun node => { node with index := some n }

def ofKeys (keys : List (List α)) : List (TrieNode α) :=
  keys.zipIdx.foldl (fun nodes p => insert nodes p.1 p.2) [⟨[], none⟩]

/-- The nodes stand for `words`, in the same order. -/
structure Spells (nodes : List (TrieNode α)) (words : List (List α)) : Prop where
  length : nodes.length = words.length
  root : words[0]? = some []
  nodup : words.Nodup
  closed : ∀ {w : List α} {a}, w ++ [a] ∈ words → w ∈ words
  child : ∀ {i w}, words[i]? = some w →
    ∀ a j, child nodes i a = some j ↔ words[j]? = some (w ++ [a])

lemma spells_root : Spells ([⟨[], none⟩] : List (TrieNode α)) [[]] where
  length := rfl
  root := rfl
  nodup := nodup_singleton _
  closed h := by simp at h
  child {i w} h a j := by
    cases i <;> cases j <;> simp_all [Trie.child]

section

variable (h : Spells nodes words)

include h

lemma Spells.congr {nds' : List (TrieNode α)} (hlen : nds'.length = nodes.length)
    (hchi : ∀ i a, Trie.child nds' i a = Trie.child nodes i a) : Spells nds' words :=
  { h with length := hlen.trans h.length, child := fun hw a j => by rw [hchi, h.child hw] }

lemma Spells.inj {j : ℕ} (hi : words[i]? = some w) (hj : words[j]? = some w) : i = j := by
  obtain ⟨hlt, -⟩ := List.getElem?_eq_some_iff.mp hi
  exact (getElem?_inj hlt h.nodup).mp (hi.trans hj.symm)

lemma Spells.mem_of_append {u : List α} (hu : w ++ u ∈ words) : w ∈ words := by
  induction u using List.reverseRecOn with
  | nil => rwa [append_nil] at hu
  | append_singleton u a ih => exact ih (h.closed (by rwa [append_assoc]))

lemma Spells.fresh (hw : words[i]? = some w) {a : α}
    (hno : Trie.child nodes i a = none) : w ++ [a] ∉ words := by
  intro hmem
  obtain ⟨j, hj⟩ := mem_iff_getElem?.mp hmem
  rw [(h.child hw a j).mpr hj] at hno
  cases hno

end

section

variable {a : α}

lemma child_addChild (b : α) {k : ℕ} (hk : k < nodes.length) : child (addChild nodes i a) k b =
      if k = i ∧ b = a then some nodes.length else child nodes k b := by
  unfold child addChild
  rw [getElem?_append_left (by simpa using hk)]
  by_cases hki : i = k
  · by_cases hb : b = a
    · simp [hki, hb, getElem?_eq_getElem hk]
    · simp [hki, hb, getElem?_eq_getElem hk, lookup_cons, beq_false_of_ne hb]
  · have hik : ¬k = i := fun h => hki h.symm
    simp [hki, hik]

lemma child_addChild_length (b : α) : child (addChild nodes i a) nodes.length b = none := by
  simp [child, addChild]

omit [DecidableEq α] in
lemma index_addChild (k : ℕ) : index (addChild nodes i a) k = index nodes k := by
  unfold index addChild
  rcases Nat.lt_trichotomy k nodes.length with hk | rfl | hk
  · rw [getElem?_append_left (by simpa using hk), getElem?_modify, getElem?_eq_getElem hk]
    split_ifs <;> rfl
  · simp
  · rw [getElem?_eq_none (Nat.le_of_lt hk), getElem?_eq_none]
    rw [length_append, length_modify]
    exact hk

section

variable (h : Spells nodes words)

include h

lemma Spells.addChild (hw : words[i]? = some w) (hno : Trie.child nodes i a = none) :
    Spells (Trie.addChild nodes i a) (words ++ [w ++ [a]]) := by
  have hfre := h.fresh hw hno
  have hnew : ∀ {j v}, (words ++ [w ++ [a]])[j]? = some v ↔
      words[j]? = some v ∨ j = words.length ∧ v = w ++ [a] := by
    intro j v
    grind
  refine ⟨by simp [Trie.addChild, h.length], ?_, ?_, ?_, ?_⟩
  · exact hnew.mpr (.inl h.root)
  · exact h.nodup.append (nodup_singleton _) (by simpa using hfre)
  · intro v b hv
    rcases mem_append.mp hv with hv | hv
    · exact mem_append_left _ (h.closed hv)
    · obtain ⟨rfl, -⟩ := append_inj' (mem_singleton.mp hv) rfl
      exact mem_append_left _ (mem_of_getElem? hw)
  · intro k v hnd b j
    rw [hnew]
    rcases hnew.mp hnd with hv | ⟨rfl, rfl⟩
    · obtain ⟨hk, -⟩ := List.getElem?_eq_some_iff.mp hv
      rw [child_addChild b (h.length ▸ hk), h.length]
      split_ifs with heq
      · -- The new child.
        obtain ⟨rfl, rfl⟩ := heq
        obtain rfl : w = v := Option.some.inj (hw.symm.trans hv)
        have hold : words[j]? ≠ some (w ++ [b]) := fun hj => hfre (mem_of_getElem? hj)
        simp [hold, eq_comm]
      · rw [h.child hv]
        refine (or_iff_left ?_).symm
        rintro ⟨-, hwor⟩
        obtain ⟨rfl, hb⟩ := append_inj' hwor rfl
        exact heq ⟨h.inj hv hw, by simpa using hb⟩
    · -- No word is longer than the new one.
      rw [← h.length, child_addChild_length]
      refine iff_of_false (by simp) ?_
      rintro (hj | ⟨-, hj⟩)
      · exact hfre (h.closed (mem_of_getElem? hj))
      · simpa using congrArg List.length hj

lemma Spells.extend (hw : words[i]? = some w) (a : α) :
    ∃ more, Spells (Trie.extend nodes i a).1 (words ++ more) ∧
      (words ++ more)[(Trie.extend nodes i a).2]? = some (w ++ [a]) ∧
      ∀ k, index (Trie.extend nodes i a).1 k = index nodes k := by
  unfold Trie.extend
  cases hchi : Trie.child nodes i a with
  | some next =>
    refine ⟨[], by simpa using h, ?_, fun k => rfl⟩
    simpa using (h.child hw a next).mp hchi
  | none => exact ⟨[w ++ [a]], h.addChild hw hchi, by simp [h.length], index_addChild⟩

lemma Spells.reach (hw : words[i]? = some w) (key : List α) :
    ∃ more, Spells (Trie.reach nodes i key).1 (words ++ more) ∧
      (words ++ more)[(Trie.reach nodes i key).2]? = some (w ++ key) ∧
      ∀ k, index (Trie.reach nodes i key).1 k = index nodes k := by
  induction key generalizing nodes words i w with
  | nil =>
    refine ⟨[], ?_, ?_, fun k => rfl⟩
    · rw [append_nil]
      exact h
    · rw [append_nil, append_nil]
      exact hw
  | cons a key ih =>
    obtain ⟨more, hsl, hnd, hix⟩ := h.extend hw a
    obtain ⟨more', hsl', hnd', hix'⟩ := ih hsl hnd
    rw [append_assoc] at hsl' hnd'
    rw [append_assoc] at hnd'
    exact ⟨more ++ more', hsl', hnd', fun k => (hix' k).trans (hix k)⟩

/-- Inserting a key makes its node have the number, and changes no other number. -/
lemma Spells.insert (key : List α) (n : ℕ) :
    ∃ more, Spells (Trie.insert nodes key n) (words ++ more) ∧ key ∈ words ++ more ∧
      ∀ k v, (words ++ more)[k]? = some v →
        index (Trie.insert nodes key n) k = if v = key then some n else index nodes k := by
  obtain ⟨more, hsl, hnd, hix⟩ := h.reach h.root key
  refine ⟨more, hsl.congr (by simp [Trie.insert]) fun k a => ?_, mem_of_getElem? hnd, ?_⟩
  · unfold Trie.child Trie.insert
    rw [getElem?_modify]
    cases (Trie.reach nodes 0 key).1[k]? <;> split_ifs <;> rfl
  · intro k v hv
    obtain ⟨hk, -⟩ := List.getElem?_eq_some_iff.mp hv
    have hiff : (Trie.reach nodes 0 key).2 = k ↔ v = key :=
      ⟨fun heq => Option.some.inj (hv.symm.trans (heq ▸ hnd)), fun heq => hsl.inj hnd (heq ▸ hv)⟩
    rw [← hix k, index, index, Trie.insert, getElem?_modify, getElem?_eq_getElem (hsl.length ▸ hk)]
    simp only [hiff]
    split_ifs <;> rfl

end

end

/-- The words of the trie of keys have the keys among them, and the number of a node is the position
of its word in the keys. -/
lemma exists_spells_ofKeys {keys : List (List α)} (hks : keys.Nodup) :
    ∃ words, Spells (ofKeys keys) words ∧ (∀ key ∈ keys, key ∈ words) ∧
      ∀ k v, words[k]? = some v → ∀ n, index (ofKeys keys) k = some n ↔ keys[n]? = some v := by
  induction keys using List.reverseRecOn with
  | nil =>
    refine ⟨[[]], spells_root, by simp, fun k v hv n => ?_⟩
    cases k <;> simp_all [index, ofKeys]
  | append_singleton keys key ih =>
    obtain ⟨hks, -, hdj⟩ := nodup_append'.mp hks
    obtain ⟨words, hsl, hmem, hix⟩ := ih hks
    have hof : ofKeys (keys ++ [key]) = Trie.insert (ofKeys keys) key keys.length := by
      simp [ofKeys, zipIdx_append]
    rw [hof]
    obtain ⟨more, hsl', hkey, hix'⟩ := hsl.insert key keys.length
    refine ⟨words ++ more, hsl', ?_, fun k v hv n => ?_⟩
    · intro v hv
      rcases mem_append.mp hv with hv | hv
      · exact mem_append_left _ (hmem v hv)
      · exact mem_singleton.mp hv ▸ hkey
    · rw [hix' k v hv]
      split_ifs with heq
      · subst heq
        grind
      · have hold : (keys ++ [key])[n]? = some v ↔ keys[n]? = some v := by grind
        rw [hold]
        rcases Nat.lt_or_ge k words.length with hk | hk
        · exact hix k v (getElem?_append_left hk ▸ hv) n
        · -- The word is new.
          have hno : index (ofKeys keys) k = none := by
            rw [index, getElem?_eq_none (hsl.length ▸ hk), Option.bind_none]
          have hnew : v ∉ words := by
            rw [getElem?_append_right hk] at hv
            exact fun h => (disjoint_of_nodup_append hsl'.nodup) h (mem_of_getElem? hv)
          rw [hno]
          exact iff_of_false (by simp) fun h => hnew (hmem v (mem_of_getElem? h))

end Trie

end Omg.Collections
