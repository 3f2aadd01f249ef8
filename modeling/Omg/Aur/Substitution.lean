import Mathlib.Data.List.Infix
import Mathlib.Order.Bounds.Basic
import Omg.Collections.Trie
import Omg.Text.Basic

/-!
# References to variables in a PKGBUILD

The values of variables are put in for `$name` and `${name}` in passes, one for each variable. A
pass that finds no reference is skipped: a trie of the names tells which pass is the next one to
find any.

Source: `src/package_managers/pkgbuild.rs`.
-/

namespace Omg.Aur

open Collections List Trie

def maxSubstitutedValueBytes : ℕ := 1024 * 1024

def offer (nodes : List (TrieNode UInt8)) (minimum : ℕ) (braced : Bool) (node : ℕ) (tail : Bytes)
    (next : Option ℕ) : Option ℕ :=
  match Trie.index nodes node with
  | some index =>
    if minimum ≤ index ∧ (braced = false ∨ tail.head? = some 125) then
      some (next.elim index (min · index))
    else next
  | none => next

def follow (nodes : List (TrieNode UInt8)) (minimum : ℕ) (braced : Bool) :
    ℕ → Bytes → Option ℕ → Option ℕ
  | node, [], next => offer nodes minimum braced node [] next
  | node, b :: tail, next =>
    match Trie.child nodes node b with
    | none => offer nodes minimum braced node (b :: tail) next
    | some child =>
      follow nodes minimum braced child tail (offer nodes minimum braced node (b :: tail) next)

/-- `SubstitutionIndex::next`, with the result for the dollar signs before. -/
def nextFrom (nodes : List (TrieNode UInt8)) (minimum : ℕ) : Bytes → Option ℕ → Option ℕ
  | [], next => next
  | b :: value, next =>
    nextFrom nodes minimum value <|
      if b = 36 then
        let next := offer nodes minimum false 0 [] next
        if value.head? = some 123 then follow nodes minimum true 0 value.tail next
        else follow nodes minimum false 0 value next
      else next

/-- `str::replace`, inside a match of which `skip` bytes are left. -/
def replaceFrom (pattern new : Bytes) : ℕ → Bytes → Bytes
  | _, [] => []
  | skip + 1, _ :: s => replaceFrom pattern new skip s
  | 0, b :: s =>
    if pattern <+: b :: s then new ++ replaceFrom pattern new (pattern.length - 1) s
    else b :: replaceFrom pattern new 0 s

def bare (key : Bytes) : Bytes := 36 :: key

def braces (key : Bytes) : Bytes := 36 :: 123 :: (key ++ [125])

def pass (key value result : Bytes) : Bytes :=
  replaceFrom (braces key) value 0 (replaceFrom (bare key) value 0 result)

/-- `substitute`. The loop has a number of rounds; there is no result if it has too few, or if the
index gives a number that no substitution has. An error is the name of the variable. -/
def substitute (substitutions : List (Bytes × Bytes)) :
    ℕ → ℕ → Bytes → Option (Except Bytes Bytes)
  | 0, _, _ => none
  | rounds + 1, minimum, result =>
    if minimum < substitutions.length then
      let index := if maxSubstitutedValueBytes < result.length then some minimum
        else nextFrom (Trie.ofKeys (substitutions.map Prod.fst)) minimum result none
      match index with
      | none => some (.ok result)
      | some index => substitutions[index]?.bind fun s =>
          if (pass s.1 s.2 result).length ≤ maxSubstitutedValueBytes then
            substitute substitutions rounds (index + 1) (pass s.1 s.2 result)
          else some (.error s.1)
    else some (.ok result)

def substituteAll : List (Bytes × Bytes) → Bytes → Except Bytes Bytes
  | [], result => .ok result
  | s :: substitutions, result =>
    if (pass s.1 s.2 result).length ≤ maxSubstitutedValueBytes then
      substituteAll substitutions (pass s.1 s.2 result)
    else .error s.1

/-! ### Passes without references -/

lemma replaceFrom_of_not_infix {pat new s : Bytes} (h : ¬pat <:+: s) :
    replaceFrom pat new 0 s = s := by
  induction s with
  | nil => rfl
  | cons b s ih =>
    rw [infix_cons_iff, not_or] at h
    rw [replaceFrom, if_neg h.1, ih h.2]

def Refers (key value : Bytes) : Prop := bare key <:+: value ∨ braces key <:+: value

lemma pass_of_not_refers {key new val : Bytes} (h : ¬Refers key val) : pass key new val = val := by
  rw [Refers, not_or] at h
  rw [pass, replaceFrom_of_not_infix h.1, replaceFrom_of_not_infix h.2]

lemma substituteAll_append {skp rest : List (Bytes × Bytes)} {val : Bytes}
    (hlen : val.length ≤ maxSubstitutedValueBytes) (h : ∀ s ∈ skp, ¬Refers s.1 val) :
    substituteAll (skp ++ rest) val = substituteAll rest val := by
  induction skp with
  | nil => rfl
  | cons s skp ih =>
    rw [forall_mem_cons] at h
    rw [cons_append, substituteAll, pass_of_not_refers h.1, if_pos hlen, ih h.2]

/-! ### What the index finds -/

def LeastOf (numbers : Set ℕ) : Option ℕ → Prop
  | none => numbers = ∅
  | some n => IsLeast numbers n

def Met (nodes : List (TrieNode UInt8)) (minimum : ℕ) (braced : Bool) (node : ℕ) (tail : Bytes) :
    Set ℕ :=
  {n | Trie.index nodes node = some n ∧ minimum ≤ n ∧ (braced = false ∨ tail.head? = some 125)}

lemma LeastOf.offer {nds : List (TrieNode UInt8)} {minimum node : ℕ} {brd : Bool}
    {tail : Bytes} {next : Option ℕ} {nums : Set ℕ} (h : LeastOf nums next) :
    LeastOf (nums ∪ Met nds minimum brd node tail) (offer nds minimum brd node tail next) := by
  unfold Aur.offer Met
  cases hindex : index nds node with
  | none => simpa using h
  | some idx =>
    by_cases hc : minimum ≤ idx ∧ (brd = false ∨ tail.head? = some 125)
    · have hset : {n | some idx = some n ∧ minimum ≤ n ∧
          (brd = false ∨ tail.head? = some 125)} = {idx} := by
        ext n
        simp only [Option.some.injEq, Set.mem_ofPred_eq, Set.mem_singleton_iff]
        exact ⟨fun h => h.1.symm, by rintro rfl; exact ⟨rfl, hc⟩⟩
      dsimp only
      rw [if_pos hc, hset]
      cases next with
      | none => simp [LeastOf, show nums = ∅ from h]
      | some m => exact IsLeast.union h isLeast_singleton
    · have hset : {n | some idx = some n ∧ minimum ≤ n ∧
          (brd = false ∨ tail.head? = some 125)} = ∅ := by
        ext n
        simp only [Option.some.injEq, Set.mem_ofPred_eq, Set.mem_empty_iff_false, iff_false]
        rintro ⟨rfl, h⟩
        exact hc h
      dsimp only
      rw [if_neg hc, hset, Set.union_empty]
      exact h

section

variable {keys : List Bytes} {wds : List Bytes} {minimum : ℕ}
  (hspells : Trie.Spells (Trie.ofKeys keys) wds) (hmem : ∀ key ∈ keys, key ∈ wds)
  (hindex : ∀ k v, wds[k]? = some v → ∀ n,
    Trie.index (Trie.ofKeys keys) k = some n ↔ keys[n]? = some v)

/-- The numbers of the names that `tail` has behind `word`. -/
def Followed (keys : List Bytes) (minimum : ℕ) (braced : Bool) (word tail : Bytes) : Set ℕ :=
  {n | minimum ≤ n ∧ ∃ u rest, tail = u ++ rest ∧ keys[n]? = some (word ++ u) ∧
    (braced = false ∨ rest.head? = some 125)}

include hindex in
lemma followed_nil {brd : Bool} {node : ℕ} {word : Bytes} (hw : wds[node]? = some word) :
    Followed keys minimum brd word [] = Met (ofKeys keys) minimum brd node [] := by
  ext n
  simp only [Followed, Met, Set.mem_ofPred_eq, hindex node word hw n]
  constructor
  · rintro ⟨hn, u, rest, hnil, hkey, hbc⟩
    obtain ⟨rfl, rfl⟩ := append_eq_nil_iff.mp hnil.symm
    exact ⟨by rwa [append_nil] at hkey, hn, hbc⟩
  · rintro ⟨hkey, hn, hbc⟩
    exact ⟨hn, [], [], rfl, by rwa [append_nil], hbc⟩

include hindex in
lemma followed_cons {brd : Bool} {node : ℕ} {word tail : Bytes} {b : UInt8}
    (hw : wds[node]? = some word) : Followed keys minimum brd word (b :: tail) =
      Met (ofKeys keys) minimum brd node (b :: tail) ∪
        Followed keys minimum brd (word ++ [b]) tail := by
  ext n
  simp only [Followed, Met, Set.mem_ofPred_eq, Set.mem_union, hindex node word hw n]
  constructor
  · rintro ⟨hn, u, rest, hta, hkey, hbc⟩
    cases u with
    | nil => exact .inl ⟨by rwa [append_nil] at hkey, hn, hta ▸ hbc⟩
    | cons c u =>
      obtain ⟨rfl, rfl⟩ := cons_eq_cons.mp hta
      exact .inr ⟨hn, u, rest, rfl, by rwa [append_assoc], hbc⟩
  · rintro (⟨hkey, hn, hbc⟩ | ⟨hn, u, rest, rfl, hkey, hbc⟩)
    · exact ⟨hn, [], b :: tail, rfl, by rwa [append_nil], hbc⟩
    · exact ⟨hn, b :: u, rest, rfl, by rwa [append_assoc] at hkey, hbc⟩

include hspells hmem hindex in
lemma LeastOf.follow {brd : Bool} {node : ℕ} {word tail : Bytes} {next : Option ℕ}
    {nums : Set ℕ} (hw : wds[node]? = some word) (h : LeastOf nums next) :
    LeastOf (nums ∪ Followed keys minimum brd word tail)
      (follow (ofKeys keys) minimum brd node tail next) := by
  induction tail generalizing node word next nums with
  | nil =>
    rw [followed_nil hindex hw]
    exact h.offer
  | cons b tail ih =>
    rw [followed_cons hindex hw, ← Set.union_assoc, Aur.follow]
    cases hchi : child (ofKeys keys) node b with
    | none =>
      -- No name goes on with this byte.
      have hem : Followed keys minimum brd (word ++ [b]) tail = ∅ := by
        refine Set.eq_empty_of_forall_notMem ?_
        rintro n ⟨-, u, rest, -, hkey, -⟩
        exact hspells.fresh hw hchi (hspells.mem_of_append (hmem _ (mem_of_getElem? hkey)))
      rw [hem, Set.union_empty]
      exact h.offer
    | some ch => exact ih ((hspells.child hw b ch).mp hchi) h.offer

/-- The numbers of the names to which `value` refers. -/
def Referred (keys : List Bytes) (minimum : ℕ) (value : Bytes) : Set ℕ :=
  {n | minimum ≤ n ∧ ∃ key, keys[n]? = some key ∧ Refers key value}

/-- The numbers of the names to which `value` refers with its first byte. -/
def ReferredFirst (keys : List Bytes) (minimum : ℕ) (value : Bytes) : Set ℕ :=
  {n | minimum ≤ n ∧ ∃ key, keys[n]? = some key ∧ (bare key <+: value ∨ braces key <+: value)}

lemma referred_cons (b : UInt8) (val : Bytes) : Referred keys minimum (b :: val) =
    ReferredFirst keys minimum (b :: val) ∪ Referred keys minimum val := by
  ext n
  simp only [Referred, Refers, infix_cons_iff]
  constructor
  · rintro ⟨hn, key, hkey, (h | h) | h | h⟩
    · exact .inl ⟨hn, key, hkey, .inl h⟩
    · exact .inr ⟨hn, key, hkey, .inl h⟩
    · exact .inl ⟨hn, key, hkey, .inr h⟩
    · exact .inr ⟨hn, key, hkey, .inr h⟩
  · rintro (⟨hn, key, hkey, h | h⟩ | ⟨hn, key, hkey, h | h⟩)
    · exact ⟨hn, key, hkey, .inl (.inl h)⟩
    · exact ⟨hn, key, hkey, .inr (.inl h)⟩
    · exact ⟨hn, key, hkey, .inl (.inr h)⟩
    · exact ⟨hn, key, hkey, .inr (.inr h)⟩

include hspells hindex in
lemma referredFirst_braced (hbra : ∀ key ∈ keys, key.head? ≠ some 123) (tail : Bytes) :
    ReferredFirst keys minimum (36 :: 123 :: tail) =
      Met (ofKeys keys) minimum false 0 [] ∪ Followed keys minimum true [] tail := by
  ext n
  simp only [ReferredFirst, Followed, Met, bare, braces, cons_prefix_cons, true_and, nil_append,
    Set.mem_ofPred_eq, Set.mem_union, hindex 0 [] hspells.root n, true_or, and_true,
    Bool.true_eq_false, false_or]
  constructor
  · rintro ⟨hn, key, hkey, hba | ⟨rest, rfl⟩⟩
    · cases key with
      | nil => exact .inl ⟨hkey, hn⟩
      | cons c key =>
        obtain ⟨rfl, -⟩ := cons_prefix_cons.mp hba
        exact absurd rfl (hbra _ (mem_of_getElem? hkey))
    · exact .inr ⟨hn, key, 125 :: rest, by simp, hkey, rfl⟩
  · rintro (⟨hkey, hn⟩ | ⟨hn, u, rest, rfl, hkey, hr⟩)
    · exact ⟨hn, [], hkey, .inl nil_prefix⟩
    · obtain ⟨rest, rfl⟩ := head?_eq_some_iff.mp hr
      exact ⟨hn, u, hkey, .inr ⟨rest, by simp⟩⟩

include hspells hindex in
lemma referredFirst_bare {tail : Bytes} (hta : tail.head? ≠ some 123) :
    ReferredFirst keys minimum (36 :: tail) =
      Met (ofKeys keys) minimum false 0 [] ∪ Followed keys minimum false [] tail := by
  ext n
  simp only [ReferredFirst, Followed, Met, bare, braces, cons_prefix_cons, true_and, nil_append,
    Set.mem_ofPred_eq, Set.mem_union, hindex 0 [] hspells.root n, true_or, and_true]
  constructor
  · rintro ⟨hn, key, hkey, ⟨rest, rfl⟩ | ⟨rest, rfl⟩⟩
    · exact .inr ⟨hn, key, rest, rfl, hkey⟩
    · exact absurd rfl hta
  · rintro (⟨hkey, hn⟩ | ⟨hn, u, rest, rfl, hkey⟩)
    · exact ⟨hn, [], hkey, .inl nil_prefix⟩
    · exact ⟨hn, u, hkey, .inl (prefix_append u rest)⟩

include hspells hmem hindex in
lemma LeastOf.nextFrom (hbra : ∀ key ∈ keys, key.head? ≠ some 123) {val : Bytes}
    {next : Option ℕ} {nums : Set ℕ} (h : LeastOf nums next) :
    LeastOf (nums ∪ Referred keys minimum val) (nextFrom (ofKeys keys) minimum val next) := by
  induction val generalizing next nums with
  | nil =>
    have hem : Referred keys minimum [] = ∅ := by
      refine Set.eq_empty_of_forall_notMem ?_
      rintro n ⟨-, key, -, h | h⟩ <;> cases infix_nil.mp h
    rw [hem, Set.union_empty]
    exact h
  | cons b val ih =>
    rw [referred_cons, ← Set.union_assoc, Aur.nextFrom]
    refine ih ?_
    split_ifs with hb hval
    · obtain ⟨tail, rfl⟩ := head?_eq_some_iff.mp hval
      rw [hb, referredFirst_braced hspells hindex hbra, ← Set.union_assoc]
      exact LeastOf.follow hspells hmem hindex hspells.root h.offer
    · rw [hb, referredFirst_bare hspells hindex hval, ← Set.union_assoc]
      exact LeastOf.follow hspells hmem hindex hspells.root h.offer
    · have hem : ReferredFirst keys minimum (b :: val) = ∅ := by
        refine Set.eq_empty_of_forall_notMem ?_
        rintro n ⟨-, key, -, h | h⟩ <;> exact hb (cons_prefix_cons.mp h).1.symm
      rw [hem, Set.union_empty]
      exact h

end

/-! ### The passes that are skipped -/

def isNameByte (b : UInt8) : Bool := 97 ≤ b && b ≤ 122 || 48 ≤ b && b ≤ 57 || b == 95

/-- The index gives the next variable to which the value refers. -/
lemma leastOf_next {substitutions : List (Bytes × Bytes)}
    (hnodup : (substitutions.map Prod.fst).Nodup)
    (hnames : ∀ s ∈ substitutions, s.1.all isNameByte) (minimum : ℕ) (val : Bytes) :
    LeastOf (Referred (substitutions.map Prod.fst) minimum val)
      (nextFrom (ofKeys (substitutions.map Prod.fst)) minimum val none) := by
  obtain ⟨wds, hspells, hmem, hindex⟩ := exists_spells_ofKeys hnodup
  have hbra : ∀ key ∈ substitutions.map Prod.fst, key.head? ≠ some 123 := by
    intro key hkey hh
    obtain ⟨s, hs, rfl⟩ := mem_map.mp hkey
    have hn := all_eq_true.mp (hnames s hs) _ (mem_of_mem_head? hh)
    revert hn
    decide
  have hno : LeastOf ∅ none := rfl
  simpa using hno.nextFrom hspells hmem hindex hbra

section

variable {substitutions : List (Bytes × Bytes)} (hnodup : (substitutions.map Prod.fst).Nodup)
  (hnames : ∀ s ∈ substitutions, s.1.all isNameByte = true)

/-- The passes up to a number can be skipped if the value refers to none of their variables. -/
lemma substituteAll_drop {minimum idx : ℕ} {val : Bytes} (hle : minimum ≤ idx)
    (hlen : val.length ≤ maxSubstitutedValueBytes)
    (h : ∀ n ∈ Referred (substitutions.map Prod.fst) minimum val, idx ≤ n) :
    substituteAll (substitutions.drop minimum) val =
      substituteAll (substitutions.drop idx) val := by
  obtain ⟨k, rfl⟩ := Nat.exists_eq_add_of_le hle
  rw [← take_append_drop k (substitutions.drop minimum), drop_drop]
  refine substituteAll_append hlen fun s hs href => ?_
  obtain ⟨j, hj⟩ := mem_iff_getElem?.mp hs
  rw [getElem?_take, getElem?_drop] at hj
  split_ifs at hj with hjk
  have hmem : minimum + j ∈ Referred (substitutions.map Prod.fst) minimum val :=
    ⟨Nat.le_add_right .., s.1, by rw [getElem?_map, hj]; rfl, href⟩
  have := h _ hmem
  omega

include hnodup hnames in
/-- The induction is on the rounds: a round skips the passes without references and makes one. -/
lemma substitute_eq {rds minimum : ℕ} (hrnd : substitutions.length < rds + minimum)
    (hmin : minimum ≤ substitutions.length) (val : Bytes) :
    substitute substitutions rds minimum val =
      some (substituteAll (substitutions.drop minimum) val) := by
  induction rds generalizing minimum val with
  | zero => omega
  | succ rds ih =>
    have hpa : ∀ {idx}, minimum ≤ idx → idx < substitutions.length →
        (substitutions[idx]?.bind fun s =>
          if (pass s.1 s.2 val).length ≤ maxSubstitutedValueBytes then
            substitute substitutions rds (idx + 1) (pass s.1 s.2 val)
          else some (.error s.1)) = some (substituteAll (substitutions.drop idx) val) := by
      intro idx hle hlt
      rw [getElem?_eq_getElem hlt, Option.bind_some, drop_eq_getElem_cons hlt, substituteAll]
      split_ifs
      · exact ih (by omega) hlt _
      · rfl
    rw [substitute]
    split_ifs with hlt hlar
    · exact hpa le_rfl hlt
    · have hlen : val.length ≤ maxSubstitutedValueBytes := Nat.le_of_not_lt hlar
      have hlea := leastOf_next hnodup hnames minimum val
      dsimp only
      cases hnx : nextFrom (ofKeys (substitutions.map Prod.fst)) minimum val none with
      | none =>
        rw [hnx] at hlea
        have hem : ∀ n ∈ Referred (substitutions.map Prod.fst) minimum val,
            substitutions.length ≤ n := by
          rw [show Referred _ minimum val = ∅ from hlea]
          exact fun n hn => hn.elim
        rw [substituteAll_drop hmin hlen hem, drop_length, substituteAll]
      | some idx =>
        rw [hnx] at hlea
        obtain ⟨⟨hle, key, hkey, -⟩, hbou⟩ : IsLeast _ idx := hlea
        obtain ⟨hindex, -⟩ := List.getElem?_eq_some_iff.mp hkey
        rw [substituteAll_drop hle hlen fun n hn => hbou hn]
        exact hpa hle (by simpa using hindex)
    · rw [drop_of_length_le (Nat.le_of_not_lt hlt), substituteAll]

lemma length_substituteAll {val res : Bytes} (hne : substitutions ≠ [])
    (h : substituteAll substitutions val = .ok res) : res.length ≤ maxSubstitutedValueBytes := by
  induction substitutions generalizing val with
  | nil => exact absurd rfl hne
  | cons s rest ih =>
    rw [substituteAll] at h
    split_ifs at h with hlen
    by_cases hr : rest = []
    · subst hr
      cases h
      exact hlen
    · exact ih hr h

end

/-- **Skipped passes change nothing.** With distinct names the loop ends after at most one round for
each variable and one more, and returns what all passes return, or the variable at which they fail.
The result is not longer than the limit if there is a variable. -/
theorem substitute_eq_substituteAll (substitutions : List (Bytes × Bytes))
    (hnodup : (substitutions.map Prod.fst).Nodup)
    (hnames : ∀ s ∈ substitutions, s.1.all isNameByte = true) (value : Bytes) :
    (∀ rounds > substitutions.length, substitute substitutions rounds 0 value =
      some (substituteAll substitutions value)) ∧
    (substitutions ≠ [] → ∀ result, substituteAll substitutions value = .ok result →
      result.length ≤ maxSubstitutedValueBytes) :=
  ⟨fun _ hrnd => substitute_eq hnodup hnames hrnd (Nat.zero_le _) value,
    fun hne _ h => length_substituteAll hne h⟩

/-- `$a` stands for `$b`, and `$b` for `x`; the pass for another variable is skipped. -/
theorem substitute_eq_substituteAll_nested :
    substitute [([97], [36, 98]), ([99], [121]), ([98], [120])] 4 0 [36, 97] = some (.ok [120]) :=
  ((substitute_eq_substituteAll [([97], [36, 98]), ([99], [121]), ([98], [120])] (by decide)
    (by decide) [36, 97]).1 4 (by decide)).trans (by decide)

/-- Without variables there is no pass that looks at the length. -/
theorem substitute_long : substitute [] 1 0 (replicate (maxSubstitutedValueBytes + 1) 97) =
      some (.ok (replicate (maxSubstitutedValueBytes + 1) 97)) ∧
    maxSubstitutedValueBytes <
      (replicate (maxSubstitutedValueBytes + 1) (97 : UInt8)).length := by
  refine ⟨?_, ?_⟩
  · rw [substitute, if_neg (by simp)]
  · rw [length_replicate]
    exact Nat.lt_succ_self _

end Omg.Aur
