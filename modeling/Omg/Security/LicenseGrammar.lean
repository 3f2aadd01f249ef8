import Omg.Security.LicenseCombination

/-!
# The grammar of license expressions

The parser accepts the texts whose tokens belong to a grammar with three levels, and returns the
tree of the grammar. Conjunction and juxtaposition associate to the left at one level.

Source: `src/core/security/policy.rs`.
-/

namespace Omg.Security

open Parse List Option

mutual

inductive OrDerives : List SpdxToken → SpdxExpr → Prop
  | and {ts : List SpdxToken} {e : SpdxExpr} (h : AndDerives ts e) : OrDerives ts e
  | or {s t : List SpdxToken} {l r : SpdxExpr} (hl : OrDerives s l) (hr : AndDerives t r) :
    OrDerives (s ++ .or :: t) (.or l r)

inductive AndDerives : List SpdxToken → SpdxExpr → Prop
  | atom {ts : List SpdxToken} {e : SpdxExpr} (h : AtomDerives ts e) : AndDerives ts e
  | and {s t : List SpdxToken} {l r : SpdxExpr} (hl : AndDerives s l) (hr : AtomDerives t r) :
    AndDerives (s ++ .and :: t) (.and l r)
  | juxtaposed {s t : List SpdxToken} {l r : SpdxExpr} (hl : AndDerives s l)
      (hr : AtomDerives t r) :
    AndDerives (s ++ t) (.or l r)

inductive AtomDerives : List SpdxToken → SpdxExpr → Prop
  | id (name : Text) : AtomDerives [.id name] (.id name)
  | withException (name exception : Text) :
    AtomDerives [.id name, .withWord, .id exception] (.withException name)
  | parens {ts : List SpdxToken} {e : SpdxExpr} (h : OrDerives ts e) :
    AtomDerives (.openParen :: (ts ++ [.closeParen])) e

end

/-! ### What the parser returns is derived -/

/-- What the five parsers read at a given bound is derived. The loops go on with what was read. -/
structure ParserSound (n : ℕ) : Prop where
  or : ∀ {ts rest : List SpdxToken} {e : SpdxExpr}, parseOr n ts = some (e, rest) →
    ∃ read, ts = read ++ rest ∧ OrDerives read e
  orLoop : ∀ {s ts rest : List SpdxToken} {l e : SpdxExpr}, OrDerives s l →
    parseOrLoop n l ts = some (e, rest) → ∃ read, ts = read ++ rest ∧ OrDerives (s ++ read) e
  and : ∀ {ts rest : List SpdxToken} {e : SpdxExpr}, parseAnd n ts = some (e, rest) →
    ∃ read, ts = read ++ rest ∧ AndDerives read e
  andLoop : ∀ {s ts rest : List SpdxToken} {l e : SpdxExpr}, AndDerives s l →
    parseAndLoop n l ts = some (e, rest) → ∃ read, ts = read ++ rest ∧ AndDerives (s ++ read) e
  atom : ∀ {ts rest : List SpdxToken} {e : SpdxExpr}, parseAtom n ts = some (e, rest) →
    ∃ read, ts = read ++ rest ∧ AtomDerives read e

section

variable {n : ℕ} (ih : ParserSound n) {s ts rest : List SpdxToken} {l e : SpdxExpr}

include ih

lemma ParserSound.or_succ (h : parseOr (n + 1) ts = some (e, rest)) :
    ∃ read, ts = read ++ rest ∧ OrDerives read e := by
  obtain ⟨⟨l, ts'⟩, hand, hlp⟩ := bind_eq_some_iff.mp h
  obtain ⟨first, rfl, hf⟩ := ih.and hand
  obtain ⟨ltr, rfl, hla⟩ := ih.orLoop (.and hf) hlp
  exact ⟨first ++ ltr, by simp, hla⟩

lemma ParserSound.orLoop_succ (hs : OrDerives s l) (h : parseOrLoop (n + 1) l ts = some (e, rest)) :
    ∃ read, ts = read ++ rest ∧ OrDerives (s ++ read) e := by
  unfold parseOrLoop at h
  split at h
  · obtain ⟨⟨r, ts'⟩, hand, hlp⟩ := bind_eq_some_iff.mp h
    obtain ⟨operand, rfl, hopd⟩ := ih.and hand
    obtain ⟨ltr, rfl, hla⟩ := ih.orLoop (.or hs hopd) hlp
    exact ⟨.or :: operand ++ ltr, by simp, by simpa using hla⟩
  · cases h
    exact ⟨[], rfl, by simpa using hs⟩

lemma ParserSound.and_succ (h : parseAnd (n + 1) ts = some (e, rest)) :
    ∃ read, ts = read ++ rest ∧ AndDerives read e := by
  rw [parseAnd_succ_eq (parser_local n)] at h
  obtain ⟨⟨l, ts'⟩, hat, hlp⟩ := bind_eq_some_iff.mp h
  obtain ⟨first, rfl, hf⟩ := ih.atom hat
  obtain ⟨ltr, rfl, hla⟩ := ih.andLoop (.atom hf) hlp
  exact ⟨first ++ ltr, by simp, hla⟩

lemma ParserSound.andLoop_succ (hs : AndDerives s l)
    (h : parseAndLoop (n + 1) l ts = some (e, rest)) :
    ∃ read, ts = read ++ rest ∧ AndDerives (s ++ read) e := by
  by_cases hsto : ∀ t, ts.head? = some t → ¬ContinuesAnd t
  · rw [parseAndLoop_stop n l ts hsto] at h
    cases h
    exact ⟨[], rfl, by simpa using hs⟩
  · push Not at hsto
    obtain ⟨t, ht, rfl | hjux⟩ := hsto
    · obtain ⟨ts', rfl⟩ := head?_eq_some_iff.mp ht
      rw [parseAndLoop_and (parser_local n)] at h
      obtain ⟨⟨r, ts''⟩, hat, hlp⟩ := bind_eq_some_iff.mp h
      obtain ⟨operand, rfl, hopd⟩ := ih.atom hat
      obtain ⟨ltr, rfl, hla⟩ := ih.andLoop (.and hs hopd) hlp
      exact ⟨.and :: operand ++ ltr, by simp, by simpa using hla⟩
    · rw [parseAndLoop_juxtaposed (parser_local n) l ⟨t, ht, hjux⟩] at h
      obtain ⟨⟨r, ts''⟩, hat, hlp⟩ := bind_eq_some_iff.mp h
      obtain ⟨operand, rfl, hopd⟩ := ih.atom hat
      obtain ⟨ltr, rfl, hla⟩ := ih.andLoop (.juxtaposed hs hopd) hlp
      exact ⟨operand ++ ltr, by simp, by simpa using hla⟩

lemma ParserSound.atom_succ (h : parseAtom (n + 1) ts = some (e, rest)) :
    ∃ read, ts = read ++ rest ∧ AtomDerives read e := by
  unfold parseAtom at h
  split at h
  · obtain ⟨⟨inner, ts'⟩, hor, hcl⟩ := bind_eq_some_iff.mp h
    dsimp only at hcl
    split at hcl
    · cases hcl
      obtain ⟨read, rfl, hrd⟩ := ih.or hor
      exact ⟨.openParen :: (read ++ [.closeParen]), by simp, .parens hrd⟩
    · cases hcl
  · split at h
    · cases h
      exact ⟨_, rfl, .withException _ _⟩
    · cases h
  · cases h
    exact ⟨_, rfl, .id _⟩
  · cases h

end

lemma parser_sound (n : ℕ) : ParserSound n := by
  induction n with
  | zero => constructor <;> intros <;> rename_i h <;> cases h
  | succ n ih => exact ⟨ih.or_succ, ih.orLoop_succ, ih.and_succ, ih.andLoop_succ, ih.atom_succ⟩

/-! ### What is derived is returned -/

def RunsTo (p : ℕ → Parser SpdxToken SpdxExpr) (ts : List SpdxToken)
    (r : SpdxExpr × List SpdxToken) : Prop := ∃ n, p n ts = some r

lemma eq_some_of_le {p : ℕ → Parser SpdxToken SpdxExpr} {k : ℕ}
    (hstb : ∀ n, Stable (p n) (p (n + 1)) n k) {ts : List SpdxToken}
    {r : SpdxExpr × List SpdxToken} {n m : ℕ} (h : p n ts = some r) (hle : n ≤ m) :
    p m ts = some r := by
  induction m, hle using Nat.le_induction with
  | base => exact h
  | succ m _ ih => rw [hstb m ts (.inr ⟨r, ih⟩), ih]

lemma RunsTo.bind {p : ℕ → Parser SpdxToken SpdxExpr} {q : ℕ → SpdxExpr → Parser SpdxToken SpdxExpr}
    {k k' : ℕ} (hp : ∀ n, Stable (p n) (p (n + 1)) n k)
    (hq : ∀ e n, Stable (q n e) (q (n + 1) e) n k') {ts rest : List SpdxToken} {e : SpdxExpr}
    {r : SpdxExpr × List SpdxToken} (h : RunsTo p ts (e, rest))
    (h' : RunsTo (fun n => q n e) rest r) :
    ∃ n, ((p n ts).bind fun fd => q n fd.1 fd.2) = some r := by
  obtain ⟨n, hn⟩ := h
  obtain ⟨m, hm⟩ := h'
  refine ⟨max n m, ?_⟩
  rw [eq_some_of_le hp hn (le_max_left n m)]
  exact eq_some_of_le (hq e) hm (le_max_right n m)

lemma AtomDerives.head {ts : List SpdxToken} {e : SpdxExpr} (h : AtomDerives ts e)
    (rest : List SpdxToken) :
    ∃ t, (ts ++ rest).head? = some t ∧ (t = .openParen ∨ ∃ name, t = .id name) := by
  cases h with
  | id name => exact ⟨_, rfl, .inr ⟨name, rfl⟩⟩
  | withException name exception => exact ⟨_, rfl, .inr ⟨name, rfl⟩⟩
  | parens h => exact ⟨_, rfl, .inl rfl⟩

def OrReads (s : List SpdxToken) (e : SpdxExpr) : Prop :=
  ∀ rest r, (∀ t, rest.head? = some t → ¬ContinuesAnd t ∧ t ≠ .withWord) →
    RunsTo (fun n => parseOrLoop n e) rest r → RunsTo parseOr (s ++ rest) r

def AndReads (s : List SpdxToken) (e : SpdxExpr) : Prop :=
  ∀ rest r, rest.head? ≠ some .withWord →
    RunsTo (fun n => parseAndLoop n e) rest r → RunsTo parseAnd (s ++ rest) r

def AtomReads (s : List SpdxToken) (e : SpdxExpr) : Prop :=
  ∀ rest, rest.head? ≠ some .withWord → RunsTo parseAtom (s ++ rest) (e, rest)

section

variable {s t : List SpdxToken} {e l r : SpdxExpr}

lemma AndReads.stop (h : AndReads s e) {rest : List SpdxToken}
    (hsto : ∀ t, rest.head? = some t → ¬ContinuesAnd t ∧ t ≠ .withWord) :
    RunsTo parseAnd (s ++ rest) (e, rest) :=
  h rest _ (fun hwi => (hsto _ hwi).2 rfl) ⟨1, parseAndLoop_stop 0 e rest fun t ht => (hsto t ht).1⟩

lemma AndReads.toOr (h : AndReads s e) : OrReads s e := by
  intro rest res hsto hlp
  obtain ⟨n, hn⟩ := (h.stop hsto).bind (fun n => (parser_stable n).and)
    (fun e n => (parser_stable n).orLoop e) hlp
  exact ⟨n + 1, hn⟩

lemma OrReads.or (hl : OrReads s l) (hr : AndReads t r) : OrReads (s ++ .or :: t) (.or l r) := by
  intro rest res hsto hlp
  obtain ⟨n, hn⟩ := (hr.stop hsto).bind (q := fun n e => parseOrLoop n (.or l e))
    (fun n => (parser_stable n).and) (fun e n => (parser_stable n).orLoop _) hlp
  rw [append_assoc]
  exact hl _ _ (by simp [ContinuesAnd]) ⟨n + 1, hn⟩

lemma AtomReads.toAnd (h : AtomReads s e) : AndReads s e := by
  intro rest res hwi hlp
  obtain ⟨n, hn⟩ := (h rest hwi).bind (fun n => (parser_stable n).atom)
    (fun e n => (parser_stable n).andLoop e) hlp
  exact ⟨n + 1, (congrFun (parseAnd_succ_eq (parser_local n)) _).trans hn⟩

lemma AndReads.and (hl : AndReads s l) (hr : AtomReads t r) :
    AndReads (s ++ .and :: t) (.and l r) := by
  intro rest res hwi hlp
  obtain ⟨n, hn⟩ := (hr rest hwi).bind (q := fun n e => parseAndLoop n (.and l e))
    (fun n => (parser_stable n).atom) (fun e n => (parser_stable n).andLoop _) hlp
  rw [append_assoc]
  exact hl _ _ (by simp) ⟨n + 1, (parseAndLoop_and (parser_local n) l (t ++ rest)).trans hn⟩

lemma AndReads.juxtaposed (hl : AndReads s l) (hr : AtomReads t r) (ht : AtomDerives t r) :
    AndReads (s ++ t) (.or l r) := by
  intro rest res hwi hlp
  obtain ⟨n, hn⟩ := (hr rest hwi).bind (q := fun n e => parseAndLoop n (.or l e))
    (fun n => (parser_stable n).atom) (fun e n => (parser_stable n).andLoop _) hlp
  obtain ⟨first, hf, hki⟩ := ht.head rest
  rw [append_assoc]
  refine hl _ _ ?_ ⟨n + 1, (parseAndLoop_juxtaposed (parser_local n) l ⟨first, hf, hki⟩).trans hn⟩
  rw [hf]
  rcases hki with rfl | ⟨name, rfl⟩ <;> simp

lemma OrReads.parens (h : OrReads s e) : AtomReads (.openParen :: (s ++ [.closeParen])) e := by
  intro rest _
  obtain ⟨n, hn⟩ := h (.closeParen :: rest) (e, .closeParen :: rest)
    (by simp [ContinuesAnd]) ⟨1, rfl⟩
  exact ⟨n + 1, by simp [parseAtom, hn]⟩

lemma OrDerives.reads (h : OrDerives s e) : OrReads s e :=
  @OrDerives.rec (fun s e _ => OrReads s e) (fun s e _ => AndReads s e) (fun s e _ => AtomReads s e)
    (fun _ ih => ih.toOr) (fun _ _ ihl ihr => ihl.or ihr) (fun _ ih => ih.toAnd)
    (fun _ _ ihl ihr => ihl.and ihr) (fun _ hr ihl ihr => ihl.juxtaposed ihr hr)
    (fun name _ hwi => ⟨1, parseAtom_id 0 name hwi⟩) (fun _ _ _ _ => ⟨1, rfl⟩)
    (fun _ ih => ih.parens) s e h

end

lemma parseExpression_eq_some {lic : Text} {e : SpdxExpr} : parseExpression lic = some e ↔
      ∃ toks, spdxTokenize lic = some toks ∧ OrDerives toks e := by
  simp only [parseExpression, bind_eq_some_iff]
  refine exists_congr fun toks => and_congr_right fun _ => ?_
  constructor
  · rintro ⟨⟨e', rest⟩, hor, hre⟩
    split_ifs at hre with hnil
    cases hre
    obtain ⟨read, rfl, hrd⟩ := (parser_sound _).or hor
    obtain rfl : rest = [] := hnil
    simpa using hrd
  · intro h
    obtain ⟨n, hn⟩ := h.reads [] (e, []) (by simp) ⟨1, rfl⟩
    rw [append_nil] at hn
    exact ⟨(e, []), parseOr_parseBound hn, by simp⟩

/-! ### The depth of the recursion -/

mutual

def parseOrWithin : ℕ → ℕ → List SpdxToken → Option (SpdxExpr × List SpdxToken)
  | 0, _, _ => none
  | n + 1, depth, ts =>
    (parseAndWithin n depth ts).bind fun p => parseOrLoopWithin n depth p.1 p.2

def parseOrLoopWithin : ℕ → ℕ → SpdxExpr → List SpdxToken → Option (SpdxExpr × List SpdxToken)
  | 0, _, _, _ => none
  | n + 1, depth, expr, ts =>
    match ts with
    | .or :: rest =>
      (parseAndWithin n depth rest).bind fun p => parseOrLoopWithin n depth (.or expr p.1) p.2
    | _ => some (expr, ts)

def parseAndWithin : ℕ → ℕ → List SpdxToken → Option (SpdxExpr × List SpdxToken)
  | 0, _, _ => none
  | n + 1, depth, ts => (parseAtomWithin n depth ts).bind fun p =>
      if p.2.length < ts.length then parseAndLoopWithin n depth p.1 p.2 else none

def parseAndLoopWithin : ℕ → ℕ → SpdxExpr → List SpdxToken → Option (SpdxExpr × List SpdxToken)
  | 0, _, _, _ => none
  | n + 1, depth, expr, ts =>
    match ts with
    | .and :: rest => (parseAtomWithin n depth rest).bind fun p =>
        if p.2.length < ts.length then parseAndLoopWithin n depth (.and expr p.1) p.2 else none
    | .id _ :: _ | .openParen :: _ => (parseAtomWithin n depth ts).bind fun p =>
        if p.2.length < ts.length then parseAndLoopWithin n depth (.or expr p.1) p.2 else none
    | _ => some (expr, ts)

def parseAtomWithin : ℕ → ℕ → List SpdxToken → Option (SpdxExpr × List SpdxToken)
  | 0, _, _ => none
  | n + 1, depth, ts =>
    match ts with
    | .openParen :: rest =>
      if depth = 0 then none
      else (parseOrWithin n (depth - 1) rest).bind fun p =>
        match p.2 with
        | .closeParen :: rest => some (p.1, rest)
        | _ => none
    | _ => parseAtom (n + 1) ts

end

def NestsWithin (depth : ℕ) (ts : List SpdxToken) : Prop :=
  ∀ part, part <+: ts → ∀ k, tokenDepth 0 part = some k → k ≤ depth

section

variable {depth n : ℕ} {ts : List SpdxToken}

lemma NestsWithin.rest {read rest : List SpdxToken} (h : NestsWithin depth (read ++ rest))
    (hrd : Balanced read) : NestsWithin depth rest := fun part hpa k hk =>
  h (read ++ part) ((prefix_append_right_inj read).mpr hpa) k (by
    rw [tokenDepth_append, hrd, bind_some, hk])

lemma NestsWithin.inner (h : NestsWithin depth (.openParen :: ts)) :
    ∃ inner, depth = inner + 1 ∧ NestsWithin inner ts := by
  have hpos : 1 ≤ depth := h [.openParen] (by simp) 1 rfl
  refine ⟨depth - 1, by omega, fun part hpa k hk => ?_⟩
  have hle := h (.openParen :: part) (cons_prefix_cons.mpr ⟨rfl, hpa⟩) (k + 1) (tokenDepth_add hk 1)
  omega

lemma NestsWithin.after {p : Parser SpdxToken SpdxExpr} {r : SpdxExpr × List SpdxToken}
    (h : NestsWithin depth ts) (hp : Local IsClose Group p) (hr : p ts = some r) :
    NestsWithin depth r.2 := by
  obtain ⟨read, rfl, hgr, -⟩ := hp ts hr
  exact h.rest hgr.2

/-- The five parsers with a limit agree with the parsers, on tokens that nest within the limit. -/
structure ParserNested (n : ℕ) : Prop where
  or : ∀ depth ts, NestsWithin depth ts → parseOrWithin n depth ts = parseOr n ts
  orLoop : ∀ depth expr ts, NestsWithin depth ts →
    parseOrLoopWithin n depth expr ts = parseOrLoop n expr ts
  and : ∀ depth ts, NestsWithin depth ts → parseAndWithin n depth ts = parseAnd n ts
  andLoop : ∀ depth expr ts, NestsWithin depth ts →
    parseAndLoopWithin n depth expr ts = parseAndLoop n expr ts
  atom : ∀ depth ts, NestsWithin depth ts → parseAtomWithin n depth ts = parseAtom n ts

lemma ParserNested.operand (ih : ParserNested n) (combine : SpdxExpr → SpdxExpr) (k : ℕ)
    (h : NestsWithin depth ts) : ((parseAtomWithin n depth ts).bind fun p =>
      if p.2.length < k then parseAndLoopWithin n depth (combine p.1) p.2 else none) =
    (parseAtom n ts).bind fun p =>
      if p.2.length < k then parseAndLoop n (combine p.1) p.2 else none := by
  rw [ih.atom depth ts h]
  refine bind_congr fun p hp => ?_
  rw [ih.andLoop depth _ p.2 (h.after (parser_local n).atom hp)]

lemma ParserNested.andLoop_succ (ih : ParserNested n) (expr : SpdxExpr) (h : NestsWithin depth ts) :
    parseAndLoopWithin (n + 1) depth expr ts = parseAndLoop (n + 1) expr ts := by
  unfold parseAndLoopWithin
  split
  · rename_i rest
    have hre : NestsWithin depth ([.and] ++ rest) := h
    exact ih.operand (.and expr) _ (hre.rest fun _ => rfl)
  · exact ih.operand (.or expr) _ h
  · exact ih.operand (.or expr) _ h
  · refine (parseAndLoop_stop n expr ts ?_).symm
    rintro t ht (rfl | rfl | ⟨name, rfl⟩)
    all_goals
      obtain ⟨ts', rfl⟩ := head?_eq_some_iff.mp ht
      simp_all

lemma ParserNested.atom_succ (ih : ParserNested n) (h : NestsWithin depth ts) :
    parseAtomWithin (n + 1) depth ts = parseAtom (n + 1) ts := by
  unfold parseAtomWithin
  split
  · obtain ⟨inner, rfl, hnes⟩ := h.inner
    rw [Nat.add_sub_cancel, ih.or _ _ hnes]
    rfl
  · rfl

lemma parser_nested (n : ℕ) : ParserNested n := by
  induction n with
  | zero =>
    constructor <;> intros <;>
      simp only [parseOrWithin, parseOrLoopWithin, parseAndWithin, parseAndLoopWithin,
        parseAtomWithin, parseOr, parseOrLoop, parseAnd, parseAndLoop, parseAtom]
  | succ n ih =>
    refine ⟨fun depth ts h => ?_, fun depth expr ts h => ?_, fun depth ts h => ?_,
      fun depth expr ts h => ih.andLoop_succ expr h, fun depth ts h => ih.atom_succ h⟩
    · rw [parseOrWithin, ih.and depth ts h]
      exact bind_congr fun p hp => ih.orLoop depth p.1 p.2 (h.after (parser_local n).and hp)
    · unfold parseOrLoopWithin
      split
      · rename_i rest
        replace h : NestsWithin depth rest := NestsWithin.rest
          (show NestsWithin depth ([.or] ++ rest) from h) fun _ => rfl
        rw [ih.and depth rest h]
        exact bind_congr fun p hp => ih.orLoop depth _ p.2 (h.after (parser_local n).and hp)
      · rename_i hsto
        unfold parseOrLoop
        split
        · exact absurd rfl (hsto _)
        · rfl
    · rw [parseAndWithin]
      exact ih.operand (fun expr => expr) _ h

end

end Omg.Security
