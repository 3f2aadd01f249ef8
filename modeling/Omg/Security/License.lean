import Omg.Parse.Local
import Omg.Text.Basic

/-!
# License expressions

The license check of the security policy reads SPDX expressions: a tokenizer that admits a bounded
text, and a recursive-descent parser in which `AND` binds tighter than `OR` and juxtaposition reads
as `OR`.

The parser of the source moves a position through the tokens; here it returns the tokens that it has
not read. Its recursion is bounded by an argument, and `parseOr_eq_of_le` says that the bound of
`parseExpression` is enough.

Source: `src/core/security/policy.rs`.
-/

namespace Omg.Security

open Text

/-- A parsed license expression; an exception after `WITH` is dropped. -/
inductive SpdxExpr
  | id (id : Text)
  | withException (id : Text)
  | and (left right : SpdxExpr)
  | or (left right : SpdxExpr)
deriving DecidableEq

inductive SpdxToken
  | id (id : Text)
  | and
  | or
  | withWord
  | openParen
  | closeParen
deriving DecidableEq

/-! ### The tokenizer -/

def maxLicenseBytes : ℕ := 4096

def maxLicenseTokens : ℕ := 256

def maxLicenseNesting : ℕ := 32

def isReferenceChar (c : Char) : Bool := c.isAlphanum || c == '.' || c == '-'

def referencePart (part : Text) : Bool := part ≠ [] && part.all isReferenceChar

def spdxIdentifierValid (id : Text) : Bool :=
  match splitOnce ':' id with
  | some (document, license) =>
    (stripPrefix "documentref-" document).any referencePart &&
      (stripPrefix "licenseref-" license).any referencePart
  | none =>
    let base := (stripSuffixChar '+' id).getD id
    base ≠ [] && base.all isReferenceChar

def isWordChar (c : Char) : Bool := isReferenceChar c || c == '+' || c == ':'

def isLicenseChar (c : Char) : Bool := isWordChar c || isAsciiWhitespace c || c == '(' || c == ')'

/-- The depth of open parentheses after a text, if it never exceeds the limit and no parenthesis
is closed that was not opened. -/
def nestingAfter (limit : ℕ) : ℕ → Text → Option ℕ
  | nesting, [] => some nesting
  | nesting, c :: cs =>
    if c = '(' then
      if limit < nesting + 1 then none else nestingAfter limit (nesting + 1) cs
    else if c = ')' then
      match nesting with
      | 0 => none
      | nesting + 1 => nestingAfter limit nesting cs
    else nestingAfter limit nesting cs

def pushWord (word : Text) : List SpdxToken :=
  if word = [] then []
  else if eqIgnoreAsciiCase word "AND" then [.and]
  else if eqIgnoreAsciiCase word "OR" then [.or]
  else if eqIgnoreAsciiCase word "WITH" then [.withWord]
  else [.id (toAsciiLowercase word)]

/-- The tokens of a text, after the characters `word` of an unfinished word. -/
def tokensFrom : Text → Text → List SpdxToken
  | word, [] => pushWord word
  | word, c :: cs =>
    if c = '(' then pushWord word ++ .openParen :: tokensFrom [] cs
    else if c = ')' then pushWord word ++ .closeParen :: tokensFrom [] cs
    else if isWordChar c then tokensFrom (word ++ [c]) cs
    else pushWord word ++ tokensFrom [] cs

def SpdxToken.valid : SpdxToken → Bool
  | .id name => spdxIdentifierValid name
  | _ => true

def spdxTokenize (license : Text) : Option (List SpdxToken) :=
  if maxLicenseBytes < byteLen license || !license.all isLicenseChar then none
  else if nestingAfter maxLicenseNesting 0 license ≠ some 0 then none
  else
    let tokens := tokensFrom [] license
    if maxLicenseTokens < tokens.length || !tokens.all SpdxToken.valid then none
    else some tokens

mutual

def parseOr : ℕ → List SpdxToken → Option (SpdxExpr × List SpdxToken)
  | 0, _ => none
  | n + 1, ts => (parseAnd n ts).bind fun p => parseOrLoop n p.1 p.2

def parseOrLoop : ℕ → SpdxExpr → List SpdxToken → Option (SpdxExpr × List SpdxToken)
  | 0, _, _ => none
  | n + 1, expr, ts =>
    match ts with
    | .or :: rest => (parseAnd n rest).bind fun p => parseOrLoop n (.or expr p.1) p.2
    | _ => some (expr, ts)

def parseAnd : ℕ → List SpdxToken → Option (SpdxExpr × List SpdxToken)
  | 0, _ => none
  | n + 1, ts => (parseAtom n ts).bind fun p =>
      if p.2.length < ts.length then parseAndLoop n p.1 p.2 else none

def parseAndLoop : ℕ → SpdxExpr → List SpdxToken → Option (SpdxExpr × List SpdxToken)
  | 0, _, _ => none
  | n + 1, expr, ts =>
    match ts with
    | .and :: rest => (parseAtom n rest).bind fun p =>
        if p.2.length < ts.length then parseAndLoop n (.and expr p.1) p.2 else none
    -- Juxtaposition reads as a disjunction.
    | .id _ :: _ | .openParen :: _ => (parseAtom n ts).bind fun p =>
        if p.2.length < ts.length then parseAndLoop n (.or expr p.1) p.2 else none
    | _ => some (expr, ts)

/-- `SpdxParser::parse_atom`. -/
def parseAtom : ℕ → List SpdxToken → Option (SpdxExpr × List SpdxToken)
  | 0, _ => none
  | n + 1, ts =>
    match ts with
    | .openParen :: rest => (parseOr n rest).bind fun p =>
        match p.2 with
        | .closeParen :: rest => some (p.1, rest)
        | _ => none
    | .id id :: .withWord :: rest =>
      match rest with
      | .id _ :: rest => some (.withException id, rest)
      | _ => none
    | .id id :: rest => some (.id id, rest)
    | _ => none

end

def parseBound (ts : List SpdxToken) : ℕ := 4 * ts.length + 3

def parseExpression (license : Text) : Option SpdxExpr :=
  (spdxTokenize license).bind fun tokens =>
    (parseOr (parseBound tokens) tokens).bind fun p =>
      if p.2 = [] then some p.1 else none

/-- `MIT+` satisfies an `MIT` entry of the allowlist, and `MIT` an `MIT+` entry. -/
def spdxIdAllowed (id : Text) (allowed : List Text) : Bool :=
  allowed.any fun entry =>
    eqIgnoreAsciiCase id entry ||
    (stripSuffixChar '+' id).any (eqIgnoreAsciiCase · entry) ||
    (stripSuffixChar '+' entry).any (eqIgnoreAsciiCase id ·)

def spdxExprAllowed (allowed : List Text) : SpdxExpr → Bool
  | .id id => spdxIdAllowed id allowed
  | .withException id => spdxIdAllowed id allowed
  | .and left right => spdxExprAllowed allowed left && spdxExprAllowed allowed right
  | .or left right => spdxExprAllowed allowed left || spdxExprAllowed allowed right

def licenseMatchesAllowlist (license : Text) (allowed : List Text) : Bool :=
  (parseExpression license).any (spdxExprAllowed allowed)

def licenseSeparator : Text := " AND "

/-- Append the entries to the expression, in parentheses and joined by `AND`. -/
def combineLicenses : Text → List Text → Option Text
  | expression, [] => some expression
  | expression, license :: licenses =>
    let separator := if expression = [] then [] else licenseSeparator
    if maxLicenseBytes <
        byteLen expression + byteLen separator + byteLen license + 2 then none
    else combineLicenses (expression ++ separator ++ '(' :: license ++ [')']) licenses

def combinedLicenseExpression (licenses : List Text) : Option Text :=
  (combineLicenses [] licenses).bind fun expression =>
    if expression = [] then none else some expression

/-!
### The parser of license expressions

The parser reads balanced groups of tokens, and how it reads a group does not depend on what follows
in the closing parenthesis. The bound on its recursion is enough.
-/

open Parse List Option Local

def tokenDepth : ℕ → List SpdxToken → Option ℕ
  | d, [] => some d
  | d, .openParen :: ts => tokenDepth (d + 1) ts
  | 0, .closeParen :: _ => none
  | d + 1, .closeParen :: ts => tokenDepth d ts
  | d, _ :: ts => tokenDepth d ts

lemma tokenDepth_append (d : ℕ) (s t : List SpdxToken) :
    tokenDepth d (s ++ t) = (tokenDepth d s).bind fun d' => tokenDepth d' t := by
  fun_induction tokenDepth d s <;> simp_all [tokenDepth]

def Balanced (ts : List SpdxToken) : Prop := ∀ d, tokenDepth d ts = some d

def Group (ts : List SpdxToken) : Prop := ts ≠ [] ∧ Balanced ts

lemma Balanced.append {s t : List SpdxToken} (hs : Balanced s) (ht : Balanced t) :
    Balanced (s ++ t) := fun d => by
  rw [tokenDepth_append, hs, bind_some, ht]

lemma Group.append {s t : List SpdxToken} (hs : Group s) (ht : Balanced t) : Group (s ++ t) :=
  ⟨by simp [hs.1], hs.2.append ht⟩

variable {ts : List SpdxToken}

lemma Balanced.parens (h : Balanced ts) : Group (.openParen :: ts ++ [.closeParen]) := by
  refine ⟨by simp, fun d => ?_⟩
  rw [cons_append, tokenDepth, tokenDepth_append, h]
  rfl

abbrev IsClose (t : SpdxToken) : Prop := t = .closeParen

/-! ### Locality -/

lemma length_lt_of_local {p : Parser SpdxToken SpdxExpr} (hp : Local IsClose Group p)
    {r : SpdxExpr × List SpdxToken} (h : p ts = some r) : r.2.length < ts.length := by
  obtain ⟨read, hts, hgr, -⟩ := hp ts h
  have hpos : 0 < read.length := length_pos_iff.mpr hgr.1
  simp only [hts, length_append]
  omega

structure ParserLocal (n : ℕ) : Prop where
  or : Local IsClose Group (parseOr n)
  orLoop : ∀ expr, Local IsClose Balanced (parseOrLoop n expr)
  and : Local IsClose Group (parseAnd n)
  andLoop : ∀ expr, Local IsClose Balanced (parseAndLoop n expr)
  atom : Local IsClose Group (parseAtom n)

lemma balanced_nil : Balanced [] := fun _ => rfl

def ContinuesAnd (t : SpdxToken) : Prop := t = .and ∨ t = .openParen ∨ ∃ name, t = .id name

lemma parseAndLoop_stop (n : ℕ) (expr : SpdxExpr) (ts : List SpdxToken)
    (hts : ∀ t, ts.head? = some t → ¬ ContinuesAnd t) :
    parseAndLoop (n + 1) expr ts = some (expr, ts) := by
  unfold parseAndLoop
  split <;> simp_all [ContinuesAnd]

lemma parseAtom_id (n : ℕ) (name : Text) (hts : ts.head? ≠ some .withWord) :
    parseAtom (n + 1) (.id name :: ts) = some (.id name, ts) := by
  unfold parseAtom
  split <;> simp_all

section

variable {n : ℕ} (ih : ParserLocal n)

include ih

lemma ParserLocal.or_succ : Local IsClose Group (parseOr (n + 1)) :=
  bind (fun _ _ => Group.append) ih.and ih.orLoop

lemma ParserLocal.orLoop_succ (expr : SpdxExpr) :
    Local IsClose Balanced (parseOrLoop (n + 1) expr) := by
  have hor : ∀ ts, LocalAt IsClose Balanced (parseOrLoop (n + 1) expr) (.or :: ts) :=
    localAt_cons
      (bind (fun _ _ hs ht => hs.2.append ht) ih.and fun right => ih.orLoop (.or expr right))
      (fun _ hrd d => hrd d) fun _ => rfl
  have hsto : ∀ ts, (∀ t, ts.head? = some t → ¬ t = .or) →
      parseOrLoop (n + 1) expr ts = some (expr, ts) := by
    intro ts hts
    unfold parseOrLoop
    split
    · simp at hts
    · rfl
  intro ts
  by_cases hts : ∀ t, ts.head? = some t → ¬ t = .or
  · exact localAt_stop balanced_nil (by simp) hsto hts
  · push Not at hts
    obtain ⟨t, ht, rfl⟩ := hts
    obtain ⟨ts', rfl⟩ := head?_eq_some_iff.mp ht
    exact hor ts'

lemma parseAnd_succ_eq : parseAnd (n + 1) =
    fun ts => (parseAtom n ts).bind fun p => parseAndLoop n p.1 p.2 := by
  funext ts
  exact bind_requireProgress fun r hr => length_lt_of_local ih.atom hr

lemma ParserLocal.and_succ : Local IsClose Group (parseAnd (n + 1)) := by
  rw [parseAnd_succ_eq ih]
  exact bind (fun _ _ => Group.append) ih.atom ih.andLoop

lemma parseAndLoop_and (expr : SpdxExpr) (ts : List SpdxToken) :
    parseAndLoop (n + 1) expr (.and :: ts) =
      (parseAtom n ts).bind fun p => parseAndLoop n (.and expr p.1) p.2 :=
  bind_requireProgress fun _ hr => Nat.lt_succ_of_lt (length_lt_of_local ih.atom hr)

lemma parseAndLoop_juxtaposed (expr : SpdxExpr) {ts : List SpdxToken}
    (hts : ∃ t, ts.head? = some t ∧ (t = .openParen ∨ ∃ name, t = .id name)) :
    parseAndLoop (n + 1) expr ts =
      (parseAtom n ts).bind fun p => parseAndLoop n (.or expr p.1) p.2 := by
  obtain ⟨t, ht, rfl | ⟨name, rfl⟩⟩ := hts <;>
  · obtain ⟨ts', rfl⟩ := head?_eq_some_iff.mp ht
    exact bind_requireProgress fun _ hr => length_lt_of_local ih.atom hr

lemma ParserLocal.andLoop_succ (expr : SpdxExpr) :
    Local IsClose Balanced (parseAndLoop (n + 1) expr) := by
  intro ts
  by_cases hts : ∀ t, ts.head? = some t → ¬ ContinuesAnd t
  · exact localAt_stop balanced_nil (by simp [ContinuesAnd]) (parseAndLoop_stop n expr) hts
  · push Not at hts
    obtain ⟨t, ht, rfl | hjux⟩ := hts
    · obtain ⟨ts', rfl⟩ := head?_eq_some_iff.mp ht
      have hr : Local IsClose Balanced fun ts =>
          (parseAtom n ts).bind fun p => parseAndLoop n (.and expr p.1) p.2 :=
        bind (fun _ _ hs ht => hs.2.append ht) ih.atom fun right =>
          ih.andLoop (.and expr right)
      exact hr.localAt_cons (fun _ hrd d => hrd d) (parseAndLoop_and ih expr) ts'
    · have hr : Local IsClose Group fun ts =>
          (parseAtom n ts).bind fun p => parseAndLoop n (.or expr p.1) p.2 :=
        bind (fun _ _ => Group.append) ih.atom fun right => ih.andLoop (.or expr right)
      refine (hr.localAt_of_head (fun _ hrd => hrd.1) fun ts' hts' => ?_).mono fun _ hrd => hrd.2
      exact parseAndLoop_juxtaposed ih expr ⟨t, hts'.trans ht, hjux⟩

lemma ParserLocal.atom_succ : Local IsClose Group (parseAtom (n + 1)) := by
  intro ts expr rest h
  unfold parseAtom at h
  split at h
  · -- A parenthesis: the disjunction inside stops at the closing one.
    rename_i ts
    obtain ⟨⟨inner, rest'⟩, hor, hcl⟩ := bind_eq_some_iff.mp h
    dsimp only at hcl
    split at hcl
    · obtain ⟨rfl, rfl⟩ := Prod.mk.inj (some.inj hcl)
      obtain ⟨read, rfl, hgr, hrd⟩ := ih.or ts hor
      refine ⟨.openParen :: read ++ [.closeParen], by simp, hgr.2.parens, fun rest' _ => ?_⟩
      simp [parseAtom, hrd (.closeParen :: rest') (.inl rfl)]
    · cases hcl
  · rename_i name ts
    split at h
    · obtain ⟨rfl, rfl⟩ := Prod.mk.inj (some.inj h)
      rename_i name' rest
      exact ⟨[.id name, .withWord, .id name'], rfl, ⟨by simp, fun _ => rfl⟩, fun _ _ => rfl⟩
    · cases h
  · rename_i name ts hts
    obtain ⟨rfl, rfl⟩ := Prod.mk.inj (some.inj h)
    refine ⟨[.id name], rfl, ⟨by simp, fun _ => rfl⟩, fun rest' hr' => ?_⟩
    refine parseAtom_id n name fun hwi => ?_
    rcases hr' with hsm | hsto
    · obtain ⟨ts', hts'⟩ := head?_eq_some_iff.mp (hsm.symm.trans hwi)
      exact hts _ hts'
    · exact absurd (hsto _ hwi) (by simp)
  · cases h

end

lemma parser_local (n : ℕ) : ParserLocal n := by
  induction n with
  | zero =>
    constructor <;> intros <;> intro ts expr rest h
    all_goals cases h
  | succ n ih => exact ⟨ih.or_succ, ih.orLoop_succ, ih.and_succ, ih.andLoop_succ, ih.atom_succ⟩

/-! ### The bound on the recursion -/

/-- The result of `p` at the bound `n` is that of `p'` if four calls for each token and `k` more fit
into the bound, or if there is a result. -/
def Stable (p p' : Parser SpdxToken SpdxExpr) (n k : ℕ) : Prop :=
  ∀ ts, 4 * ts.length + k ≤ n ∨ (∃ r, p ts = some r) → p' ts = p ts

lemma bind_stable {α β : Type*} {x x' : Option α} {f f' : α → Option β} {enough : Prop}
    (hx : enough ∨ (∃ a, x = some a) → x' = x)
    (hf : ∀ a, x = some a → enough ∨ (∃ b, f a = some b) → f' a = f a)
    (h : enough ∨ ∃ b, x.bind f = some b) : x'.bind f' = x.bind f := by
  cases x with
  | none =>
    rcases h with h | ⟨b, h⟩
    · rw [hx (.inl h)]
      rfl
    · cases h
  | some a =>
    rw [hx (.inr ⟨a, rfl⟩)]
    exact hf a rfl h

/-- The five parsers give at the bound `n + 1` what they give at the bound `n`. -/
structure ParserStable (n : ℕ) : Prop where
  or : Stable (parseOr n) (parseOr (n + 1)) n 3
  orLoop : ∀ expr, Stable (parseOrLoop n expr) (parseOrLoop (n + 1) expr) n 1
  and : Stable (parseAnd n) (parseAnd (n + 1)) n 2
  andLoop : ∀ expr, Stable (parseAndLoop n expr) (parseAndLoop (n + 1) expr) n 2
  atom : Stable (parseAtom n) (parseAtom (n + 1)) n 1

section

variable {n : ℕ} (ih : ParserStable n)

include ih

lemma ParserStable.or_succ : Stable (parseOr (n + 1)) (parseOr (n + 1 + 1)) (n + 1) 3 := by
  intro ts h
  refine bind_stable (fun hand => ih.and ts (hand.imp_left fun _ => by omega))
    (fun p hp hlp => ih.orLoop p.1 p.2 (hlp.imp_left fun _ => ?_)) h
  have := length_lt_of_local (parser_local n).and hp
  omega

lemma ParserStable.orLoop_succ (expr : SpdxExpr) :
    Stable (parseOrLoop (n + 1) expr) (parseOrLoop (n + 1 + 1) expr) (n + 1) 1 := by
  intro ts h
  unfold parseOrLoop at h ⊢
  split at h
  · rename_i ts
    rw [length_cons] at h
    refine bind_stable (fun hand => ih.and ts (hand.imp_left fun _ => by omega))
      (fun p hp hlp => ih.orLoop _ p.2 (hlp.imp_left fun _ => ?_)) h
    have := length_lt_of_local (parser_local n).and hp
    omega
  · rfl

lemma ParserStable.operand (combine : SpdxExpr → SpdxExpr) {ts ts' : List SpdxToken}
    (hle : ts.length ≤ ts'.length)
    (h : 4 * ts'.length + 2 ≤ n + 1 ∨ ∃ r, ((parseAtom n ts).bind fun p =>
      if p.2.length < ts'.length then parseAndLoop n (combine p.1) p.2 else none) = some r) :
    ((parseAtom (n + 1) ts).bind fun p =>
      if p.2.length < ts'.length then parseAndLoop (n + 1) (combine p.1) p.2 else none) =
    (parseAtom n ts).bind fun p =>
      if p.2.length < ts'.length then parseAndLoop n (combine p.1) p.2 else none := by
  refine bind_stable (fun hat => ih.atom ts (hat.imp_left fun _ => by omega)) (fun p hp hlp => ?_) h
  split_ifs at hlp ⊢ with hlt
  · exact ih.andLoop _ p.2 (hlp.imp_left fun _ => by omega)
  · rfl

lemma ParserStable.and_succ : Stable (parseAnd (n + 1)) (parseAnd (n + 1 + 1)) (n + 1) 2 :=
  fun _ h => ih.operand (fun expr => expr) le_rfl h

lemma ParserStable.andLoop_succ (expr : SpdxExpr) :
    Stable (parseAndLoop (n + 1) expr) (parseAndLoop (n + 1 + 1) expr) (n + 1) 2 := by
  intro ts h
  unfold parseAndLoop at h ⊢
  split at h
  · exact ih.operand (.and expr) (by simp) h
  · exact ih.operand (.or expr) le_rfl h
  · exact ih.operand (.or expr) le_rfl h
  · rfl

lemma ParserStable.atom_succ : Stable (parseAtom (n + 1)) (parseAtom (n + 1 + 1)) (n + 1) 1 := by
  intro ts h
  unfold parseAtom at h ⊢
  split at h
  · rename_i ts
    rw [length_cons] at h
    exact bind_stable (fun hor => ih.or ts (hor.imp_left fun _ => by omega)) (fun _ _ _ => rfl) h
  all_goals rfl

end

lemma parser_stable (n : ℕ) : ParserStable n := by
  induction n with
  | zero =>
    constructor <;> intros <;> rintro ts (h | ⟨r, h⟩)
    all_goals first | omega | cases h
  | succ n ih => exact ⟨ih.or_succ, ih.orLoop_succ, ih.and_succ, ih.andLoop_succ, ih.atom_succ⟩

/-- **The bound is enough.** Any larger bound gives the result of `parseBound`. -/
lemma parseOr_eq_of_le {n : ℕ} (h : parseBound ts ≤ n) :
    parseOr n ts = parseOr (parseBound ts) ts := by
  induction n, h using Nat.le_induction with
  | base => rfl
  | succ n hn ih => rw [(parser_stable n).or ts (.inl hn), ih]

/-- A result at any bound is the result at `parseBound`. -/
lemma parseOr_parseBound {n : ℕ} {r : SpdxExpr × List SpdxToken} (h : parseOr n ts = some r) :
    parseOr (parseBound ts) ts = some r := by
  have hmo : ∀ k, parseOr (n + k) ts = some r := by
    intro k
    induction k with
    | zero => exact h
    | succ k ih => rw [← Nat.add_assoc, (parser_stable (n + k)).or ts (.inr ⟨r, ih⟩), ih]
  rw [← parseOr_eq_of_le (Nat.le_add_left (parseBound ts) n), hmo]

end Omg.Security
