import Omg.Security.LicenseGrammar

/-!
# Printed license expressions

An expression is printed with parentheses around the disjunctions in a conjunction. The parser may
associate the operators otherwise, which does not change the value.

Source: `src/core/security/policy.rs`.
-/

namespace Omg.Security

open List

open Text (toAsciiLowercase eqIgnoreAsciiCase stripSuffixChar stripPrefix splitOnce
  toAsciiLowercase_idem toLower_of_not_upper eq_of_toLower_eq)

/-! ### The nesting of the tokens of a text -/

/-- `nestingAfter` on tokens. -/
def tokenNesting (limit : ℕ) : ℕ → List SpdxToken → Option ℕ
  | d, [] => some d
  | d, .openParen :: ts => if limit < d + 1 then none else tokenNesting limit (d + 1) ts
  | 0, .closeParen :: _ => none
  | d + 1, .closeParen :: ts => tokenNesting limit d ts
  | d, _ :: ts => tokenNesting limit d ts

lemma tokenNesting_pushWord_append (lim d : ℕ) (word : Text) (ts : List SpdxToken) :
    tokenNesting lim d (pushWord word ++ ts) = tokenNesting lim d ts := by
  unfold pushWord
  split_ifs <;> simp [tokenNesting]

lemma tokenNesting_tokensFrom (lim d : ℕ) (word s : Text) :
    tokenNesting lim d (tokensFrom word s) = nestingAfter lim d s := by
  induction s generalizing d word with
  | nil =>
    simpa [tokensFrom, tokenNesting, nestingAfter] using tokenNesting_pushWord_append lim d word []
  | cons c s ih =>
    unfold tokensFrom nestingAfter
    split_ifs with hop hlm hcl hw
    · rw [tokenNesting_pushWord_append, tokenNesting, if_pos hlm]
    · rw [tokenNesting_pushWord_append, tokenNesting, if_neg hlm, ih]
    · rw [tokenNesting_pushWord_append]
      cases d with
      | zero => rfl
      | succ d => exact ih d []
    · exact ih d _
    · rw [tokenNesting_pushWord_append, ih]

lemma le_of_tokenNesting {lim d k : ℕ} {ts part : List SpdxToken} (hd : d ≤ lim)
    (h : tokenNesting lim d ts = some k) (hpa : part <+: ts) {m : ℕ}
    (hm : tokenDepth d part = some m) : m ≤ lim := by
  induction ts generalizing d part with
  | nil =>
    obtain rfl := prefix_nil.mp hpa
    exact Option.some.inj hm ▸ hd
  | cons t ts ih =>
    rcases prefix_cons_iff.mp hpa with rfl | ⟨part, rfl, hta⟩
    · exact Option.some.inj hm ▸ hd
    · cases t with
      | openParen =>
        rw [tokenNesting] at h
        split_ifs at h with hlm
        exact ih (by omega) h hta hm
      | closeParen =>
        cases d with
        | zero => cases h
        | succ d => exact ih (by omega) h hta hm
      | _ => exact ih hd h hta hm

lemma nestsWithin_of_spdxTokenize {lic : Text} {toks : List SpdxToken}
    (h : spdxTokenize lic = some toks) : NestsWithin maxLicenseNesting toks := by
  obtain ⟨-, -, hnes, -, -, rfl⟩ := spdxTokenize_eq_some.mp h
  rw [← tokenNesting_tokensFrom _ _ []] at hnes
  exact fun part hpa k hk => le_of_tokenNesting (Nat.zero_le _) hnes hpa hk

/-! ### Identifiers -/

def IsKeyword (word : Text) : Prop :=
  eqIgnoreAsciiCase word "AND" ∨ eqIgnoreAsciiCase word "OR" ∨
    eqIgnoreAsciiCase word "WITH"

def IsIdentifier (name : Text) : Prop :=
  spdxIdentifierValid (toAsciiLowercase name) = true ∧ ¬IsKeyword name

lemma all_isWordChar_of_valid {id : Text} (h : spdxIdentifierValid id) :
    id.all isWordChar ∧ id ≠ [] := by
  have href : ∀ {s : Text}, s.all isReferenceChar = true → s.all isWordChar = true := fun hs =>
    all_eq_true.mpr fun c hc => by simp [isWordChar, all_eq_true.mp hs c hc]
  have hpa : ∀ {p s : Text}, p.all isWordChar = true →
      (stripPrefix p s).any referencePart = true → s.all isWordChar = true := by
    intro p s hp hs
    obtain ⟨t, ht, hreferencePart⟩ := (Option.any_eq_true _ _).mp hs
    rw [referencePart, Bool.and_eq_true] at hreferencePart
    rw [← isPrefixOf?_eq_some_iff_append_eq.mp ht, all_append, hp, href hreferencePart.2]
    rfl
  unfold spdxIdentifierValid at h
  split at h
  · rename_i document license hsp
    rw [Bool.and_eq_true] at h
    rw [Text.append_of_splitOnce hsp]
    refine ⟨?_, by simp⟩
    rw [all_append, hpa (by decide) h.1, all_cons, hpa (by decide) h.2]
    rfl
  · dsimp only at h
    rw [Bool.and_eq_true, decide_eq_true_iff] at h
    unfold stripSuffixChar at h
    split at h
    · exact ⟨href h.2, h.1⟩
    · rename_i x xs hrev
      have hid : id = xs.reverse ++ [x] := by rw [← reverse_reverse id, hrev, reverse_cons]
      split_ifs at h with hpl
      · have hba : xs.reverse.all isWordChar = true := href h.2
        rw [hid, all_append, hba, eq_of_beq hpl]
        exact ⟨rfl, by simp⟩
      · exact ⟨href h.2, h.1⟩

lemma isWordChar_of_toLower {c : Char} (h : isWordChar c.toLower) : isWordChar c := by
  by_cases hupper : 65 ≤ c.toNat ∧ c.toNat ≤ 90
  · have halpha : c.isAlpha = true := by
      have : c.isUpper = true := by
        unfold Char.isUpper
        simpa [UInt32.le_iff_toNat_le] using hupper
      unfold Char.isAlpha
      rw [this, Bool.true_or]
    simp [isWordChar, isReferenceChar, Char.isAlphanum, halpha]
  · rwa [toLower_of_not_upper hupper] at h

lemma toLower_eq_plus_iff {c : Char} : c.toLower = '+' ↔ c = '+' := by
  refine ⟨eq_of_toLower_eq (by decide), ?_⟩
  rintro rfl
  rfl

lemma tokensFrom_of_all {word : Text} (h : word.all isWordChar) (st : Text) :
    tokensFrom st word = pushWord (st ++ word) := by
  induction word generalizing st with
  | nil => rw [tokensFrom, append_nil]
  | cons c word ih =>
    rw [all_cons, Bool.and_eq_true] at h
    have hop : c ≠ '(' := by
      rintro rfl
      cases h.1
    have hcl : c ≠ ')' := by
      rintro rfl
      cases h.1
    rw [tokensFrom, if_neg hop, if_neg hcl, if_pos h.1, ih h.2, append_assoc]
    rfl

lemma IsIdentifier.tokens {name : Text} (h : IsIdentifier name) :
    tokensFrom [] name = [.id (toAsciiLowercase name)] ∧ name.all isWordChar := by
  obtain ⟨hall, hne⟩ := all_isWordChar_of_valid h.1
  have hw : name.all isWordChar = true := by
    rw [toAsciiLowercase, all_map] at hall
    exact all_eq_true.mpr fun c hc => isWordChar_of_toLower (all_eq_true.mp hall c hc)
  have hkey := h.2
  simp only [IsKeyword, not_or] at hkey
  rw [tokensFrom_of_all hw, nil_append, pushWord, if_neg, if_neg hkey.1,
    if_neg hkey.2.1, if_neg hkey.2.2]
  · exact ⟨rfl, hw⟩
  · rintro rfl
    exact hne rfl

lemma stripSuffixChar_lowercase (s : Text) :
    stripSuffixChar '+' (toAsciiLowercase s) = (stripSuffixChar '+' s).map toAsciiLowercase := by
  unfold stripSuffixChar toAsciiLowercase
  rw [← map_reverse]
  cases s.reverse with
  | nil => rfl
  | cons c rest =>
    have hpl : (c.toLower == '+') = (c == '+') := by
      rw [Bool.eq_iff_iff, beq_iff_eq, beq_iff_eq, toLower_eq_plus_iff]
    simp only [map_cons, hpl]
    split_ifs <;> simp

lemma spdxIdAllowed_lowercase (name : Text) (alw : List Text) :
    spdxIdAllowed (toAsciiLowercase name) alw = spdxIdAllowed name alw := by
  have heq : ∀ s t, eqIgnoreAsciiCase (toAsciiLowercase s) t = eqIgnoreAsciiCase s t :=
    fun s t => by
    rw [eqIgnoreAsciiCase, toAsciiLowercase_idem, eqIgnoreAsciiCase]
  simp only [spdxIdAllowed, heq, stripSuffixChar_lowercase, Option.any_map]

/-! ### Printing -/

inductive LicenseTree where
  | id (name : Text)
  | withException (name exception : Text)
  | and (l r : LicenseTree)
  | or (l r : LicenseTree)

namespace LicenseTree

def toExpr : LicenseTree → SpdxExpr
  | .id name => .id name
  | .withException name _ => .withException name
  | .and l r => .and l.toExpr r.toExpr
  | .or l r => .or l.toExpr r.toExpr

def isOr : LicenseTree → Bool
  | .or _ _ => true
  | _ => false

def print : LicenseTree → Text
  | .id name => name
  | .withException name exception => name ++ ' ' :: ("WITH" ++ ' ' :: exception)
  | .and l r =>
    (if l.isOr then '(' :: (l.print ++ [')']) else l.print) ++
      ' ' :: ("AND" ++ ' ' :: if r.isOr then '(' :: (r.print ++ [')']) else r.print)
  | .or l r => l.print ++ ' ' :: ("OR" ++ ' ' :: r.print)

def Named : LicenseTree → Prop
  | .id name => IsIdentifier name
  | .withException name exception => IsIdentifier name ∧ IsIdentifier exception
  | .and l r => l.Named ∧ r.Named
  | .or l r => l.Named ∧ r.Named

structure Within (e : LicenseTree) : Prop where
  bytes : Text.byteLen e.print ≤ maxLicenseBytes
  tokens : (tokensFrom [] e.print).length ≤ maxLicenseTokens
  nesting : nestingAfter maxLicenseNesting 0 e.print = some 0

end LicenseTree

lemma tokensFrom_append_blank (word s t : Text) :
    tokensFrom word (s ++ ' ' :: t) = tokensFrom word s ++ tokensFrom [] t := by
  induction s generalizing word with
  | nil => simp [tokensFrom, isWordChar, isReferenceChar]
  | cons c s ih =>
    simp only [cons_append, tokensFrom, ih]
    split_ifs <;> simp

def operandTokens (e : LicenseTree) : List SpdxToken :=
  if e.isOr then .openParen :: (tokensFrom [] e.print ++ [.closeParen]) else tokensFrom [] e.print

lemma tokensFrom_operand (e : LicenseTree) :
    tokensFrom [] (if e.isOr then '(' :: (e.print ++ [')']) else e.print) = operandTokens e := by
  unfold operandTokens
  split_ifs
  · have hop := tokensFrom_append_open [] [] (e.print ++ [')'])
    rw [nil_append] at hop
    rw [hop, tokensFrom_append_close]
    rfl
  · rfl

section

variable {l r : LicenseTree} {name exception : Text}

lemma tokensFrom_print_withException (h : (LicenseTree.withException name exception).Named) :
    tokensFrom [] (LicenseTree.withException name exception).print =
      [.id (toAsciiLowercase name), .withWord, .id (toAsciiLowercase exception)] := by
  rw [LicenseTree.print, tokensFrom_append_blank, tokensFrom_append_blank, h.1.tokens.1,
    h.2.tokens.1]
  rfl

lemma tokensFrom_print_and :
    tokensFrom [] (LicenseTree.and l r).print = operandTokens l ++ .and :: operandTokens r := by
  rw [LicenseTree.print, tokensFrom_append_blank, tokensFrom_append_blank, tokensFrom_operand,
    tokensFrom_operand]
  rfl

lemma tokensFrom_print_or : tokensFrom [] (LicenseTree.or l r).print =
    tokensFrom [] l.print ++ .or :: tokensFrom [] r.print := by
  rw [LicenseTree.print, tokensFrom_append_blank]
  rfl

end

namespace LicenseTree

variable {e l r : LicenseTree}

lemma Named.valid (h : e.Named) : (tokensFrom [] e.print).all SpdxToken.valid := by
  have hopd : ∀ {e : LicenseTree}, (tokensFrom [] e.print).all SpdxToken.valid = true →
      (operandTokens e).all SpdxToken.valid = true := by
    intro e he
    unfold operandTokens
    split_ifs
    · simp [SpdxToken.valid, he]
    · exact he
  induction e with
  | id name =>
    rw [print, (IsIdentifier.tokens h).1]
    simpa [SpdxToken.valid] using h.1
  | withException name exception =>
    rw [tokensFrom_print_withException h]
    simpa [SpdxToken.valid] using ⟨h.1.1, h.2.1⟩
  | and l r ihl ihr =>
    rw [tokensFrom_print_and, all_append, hopd (ihl h.1), all_cons, hopd (ihr h.2)]
    rfl
  | or l r ihl ihr =>
    rw [tokensFrom_print_or, all_append, ihl h.1, all_cons, ihr h.2]
    rfl

lemma Named.chars (h : e.Named) : e.print.all isLicenseChar := by
  have hn : ∀ {name : Text}, IsIdentifier name → name.all isLicenseChar = true := fun hn =>
    all_eq_true.mpr fun c hc => by
      simp [isLicenseChar, all_eq_true.mp hn.tokens.2 c hc]
  have hopd : ∀ {e : LicenseTree}, e.print.all isLicenseChar = true →
      (if e.isOr then '(' :: (e.print ++ [')']) else e.print).all isLicenseChar = true := by
    intro e he
    split_ifs
    · rw [all_cons, all_append, he]
      rfl
    · exact he
  induction e with
  | id name => exact hn h
  | withException name exception =>
    rw [print, all_append, hn h.1, all_cons, all_append, all_cons, hn h.2]
    rfl
  | and l r ihl ihr =>
    rw [print, all_append, hopd (ihl h.1), all_cons, all_append, all_cons, hopd (ihr h.2)]
    rfl
  | or l r ihl ihr =>
    rw [print, all_append, ihl h.1, all_cons, all_append, all_cons, ihr h.2]
    rfl

/-! ### What the parser makes of a printed expression -/

def Agrees (e' : SpdxExpr) (e : LicenseTree) : Prop :=
  ∀ allowed, spdxExprAllowed allowed e' = spdxExprAllowed allowed e.toExpr

/-- The tokens of an operand form a conjunction with the value of the operand, alone and behind
another conjunction. -/
structure PrintsAnd (tokens : List SpdxToken) (e : LicenseTree) : Prop where
  alone : ∃ e', AndDerives tokens e' ∧ Agrees e' e
  behind : ∀ {s l}, AndDerives s l → ∃ e', AndDerives (s ++ .and :: tokens) e' ∧
    ∀ allowed, spdxExprAllowed allowed e' =
      (spdxExprAllowed allowed l && spdxExprAllowed allowed e.toExpr)

structure PrintsOr (tokens : List SpdxToken) (e : LicenseTree) : Prop where
  alone : ∃ e', OrDerives tokens e' ∧ Agrees e' e
  behind : ∀ {s l}, OrDerives s l → ∃ e', OrDerives (s ++ .or :: tokens) e' ∧
    ∀ allowed, spdxExprAllowed allowed e' =
      (spdxExprAllowed allowed l || spdxExprAllowed allowed e.toExpr)

lemma PrintsAnd.of_atom {toks : List SpdxToken} {a : SpdxExpr} (h : AtomDerives toks a)
    (hval : Agrees a e) : PrintsAnd toks e where
  alone := ⟨a, .atom h, hval⟩
  behind hl := ⟨_, .and hl h, fun alw => by rw [spdxExprAllowed, hval]⟩

lemma PrintsAnd.or {toks : List SpdxToken} (h : PrintsAnd toks e) : PrintsOr toks e := by
  obtain ⟨e', he', hval⟩ := h.alone
  exact ⟨⟨e', .and he', hval⟩, fun hl =>
    ⟨_, .or hl he', fun alw => by rw [spdxExprAllowed, hval]⟩⟩

lemma PrintsAnd.and {s t : List SpdxToken} (hl : PrintsAnd s l) (hr : PrintsAnd t r) :
    PrintsAnd (s ++ .and :: t) (.and l r) := by
  constructor
  · obtain ⟨l', hl', hval⟩ := hl.alone
    obtain ⟨e', he', hval'⟩ := hr.behind hl'
    exact ⟨e', he', fun alw => by rw [hval', hval, toExpr, spdxExprAllowed]⟩
  · intro first k hf
    obtain ⟨l', hl', hval⟩ := hl.behind hf
    obtain ⟨e', he', hval'⟩ := hr.behind hl'
    rw [append_assoc] at he'
    exact ⟨e', he', fun alw => by
      rw [hval', hval, toExpr, spdxExprAllowed, Bool.and_assoc]⟩

lemma PrintsOr.or {s t : List SpdxToken} (hl : PrintsOr s l) (hr : PrintsOr t r) :
    PrintsOr (s ++ .or :: t) (.or l r) := by
  constructor
  · obtain ⟨l', hl', hval⟩ := hl.alone
    obtain ⟨e', he', hval'⟩ := hr.behind hl'
    exact ⟨e', he', fun alw => by rw [hval', hval, toExpr, spdxExprAllowed]⟩
  · intro first k hf
    obtain ⟨l', hl', hval⟩ := hl.behind hf
    obtain ⟨e', he', hval'⟩ := hr.behind hl'
    rw [append_assoc] at he'
    exact ⟨e', he', fun alw => by
      rw [hval', hval, toExpr, spdxExprAllowed, Bool.or_assoc]⟩

lemma Named.prints (h : e.Named) :
    PrintsAnd (operandTokens e) e ∧ PrintsOr (tokensFrom [] e.print) e := by
  have hpn : ∀ {e : LicenseTree}, e.isOr = false → PrintsAnd (tokensFrom [] e.print) e →
      PrintsAnd (operandTokens e) e ∧ PrintsOr (tokensFrom [] e.print) e := by
    intro e hor he
    rw [operandTokens, hor]
    exact ⟨he, he.or⟩
  induction e with
  | id name =>
    refine hpn rfl (.of_atom (a := .id (toAsciiLowercase name)) ?_ ?_)
    · rw [print, (IsIdentifier.tokens h).1]
      exact .id _
    · exact spdxIdAllowed_lowercase name
  | withException name exception =>
    refine hpn rfl (.of_atom (a := .withException (toAsciiLowercase name)) ?_ ?_)
    · rw [tokensFrom_print_withException h]
      exact .withException _ _
    · exact spdxIdAllowed_lowercase name
  | and l r ihl ihr =>
    refine hpn rfl ?_
    rw [tokensFrom_print_and]
    exact (ihl h.1).1.and (ihr h.2).1
  | or l r ihl ihr =>
    have hor : PrintsOr (tokensFrom [] (or l r).print) (or l r) := by
      rw [tokensFrom_print_or]
      exact (ihl h.1).2.or (ihr h.2).2
    obtain ⟨e', he', hval⟩ := hor.alone
    exact ⟨.of_atom (.parens he') hval, hor⟩

lemma Named.licenseMatchesAllowlist_print (h : e.Named) (hwit : e.Within) (alw : List Text) :
    licenseMatchesAllowlist e.print alw = spdxExprAllowed alw e.toExpr := by
  obtain ⟨e', he', hval⟩ := h.prints.2.alone
  have htks : spdxTokenize e.print = some (tokensFrom [] e.print) := spdxTokenize_eq_some.mpr
      ⟨hwit.bytes, h.chars, hwit.nesting, hwit.tokens, h.valid, rfl⟩
  have hpr : parseExpression e.print = some e' := parseExpression_eq_some.mpr ⟨_, htks, he'⟩
  rw [licenseMatchesAllowlist, hpr, Option.any_some, hval]

end LicenseTree

/-- The parser accepts the grammar and returns its tree, an expression of identifiers that are no
operators can be printed and checked, and the recursion is bounded by the tokens and its depth by
the nesting limit. -/
theorem parseExpression_spec : (∀ license e, parseExpression license = some e ↔
      ∃ tokens, spdxTokenize license = some tokens ∧ OrDerives tokens e) ∧
    (∀ (e : LicenseTree) (allowed : List Text), e.Named → e.Within →
      licenseMatchesAllowlist e.print allowed = spdxExprAllowed allowed e.toExpr) ∧
    ∀ license tokens n, spdxTokenize license = some tokens → parseBound tokens ≤ n →
      parseOr n tokens = parseOr (parseBound tokens) tokens ∧
      parseOrWithin n maxLicenseNesting tokens = parseOr n tokens := by
  refine ⟨fun license e => parseExpression_eq_some,
    fun e allowed h hwit => h.licenseMatchesAllowlist_print hwit allowed, ?_⟩
  intro license tokens n htks hn
  exact ⟨parseOr_eq_of_le hn, (parser_nested n).or _ _ (nestsWithin_of_spdxTokenize htks)⟩

def mitOrBoth : LicenseTree := .or (.id "MIT") (.and (.id "ISC") (.id "Zlib"))

/-- A choice that one allowed license is enough for. -/
theorem parseExpression_spec_mit : mitOrBoth.Named ∧ mitOrBoth.Within ∧
    licenseMatchesAllowlist "MIT OR ISC AND Zlib".toList ["mit".toList] = true ∧
    licenseMatchesAllowlist "MIT OR ISC AND Zlib".toList ["isc".toList] = false := by
  have hnamed : mitOrBoth.Named := by
    refine ⟨⟨by decide, ?_⟩, ⟨by decide, ?_⟩, ⟨by decide, ?_⟩⟩ <;>
      rintro (h | h | h) <;> revert h <;> decide
  have hwithin : mitOrBoth.Within := by constructor <;> decide
  exact ⟨hnamed, hwithin, (parseExpression_spec.2.1 _ _ hnamed hwithin).trans (by decide),
    (parseExpression_spec.2.1 _ _ hnamed hwithin).trans (by decide)⟩

/-- A word of an operator is a valid identifier, but printed it is the operator. -/
theorem licenseMatchesAllowlist_keyword : spdxIdentifierValid "and".toList = true ∧
    (LicenseTree.id "and".toList).Within ∧
    licenseMatchesAllowlist (LicenseTree.id "and".toList).print ["and".toList] = false ∧
    spdxExprAllowed ["and".toList] (LicenseTree.id "and".toList).toExpr = true := by
  refine ⟨by decide, ?_, by decide, by decide⟩
  constructor <;> decide

end Omg.Security
