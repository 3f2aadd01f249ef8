import Omg.Security.License

/-!
# Combined license entries

The entries of a package are cumulative obligations. They are spliced, each in parentheses, into one
text, and that text is parsed.

Source: `src/core/security/policy.rs`.
-/

namespace Omg.Security

open Parse List Option

def parenDepth : ℕ → Text → Option ℕ
  | d, [] => some d
  | d, c :: cs =>
    if c = '(' then parenDepth (d + 1) cs
    else if c = ')' then
      match d with
      | 0 => none
      | d + 1 => parenDepth d cs
    else parenDepth d cs

def ParensBalanced (s : Text) : Prop := parenDepth 0 s = some 0

instance (s : Text) : Decidable (ParensBalanced s) := decEq _ _

/-! ### Parentheses of texts and of tokens -/

lemma parenDepth_of_nestingAfter {lim d k : ℕ} {s : Text}
    (h : nestingAfter lim d s = some k) : parenDepth d s = some k := by
  fun_induction nestingAfter lim d s <;> simp_all [parenDepth]

lemma nestingAfter_of_add {lim m : ℕ} {s : Text} : ∀ {d k k' : ℕ},
    parenDepth d s = some k → nestingAfter lim (d + m) s = some k' →
    nestingAfter lim d s = some k := by
  induction s with
  | nil =>
    intro d k k' hdep _
    exact hdep
  | cons c s ih =>
    intro d k k' hdep hlim
    unfold parenDepth at hdep
    unfold nestingAfter at hlim ⊢
    split_ifs at hdep hlim ⊢ with hop hlt hlt' hcl
    · omega
    · rw [Nat.add_right_comm] at hlim
      exact ih hdep hlim
    · cases d with
      | zero => cases hdep
      | succ d =>
        rw [Nat.add_right_comm] at hlim
        exact ih hdep hlim
    · exact ih hdep hlim

lemma nestingAfter_append (lim d : ℕ) (s t : Text) : nestingAfter lim d (s ++ t) =
      (nestingAfter lim d s).bind fun d' => nestingAfter lim d' t := by
  induction s generalizing d with
  | nil => rfl
  | cons c s ih =>
    simp only [cons_append, nestingAfter]
    split_ifs
    · rfl
    · exact ih (d + 1)
    · cases d with
      | zero => rfl
      | succ d => exact ih d
    · exact ih d

lemma tokenDepth_pushWord_append (d : ℕ) (word : Text) (ts : List SpdxToken) :
    tokenDepth d (pushWord word ++ ts) = tokenDepth d ts := by
  unfold pushWord
  split_ifs <;> simp [tokenDepth]

lemma tokenDepth_tokensFrom (d : ℕ) (word s : Text) :
    tokenDepth d (tokensFrom word s) = parenDepth d s := by
  induction s generalizing d word with
  | nil => simpa [tokensFrom, tokenDepth, parenDepth] using tokenDepth_pushWord_append d word []
  | cons c s ih =>
    unfold tokensFrom parenDepth
    split_ifs with hop hcl hw
    · rw [tokenDepth_pushWord_append, tokenDepth, ih]
    · rw [tokenDepth_pushWord_append]
      cases d with
      | zero => rfl
      | succ d => exact ih d []
    · exact ih d _
    · rw [tokenDepth_pushWord_append, ih]

lemma tokenDepth_add {d k : ℕ} {ts : List SpdxToken} (h : tokenDepth d ts = some k) (m : ℕ) :
    tokenDepth (d + m) ts = some (k + m) := by
  induction ts generalizing d with
  | nil =>
    obtain rfl : d = k := some.inj h
    rfl
  | cons t ts ih =>
    cases t with
    | openParen =>
      have := ih h
      rwa [Nat.add_right_comm] at this
    | closeParen =>
      cases d with
      | zero => cases h
      | succ d =>
        rw [Nat.add_right_comm]
        exact ih h
    | _ => exact ih h

lemma ParensBalanced.balanced {s : Text} (h : ParensBalanced s) : Balanced (tokensFrom [] s) := by
  intro d
  have h0 : tokenDepth 0 (tokensFrom [] s) = some 0 := (tokenDepth_tokensFrom 0 [] s).trans h
  simpa using tokenDepth_add h0 d

/-! ### The spliced text -/

section

variable (word s t : Text)

lemma tokensFrom_append_open :
    tokensFrom word (s ++ '(' :: t) = tokensFrom word s ++ .openParen :: tokensFrom [] t := by
  induction s generalizing word with
  | nil => simp [tokensFrom]
  | cons c s ih =>
    simp only [cons_append, tokensFrom, ih]
    split_ifs <;> simp

lemma tokensFrom_append_close :
    tokensFrom word (s ++ ')' :: t) = tokensFrom word s ++ .closeParen :: tokensFrom [] t := by
  induction s generalizing word with
  | nil => simp [tokensFrom]
  | cons c s ih =>
    simp only [cons_append, tokensFrom, ih]
    split_ifs <;> simp

end

def laterEntry (license : Text) : Text := licenseSeparator ++ '(' :: license ++ [')']

def laterTokens (license : Text) : List SpdxToken :=
  .and :: .openParen :: tokensFrom [] license ++ [.closeParen]

lemma tokensFrom_laterEntries (es : List Text) :
    tokensFrom [] (es.flatMap laterEntry) = es.flatMap laterTokens := by
  induction es with
  | nil => rfl
  | cons e es ih =>
    have hsp : (e :: es).flatMap laterEntry =
        licenseSeparator ++ '(' :: (e ++ ')' :: es.flatMap laterEntry) := by
      simp only [laterEntry, flatMap_cons, append_assoc, cons_append, nil_append]
    have hand : tokensFrom [] licenseSeparator = [.and] := by decide +kernel
    rw [hsp, tokensFrom_append_open, tokensFrom_append_close, ih, hand]
    simp [laterTokens]

lemma combineLicenses_eq : ∀ {es : List Text} {expression e : Text}, expression ≠ [] →
    combineLicenses expression es = some e → e = expression ++ es.flatMap laterEntry
  | [], expression, e, _, h => by
    obtain rfl : expression = e := some.inj h
    simp
  | entry :: es, expression, e, hne, h => by
    simp only [combineLicenses, hne, if_false] at h
    split_ifs at h
    rw [combineLicenses_eq (by simp) h]
    simp [laterEntry]

lemma combinedLicenseExpression_eq {es : List Text} {e : Text}
    (h : combinedLicenseExpression es = some e) : ∃ first ltr, es = first :: ltr ∧
      e = '(' :: (first ++ ')' :: ltr.flatMap laterEntry) := by
  obtain ⟨e', he', hne⟩ := bind_eq_some_iff.mp h
  split_ifs at hne
  obtain rfl := some.inj hne
  cases es with
  | nil => simp_all [combineLicenses]
  | cons first ltr =>
    refine ⟨first, ltr, rfl, ?_⟩
    simp only [combineLicenses, if_true] at he'
    split_ifs at he'
    rw [combineLicenses_eq (by simp) he']
    simp

lemma exists_eq_append_of_mem {es : List Text} {e en : Text}
    (h : combinedLicenseExpression es = some e) (he : en ∈ es) :
    ∃ pre aft, e = pre ++ '(' :: (en ++ ')' :: aft) := by
  obtain ⟨first, ltr, rfl, rfl⟩ := combinedLicenseExpression_eq h
  rcases mem_cons.mp he with rfl | hla
  · exact ⟨[], _, rfl⟩
  · obtain ⟨s, t, rfl⟩ := append_of_mem hla
    exact ⟨'(' :: first ++ ')' :: s.flatMap laterEntry ++ licenseSeparator, t.flatMap laterEntry,
      by simp [laterEntry]⟩

lemma spdxTokenize_eq_some {lic : Text} {toks : List SpdxToken} : spdxTokenize lic = some toks ↔
      Text.byteLen lic ≤ maxLicenseBytes ∧ lic.all isLicenseChar ∧
      nestingAfter maxLicenseNesting 0 lic = some 0 ∧
      (tokensFrom [] lic).length ≤ maxLicenseTokens ∧
      (tokensFrom [] lic).all SpdxToken.valid ∧ toks = tokensFrom [] lic := by
  unfold spdxTokenize
  split_ifs <;> grind

lemma spdxTokenize_entry {pre e aft : Text} {toks : List SpdxToken}
    (h : spdxTokenize (pre ++ '(' :: (e ++ ')' :: aft)) = some toks)
    (hbal : ParensBalanced e) : spdxTokenize e = some (tokensFrom [] e) := by
  obtain ⟨hby, hcha, hnes, hlen, hv, -⟩ := spdxTokenize_eq_some.mp h
  rw [tokensFrom_append_open, tokensFrom_append_close] at hlen hv
  refine spdxTokenize_eq_some.mpr ⟨?_, ?_, ?_, ?_, ?_, rfl⟩
  · have hpar : pre ++ '(' :: (e ++ ')' :: aft) = (pre ++ ['(']) ++ (e ++ (')' :: aft)) := by simp
    rw [hpar, Text.byteLen_append, Text.byteLen_append e] at hby
    omega
  · simp only [all_append, all_cons, Bool.and_eq_true] at hcha
    exact hcha.2.2.1
  · -- The text before the expression ends at some depth, from which it stays within the limit.
    rw [nestingAfter_append] at hnes
    obtain ⟨d, -, hr⟩ := bind_eq_some_iff.mp hnes
    simp only [nestingAfter, if_true] at hr
    split_ifs at hr
    rw [nestingAfter_append] at hr
    obtain ⟨d', he, -⟩ := bind_eq_some_iff.mp hr
    exact nestingAfter_of_add hbal (by rwa [Nat.zero_add])
  · simp only [length_append, length_cons] at hlen
    omega
  · simp only [all_append, all_cons, Bool.and_eq_true] at hv
    exact hv.2.2.1

/-! ### Parsing the spliced text -/

lemma append_close_inj {s t x y : List SpdxToken} (hs : Balanced s) (ht : Balanced t)
    (h : s ++ .closeParen :: x = t ++ .closeParen :: y) : s = t ∧ x = y := by
  have hstu : ∀ {u v : List SpdxToken}, Balanced u → ¬ Balanced (u ++ .closeParen :: v) := by
    intro u v hu huv
    have := huv 0
    rw [tokenDepth_append, hu] at this
    cases this
  rcases append_eq_append_iff.mp h with ⟨mid, rfl, hmid⟩ | ⟨mid, rfl, hmid⟩
  · cases mid with
    | nil => simpa using hmid
    | cons t mid =>
      obtain ⟨rfl, -⟩ := List.cons.inj hmid
      exact absurd ht (hstu hs)
  · cases mid with
    | nil => simpa using hmid.symm
    | cons t mid =>
      obtain ⟨rfl, -⟩ := List.cons.inj hmid
      exact absurd hs (hstu ht)

lemma parseAtom_parens {n : ℕ} {ts rest rest' : List SpdxToken} {expr : SpdxExpr}
    (hts : Balanced ts)
    (h : parseAtom n (.openParen :: ts ++ .closeParen :: rest) = some (expr, rest')) :
    rest' = rest ∧ parseOr (parseBound ts) ts = some (expr, []) := by
  cases n with
  | zero => cases h
  | succ n =>
    obtain ⟨⟨inner, unread⟩, hor, hcl⟩ := bind_eq_some_iff.mp h
    dsimp only at hcl
    split at hcl
    · obtain ⟨rfl, rfl⟩ := Prod.mk.inj (some.inj hcl)
      obtain ⟨read, hrd, hgr, halo⟩ := (parser_local n).or.alone hor
      obtain ⟨rfl, rfl⟩ := append_close_inj hts hgr.2 hrd
      exact ⟨rfl, parseOr_parseBound halo⟩
    · cases hcl

def EntryAllowed (allowed : List Text) (license : Text) : Prop :=
  ∃ expr, parseOr (parseBound (tokensFrom [] license)) (tokensFrom [] license) = some (expr, []) ∧
    spdxExprAllowed allowed expr = true

lemma parseAndLoop_laterTokens (alw : List Text) : ∀ {es : List Text} {n : ℕ}
    {expr expr' : SpdxExpr} {rest : List SpdxToken}, (∀ e ∈ es, ParensBalanced e) →
    parseAndLoop n expr (es.flatMap laterTokens) = some (expr', rest) →
    rest = [] ∧ (spdxExprAllowed alw expr' →
      spdxExprAllowed alw expr ∧ ∀ e ∈ es, EntryAllowed alw e)
  | _, 0, _, _, _, _, h => by cases h
  | [], n + 1, expr, expr', rest, _, h => by
    obtain ⟨rfl, rfl⟩ := Prod.mk.inj (some.inj h)
    simp
  | e :: es, n + 1, expr, expr', rest, hbal, h => by
    obtain ⟨he, hes⟩ := forall_mem_cons.mp hbal
    have htks : (e :: es).flatMap laterTokens = .and :: (.openParen ::
        tokensFrom [] e ++ .closeParen :: es.flatMap laterTokens) := by
      simp [laterTokens]
    rw [htks, parseAndLoop_and (parser_local n)] at h
    obtain ⟨⟨right, unread⟩, hat, hlp⟩ := bind_eq_some_iff.mp h
    obtain ⟨rfl, hri⟩ := parseAtom_parens he.balanced hat
    obtain ⟨rfl, hver⟩ := parseAndLoop_laterTokens alw hes hlp
    refine ⟨rfl, fun hal => ?_⟩
    obtain ⟨hand, hla⟩ := hver hal
    rw [spdxExprAllowed, Bool.and_eq_true] at hand
    exact ⟨hand.1, forall_mem_cons.mpr ⟨⟨right, hri, hand.2⟩, hla⟩⟩

lemma licenseMatchesAllowlist_iff {lic : Text} {alw : List Text} :
    licenseMatchesAllowlist lic alw ↔
      (∃ toks, spdxTokenize lic = some toks) ∧ EntryAllowed alw lic := by
  simp only [licenseMatchesAllowlist, parseExpression, Option.any_eq_true, Option.bind_eq_some_iff]
  constructor
  · rintro ⟨expr, ⟨toks, htks, ⟨expr', rest⟩, hor, hr⟩, hal⟩
    split_ifs at hr with hnil
    obtain rfl : expr' = expr := Option.some.inj hr
    obtain rfl : rest = [] := hnil
    obtain ⟨-, -, -, -, -, rfl⟩ := spdxTokenize_eq_some.mp htks
    exact ⟨⟨_, htks⟩, expr', hor, hal⟩
  · rintro ⟨⟨toks, htks⟩, expr, hor, hal⟩
    obtain ⟨-, -, -, -, -, rfl⟩ := spdxTokenize_eq_some.mp htks
    exact ⟨expr, ⟨_, htks, (expr, []), hor, by simp⟩, hal⟩

lemma entryAllowed_of_balanced {es alw : List Text} {e : Text}
    (hcom : combinedLicenseExpression es = some e) (hal : licenseMatchesAllowlist e alw)
    (hbal : ∀ en ∈ es, ParensBalanced en) : ∀ en ∈ es, EntryAllowed alw en := by
  obtain ⟨first, ltr, rfl, rfl⟩ := combinedLicenseExpression_eq hcom
  obtain ⟨hf, hla⟩ := forall_mem_cons.mp hbal
  obtain ⟨-, expr, hor, hver⟩ := licenseMatchesAllowlist_iff.mp hal
  have hsp : tokensFrom [] ('(' :: (first ++ ')' :: ltr.flatMap laterEntry)) =
      .openParen :: tokensFrom [] first ++ .closeParen :: ltr.flatMap laterTokens := by
    rw [← nil_append ('(' :: _), tokensFrom_append_open, tokensFrom_append_close,
      tokensFrom_laterEntries]
    rfl
  rw [hsp] at hor
  -- The disjunction is its first conjunction, which begins with the first entry.
  obtain ⟨⟨conj, unread⟩, hand, horLoop⟩ := bind_eq_some_iff.mp hor
  rw [parseAnd_succ_eq (parser_local _)] at hand
  obtain ⟨⟨left, unread'⟩, hat, hlp⟩ := bind_eq_some_iff.mp hand
  obtain ⟨rfl, hlf⟩ := parseAtom_parens hf.balanced hat
  obtain ⟨rfl, hco⟩ := parseAndLoop_laterTokens alw hla hlp
  obtain ⟨rfl, -⟩ := Prod.mk.inj (some.inj horLoop)
  obtain ⟨hallowedLeft, hallowedLater⟩ := hco hver
  exact forall_mem_cons.mpr ⟨⟨left, hlf, hallowedLeft⟩, hallowedLater⟩

/-- **Obligations of combined entries.** When the combined expression of the entries of a package is
allowed, each entry is allowed on its own exactly when the parentheses of each entry are
balanced. -/
theorem entries_allowed_iff_balanced {entries allowed : List Text} {e : Text}
    (hcombined : combinedLicenseExpression entries = some e)
    (hallowed : licenseMatchesAllowlist e allowed = true) :
    (∀ entry ∈ entries, licenseMatchesAllowlist entry allowed = true) ↔
      ∀ entry ∈ entries, ParensBalanced entry := by
  constructor
  · intro hes entry he
    obtain ⟨⟨toks, htks⟩, -⟩ := licenseMatchesAllowlist_iff.mp (hes entry he)
    exact parenDepth_of_nestingAfter (spdxTokenize_eq_some.mp htks).2.2.1
  · intro hbal entry he
    obtain ⟨⟨toks, htks⟩, -⟩ := licenseMatchesAllowlist_iff.mp hallowed
    obtain ⟨pre, aft, rfl⟩ := exists_eq_append_of_mem hcombined he
    exact licenseMatchesAllowlist_iff.mpr ⟨⟨_, spdxTokenize_entry htks (hbal entry he)⟩,
      entryAllowed_of_balanced hcombined hallowed hbal entry he⟩

theorem entries_allowed_iff_balanced_mit_isc : (∀ entry ∈ ["MIT".toList, "ISC OR (GPL-3.0)".toList],
      licenseMatchesAllowlist entry ["MIT".toList, "ISC".toList] = true) ↔
      ∀ entry ∈ ["MIT".toList, "ISC OR (GPL-3.0)".toList], ParensBalanced entry :=
  entries_allowed_iff_balanced (e := "(MIT) AND (ISC OR (GPL-3.0))") (by decide +kernel)
    (by decide +kernel)

/-- An entry that closes the parenthesis around it makes the obligation of another entry
disappear. -/
theorem exists_entry_escaping : ∃ (entries allowed : List Text) (e : Text), entries ≠ [] ∧
      combinedLicenseExpression entries = some e ∧ licenseMatchesAllowlist e allowed = true ∧
      ∃ entry ∈ entries, licenseMatchesAllowlist entry allowed = false :=
  ⟨["MIT) OR (MIT", "GPL-3.0"], ["MIT"],
    "(MIT) OR (MIT) AND (GPL-3.0)", by simp, by decide +kernel, by decide +kernel,
    "GPL-3.0", by simp, by decide +kernel⟩

end Omg.Security
