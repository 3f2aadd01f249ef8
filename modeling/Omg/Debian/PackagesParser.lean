import Omg.Control.Except
import Omg.Debian.Version
import Omg.Text.Paragraphs

/-!
# Paragraphs of package lists

A paragraph has fields, one on a line, and lines that begin with a blank continue the field before.
The dependencies of the fields `Depends` and `Pre-Depends` are separated by commas.

A paragraph is given by its lines.

Source: `src/package_managers/debian_db/db.rs`.
-/

namespace Omg.Debian

open Control Text List Except

/-! ### Dependencies -/

def dependenciesOf (value : Text) : List Text := ((value.splitOn ',').map trim).filter (· ≠ [])

/-- `append_dependencies`. -/
def appendDependencies (value : Text) (dependencies : List Text) : List Text :=
  dependencies ++ dependenciesOf value

def lastPart (value : Text) : Text := (value.reverse.takeWhile (· ≠ ',')).reverse

def firstPart (value : Text) : Text := value.takeWhile (· ≠ ',')

lemma dependenciesOf_append_comma (s t : Text) :
    dependenciesOf (s ++ ',' :: t) = dependenciesOf s ++ dependenciesOf t := by
  simp only [dependenciesOf, splitOn_append_cons_self, map_append, filter_append]

lemma dependenciesOf_of_notMem {s : Text} (h : ',' ∉ s) :
    dependenciesOf s = if trim s = [] then [] else [trim s] := by
  rw [dependenciesOf, splitOn_eq_singleton h]
  by_cases hbl : trim s = [] <;> simp [hbl]

lemma comma_notMem_firstPart (s : Text) : ',' ∉ firstPart s := fun h => by
  simpa using mem_takeWhile_imp h

lemma comma_notMem_lastPart (s : Text) : ',' ∉ lastPart s := fun h => by
  simpa using mem_takeWhile_imp (mem_reverse.mp h)

lemma eq_firstPart_or (s : Text) : s = firstPart s ∨ ∃ rest, s = firstPart s ++ ',' :: rest := by
  have hap := takeWhile_append_dropWhile (p := (· ≠ ',')) (l := s)
  cases hr : s.dropWhile (· ≠ ',') with
  | nil =>
    rw [hr, append_nil] at hap
    exact .inl hap.symm
  | cons c rest =>
    have hc : c = ',' := by
      have hh := head?_dropWhile_not (· ≠ ',') s
      rw [hr] at hh
      simpa using hh
    rw [hr, hc] at hap
    exact .inr ⟨rest, hap.symm⟩

lemma eq_lastPart_or (s : Text) : s = lastPart s ∨ ∃ ft, s = ft ++ ',' :: lastPart s := by
  rcases eq_firstPart_or s.reverse with h | ⟨rest, h⟩
  · left
    have := congrArg List.reverse h
    rwa [reverse_reverse] at this
  · right
    refine ⟨rest.reverse, ?_⟩
    have := congrArg List.reverse h
    rw [reverse_reverse, reverse_append, reverse_cons, append_assoc] at this
    exact this

lemma exists_dependenciesOf_append (t : Text) : ∃ more, ∀ s, ',' ∉ s →
    dependenciesOf (s ++ t) = dependenciesOf (s ++ firstPart t) ++ more := by
  rcases eq_firstPart_or t with h | ⟨rest, h⟩
  · exact ⟨[], fun s _ => by rw [← h, append_nil]⟩
  · refine ⟨dependenciesOf rest, fun s _ => ?_⟩
    conv_lhs => rw [h, ← append_assoc, dependenciesOf_append_comma]

lemma exists_append_dependenciesOf (s : Text) : ∃ before, ∀ t,
    dependenciesOf (s ++ t) = before ++ dependenciesOf (lastPart s ++ t) := by
  rcases eq_lastPart_or s with h | ⟨ft, h⟩
  · exact ⟨[], fun t => by rw [← h, nil_append]⟩
  · refine ⟨dependenciesOf ft, fun t => ?_⟩
    conv_lhs => rw [h, append_assoc, cons_append, dependenciesOf_append_comma]

lemma dependenciesOf_append_blank {s : Text} (h : trim s = []) (t : Text) :
    dependenciesOf (s ++ t) = dependenciesOf t := by
  obtain ⟨more, hmr⟩ := exists_dependenciesOf_append t
  have hcom : ',' ∉ s := fun hmem => absurd (trim_eq_nil_iff.mp h ',' hmem) (by decide)
  have ht := hmr [] not_mem_nil
  rw [nil_append, nil_append] at ht
  rw [hmr s hcom, ht, dependenciesOf_of_notMem,
    dependenciesOf_of_notMem (comma_notMem_firstPart t), trim_append_of_blank_left h]
  rw [mem_append, not_or]
  exact ⟨hcom, comma_notMem_firstPart t⟩

lemma dependenciesOf_trimStart (s : Text) : dependenciesOf (trimStart s) = dependenciesOf s := by
  have hap := takeWhile_append_dropWhile (p := isWhitespace) (l := s)
  have hbl : trim (s.takeWhile isWhitespace) = [] :=
    trim_eq_nil_iff.mpr fun c hc => mem_takeWhile_imp hc
  conv_rhs => rw [← hap, dependenciesOf_append_blank hbl]
  rfl

lemma dependencies_fold_iff {w : Char} (hw : isWhitespace w) (s t : Text) :
    (dependenciesOf (s ++ w :: t) = dependenciesOf s ++ dependenciesOf t ↔
      trim (lastPart s) = [] ∨ trim (firstPart t) = []) ∧
    (¬(trim (lastPart s) = [] ∨ trim (firstPart t) = []) →
      (dependenciesOf s ++ dependenciesOf t).length =
        (dependenciesOf (s ++ w :: t)).length + 1) := by
  obtain ⟨before, hbe⟩ := exists_append_dependenciesOf s
  obtain ⟨more, hmr⟩ := exists_dependenciesOf_append t
  have hcom : ',' ∉ lastPart s ++ [w] := by
    rw [mem_append, mem_singleton, not_or]
    refine ⟨comma_notMem_lastPart s, ?_⟩
    rintro rfl
    exact absurd hw (by decide)
  have hmid : ',' ∉ lastPart s ++ [w] ++ firstPart t := by
    rw [mem_append, not_or]
    exact ⟨hcom, comma_notMem_firstPart t⟩
  -- the parts next to the blank, and what stands before and behind them
  have hwh : dependenciesOf (s ++ w :: t) =
      before ++ (dependenciesOf (lastPart s ++ [w] ++ firstPart t) ++ more) := by
    rw [hbe, append_cons, hmr _ hcom]
  have hlf : dependenciesOf s = before ++ dependenciesOf (lastPart s) := by simpa using hbe []
  have hri : dependenciesOf t = dependenciesOf (firstPart t) ++ more := by exact hmr [] not_mem_nil
  rw [hwh, hlf, hri, dependenciesOf_of_notMem hmid,
    dependenciesOf_of_notMem (comma_notMem_lastPart s),
    dependenciesOf_of_notMem (comma_notMem_firstPart t)]
  have hbl : trim [w] = [] := trim_eq_nil_iff.mpr fun c hc => by rwa [mem_singleton.mp hc]
  by_cases hs : trim (lastPart s) = []
  · have hj : trim (lastPart s ++ [w] ++ firstPart t) = trim (firstPart t) := by
      rw [append_assoc, trim_append_of_blank_left hs, trim_append_of_blank_left hbl]
    rw [hj]
    simp [hs]
  · by_cases ht : trim (firstPart t) = []
    · have hj : trim (lastPart s ++ [w] ++ firstPart t) = trim (lastPart s) := by
        rw [trim_append_of_blank_right ht, trim_append_of_blank_right hbl]
      rw [hj]
      simp [ht]
    · have hj : trim (lastPart s ++ [w] ++ firstPart t) ≠ [] := by
        intro h
        refine hs (trim_eq_nil_iff.mpr fun c hc => trim_eq_nil_iff.mp h c ?_)
        simp [hc]
      have hlen : ∀ a b c : Text, before ++ ([a] ++ more) ≠
          before ++ [b] ++ ([c] ++ more) := fun a b c h => by
        have := congrArg List.length h
        simp only [length_append, length_singleton] at this
        omega
      simp only [hs, ht, hj, if_false, or_self, iff_false]
      refine ⟨hlen _ _ _, ?_⟩
      simp only [length_append, length_singleton]
      omega

def isContinuation (line : Text) : Bool := line.head? = some ' ' || line.head? = some '\t'

/-- `control_field`. -/
def controlField (lines : List Text) (field : Text) : Option Text :=
  ((lines.filter (!isContinuation ·)).filterMap (splitOnce ':')).findSome? fun parts =>
    if eqIgnoreAsciiCase parts.1 field then some (trim parts.2) else none

def requiredControlField (lines : List Text) (field : Text) : Result Text :=
  required ((controlField lines field).filter (· ≠ []))
    ("Invalid package entry: missing '" ++ field ++ "' field")

structure FieldsState where
  seen : List Text
  hasField : Bool
  scalarIdentity : Bool

def identityFields : List Text := ["Package", "Version", "Architecture", "Status"]

def isFieldName (name : Text) : Bool :=
  name ≠ [] && name.head? ≠ some '#' && name.head? ≠ some '-' &&
    name.all fun c => 0x21 ≤ c.toNat && c.toNat ≤ 0x7e && c ≠ ':'

def validateLine (state : FieldsState) (line : Text) : Result FieldsState :=
  if line = [] then .ok state
  else if isContinuation line then
    if !state.hasField then bail "Orphan deb822 continuation"
    else if state.scalarIdentity then bail "Continued deb822 identity field"
    else .ok state
  else
    match splitOnce ':' line with
    | none => bail "Invalid deb822 field without a colon"
    | some (name, _) =>
      if !isFieldName name then bail ("Invalid deb822 field name: " ++ name)
      else if toAsciiLowercase name ∈ state.seen then
        bail ("Duplicate deb822 field: " ++ name)
      else
        .ok ⟨toAsciiLowercase name :: state.seen, true, identityFields.any (eqIgnoreAsciiCase name)⟩

/-- `validate_deb822_fields`. -/
def validateDeb822Fields (lines : List Text) : Result FieldsState :=
  lines.foldlM validateLine ⟨[], false, false⟩

/-! ### Paragraphs -/

structure ListedPackage where
  name : Text
  version : Text
  description : Text
  sectionName : Text
  priority : Text
  installedSize : ℕ
  maintainer : Text
  architecture : Text
  depends : List Text
  filename : Text
  size : ℕ
  sha256 : Text
  homepage : Text
  component : Text
  suite : Text
  sourceKey : Text
  deriving DecidableEq

def isDependsField (key : Text) : Bool := key = "Depends" || key = "Pre-Depends"

/-- `str::parse` to `u64`, which stops at the first digit that makes the number too large. -/
def parseU64 (s : Text) : Result ℕ :=
  match parseUnsigned (2 ^ 64) s with
  | some n => .ok n
  | none =>
    if s = [] then bail "cannot parse integer from empty string"
    else if 2 ^ 64 ≤ Nat.ofDigitChars 10
        (((stripPrefix ['+'] s).getD s).takeWhile Char.isDigit) 0 then
      bail "number too large to fit in target type"
    else bail "invalid digit found in string"

def parseSize (context value : Text) : Result ℕ := withContext (context ++ value) (parseU64 value)

inductive FieldKey
  | package
  | version
  | description
  | «section»
  | priority
  | installedSize
  | maintainer
  | architecture
  | filename
  | size
  | sha256
  | homepage
  | other
  deriving DecidableEq

def fieldKey (key : Text) : FieldKey :=
  if key = "Package" then .package
  else if key = "Version" then .version
  else if key = "Description" then .description
  else if key = "Section" then .section
  else if key = "Priority" then .priority
  else if key = "Installed-Size" then .installedSize
  else if key = "Maintainer" then .maintainer
  else if key = "Architecture" then .architecture
  else if key = "Filename" then .filename
  else if key = "Size" then .size
  else if key = "SHA256" then .sha256
  else if key = "Homepage" then .homepage
  else .other

def setField (package : ListedPackage) (key : FieldKey) (value : Text) : Result ListedPackage :=
  match key with
  | .package => .ok { package with name := value }
  | .version => .ok { package with version := value }
  | .description => .ok { package with description := value }
  | .section => .ok { package with sectionName := value }
  | .priority => .ok { package with priority := value }
  | .installedSize => (parseSize "Invalid Installed-Size value: " value).map fun n =>
      { package with installedSize := n }
  | .maintainer => .ok { package with maintainer := value }
  | .architecture => .ok { package with architecture := value }
  | .filename => .ok { package with filename := value }
  | .size => (parseSize "Invalid Size value: " value).map fun n =>
      { package with size := n }
  | .sha256 => .ok { package with sha256 := value }
  | .homepage => .ok { package with homepage := value }
  | .other => .ok package

def continueField (package : ListedPackage) (current : Option Text) (value : Text) :
    ListedPackage :=
  match current with
  | none => package
  | some field =>
    if isDependsField field then
      { package with depends := appendDependencies value package.depends }
    else if fieldKey field = .description ∧ package.description ≠ [] then
      { package with
        description := package.description ++ '\n' :: (if value = ['.'] then [] else value) }
    else package

structure ParagraphState where
  package : ListedPackage
  currentField : Option Text

open ParagraphState

def parseLine (state : ParagraphState) (line : Text) : Result ParagraphState :=
  if isContinuation line then
    .ok { state with package := continueField state.package state.currentField (trimStart line) }
  else if line = [] then .ok state
  else
    match splitOnce ':' line with
    | none => bail ("Invalid deb822 field without a colon: " ++ line)
    | some (key, rest) =>
      if isDependsField key then
        .ok ⟨{ state.package with
          depends := appendDependencies (trimStart rest) state.package.depends }, some key⟩
      else
        (setField state.package (fieldKey key) (trimStart rest)).map fun package =>
          ⟨package, some key⟩

def initialPackage (component suite sourceKey : Text) (lines : List Text) :
    Result ListedPackage := do
  let name ← requiredControlField lines "Package"
  let version ← requiredControlField lines "Version"
  let architecture ← requiredControlField lines "Architecture"
  return ⟨name, version, [], [], [], 0, [], architecture, [], [], 0, [], [], component, suite,
    sourceKey⟩

/-- `parse_paragraph_str`, for the lines of a paragraph. -/
def parseParagraph (component suite sourceKey : Text) (lines : List Text) :
    Result ListedPackage := do
  let _ ← validateDeb822Fields lines
  let initial ← initialPackage component suite sourceKey lines
  let state ← lines.foldlM parseLine ⟨initial, none⟩
  if state.package.name = [] then
    bail "Invalid package entry: missing 'Package' field in Packages file"
  else return state.package

def currentField (lines : List Text) : Option Text :=
  ((lines.filter (!isContinuation ·)).filterMap (splitOnce ':')).getLast?.map Prod.fst

/-- The characters behind `head ++ s` are in the value of a field of dependencies: in its first
line, behind the colon, or in a line that continues it. The next character is `w`. -/
def InDependsValue (before : List Text) (head s : Text) (w : Char) : Prop :=
  (∃ key, isDependsField key = true ∧ head = key ++ [':']) ∨
    head = [] ∧ isContinuation (s ++ [w]) = true ∧
      ∃ key, isDependsField key = true ∧ currentField before = some key

/-! ### Lines of a field of dependencies -/

variable {key : Text} {state : ParagraphState} {line : Text} {before after : List Text}
  {head s t : Text} {w : Char} {σ : Type} {f : σ → Text → Result σ} {st' : ParagraphState}
  {lines : List Text}

lemma isDependsField_iff : isDependsField key ↔ key = "Depends" ∨ key = "Pre-Depends" := by
  unfold isDependsField
  rw [Bool.or_eq_true, decide_eq_true_eq, decide_eq_true_eq]

lemma isDependsField_facts (h : isDependsField key) :
    ':' ∉ key ∧ key ≠ [] ∧ isContinuation key = false ∧
      identityFields.any (eqIgnoreAsciiCase key) = false := by
  rcases isDependsField_iff.mp h with rfl | rfl <;> decide +kernel

lemma isContinuation_append {s : Text} (h : s ≠ []) (t : Text) :
    isContinuation (s ++ t) = isContinuation s := by
  cases s with
  | nil => exact absurd rfl h
  | cons c s => rfl

lemma isContinuation_blank (t : Text) : isContinuation (' ' :: t) = true := rfl

lemma parseLine_depends (h : isDependsField key) (state : ParagraphState) (rest : Text) :
    parseLine state (key ++ ':' :: rest) = .ok ⟨{ state.package with
      depends := state.package.depends ++ dependenciesOf rest }, some key⟩ := by
  obtain ⟨hcol, hne, hco, -⟩ := isDependsField_facts h
  rw [parseLine, isContinuation_append hne, hco, splitOnce_append hcol]
  simp [h, appendDependencies, dependenciesOf_trimStart]

lemma parseLine_continuation (h : isDependsField key)
    (hcu : state.currentField = some key) (hl : isContinuation line) :
    parseLine state line = .ok { state with package := { state.package with
      depends := state.package.depends ++ dependenciesOf line } } := by
  rw [parseLine, if_pos hl, hcu]
  simp [continueField, h, appendDependencies, dependenciesOf_trimStart]

lemma validateLine_depends (h : isDependsField key) {state : FieldsState} {rest : Text}
    {st' : FieldsState} (hl : validateLine state (key ++ ':' :: rest) = .ok st') (rest' : Text) :
    validateLine state (key ++ ':' :: rest') = .ok st' ∧ st'.hasField ∧
      st'.scalarIdentity = false := by
  obtain ⟨hcol, hne, hco, hidn⟩ := isDependsField_facts h
  unfold validateLine at hl ⊢
  rw [isContinuation_append hne, hco, splitOnce_append hcol] at hl ⊢
  simp only [append_eq_nil_iff, hne, false_and, if_false, Bool.false_eq_true] at hl ⊢
  split_ifs at hl ⊢
  · cases hl
  · cases hl
  · obtain rfl := ok.inj hl
    exact ⟨rfl, rfl, hidn⟩

lemma validateLine_continuation {state st' : FieldsState}
    (hl : isContinuation line) (h : validateLine state line = .ok st') :
    st' = state ∧ state.hasField ∧ state.scalarIdentity = false := by
  have hne : line ≠ [] := by
    rintro rfl
    cases hl
  unfold validateLine at h
  rw [if_neg hne] at h
  split_ifs at h with hfi hsca
  · cases h
  · cases h
  · exact ⟨(ok.inj h).symm, by simpa using hfi, by simpa using hsca⟩

lemma validateLine_of_hasField {state : FieldsState} (hfi : state.hasField)
    (hsca : state.scalarIdentity = false) (hl : line = [] ∨ isContinuation line) :
    validateLine state line = .ok state := by
  unfold validateLine
  by_cases hem : line = []
  · rw [if_pos hem]
  · rw [if_pos (hl.resolve_left hem)]
    simp [hfi, hsca]

lemma eq_nil_or_isContinuation {s : Text} {w : Char} (h : isContinuation (s ++ [w]) = true) :
    s = [] ∨ isContinuation s := by
  by_cases hne : s = []
  · exact .inl hne
  · rw [isContinuation_append hne] at h
    exact .inr h

lemma isContinuation_of_append {s : Text} {w : Char} (h : isContinuation (s ++ [w]) = true)
    (t : Text) : isContinuation (s ++ w :: t) = true := by
  rwa [append_cons, isContinuation_append (by simp)]

/-! ### The parts of the parser -/

lemma foldlM_pair {state u v : σ} {line' : Text} (h : f state line = .ok u)
    (h' : f u line' = .ok v) : [line, line'].foldlM f state = .ok v := by
  rw [foldlM_cons, bind_eq_ok]
  exact ⟨u, h, by rw [foldlM_cons, h']; rfl⟩

lemma validateLine_fold (hval : InDependsValue before head s w) {state st' : FieldsState}
    (h : validateLine state (head ++ (s ++ w :: t)) = .ok st') :
    [head ++ s, ' ' :: t].foldlM validateLine state = .ok st' := by
  rcases hval with ⟨key, hkey, rfl⟩ | ⟨rfl, hco, -⟩
  · rw [append_assoc] at h ⊢
    obtain ⟨hf, hfi, hsca⟩ := validateLine_depends hkey h s
    have hsec := validateLine_of_hasField hfi hsca (.inr (isContinuation_blank t))
    exact foldlM_pair hf hsec
  · obtain ⟨rfl, hfi, hsca⟩ := validateLine_continuation (isContinuation_of_append hco t) h
    have hf := validateLine_of_hasField hfi hsca (eq_nil_or_isContinuation hco)
    have hsec := validateLine_of_hasField hfi hsca (.inr (isContinuation_blank t))
    exact foldlM_pair hf hsec

def fieldLines (lines : List Text) : List (Text × Text) :=
  (lines.filter (!isContinuation ·)).filterMap (splitOnce ':')

lemma fieldLines_append (lines more : List Text) :
    fieldLines (lines ++ more) = fieldLines lines ++ fieldLines more := by
  simp [fieldLines]

lemma fieldLines_singleton_of_continuation (h : line = [] ∨ isContinuation line) :
    fieldLines [line] = [] := by
  rcases h with rfl | h
  · rfl
  · simp [fieldLines, h]

lemma fieldLines_singleton_depends (h : isDependsField key) (rest : Text) :
    fieldLines [key ++ ':' :: rest] = [(key, rest)] := by
  obtain ⟨hcol, hne, hco, -⟩ := isDependsField_facts h
  simp [fieldLines, isContinuation_append hne, hco, splitOnce_append hcol]

lemma controlField_fold (hval : InDependsValue before head s w) {fd : Text}
    (hfi : ∀ key, isDependsField key → eqIgnoreAsciiCase key fd = false) :
    controlField (before ++ (head ++ (s ++ w :: t)) :: after) fd =
      controlField (before ++ (head ++ s) :: (' ' :: t) :: after) fd := by
  have hbl : fieldLines [' ' :: t] = [] :=
    fieldLines_singleton_of_continuation (.inr (isContinuation_blank t))
  have hbr : before ++ (head ++ s) :: (' ' :: t) :: after =
      before ++ ([head ++ s] ++ ([' ' :: t] ++ after)) := rfl
  have hwh : before ++ (head ++ (s ++ w :: t)) :: after =
      before ++ ([head ++ (s ++ w :: t)] ++ after) := rfl
  unfold controlField
  rw [hbr, hwh]
  simp only [← fieldLines.eq_1, fieldLines_append, hbl]
  rcases hval with ⟨key, hkey, rfl⟩ | ⟨rfl, hco, -⟩
  · simp only [append_assoc, singleton_append, fieldLines_singleton_depends hkey,
      findSome?_append, findSome?_cons, hfi key hkey]
    rfl
  · simp only [nil_append, fieldLines_singleton_of_continuation
      (.inr (isContinuation_of_append hco t)),
      fieldLines_singleton_of_continuation (eq_nil_or_isContinuation hco)]

/-! ### The lines behind -/

def ParagraphState.prepend (dependencies : List Text) (state : ParagraphState) : ParagraphState :=
  { state with package := { state.package with
    depends := dependencies ++ state.package.depends } }

lemma setField_prepend (deps : List Text) (pkg : ListedPackage) (key : FieldKey) (val : Text) :
    setField { pkg with depends := deps ++ pkg.depends } key val =
      (setField pkg key val).map fun p => { p with depends := deps ++ p.depends } := by
  cases key with
  | installedSize =>
    simp only [setField]
    cases parseSize _ val <;> rfl
  | size =>
    simp only [setField]
    cases parseSize _ val <;> rfl
  | _ => rfl

lemma continueField_prepend (deps : List Text) (pkg : ListedPackage)
    (cur : Option Text) (val : Text) :
    continueField { pkg with depends := deps ++ pkg.depends } cur val =
      { continueField pkg cur val with
        depends := deps ++ (continueField pkg cur val).depends } := by
  cases cur with
  | none => rfl
  | some fd =>
    simp only [continueField]
    by_cases hdps : isDependsField fd = true
    · rw [if_pos hdps, if_pos hdps, appendDependencies, appendDependencies, append_assoc]
    · rw [if_neg hdps]
      split_ifs <;> rfl

lemma parseLine_prepend (deps : List Text) (state : ParagraphState) (line : Text) :
    parseLine (state.prepend deps) line = (parseLine state line).map (prepend deps) := by
  unfold parseLine
  by_cases hco : isContinuation line = true
  · rw [if_pos hco, if_pos hco]
    simp only [prepend, continueField_prepend]
    rfl
  · rw [if_neg hco, if_neg hco]
    by_cases hem : line = []
    · rw [if_pos hem, if_pos hem]
      rfl
    · rw [if_neg hem, if_neg hem]
      cases splitOnce ':' line with
      | none => rfl
      | some parts =>
        by_cases hdps : isDependsField parts.1 = true
        · simp only [hdps, prepend, appendDependencies, append_assoc]
          rfl
        · simp only [hdps, prepend, setField_prepend]
          cases setField state.package (fieldKey parts.1) (trimStart parts.2) <;> rfl

lemma foldlM_prepend (deps : List Text) (state : ParagraphState) (lines : List Text) :
    lines.foldlM parseLine (state.prepend deps) =
      (lines.foldlM parseLine state).map (prepend deps) := by
  induction lines generalizing state with
  | nil => rfl
  | cons line lines ih =>
    rw [foldlM_cons, foldlM_cons, parseLine_prepend]
    cases parseLine state line with
    | error e => rfl
    | ok st' => exact ih st'

/-! ### The field that is continued -/

lemma currentField_cons (line : Text) (lines : List Text) :
    currentField (line :: lines) = (currentField lines).or (currentField [line]) := by
  have hcn : fieldLines (line :: lines) = fieldLines [line] ++ fieldLines lines :=
    fieldLines_append [line] lines
  unfold currentField
  simp only [← fieldLines.eq_1, hcn, getLast?_append]
  cases (fieldLines lines).getLast? <;> rfl

lemma currentField_of_parseLine (h : parseLine state line = .ok st') :
    st'.currentField = (currentField [line]).or state.currentField := by
  unfold parseLine at h
  by_cases hl : line = [] ∨ isContinuation line = true
  · have hno : currentField [line] = none := by
      unfold currentField
      rw [← fieldLines.eq_1, fieldLines_singleton_of_continuation hl]
      rfl
    rw [hno, Option.none_or]
    by_cases hco : isContinuation line = true
    · rw [if_pos hco] at h
      rw [← ok.inj h]
    · rw [if_neg hco, if_pos (hl.resolve_right hco)] at h
      rw [← ok.inj h]
  · obtain ⟨hem, hco⟩ := not_or.mp hl
    rw [if_neg hco, if_neg hem] at h
    have hfl : fieldLines [line] = (splitOnce ':' line).toList := by
      simp only [fieldLines, filter_cons, hco]
      cases hsp : splitOnce ':' line <;> simp [hsp]
    have hcu : currentField [line] = (splitOnce ':' line).map Prod.fst := by
      unfold currentField
      rw [← fieldLines.eq_1, hfl]
      cases splitOnce ':' line <;> rfl
    rw [hcu]
    cases hsp : splitOnce ':' line with
    | none =>
      rw [hsp] at h
      cases h
    | some pts =>
      rw [hsp] at h
      simp only at h
      split_ifs at h
      · rw [← ok.inj h]
        rfl
      · obtain ⟨pkg, -, hsa⟩ := map_eq_ok.mp h
        rw [← hsa]
        rfl

lemma currentField_of_foldlM (h : lines.foldlM parseLine state = .ok st') :
    st'.currentField = (currentField lines).or state.currentField := by
  induction lines generalizing state with
  | nil =>
    obtain rfl := ok.inj h
    rfl
  | cons line lines ih =>
    obtain ⟨next, hl, hls⟩ := bind_eq_ok.mp h
    rw [ih hls, currentField_of_parseLine hl, currentField_cons line lines, Option.or_assoc]

lemma parseLine_fold (hval : InDependsValue before head s w)
    (hcu : state.currentField = currentField before)
    (h : parseLine state (head ++ (s ++ w :: t)) = .ok st') :
    ∃ base : ParagraphState, base.package.depends = [] ∧
      st' = base.prepend (state.package.depends ++ dependenciesOf (s ++ w :: t)) ∧
      [head ++ s, ' ' :: t].foldlM parseLine state =
        .ok (base.prepend (state.package.depends ++ (dependenciesOf s ++ dependenciesOf t))) := by
  have hbl : dependenciesOf (' ' :: t) = dependenciesOf t :=
    dependenciesOf_append_blank (s := [' ']) (by decide) t
  rcases hval with ⟨key, hkey, rfl⟩ | ⟨rfl, hco, key, hkey, hbe⟩
  · rw [append_assoc, singleton_append, parseLine_depends hkey] at h
    refine ⟨⟨{ state.package with depends := [] }, some key⟩, rfl, ?_, ?_⟩
    · rw [← ok.inj h]
      simp [prepend]
    · rw [append_assoc]
      refine foldlM_pair (parseLine_depends hkey state s) ?_
      rw [parseLine_continuation hkey rfl (isContinuation_blank t), hbl]
      simp [prepend]
  · rw [hbe] at hcu
    rw [nil_append, parseLine_continuation hkey hcu (isContinuation_of_append hco t)] at h
    refine ⟨⟨{ state.package with depends := [] }, state.currentField⟩, rfl, ?_, ?_⟩
    · rw [← ok.inj h]
      simp [prepend]
    · rw [nil_append]
      have hf : parseLine state s = .ok { state with package := { state.package with
          depends := state.package.depends ++ dependenciesOf s } } := by
        rcases eq_nil_or_isContinuation hco with rfl | hs
        · have hnil : dependenciesOf [] = [] := by decide
          rw [hnil, append_nil]
          rfl
        · exact parseLine_continuation hkey hcu hs
      refine foldlM_pair hf ?_
      have hcu' : ({ state with package := { state.package with
          depends := state.package.depends ++ dependenciesOf s } } : ParagraphState).currentField =
          some key := hcu
      rw [parseLine_continuation hkey hcu' (isContinuation_blank t), hbl]
      simp [prepend]

/-! ### Paragraphs with a broken line -/

lemma initialPackage_fold (hval : InDependsValue before head s w) (comp suite sk : Text) :
    initialPackage comp suite sk (before ++ (head ++ (s ++ w :: t)) :: after) =
      initialPackage comp suite sk (before ++ (head ++ s) :: (' ' :: t) :: after) := by
  have hdps : ∀ fd ∈ identityFields, ∀ key, isDependsField key = true →
      eqIgnoreAsciiCase key fd = false := by
    intro fd hfi key hkey
    have hany := (isDependsField_facts hkey).2.2.2
    rw [any_eq_false] at hany
    simpa using hany fd hfi
  unfold initialPackage requiredControlField
  rw [controlField_fold hval (hdps _ (by decide)), controlField_fold hval (hdps _ (by decide)),
    controlField_fold hval (hdps _ (by decide))]

lemma foldlM_split {state st' : σ} (h : (before ++ (lines ++ after)).foldlM f state = .ok st') :
    ∃ u v, before.foldlM f state = .ok u ∧ lines.foldlM f u = .ok v ∧
      after.foldlM f v = .ok st' := by
  rw [foldlM_append, bind_eq_ok] at h
  obtain ⟨u, hbe, h⟩ := h
  rw [foldlM_append, bind_eq_ok] at h
  obtain ⟨v, hls, haf⟩ := h
  exact ⟨u, v, hbe, hls, haf⟩

lemma foldlM_join {state u v st' : σ}
    (hbe : before.foldlM f state = .ok u) (hls : lines.foldlM f u = .ok v)
    (haf : after.foldlM f v = .ok st') :
    (before ++ (lines ++ after)).foldlM f state = .ok st' := by
  rw [foldlM_append, bind_eq_ok]
  refine ⟨u, hbe, ?_⟩
  rw [foldlM_append, bind_eq_ok]
  exact ⟨v, hls, haf⟩

lemma foldlM_singleton {state st' : σ} :
    [line].foldlM f state = .ok st' ↔ f state line = .ok st' := by
  rw [foldlM_cons, bind_eq_ok]
  constructor
  · rintro ⟨next, hnx, hend⟩
    rwa [← ok.inj hend]
  · intro h
    exact ⟨st', h, rfl⟩

lemma parseParagraph_fold (hval : InDependsValue before head s w)
    {comp suite sk : Text} {pkg : ListedPackage} (h : parseParagraph comp suite sk
      (before ++ (head ++ (s ++ w :: t)) :: after) = .ok pkg) :
    ∃ ft back, pkg.depends = ft ++ (dependenciesOf (s ++ w :: t) ++ back) ∧
      parseParagraph comp suite sk (before ++ (head ++ s) :: (' ' :: t) :: after) =
        .ok { pkg with depends := ft ++ (dependenciesOf s ++ dependenciesOf t ++ back) } := by
  have hwh : before ++ (head ++ (s ++ w :: t)) :: after =
      before ++ ([head ++ (s ++ w :: t)] ++ after) := rfl
  obtain ⟨fields, hfl, h⟩ := bind_eq_ok.mp h
  obtain ⟨initial, hini, h⟩ := bind_eq_ok.mp h
  obtain ⟨last, hla, h⟩ := bind_eq_ok.mp h
  rw [hwh] at hla
  rw [hwh] at hfl
  obtain ⟨fields₁, fields₂, hfl₁, hfl₂, hfl₃⟩ := foldlM_split hfl
  have hv := foldlM_join hfl₁ (validateLine_fold hval (foldlM_singleton.mp hfl₂)) hfl₃
  obtain ⟨s₁, s₂, hsa₁, hsa₂, hsa₃⟩ := foldlM_split hla
  have hcu : s₁.currentField = currentField before := by
    rw [currentField_of_foldlM hsa₁, Option.or_none]
  obtain ⟨base, hba, rfl, hpr⟩ := parseLine_fold hval hcu (foldlM_singleton.mp hsa₂)
  rw [foldlM_prepend] at hsa₃
  obtain ⟨rest, hr, rfl⟩ := map_eq_ok.mp hsa₃
  have haf : after.foldlM parseLine (base.prepend
      (s₁.package.depends ++ (dependenciesOf s ++ dependenciesOf t))) =
      .ok (rest.prepend (s₁.package.depends ++ (dependenciesOf s ++ dependenciesOf t))) := by
    rw [foldlM_prepend, hr]
    rfl
  have hend := foldlM_join hsa₁ hpr haf
  split_ifs at h with hn
  · cases h
  · obtain rfl := Except.ok.inj h
    refine ⟨s₁.package.depends, rest.package.depends, ?_, ?_⟩
    · simp [ParagraphState.prepend]
    · unfold parseParagraph validateDeb822Fields
      rw [← initialPackage_fold hval]
      refine bind_eq_ok.mpr ⟨fields, hv, bind_eq_ok.mpr ⟨initial, hini, ?_⟩⟩
      refine bind_eq_ok.mpr ⟨_, hend, ?_⟩
      replace hn : rest.package.name ≠ [] := hn
      refine (if_neg hn).trans ?_
      simp [ParagraphState.prepend, pure, Except.pure]

lemma foldlM_congr {line' : Text} (h : ∀ state, f state line = f state line') (state : σ) :
    (before ++ line :: after).foldlM f state = (before ++ line' :: after).foldlM f state := by
  simp only [foldlM_append, foldlM_cons, h]

lemma parseParagraph_blank (h : isContinuation line) (comp suite sk : Text) :
    parseParagraph comp suite sk (before ++ (' ' :: line) :: after) =
      parseParagraph comp suite sk (before ++ line :: after) := by
  have hbl := isContinuation_blank line
  have hne : line ≠ [] := by
    rintro rfl
    cases h
  have hval : ∀ state, validateLine state (' ' :: line) = validateLine state line := by
    intro state
    unfold validateLine
    rw [if_neg (cons_ne_nil _ _), if_neg hne, if_pos hbl, if_pos h]
  have hpr : ∀ state, parseLine state (' ' :: line) = parseLine state line := by
    intro state
    unfold parseLine
    rw [if_pos h]
    rfl
  have hfl : ∀ fd, controlField (before ++ (' ' :: line) :: after) fd =
      controlField (before ++ line :: after) fd := by
    intro fd
    unfold controlField
    simp only [filter_append, filter_cons, h, hbl, Bool.not_true, Bool.false_eq_true, if_false]
  unfold parseParagraph validateDeb822Fields initialPackage requiredControlField
  simp only [foldlM_congr hval, foldlM_congr hpr, hfl]

/-- If a line in the value of a field of dependencies is broken at a blank then the paragraph is
still accepted, and only its dependencies may change. They denote the same dependencies exactly if
the blank has a comma or an end of the line next to it, up to other blanks. If a line break in the
value is followed by one more blank then nothing changes. -/
theorem parseParagraph_fold_iff (hostArch component suite sourceKey : Text)
    (before after : List Text) (head s t : Text) (w : Char) (hw : isWhitespace w = true)
    (hvalue : InDependsValue before head s w) (package : ListedPackage)
    (haccepted : parseParagraph component suite sourceKey
      (before ++ (head ++ (s ++ w :: t)) :: after) = .ok package) :
    (∃ package', parseParagraph component suite sourceKey
        (before ++ (head ++ s) :: (' ' :: t) :: after) = .ok package' ∧
      { package' with depends := package.depends } = package ∧
      (package'.depends.map (parseDependency hostArch) =
          package.depends.map (parseDependency hostArch) ↔
        trim (lastPart s) = [] ∨ trim (firstPart t) = [])) ∧
    ∀ lines more line, isContinuation line = true →
      parseParagraph component suite sourceKey (lines ++ (' ' :: line) :: more) =
        parseParagraph component suite sourceKey (lines ++ line :: more) := by
  obtain ⟨ft, back, hdps, hbr⟩ := parseParagraph_fold hvalue haccepted
  refine ⟨⟨_, hbr, rfl, ?_⟩, fun lines more line hl => parseParagraph_blank hl _ _ _⟩
  obtain ⟨hiff, hlon⟩ := dependencies_fold_iff hw s t
  constructor
  · intro hsm
    by_contra hnot
    have hlen := congrArg List.length hsm
    have hmr := hlon hnot
    simp only [length_map, hdps, length_append] at hlen hmr
    omega
  · intro hcom
    rw [hdps, hiff.mpr hcom]

def alternativesParagraph : List Text :=
  ["Package: p", "Version: 1", "Architecture: all", "Depends: a | b"]

def alternativesPackage (depends : List Text) : ListedPackage :=
  ⟨"p", "1", [], [], [], 0, [], "all", depends, [], 0, [], [], [], [], []⟩

lemma parseParagraph_alternativesParagraph :
    (parseParagraph [] [] [] alternativesParagraph).toOption =
        some (alternativesPackage ["a | b".toList]) ∧
      (parseParagraph [] [] [] (alternativesParagraph.take 3 ++
        ["Depends: a".toList, " | b".toList])).toOption =
          some (alternativesPackage ["a".toList, "| b".toList]) := by
  decide +kernel

lemma eq_ok_of_toOption {α : Type} {x : Result α} {a : α} (h : x.toOption = some a) :
    x = .ok a := by
  cases x with
  | error e => cases h
  | ok b => exact congrArg ok (Option.some.inj h)

/-- The dependency `a | b`, broken behind `a`, becomes two dependencies. -/
theorem parseParagraph_alternatives :
    ∃ package package', parseParagraph [] [] [] alternativesParagraph = .ok package ∧
      parseParagraph [] [] [] (alternativesParagraph.take 3 ++
        ["Depends: a".toList, " | b".toList]) = .ok package' ∧
      package.depends = ["a | b".toList] ∧ package'.depends = ["a".toList, "| b".toList] ∧
      package'.depends.map (parseDependency "amd64".toList) ≠
        package.depends.map (parseDependency "amd64".toList) := by
  obtain ⟨hwh, hbr⟩ := parseParagraph_alternativesParagraph
  exact ⟨_, _, eq_ok_of_toOption hwh, eq_ok_of_toOption hbr, rfl, rfl,
    fun h => absurd (congrArg List.length h) (by decide)⟩

/-- Breaking the line in front of the bar. -/
theorem parseParagraph_fold_bar : isWhitespace ' ' = true ∧
      InDependsValue (alternativesParagraph.take 3) "Depends:".toList " a".toList ' ' ∧
      ∃ package', parseParagraph [] [] []
        (alternativesParagraph.take 3 ++ ("Depends:".toList ++ " a".toList) ::
          (' ' :: "| b".toList) :: []) = .ok package' := by
  have hval : InDependsValue (alternativesParagraph.take 3) "Depends:" " a" ' ' :=
    .inl ⟨"Depends", by decide +kernel, by decide +kernel⟩
  have hpr := eq_ok_of_toOption parseParagraph_alternativesParagraph.1
  obtain ⟨⟨package', hfol, -, -⟩, -⟩ := parseParagraph_fold_iff "amd64" [] [] []
    (alternativesParagraph.take 3) [] "Depends:" " a" "| b" ' ' (by decide)
    hval _ hpr
  exact ⟨by decide, hval, package', hfol⟩

end Omg.Debian
