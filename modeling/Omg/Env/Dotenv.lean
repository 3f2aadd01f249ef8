import Mathlib.Data.List.DropRight
import Omg.Control.Except
import Omg.Text.Paragraphs

/-!
# Dotenv files

Each line is trimmed and split at the first `=`, and the trimmed value loses its quotes, if it has
them at both ends, or else its comment. So a comment behind the closing quote brings the quotes
back, and one behind an empty value becomes the value.

The printing of a name in an error is a parameter.

Source: `src/config/mise_env.rs`.
-/

namespace Omg.Env

open List Text Control

def isEnvName : Text → Bool
  | [] => false
  | c :: rest => (c.isAlpha || c == '_') && rest.all fun c => c.isAlphanum || c == '_'

/-- A quotation mark at both ends. -/
def isQuoted (value : Text) : Bool :=
  2 ≤ value.length && ((value.head? == some '"' && value.getLast? == some '"') ||
    (value.head? == some '\'' && value.getLast? == some '\''))

/-- The first part of `str::split` at `" #"`. -/
def beforeComment : Text → Text
  | [] => []
  | ' ' :: '#' :: _ => []
  | c :: rest => c :: beforeComment rest

def unquoted (value : Text) : Text := if isQuoted value then value.tail.dropLast else value

def dotenvValue (value : Text) : Text :=
  if value = unquoted value then trimEnd (beforeComment (unquoted value)) else unquoted value

/-- The assignment on a line, unless it is blank or a comment. -/
def assignmentLine (raw : Text) : Option Text :=
  let line := trim raw
  if line = [] || line.head? = some '#' then none
  else some (((stripPrefix "export " line).map trim).getD line)

section

variable (debug : Text → Text) (path : Text)

def validateEnvName (name : Text) : Result Unit :=
  ensure (isEnvName name) ("Invalid environment variable name: " ++ debug name)

def parseDotenvLine (index : ℕ) (raw : Text) : Result (List (Text × Text)) :=
  match assignmentLine raw with
  | none => .ok []
  | some line => do
    let (key, value) ← required (splitOnce '=' line)
      ("Malformed line " ++ decimal (index + 1) ++ " in " ++ path ++ ": expected KEY=value")
    validateEnvName debug (trim key)
    .ok [(trim key, dotenvValue (trim value))]

def parseDotenv (content : Text) : Result (List (Text × Text)) := do
  let pairs ← (strLines content).zipIdx.mapM fun line => parseDotenvLine debug path line.2 line.1
  .ok pairs.flatten

end

/-! ### Values and comments -/

variable {s t v s' : Text}

lemma dotenvValue_eq (value : Text) : dotenvValue value =
    if isQuoted value then value.tail.dropLast else trimEnd (beforeComment value) := by
  rw [dotenvValue, unquoted]
  split_ifs with hq h h
  · have hlen := congrArg length h
    simp only [isQuoted, Bool.and_eq_true, decide_eq_true_eq] at hq
    simp only [length_dropLast, length_tail] at hlen
    omega
  · rfl
  · rfl
  · exact absurd rfl h

lemma beforeComment_append (ht : t.head? ≠ some '#') :
    (beforeComment s = s ∧ beforeComment (s ++ t) = s ++ beforeComment t) ∨
      (beforeComment s ++ [' ', '#'] <+: s ∧ beforeComment (s ++ t) = beforeComment s) := by
  fun_induction beforeComment s with
  | case1 => exact .inl ⟨rfl, rfl⟩
  | case2 rest => exact .inr ⟨⟨rest, rfl⟩, rfl⟩
  | case3 c rest hne ih =>
    have hc : beforeComment (c :: rest ++ t) = c :: beforeComment (rest ++ t) := by
      refine beforeComment.eq_3 _ _ ?_
      rintro r rfl hr
      cases rest with
      | nil => exact ht (congrArg head? hr)
      | cons d rest =>
        obtain ⟨rfl, -⟩ := cons.inj hr
        exact hne rest rfl rfl
    rw [hc]
    rcases ih with ⟨hs, ht⟩ | ⟨hs, ht⟩
    · exact .inl ⟨by rw [hs], by rw [ht, cons_append]⟩
    · exact .inr ⟨(prefix_cons_inj c).mpr hs, by rw [ht]⟩

/-- The second text is the first with a comment behind it. -/
def Commented (s s' : Text) : Prop :=
  ∃ w c, trim w = [] ∧ (∀ q ∈ c, q ≠ '"' ∧ q ≠ '\'') ∧ s' = s ++ (w ++ ' ' :: '#' :: c)

lemma trimEnd_cons_hash (c : Text) : trimEnd ('#' :: c) = '#' :: trimEnd c := by
  by_cases h : trim c = []
  · have hc : trimEnd c = [] := trimEnd_append_of_blank_right h []
    rw [← singleton_append, trimEnd_append_of_blank_right h, hc]
    rfl
  · exact trimEnd_append h ['#']

lemma isPrefix_trimEnd (s : Text) : trimEnd s <+: s := rdropWhile_prefix ..

lemma trim_commented (h : Commented s s') (hs : trim s ≠ []) : Commented (trim s) (trim s') := by
  obtain ⟨w, c, hw, hc, rfl⟩ := h
  have hu : trim ((trimStart s).rtakeWhile isWhitespace) = [] :=
    trim_eq_nil_iff.mpr fun d hd => mem_rtakeWhile_imp hd
  refine ⟨_ ++ w, trimEnd c, by rw [trim_append_of_blank_left hu, hw],
    fun q hq => hc q ((isPrefix_trimEnd c).subset hq), ?_⟩
  have hn : trim ('#' :: c) ≠ [] := fun h =>
    absurd (trim_eq_nil_iff.mp h '#' mem_cons_self) (by decide)
  rw [trim, trimStart_append hs, append_cons, ← append_assoc, trimEnd_append hn, trimEnd_cons_hash]
  nth_rewrite 1 [← rdropWhile_append_rtakeWhile (l := trimStart s)]
  simp only [append_assoc]
  rfl

/-- The value in front of a comment is what the comment leaves of it without its quotes. -/
lemma dotenvValue_commented (h : Commented v s') : dotenvValue s' = trimEnd (beforeComment v) := by
  obtain ⟨w, c, hw, hc, rfl⟩ := h
  have hh : '#' ∉ w := fun h => absurd (trim_eq_nil_iff.mp hw '#' h) (by decide)
  have hlast : isQuoted (v ++ (w ++ ' ' :: '#' :: c)) = false := by
    have hne (q : Char) (hq : q ∉ '#' :: c) : ('#' :: c).getLast? ≠ some q := fun h =>
      hq (mem_of_getLast? h)
    have hd : '"' ∉ '#' :: c := by simpa using fun h => (hc _ h).1 rfl
    have hq : '\'' ∉ '#' :: c := by simpa using fun h => (hc _ h).2 rfl
    simp [isQuoted, hne _ hd, hne _ hq]
  have hw' : beforeComment (w ++ ' ' :: '#' :: c) = w := by
    rcases beforeComment_append (t := ' ' :: '#' :: c) (by simp) with ⟨-, h⟩ | ⟨h, -⟩
    · rw [h, beforeComment, append_nil]
    · exact absurd (h.subset (by simp)) hh
  have ht : (w ++ ' ' :: '#' :: c).head? ≠ some '#' := by
    cases w with
    | nil => simp
    | cons d w => exact fun h => hh (by simp_all)
  rw [dotenvValue_eq, hlast, if_neg Bool.false_ne_true]
  rcases beforeComment_append ht with ⟨hv, h⟩ | ⟨-, h⟩
  · rw [h, hw', trimEnd_append_of_blank_right hw, hv]
  · rw [h]

/-- Between quotes the value is longer than what a comment leaves inside them, and shorter than
the text with its quotes. -/
lemma dotenvValue_eq_iff : trimEnd (beforeComment v) = dotenvValue v ↔ isQuoted v = false := by
  rw [dotenvValue_eq]
  cases hq : isQuoted v with
  | false => simp
  | true =>
    simp only [isQuoted, Bool.and_eq_true, decide_eq_true_eq, Bool.or_eq_true, beq_iff_eq] at hq
    have hend : trimEnd v = v := by
      rcases hq.2 with ⟨-, hl⟩ | ⟨-, hl⟩
      all_goals
        obtain ⟨ys, rfl⟩ := getLast?_eq_some_iff.mp hl
        exact trimEnd_append (by decide) ys
    have hle := (isPrefix_trimEnd (beforeComment v)).length_le
    simp only [if_true, Bool.true_eq_false, iff_false]
    intro h
    have hlen := congrArg length h
    simp only [length_dropLast, length_tail] at hlen
    rcases beforeComment_append (t := []) (by simp) with ⟨hv, -⟩ | ⟨hv, -⟩
    · rw [hv, hend] at hlen
      omega
    · rw [← hv.eq_of_length_le (by simp; omega)] at hq
      simp at hq

lemma dotenvValue_trim_commented (h : Commented v s') :
    dotenvValue (trim s') = dotenvValue (trim v) ↔
      trim v ≠ [] ∧ isQuoted (trim v) = false := by
  by_cases hv : trim v = []
  · obtain ⟨w, c, hw, -, rfl⟩ := h
    have hvw : trim (v ++ w ++ [' ']) = [] := by
      rw [trim_append_of_blank_right (by decide), trim_append_of_blank_left hv, hw]
    have hnew : trim (v ++ (w ++ ' ' :: '#' :: c)) = '#' :: trimEnd c := by
      rw [← append_assoc, append_cons, trim_append_of_blank_left hvw]
      exact trimEnd_cons_hash c
    have hold : dotenvValue [] = [] := rfl
    have hsome : dotenvValue ('#' :: trimEnd c) ≠ [] := by
      simp [dotenvValue, unquoted, isQuoted, beforeComment, trimEnd_cons_hash]
    simp [hnew, hv, hold, hsome]
  · rw [dotenvValue_commented (trim_commented h hv), dotenvValue_eq_iff]
    exact (and_iff_right hv).symm

/-! ### Lines -/

lemma assignmentLine_commented {line : Text} (h : Commented s s')
    (hl : assignmentLine s = some line) (heq : '=' ∈ line) :
    ∃ line', assignmentLine s' = some line' ∧ Commented line line' := by
  simp only [assignmentLine] at hl
  split_ifs at hl with hne
  rw [Bool.or_eq_true, decide_eq_true_eq, not_or] at hne
  obtain ⟨w, c, hw, hc, hs⟩ := trim_commented h hne.1
  have hhead : (trim s').head? = (trim s).head? := by rw [hs, head?_append_of_ne_nil _ hne.1]
  have hne' : trim s' ≠ [] := by simp [hs, hne.1]
  simp only [assignmentLine, hhead, hne.2, hne', decide_false, Bool.or_self]
  refine ⟨_, rfl, ?_⟩
  obtain rfl := Option.some.inj hl
  cases he : stripPrefix "export " (trim s) with
  | some rest =>
    rw [he] at heq
    rw [hs, ← isPrefixOf?_eq_some_iff_append_eq.mp he, append_assoc]
    exact trim_commented ⟨w, c, hw, hc, rfl⟩ (ne_nil_of_mem heq)
  | none =>
    rw [he] at heq
    obtain ⟨key, value, hkv⟩ := append_of_mem heq
    change trim s = key ++ '=' :: value at hkv
    have hno : '=' ∉ "export ".toList := by decide
    rw [hkv, stripPrefix_append_cons hno, Option.map_eq_none_iff] at he
    rw [hs, hkv, append_assoc, cons_append, stripPrefix_append_cons hno, he]
    exact ⟨w, c, hw, hc, by simp⟩

lemma splitOnce_commented {key value : Text} (h : Commented s s')
    (hs : splitOnce '=' s = some (key, value)) :
    ∃ value', splitOnce '=' s' = some (key, value') ∧ Commented value value' := by
  obtain ⟨w, c, hw, hc, rfl⟩ := h
  rw [append_of_splitOnce hs, append_assoc]
  exact ⟨_, splitOnce_append (notMem_of_splitOnce hs) _, w, c, hw, hc, rfl⟩

variable (debug : Text → Text) (path : Text)

lemma parseDotenvLine_eq_ok {index : ℕ} {line : Text} {pairs : List (Text × Text)}
    (hs : assignmentLine s = some line) :
    parseDotenvLine debug path index s = .ok pairs ↔ ∃ key value,
      splitOnce '=' line = some (key, value) ∧ isEnvName (trim key) ∧
      pairs = [(trim key, dotenvValue (trim value))] := by
  rw [parseDotenvLine, hs]
  constructor
  · intro h
    obtain ⟨⟨key, value⟩, hkv, h⟩ := bind_eq_ok.mp h
    obtain ⟨_, hname, h⟩ := bind_eq_ok.mp h
    exact ⟨key, value, required_eq_ok.mp hkv, ensure_eq_ok.mp hname, (Except.ok.inj h).symm⟩
  · rintro ⟨key, value, hkv, hname, rfl⟩
    exact bind_eq_ok.mpr ⟨_, required_eq_ok.mpr hkv,
      bind_eq_ok.mpr ⟨(), ensure_eq_ok.mpr hname, rfl⟩⟩

lemma isEnvName_char {key : Text} (hkey : isEnvName key) {c : Char} (hc : c ∈ key) :
    isWhitespace c = false ∧ c ≠ '=' ∧ c ≠ '#' := by
  have h : c.isAlphanum ∨ c = '_' := by
    cases key <;> grind [isEnvName, Char.isAlphanum]
  rcases h with h | rfl
  · have hn := toNat_of_isAlphanum h
    refine ⟨?_, ?_, ?_⟩
    · simp [isWhitespace]
      omega
    all_goals
      rintro rfl
      simp at h
  · decide

lemma parseDotenvLine_quoted (index : ℕ) {key : Text} (value : Text) (hkey : isEnvName key) :
    parseDotenvLine debug path index (key ++ '=' :: '"' :: value ++ ['"']) =
      .ok [(key, value)] := by
  have hend (u : Text) (hu : trimStart (u ++ ['"']) = u ++ ['"']) :
      trim (u ++ ['"']) = u ++ ['"'] := by
    rw [trim, hu]
    exact trimEnd_append (by decide) u
  have hq : dotenvValue ('"' :: value ++ ['"']) = value := by
    have hl : ('"' :: (value ++ ['"'])).getLast? = some '"' := getLast?_concat (l := '"' :: value)
    simp [dotenvValue_eq, isQuoted, hl]
  have htrim : trim key = key := trim_eq_self fun d hd => (isEnvName_char hkey hd).1
  have hexp : stripPrefix "export " (key ++ '=' :: '"' :: value ++ ['"']) = none := by
    rw [append_assoc, cons_append, stripPrefix_append_cons (by decide), Option.map_eq_none_iff]
    refine Option.eq_none_iff_forall_ne_some.mpr fun r he => ?_
    have hmem : ' ' ∈ key := by simp [← isPrefixOf?_eq_some_iff_append_eq.mp he]
    exact absurd (isEnvName_char hkey hmem).1 (by decide)
  have hsplit := splitOnce_append (fun h => (isEnvName_char hkey h).2.1 rfl) ('"' :: value ++ ['"'])
  cases key with
  | nil => cases hkey
  | cons c rest =>
    obtain ⟨hc, -, hh⟩ := isEnvName_char hkey mem_cons_self
    have hline := hend (c :: rest ++ '=' :: '"' :: value) (dropWhile_cons_of_neg (by simp [hc]))
    refine (parseDotenvLine_eq_ok debug path ?_).mpr
      ⟨_, _, hsplit, by rwa [htrim], by rw [htrim, hend ('"' :: value) rfl, hq]⟩
    simp only [assignmentLine, hline, hexp]
    simp [hh]

/-- **A comment behind an assignment is harmless exactly when the value is neither empty nor in
quotes**, whatever else stands on the line. A value in double quotes is read as it stands. -/
theorem parseDotenv_comment_iff :
    (∀ content content' before after raw comment line key value pairs,
      parseDotenv debug path content = .ok pairs →
      strLines content = before ++ raw :: after →
      strLines content' = before ++ (raw ++ ' ' :: '#' :: comment) :: after →
      assignmentLine raw = some line → splitOnce '=' line = some (key, value) →
      (∀ c ∈ comment, c ≠ '"' ∧ c ≠ '\'') →
      (parseDotenv debug path content' = .ok pairs ↔
        trim value ≠ [] ∧ isQuoted (trim value) = false)) ∧
    ∀ index key value, isEnvName key →
      parseDotenvLine debug path index (key ++ '=' :: '"' :: value ++ ['"']) =
        .ok [(key, value)] := by
  refine ⟨fun _ _ before after raw comment line key value pairs hok hls hls' hl hs hq => ?_,
    fun index key value => parseDotenvLine_quoted debug path index value⟩
  have hc : Commented raw (raw ++ ' ' :: '#' :: comment) := ⟨[], comment, rfl, hq, rfl⟩
  obtain ⟨line', hl', hc⟩ := assignmentLine_commented hc hl (by simp [append_of_splitOnce hs])
  obtain ⟨value', hs', hc⟩ := splitOnce_commented hc hs
  rw [← dotenvValue_trim_commented hc]
  rw [parseDotenv, hls, zipIdx_append, mapM_append, zipIdx_cons, mapM_cons] at hok
  obtain ⟨_, h, hok⟩ := bind_eq_ok.mp hok
  obtain ⟨ps, hps, h⟩ := bind_eq_ok.mp h
  obtain ⟨_, h', h⟩ := bind_eq_ok.mp h
  obtain ⟨p, hp, h'⟩ := bind_eq_ok.mp h'
  obtain ⟨rs, hrs, h'⟩ := bind_eq_ok.mp h'
  obtain ⟨_, _, hkv, hname, rfl⟩ := (parseDotenvLine_eq_ok debug path hl).mp hp
  cases hs.symm.trans hkv
  cases h'
  cases h
  cases hok
  have hp' (n : ℕ) : parseDotenvLine debug path n _ = _ :=
    (parseDotenvLine_eq_ok debug path hl').mpr ⟨_, _, hs', hname, rfl⟩
  rw [parseDotenv, hls', zipIdx_append, mapM_append, zipIdx_cons, mapM_cons, hps, hp', hrs]
  simp [bind, Except.bind, pure, Except.pure]

theorem parseDotenv_comment_iff_plain :
    parseDotenv id ".env" "A=x # c" = .ok [("A", "x")] :=
  ((parseDotenv_comment_iff id ".env").1 "A=x" "A=x # c" [] [] "A=x" [' ', 'c'] "A=x" "A" "x" _
    rfl rfl rfl rfl rfl (by simp)).mpr ⟨by decide, by decide⟩

/-- The value of `A="x" # c` has the quotes. -/
theorem parseDotenv_comment_quotes :
    parseDotenv id ".env" "A=\"x\"" = .ok [("A", "x")] ∧
      parseDotenv id ".env" "A=\"x\" # c" = .ok [("A", "\"x\"")] := ⟨rfl, rfl⟩

end Omg.Env
