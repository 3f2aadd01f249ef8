import Omg.Control.Steps
import Omg.Text.Glob

/-!
# Ignore rules of a build context

How Docker reads an ignore file and which paths of the build context the file excludes. A path is
the list of its components, relative to the root of the context. A rule that matches a directory
covers everything below it, the last rule that covers a path decides, and a rule with an exclamation
mark includes again.

The pattern language has more than the patterns used here, so the matcher itself is a parameter: it
is assumed to behave as documented on patterns of one component.
-/

namespace Omg.Container

open List Text

structure Rule where
  negated : Bool
  pattern : Text
  deriving DecidableEq, Repr

def ruleOfTrimmed : Text → Option Rule
  | [] => none
  | c :: rest => some (if c = '!' then ⟨true, trim rest⟩ else ⟨false, c :: rest⟩)

def ruleOfLine (line : Text) : Option Rule :=
  if line.head? = some '#' then none else ruleOfTrimmed (trim line)

def stripByteOrderMark (content : Text) : Text :=
  if content.head? = some '\uFEFF' then content.tail else content

def rulesOfLines (lines : List Text) : List Rule := lines.filterMap ruleOfLine

def rules (content : Text) : List Rule := rulesOfLines ((stripByteOrderMark content).splitOn '\n')

lemma stripByteOrderMark_append {s : Text} (hs : s ≠ []) (t : Text) :
    stripByteOrderMark (s ++ t) = stripByteOrderMark s ++ t := by
  cases s with
  | nil => exact absurd rfl hs
  | cons c s =>
    unfold stripByteOrderMark
    rw [cons_append, head?_cons, head?_cons]
    by_cases hc : some c = some '\uFEFF'
    · rw [if_pos hc, if_pos hc, tail_cons, tail_cons]
    · rw [if_neg hc, if_neg hc, cons_append]

lemma rulesOfLines_append (l l' : List Text) :
    rulesOfLines (l ++ l') = rulesOfLines l ++ rulesOfLines l' := filterMap_append

lemma rules_append_newline (s t : Text) :
    rules (s ++ '\n' :: t) = rules s ++ rulesOfLines (t.splitOn '\n') := by
  cases s with
  | nil => rfl
  | cons c s =>
    rw [rules, stripByteOrderMark_append (cons_ne_nil c s), splitOn_append_cons_self,
      rulesOfLines_append, rules]

/-! ### Matching -/

def isPlain (c : Char) : Bool := c != '/' && c != '?' && c != '[' && c != '\\'

def IsComponent (pattern : Text) : Prop :=
  pattern ≠ ['.'] ∧ pattern ≠ ['.', '.'] ∧ pattern.all isPlain = true ∧
    containsText pattern ['*', '*'] = false

instance (pattern : Text) : Decidable (IsComponent pattern) := inferInstanceAs (Decidable (_ ∧ _))

/-- Docker's pattern matcher. A path is matched as a whole from the root of the context, and a star
does not cross a separator. -/
structure Matcher where
  matchesPath : Text → List Text → Bool
  matchesPath_component : ∀ {pattern : Text}, IsComponent pattern → ∀ path,
    matchesPath pattern path = true ↔ ∃ name, path = [name] ∧ glob pattern name = true
  matchesPath_slash : ∀ {pattern : Text}, IsComponent pattern →
    matchesPath (pattern ++ ['/']) = matchesPath pattern

namespace Matcher

variable (docker : Matcher)

def covers (pattern : Text) (path : List Text) : Bool :=
  path.inits.any fun above => above ≠ [] && docker.matchesPath pattern above

def decideRule (path : List Text) (excluded : Bool) (rule : Rule) : Bool :=
  if docker.covers rule.pattern path then !rule.negated else excluded

def decideAll (path : List Text) (excluded : Bool) (l : List Rule) : Bool :=
  l.foldl (docker.decideRule path) excluded

def Excludes (content : Text) (path : List Text) : Prop :=
  docker.decideAll path false (rules content) = true

instance (content : Text) (path : List Text) : Decidable (docker.Excludes content path) :=
  inferInstanceAs (Decidable (_ = true))

section

variable (path : List Text)

include path

lemma decideAll_append (exc : Bool) (l l' : List Rule) : docker.decideAll path exc (l ++ l') =
      docker.decideAll path (docker.decideAll path exc l) l' := foldl_append

@[simp] lemma decideAll_nil (exc : Bool) :
    docker.decideAll path exc [] = exc := rfl

lemma decideAll_cons (exc : Bool) (rule : Rule) (l : List Rule) :
    docker.decideAll path exc (rule :: l) =
      docker.decideAll path (docker.decideRule path exc rule) l := rfl

lemma decideRule_plain (exc : Bool) (pat : Text) :
    docker.decideRule path exc ⟨false, pat⟩ = (docker.covers pat path || exc) := by
  unfold decideRule
  cases docker.covers pat path <;> rfl

lemma decideRule_negated (exc : Bool) (pat : Text) :
    docker.decideRule path exc ⟨true, pat⟩ = (!docker.covers pat path && exc) := by
  unfold decideRule
  cases docker.covers pat path <;> rfl

end

lemma covers_iff (pat : Text) (path : List Text) : docker.covers pat path ↔
      ∃ abv, abv <+: path ∧ abv ≠ [] ∧ docker.matchesPath pat abv = true := by
  simp [covers]

lemma covers_slash {pat : Text} (h : IsComponent pat) :
    docker.covers (pat ++ ['/']) = docker.covers pat := by
  funext path
  simp only [covers, docker.matchesPath_slash h]

lemma covers_component {pat : Text} (h : IsComponent pat) (c : Text)
    (bel : List Text) : docker.covers pat (c :: bel) = glob pat c := by
  rw [Bool.eq_iff_iff, covers_iff]
  constructor
  · rintro ⟨abv, hab, -, hmat⟩
    obtain ⟨name, rfl, hgl⟩ := (docker.matchesPath_component h abv).mp hmat
    obtain ⟨rfl, -⟩ := cons_prefix_cons.mp hab
    exact hgl
  · intro hgl
    refine ⟨[c], ⟨bel, rfl⟩, cons_ne_nil c [], ?_⟩
    exact (docker.matchesPath_component h [c]).mpr ⟨c, rfl, hgl⟩

end Matcher

/-! ### A matcher -/

def stripSlash (pattern : Text) : Text :=
  if pattern.getLast? = some '/' then pattern.dropLast else pattern

def matchNames : List Text → List Text → Bool
  | [], [] => true
  | pattern :: patterns, name :: names => glob pattern name && matchNames patterns names
  | _, _ => false

lemma IsComponent.slash_notMem {pat : Text} (h : IsComponent pat) : '/' ∉ pat :=
  fun hslash => absurd (all_eq_true.mp h.2.2.1 '/' hslash) (by decide)

lemma stripSlash_component {pat : Text} (h : IsComponent pat) : stripSlash pat = pat := by
  exact if_neg fun hla => h.slash_notMem (mem_of_getLast? hla)

lemma splitOn_component {pat : Text} (h : IsComponent pat) :
    pat.splitOn '/' = [pat] := splitOn_eq_singleton h.slash_notMem

lemma matchNames_singleton (pat : Text) (path : List Text) :
    matchNames [pat] path ↔ ∃ name, path = [name] ∧ glob pat name = true := by
  match path with
  | [] => simp [matchNames]
  | [name] => simp [matchNames]
  | name :: next :: ns => simp [matchNames]

def Matcher.byComponent : Matcher where
  matchesPath pattern path := matchNames ((stripSlash pattern).splitOn '/') path
  matchesPath_component := by
    intro pattern h path
    rw [stripSlash_component h, splitOn_component h, matchNames_singleton]
  matchesPath_slash := by
    intro pattern h
    have hslash : stripSlash (pattern ++ ['/']) = pattern := by simp [stripSlash]
    rw [hslash, stripSlash_component h]

/-!
### The ignore files of a generated development container

A generated Dockerfile copies the whole build context into the image. Before it is written, the
ignore files of the context get a last block of rules that is to keep credentials and repository
internals out. The block is appended after the rules of the user, so that no earlier rule can undo
it; a file that already ends with the block is left alone.

Source: `src/core/container.rs`, `src/config/mise_env.rs`, `src/core/safe_ops.rs`.
-/

open Control Function Steps Matcher

def gitDir : Text := ".git"

def envFile : Text := ".env"

def envVariant : Text := ".env."

def envExample : Text := ".env.example"

def pemSuffix : Text := ".pem"

def keySuffix : Text := ".key"

def rsaStart : Text := "id_rsa"

def omgDir : Text := ".omg"

/-- `DOCKERIGNORE_ENTRIES`. -/
def dockerignoreEntries : List Text :=
  [gitDir, envFile, envVariant ++ ['*'], '!' :: envExample, '*' :: pemSuffix, '*' :: keySuffix,
    rsaStart ++ ['*'], omgDir ++ ['/']]

/-- `DOCKERIGNORE_MARKER`. -/
def dockerignoreMarker : Text := "# added by omg container init"

def entriesText : Text := dockerignoreEntries.flatMap fun entry => entry ++ ['\n']

def protection : Text := dockerignoreMarker ++ '\n' :: entriesText

/-! ### The files -/

inductive IgnoreName
  | dockerignore
  | dockerfileOmg
  | containerignore
  deriving DecidableEq, Repr

def IgnoreName.fileName : IgnoreName → Text
  | .dockerignore => ".dockerignore"
  | .dockerfileOmg => "Dockerfile.omg.dockerignore"
  | .containerignore => ".containerignore"

inductive IgnoreFile
  | absent
  | unopenable (error : AnyhowError)
  | special
  /-- A regular file whose bytes are not UTF-8: their number and the error of the decoder. -/
  | binary (size : ℕ) (error : Text)
  | text (content : Text)
  deriving DecidableEq, Repr

/-- The ignore files of a build context. -/
abbrev IgnoreFiles := IgnoreName → IgnoreFile

/-- `MAX_ENV_FILE_BYTES`. -/
def maxEnvFileBytes : ℕ := 1024 * 1024

def envFileMessage (path reason : Text) : Text := "Env file " ++ path ++ reason

def exceedsMessage (path : Text) : Text :=
  envFileMessage path
    (" exceeds " ++ decimal maxEnvFileBytes ++ " bytes; refusing to load")

def failedToReadMessage (path : Text) : Text := "Failed to read " ++ path

/-- `read_bounded_regular_file`. -/
def readBoundedRegularFile (path : Text) : IgnoreFile → Result (Option Text)
  | .absent => .ok none
  | .unopenable error => .error ((failedToReadMessage path ++
      " as a regular file (symlinks are not a regular file)") :: error)
  | .special =>
      bail (envFileMessage path " is not a regular file; refusing to load")
  | .binary size error =>
      if size ≤ maxEnvFileBytes then
        .error [envFileMessage path " is not valid UTF-8", error]
      else bail (exceedsMessage path)
  | .text content =>
      if byteLen content ≤ maxEnvFileBytes then .ok (some content)
      else bail (exceedsMessage path)

/-- `Path::join` of the root of the context and the name of a file. -/
def ignorePath (root : Text) (name : IgnoreName) : Text := root ++ '/' :: name.fileName

/-- `atomic_write_file_sync`: the text is staged in a temporary file of the same directory, which is
renamed to the path; then the directory is synced. -/
def atomicWriteFileSync (root : Text) (name : IgnoreName) (output : Text) :
    Steps IgnoreFiles AnyhowError Unit := do
  step ["Failed to write temporary file for " ++ ignorePath root name]
    fun files => (.ok (), files)
  step ["Failed to replace " ++ ignorePath root name]
    fun files => (.ok (), update files name (.text output))
  step ["Failed to sync parent directory: " ++ root] fun files => (.ok (), files)

def endLine (content : Text) : Text :=
  if content ≠ [] ∧ content.getLast? ≠ some '\n' then content ++ ['\n'] else content

/-- What `ensure_dockerignore_file` writes, if anything, by what it has read. -/
def pendingOutput (create : Bool) (existing : Option Text) : Option Text :=
  if existing.isNone && !create then none
  else if protection.isSuffixOf (existing.getD []) then none
  else some (endLine (existing.getD []) ++ protection)

/-- The write at the end of `ensure_dockerignore_file`. -/
def writePending (root : Text) (name : IgnoreName) :
    Option Text → Steps IgnoreFiles AnyhowError Unit
  | none => pure ()
  | some output =>
      (atomicWriteFileSync root name output).mapError
        (("Failed to write " ++ ignorePath root name) :: ·)

/-- `ensure_dockerignore_file`. -/
def ensureDockerignoreFile (root : Text) (name : IgnoreName) (create : Bool) :
    Steps IgnoreFiles AnyhowError Unit := do
  let existing ← step [failedToReadMessage (ignorePath root name)]
    fun files => (readBoundedRegularFile (ignorePath root name) (files name), files)
  writePending root name (pendingOutput create existing)

/-- `ensure_dockerignore`. -/
def ensureDockerignore (root : Text) : Steps IgnoreFiles AnyhowError Unit := do
  ensureDockerignoreFile root .dockerignore true
  ensureDockerignoreFile root .dockerfileOmg false
  ensureDockerignoreFile root .containerignore false

/-! ### What the block is for -/

def SecretName (name : Text) : Prop :=
  name = envFile ∨ (envVariant <+: name ∧ name ≠ envExample) ∨ pemSuffix <:+ name ∨
    keySuffix <:+ name ∨ rsaStart <+: name

def InternalName (name : Text) : Prop := name = gitDir ∨ name = omgDir

instance : DecidablePred SecretName := fun _ => inferInstanceAs (Decidable (_ ∨ _))

instance : DecidablePred InternalName := fun _ => inferInstanceAs (Decidable (_ ∨ _))

/-- A path that is to be kept out of the image: a credential, or something below a directory of
repository internals, at any depth. -/
def Sensitive (path : List Text) : Prop :=
  (∃ above name, path = above ++ [name] ∧ SecretName name) ∨
    ∃ above dir below, path = above ++ dir :: below ∧ below ≠ [] ∧ InternalName dir

def Matcher.ExcludedBy (docker : Matcher) : IgnoreFile → List Text → Prop
  | .text content, path => docker.Excludes content path
  | _, _ => False

/-- The paths that a file keeps out once the block stands at its end: those whose first component
has the name of a credential or of a directory of internals, and what the file excluded before,
unless it is below the example that the block includes again. -/
def Matcher.KeptOut (docker : Matcher) (existing : IgnoreFile) (path : List Text) : Prop :=
  ∃ first ∈ path.head?, SecretName first ∨ InternalName first ∨
    (first ≠ envExample ∧ docker.ExcludedBy existing path)

/-! ### The effect of the block -/

def blockRules : List Rule :=
  [⟨false, gitDir⟩, ⟨false, envFile⟩, ⟨false, envVariant ++ ['*']⟩, ⟨true, envExample⟩,
    ⟨false, '*' :: pemSuffix⟩, ⟨false, '*' :: keySuffix⟩, ⟨false, rsaStart ++ ['*']⟩,
    ⟨false, omgDir ++ ['/']⟩]

lemma rulesOfLines_entriesText : rulesOfLines (entriesText.splitOn '\n') = blockRules := by
  decide +kernel

lemma covers_literal (dk : Matcher) (name : Text) (h : IsComponent name) (hst : '*' ∉ name)
    (c : Text) (bel : List Text) : dk.covers name (c :: bel) = true ↔ c = name := by
  rw [dk.covers_component h, glob_literal hst]

lemma covers_starEnd (dk : Matcher) (st : Text) (h : IsComponent (st ++ ['*']))
    (hst : '*' ∉ st) (c : Text) (bel : List Text) :
    dk.covers (st ++ ['*']) (c :: bel) = true ↔ st <+: c := by
  rw [dk.covers_component h, glob_star_end hst]

lemma covers_starStart (dk : Matcher) (rest : Text) (h : IsComponent ('*' :: rest))
    (hst : '*' ∉ rest) (c : Text) (bel : List Text) :
    dk.covers ('*' :: rest) (c :: bel) = true ↔ rest <:+ c := by
  rw [dk.covers_component h, glob_star_start hst]

lemma covers_directory (dk : Matcher) (name : Text) (h : IsComponent name)
    (hst : '*' ∉ name) (c : Text) (bel : List Text) :
    dk.covers (name ++ ['/']) (c :: bel) = true ↔ c = name := by
  rw [dk.covers_slash h, covers_literal dk name h hst]

lemma block_decision {git env variant sample pem key rsa omg exc : Prop}
    (hgit : git → ¬sample) (henv : env → ¬sample) :
    (omg ∨ rsa ∨ key ∨ pem ∨ ¬sample ∧ (variant ∨ env ∨ git ∨ exc)) ↔
      (env ∨ variant ∧ ¬sample ∨ pem ∨ key ∨ rsa) ∨ (git ∨ omg) ∨ ¬sample ∧ exc := by
  tauto

lemma block_decision_again {secret internal oth exc : Prop} : (secret ∨ internal ∨ oth ∧ exc) ↔
      secret ∨ internal ∨ oth ∧ (secret ∨ internal ∨ oth ∧ exc) := by
  tauto

lemma decideAll_blockRules (dk : Matcher) (c : Text) (bel : List Text) (exc : Bool) :
    dk.decideAll (c :: bel) exc blockRules ↔
      SecretName c ∨ InternalName c ∨ (c ≠ envExample ∧ exc) := by
  have hgit := covers_literal dk gitDir (by decide +kernel) (by decide) c bel
  have henv := covers_literal dk envFile (by decide +kernel) (by decide) c bel
  have hvar := covers_starEnd dk envVariant (by decide +kernel) (by decide) c bel
  have hexa := covers_literal dk envExample (by decide +kernel) (by decide) c bel
  have hpem := covers_starStart dk pemSuffix (by decide +kernel) (by decide) c bel
  have hkey := covers_starStart dk keySuffix (by decide +kernel) (by decide) c bel
  have hrsa := covers_starEnd dk rsaStart (by decide +kernel) (by decide) c bel
  have homg := covers_directory dk omgDir (by decide +kernel) (by decide) c bel
  simp only [blockRules, decideAll_cons, decideAll_nil, decideRule_plain,
    decideRule_negated, Bool.or_eq_true, Bool.and_eq_true, Bool.not_eq_true',
    Bool.eq_false_iff, ne_eq, hgit, henv, hvar, hexa, hpem, hkey, hrsa, homg]
  have hgtn : c = gitDir → ¬c = envExample := fun h => h ▸ by decide
  have hen : c = envFile → ¬c = envExample := fun h => h ▸ by decide
  exact block_decision hgtn hen

lemma rules_append_protection (s : Text) :
    rules (s ++ protection) = rules (s ++ dockerignoreMarker) ++ blockRules := by
  rw [protection, ← append_assoc, rules_append_newline, rulesOfLines_entriesText]

lemma rules_append_line_end (s : Text) : rules (s ++ ['\n']) = rules s := by
  have hem : rulesOfLines (([] : Text).splitOn '\n') = [] := by decide +kernel
  rw [rules_append_newline, hem, append_nil]

lemma rules_append_line_marker (s : Text) : rules (s ++ '\n' :: dockerignoreMarker) = rules s := by
  have hmk : rulesOfLines (dockerignoreMarker.splitOn '\n') = [] := by decide +kernel
  rw [rules_append_newline, hmk, append_nil]

lemma rules_endLine_append_marker (existing : Text) :
    rules (endLine existing ++ dockerignoreMarker) = rules existing := by
  rcases eq_nil_or_concat' existing with rfl | ⟨line, c, rfl⟩
  · decide +kernel
  unfold endLine
  by_cases hc : c = '\n'
  · subst hc
    rw [if_neg (by simp), append_assoc, singleton_append, rules_append_line_marker,
      rules_append_line_end]
  · rw [if_pos (by simp [hc]), append_assoc _ ['\n'], singleton_append, rules_append_line_marker]

lemma excludes_append_protection (dk : Matcher) (s c : Text) (bel : List Text) :
    dk.Excludes (s ++ protection) (c :: bel) ↔ SecretName c ∨ InternalName c ∨
      (c ≠ envExample ∧ dk.Excludes (s ++ dockerignoreMarker) (c :: bel)) := by
  rw [Matcher.Excludes, rules_append_protection, dk.decideAll_append, decideAll_blockRules]
  rfl

/-! ### The runs -/

/-- What `ensure_dockerignore_file` makes of a file when it succeeds. -/
inductive Protected (create : Bool) : IgnoreFile → IgnoreFile → Prop
  | skipped (h : create = false) : Protected create .absent .absent
  | created (h : create = true) : Protected create .absent (.text (endLine [] ++ protection))
  | kept {content : Text} (h : protection <:+ content) :
      Protected create (.text content) (.text content)
  | appended {content : Text} (h : ¬protection <:+ content) :
      Protected create (.text content) (.text (endLine content ++ protection))

inductive Settled (create : Bool) : IgnoreFile → Prop
  | absent (h : create = false) : Settled create .absent
  | text {content : Text} (h : protection <:+ content) : Settled create (.text content)

variable {create : Bool} {file : IgnoreFile} {existing : Option Text} {path : Text}

lemma Protected.settled {existing : IgnoreFile} (h : Protected create existing file) :
    Settled create file := by
  cases h with
  | skipped h => exact .absent h
  | kept h => exact .text h
  | _ h => exact .text ⟨_, rfl⟩

lemma Protected.ne_absent {existing : IgnoreFile} (h : Protected true existing file) :
    file ≠ .absent := by
  rintro rfl
  cases h with
  | skipped h => cases h

lemma Protected.excludedBy_iff {dk : Matcher} {existing : IgnoreFile}
    (h : Protected create existing file) (hf : file ≠ .absent) (c : Text) (bel : List Text) :
    dk.ExcludedBy file (c :: bel) ↔ dk.KeptOut existing (c :: bel) := by
  have hk : dk.KeptOut existing (c :: bel) ↔ SecretName c ∨ InternalName c ∨
      (c ≠ envExample ∧ dk.ExcludedBy existing (c :: bel)) := by
    simp [Matcher.KeptOut]
  rw [hk]
  cases h with
  | skipped h => exact absurd rfl hf
  | created h =>
    have hno : dk.Excludes (endLine [] ++ dockerignoreMarker) (c :: bel) ↔ False := by
      exact iff_false_intro Bool.false_ne_true
    exact (excludes_append_protection dk _ c bel).trans (by rw [hno]; rfl)
  | kept h =>
    obtain ⟨s, rfl⟩ := h
    -- The block stands there already: applying it once more changes no decision.
    have hblo := excludes_append_protection dk s c bel
    rw [Matcher.ExcludedBy, hblo]
    exact block_decision_again
  | appended h =>
    refine (excludes_append_protection dk _ c bel).trans ?_
    rw [Matcher.Excludes, rules_endLine_append_marker]
    rfl

lemma readBoundedRegularFile_ok (h : readBoundedRegularFile path file = .ok existing) :
    (file = .absent ∧ existing = none) ∨ ∃ txt, file = .text txt ∧ existing = some txt := by
  cases file with
  | absent => exact .inl ⟨rfl, (Except.ok.inj h).symm⟩
  | text txt =>
    rw [readBoundedRegularFile] at h
    split_ifs at h with hsz
    · exact .inr ⟨txt, rfl, (Except.ok.inj h).symm⟩
    · cases h
  | unopenable error => cases h
  | special => cases h
  | binary size error =>
    rw [readBoundedRegularFile] at h
    split_ifs at h
    cases h

lemma protected_pendingOutput (create : Bool)
    (h : readBoundedRegularFile path file = .ok existing) : Protected create file
      ((pendingOutput create existing).elim file fun out => .text out) := by
  unfold pendingOutput
  rcases readBoundedRegularFile_ok h with ⟨rfl, rfl⟩ | ⟨txt, rfl, rfl⟩
  · cases create with
    | false => exact .skipped rfl
    | true => exact .created rfl
  · rw [Option.getD_some]
    by_cases hsf : protection <:+ txt
    · rw [if_pos (isSuffixOf_iff_suffix.mpr hsf)]
      exact .kept hsf
    · rw [if_neg (isSuffixOf_iff_suffix.not.mpr hsf)]
      exact .appended hsf

lemma Settled.pendingOutput (hf : Settled create file)
    (h : readBoundedRegularFile path file = .ok existing) :
    Container.pendingOutput create existing = none := by
  unfold Container.pendingOutput
  cases hf with
  | absent hcre =>
    cases h
    rw [hcre]
    rfl
  | text hsf =>
    rcases readBoundedRegularFile_ok h with ⟨hab, -⟩ | ⟨txt, htx, rfl⟩
    · cases hab
    cases htx
    rw [if_neg (by simp), Option.getD_some, if_pos (isSuffixOf_iff_suffix.mpr hsf)]

/-- The rule of `ensure_dockerignore_file`: the other files are not touched. -/
lemma ensureDockerignoreFile_ensures (root : Text) (name : IgnoreName) (create : Bool)
    (fs : IgnoreFiles) : Ensures (· = fs) (ensureDockerignoreFile root name create)
      (fun _ w => ∃ file, Protected create (fs name) file ∧ w = update fs name file)
      fun _ _ => True := by
  refine Satisfies.bind (Q := fun existing w => w = fs ∧
    readBoundedRegularFile (ignorePath root name) (fs name) = .ok existing) ?_ ?_
  · refine .step (fun _ _ _ => trivial) ?_
    rintro w - rfl
    exact ⟨trivial, fun existing h => ⟨rfl, h⟩, fun _ _ => trivial⟩
  intro existing
  refine .of_forall ?_
  rintro w - ⟨rfl, hrd⟩
  have hpro := protected_pendingOutput create hrd
  cases hpe : pendingOutput create existing with
  | none =>
    rw [hpe] at hpro
    refine .pure ?_
    rintro w' - rfl
    exact ⟨_, hpro, (update_eq_self name w').symm⟩
  | some out =>
    rw [hpe] at hpro
    refine .mapError (E := fun _ _ => True) ?_ fun _ _ _ => trivial
    refine .bind (Q := fun _ w' => w' = w) ?_ fun _ => .bind
      (Q := fun _ w' => w' = update w name (.text out)) ?_ fun _ => ?_
    · exact .step (fun _ _ _ => trivial) fun w' _ h => .ok trivial h
    · exact .step (fun _ _ _ => trivial) fun w' _ h => .ok trivial (by rw [h])
    · exact .step (fun _ _ _ => trivial) fun w' _ h => .ok trivial ⟨_, hpro, h⟩

def IgnoreName.isCreated : IgnoreName → Bool
  | .dockerignore => true
  | _ => false

/-- The rule of `ensure_dockerignore`. -/
lemma ensureDockerignore_ensures (root : Text) (fs : IgnoreFiles) :
    Ensures (· = fs) (ensureDockerignore root)
      (fun _ w => ∀ name, Protected name.isCreated (fs name) (w name)) fun _ _ => True := by
  refine .bind (ensureDockerignoreFile_ensures root .dockerignore true fs) fun _ => ?_
  refine .of_forall ?_
  rintro _ - ⟨first, hf, rfl⟩
  refine .bind (ensureDockerignoreFile_ensures root .dockerfileOmg false _) fun _ => ?_
  refine .of_forall ?_
  rintro _ - ⟨second, hsec, rfl⟩
  refine (ensureDockerignoreFile_ensures root .containerignore false _).post ?_
  rintro _ _ ⟨third, hthi, rfl⟩ name
  cases name with
  | dockerignore => exact hf
  | dockerfileOmg => exact hsec
  | containerignore => exact hthi

lemma ensureDockerignoreFile_settled (root : Text) {name : IgnoreName} {fs : IgnoreFiles}
    (h : Settled create (fs name)) :
    Keeps (· = fs) (fun _ => True) (ensureDockerignoreFile root name create) := by
  refine Satisfies.bind (Q := fun existing _ => pendingOutput create existing = none) ?_ ?_
  · refine .step (fun _ _ _ => trivial) ?_
    rintro w rfl -
    exact ⟨rfl, fun existing hrd => h.pendingOutput hrd, fun _ _ => trivial⟩
  intro existing
  refine .of_forall ?_
  rintro w - hpe
  rw [hpe]
  exact .pure fun _ _ _ => trivial

lemma ensureDockerignore_settled (root : Text) {fs : IgnoreFiles}
    (h : ∀ name : IgnoreName, Settled name.isCreated (fs name)) :
    Keeps (· = fs) (fun _ => True) (ensureDockerignore root) :=
  .bind (ensureDockerignoreFile_settled root (h .dockerignore)) fun _ =>
    .bind (ensureDockerignoreFile_settled root (h .dockerfileOmg)) fun _ =>
      ensureDockerignoreFile_settled root (h .containerignore)

lemma Sensitive.exists_cons {path : List Text} (h : Sensitive path) :
    ∃ first bel, path = first :: bel := by
  refine exists_cons_of_ne_nil ?_
  rcases h with ⟨abv, name, rfl, -⟩ | ⟨abv, dir, bel, rfl, -⟩ <;> simp

/-- After a run that succeeds, an ignore file that is there excludes a sensitive path exactly if the
first component of the path is a name of the block, or the file excluded the path before and the
path is not below the example that is included again. A further run changes no file, whether it
succeeds or not. -/
theorem ensureDockerignore_excludes_iff (docker : Matcher) (root : Text) (fails : ℕ → Bool)
    (before : IgnoreFiles) (after : History IgnoreFiles)
    (hrun : ensureDockerignore root fails (.start before) = (.ok (), after)) :
    after.now .dockerignore ≠ .absent ∧
      (∀ name, after.now name ≠ .absent → ∀ path, Sensitive path →
        (docker.ExcludedBy (after.now name) path ↔ docker.KeptOut (before name) path)) ∧
      ∀ fails', ∀ files ∈ (ensureDockerignore root fails' (.start after.now)).2.states,
        files = after.now := by
  obtain ⟨-, hok, -⟩ := ensureDockerignore_ensures root before fails (.start before)
    (fun _ _ => trivial) rfl
  rw [hrun] at hok
  have hpro := hok () rfl
  refine ⟨(hpro .dockerignore).ne_absent, ?_, ?_⟩
  · intro name hn path hpt
    obtain ⟨first, bel, rfl⟩ := hpt.exists_cons
    exact (hpro name).excludedBy_iff hn first bel
  · intro fails' files hfs
    have hset := ensureDockerignore_settled root fun name => (hpro name).settled
    exact (hset fails' (.start after.now) (by simp) trivial).1 files hfs

def bareProject : IgnoreFiles := fun _ => .absent

def nestedEnv : List Text := ["app", envFile]

lemma nestedEnv_sensitive : Sensitive nestedEnv := .inl ⟨["app"], envFile, rfl, .inl rfl⟩

theorem ensureDockerignore_excludes_root_env :
    ∃ after, ensureDockerignore [] (fun _ => false) (.start bareProject) = (.ok (), after) ∧
      Matcher.byComponent.ExcludedBy (after.now .dockerignore) [envFile] := by
  have hrun : ensureDockerignore [] (fun _ => false) (.start bareProject) =
      (.ok (), (ensureDockerignore [] (fun _ => false) (.start bareProject)).2) := rfl
  obtain ⟨hpre, hexc, -⟩ := ensureDockerignore_excludes_iff .byComponent [] (fun _ => false)
    bareProject _ hrun
  refine ⟨_, hrun, (hexc .dockerignore hpre [envFile] ?_).mpr ?_⟩
  · exact .inl ⟨[], envFile, rfl, .inl rfl⟩
  · exact ⟨envFile, rfl, .inl (.inl rfl)⟩

/-- The block does not reach a secret below the root of the context. -/
theorem ensureDockerignore_misses_nested_env :
    ∃ after, ensureDockerignore [] (fun _ => false) (.start bareProject) = (.ok (), after) ∧
      after.now .dockerignore ≠ .absent ∧ Sensitive nestedEnv ∧
      ¬Matcher.byComponent.ExcludedBy (after.now .dockerignore) nestedEnv := by
  refine ⟨_, rfl, IgnoreFile.noConfusion, nestedEnv_sensitive, ?_⟩
  have hnot : ¬byComponent.Excludes (endLine [] ++ protection) nestedEnv := by decide +kernel
  exact hnot

end Omg.Container
