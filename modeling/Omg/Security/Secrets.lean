import Omg.Text.Paragraphs

/-!
# Finding secrets in texts

Each line is searched with each pattern, and what the last group captures is the value of a secret.
A value that looks like a placeholder is not reported.

The regular expressions are a parameter, by the matches in a line that do not overlap, from the
left.

Source: `src/core/security/secrets.rs`.
-/

namespace Omg.Security

open Text List

inductive SecretType
  | awsAccessKey | awsSecretKey | githubToken | gitlabToken | slackToken | slackWebhook | privateKey
  | genericApiKey | genericPassword | jwtToken | googleApiKey | stripeKey | twilioKey | sendgridKey
  | npmToken | pypiToken | dockerHubToken | herokuApiKey | digitalOceanToken | googleOAuth |
      openAiKey
deriving DecidableEq

inductive SecretSeverity
  | low | medium | high | critical
deriving DecidableEq

structure Captures where
  groups : List (Option Text)
deriving DecidableEq

namespace Captures

def matched (captures : Captures) : Text := (captures.groups.head?.getD none).getD []

def secretValue (captures : Captures) : Text :=
  (captures.groups.getLast?.getD none).getD captures.matched

end Captures

structure SecretFinding where
  secretType : SecretType
  filePath : Text
  lineNumber : ℕ
  redacted : Text
  severity : SecretSeverity
deriving DecidableEq

/-- `PATTERNS`, without the regular expressions. -/
def patterns : List (SecretType × SecretSeverity) :=
  [(.awsAccessKey, .critical), (.awsSecretKey, .critical), (.githubToken, .critical),
    (.gitlabToken, .critical), (.slackToken, .high), (.slackWebhook, .high), (.privateKey,
      .critical),
    (.jwtToken, .medium), (.googleApiKey, .high), (.googleOAuth, .critical), (.openAiKey,
      .critical),
    (.stripeKey, .critical), (.twilioKey, .high), (.sendgridKey, .high), (.npmToken, .high),
    (.pypiToken, .high), (.dockerHubToken, .high), (.herokuApiKey, .high),
    (.digitalOceanToken, .high), (.genericApiKey, .medium), (.genericPassword, .medium)]

def placeholderValues : List Text :=
  ["example", "sample", "test", "demo", "placeholder", "xxx", "yyy", "zzz", "abc", "123", "fake",
    "dummy"].map String.toList

def redact (text : Text) : Text :=
  if text.length ≤ 8 then List.replicate text.length '*'
  else text.take 4 ++ List.replicate (min (text.length - 8) 10) '*' ++ "..." ++
    text.drop (text.length - 4)

structure SecretScanner where
  /-- `Regex::captures_iter` with the expression of a pattern. -/
  capturesIter : SecretType → Text → List Captures
  /-- `str::to_lowercase`. -/
  toLowercase : Text → Text

namespace SecretScanner

variable (scanner : SecretScanner)

/-- `Regex::captures`. -/
def captures (secretType : SecretType) (line : Text) : Option Captures :=
  (scanner.capturesIter secretType line).head?

def isPlaceholder (value : Text) : Bool :=
  ["<", "$\x7b", "\x7b\x7b"].any (fun marker => containsText value marker.toList) ||
    placeholderValues.contains (scanner.toLowercase (trim value)) ||
    ["your_", "my_", "example_", "sample_", "placeholder_"].any
      fun start => start.toList.isPrefixOf (scanner.toLowercase (trim value))

def scanPattern (source line : Text) (lineNumber : ℕ) (pattern : SecretType × SecretSeverity) :
    Option SecretFinding :=
  match scanner.captures pattern.1 line with
  | none => none
  | some captures =>
    if scanner.isPlaceholder captures.secretValue then none
    else some ⟨pattern.1, source, lineNumber, redact captures.matched, pattern.2⟩

/-- `scan_content`. -/
def scanContent (content source : Text) : List SecretFinding :=
  (strLines content).zipIdx.flatMap fun line =>
    patterns.filterMap (scanner.scanPattern source line.1 (line.2 + 1))

variable {scanner}

lemma exists_pattern (secretType : SecretType) : ∃ pattern ∈ patterns, pattern.1 = secretType := by
  cases secretType <;> decide

lemma scanPattern_eq_some {src line : Text} {lineNumber : ℕ}
    {pat : SecretType × SecretSeverity} {fdg : SecretFinding} :
    scanner.scanPattern src line lineNumber pat = some fdg ↔
      ∃ cps, scanner.captures pat.1 line = some cps ∧
        scanner.isPlaceholder cps.secretValue = false ∧
        fdg = ⟨pat.1, src, lineNumber, redact cps.matched, pat.2⟩ := by
  unfold scanPattern
  cases scanner.captures pat.1 line with
  | none => simp
  | some cps =>
    simp only [Option.some.injEq, exists_eq_left']
    split_ifs with hph
    · simp [hph]
    · rw [Option.some.injEq, eq_comm, Bool.eq_false_iff.mpr hph, eq_self, true_and]

lemma exists_finding_iff {content source line : Text} {i : ℕ}
    (hl : (strLines content)[i]? = some line) (secretType : SecretType) :
    (∃ finding ∈ scanner.scanContent content source, finding.secretType = secretType ∧
        finding.lineNumber = i + 1) ↔ ∃ captures, scanner.captures secretType line = some captures ∧
        scanner.isPlaceholder captures.secretValue = false := by
  simp only [scanContent, mem_flatMap, mem_filterMap, scanPattern_eq_some]
  constructor
  · rintro ⟨finding, ⟨⟨line', j⟩, hmem, pattern, -, captures, hcap, hph, rfl⟩, rfl, hnum⟩
    obtain rfl : j = i := Nat.succ_injective hnum
    obtain rfl := Option.some.inj ((mem_zipIdx_iff_getElem?.mp hmem).symm.trans hl)
    exact ⟨captures, hcap, hph⟩
  · rintro ⟨captures, hcap, hph⟩
    obtain ⟨pattern, hpat, rfl⟩ := exists_pattern secretType
    exact ⟨_, ⟨(line, i), mem_zipIdx_iff_getElem?.mpr hl, pattern, hpat, captures,
      hcap, hph, rfl⟩, rfl, rfl⟩

/-- **Hidden secrets.** A secret among the matches of a pattern in a line is reported with the type
of the pattern and the number of the line exactly if the leftmost one of the matches is no
placeholder. The text in front of the secret decides which match this is. -/
theorem scanContent_reports_iff (scanner : SecretScanner) (content source line : Text) (i : ℕ)
    (hline : (strLines content)[i]? = some line) (secretType : SecretType) :
    (∀ secret ∈ scanner.capturesIter secretType line,
      scanner.isPlaceholder secret.secretValue = false →
      ∃ finding ∈ scanner.scanContent content source, finding.secretType = secretType ∧
        finding.lineNumber = i + 1) ↔
    ∀ secret ∈ scanner.capturesIter secretType line,
      scanner.isPlaceholder secret.secretValue = false →
      ∃ leftmost, (scanner.capturesIter secretType line).head? = some leftmost ∧
        scanner.isPlaceholder leftmost.secretValue = false :=
  forall₂_congr fun _ _ => imp_congr_right fun _ => exists_finding_iff hline secretType

end SecretScanner

/-! ### A placeholder in front -/

/-- A scanner for words that begin with `pwd=`. -/
def passwordScanner : SecretScanner where
  capturesIter
    | .genericPassword, line => (line.splitOn ' ').filterMap fun word =>
        (stripPrefix "pwd=" word).map fun value =>
          ⟨[some word, some "pwd", some value]⟩
    | _, _ => []
  toLowercase := toAsciiLowercase

theorem scanContent_reports_plain :
    ∃ finding ∈ passwordScanner.scanContent "pwd=hunter22".toList [],
      finding.secretType = .genericPassword ∧ finding.lineNumber = 1 :=
  (SecretScanner.scanContent_reports_iff passwordScanner "pwd=hunter22" []
    "pwd=hunter22" 0 (by decide) .genericPassword).mpr (fun _ _ _ => ⟨_, rfl, by decide⟩)
      ⟨[some "pwd=hunter22", some "pwd", some "hunter22"]⟩ (by decide)
        (by decide)

/-- A placeholder that is put in front of a password, which stays a match, hides it. -/
theorem scanContent_hides :
    (∃ secret ∈ passwordScanner.capturesIter .genericPassword "pwd=my_pass1 pwd=hunter22".toList,
      secret.secretValue = "hunter22".toList ∧
      passwordScanner.isPlaceholder secret.secretValue = false) ∧
    passwordScanner.scanContent "pwd=my_pass1 pwd=hunter22".toList [] = [] :=
  ⟨⟨⟨[some "pwd=hunter22", some "pwd", some "hunter22"]⟩, by decide, by decide,
    by decide⟩, by decide⟩

end Omg.Security
