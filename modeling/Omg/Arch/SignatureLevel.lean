import Mathlib.Data.Finset.Basic
import Mathlib.Data.Finset.Lattice.Lemmas
import Omg.Security.Artifact
import Omg.Text.Paragraphs

/-!
# Signature levels of ALPM transactions

A signature level is a set of flags: whether packages and databases need signatures, whether a
missing signature is tolerated, and which keys are trusted. The levels of the handle, of the
repositories and of local package files are folded from the directives of the configuration, and a
policy of OMG that requires signatures is imposed on them.

What ALPM and the file system answer are parameters. The staging of local files in front of a
transaction, mirrors, hooks and callbacks are left out.

Source: `src/package_managers/alpm_ops.rs`, `src/core/security/validation.rs`.
-/

namespace Omg

open List Text Control

namespace Arch

open Text (ensure bail required withContext)
open Security (isLocalPackageFile)

inductive SigFlag
  | package
  | packageOptional
  | packageMarginalOk
  | packageUnknownOk
  | database
  | databaseOptional
  | databaseMarginalOk
  | databaseUnknownOk
  | useDefault
  deriving DecidableEq

abbrev SigLevel := Finset SigFlag

def Requires (level : SigLevel) : Prop := .package ∈ level ∧ .packageOptional ∉ level

instance (level : SigLevel) : Decidable (Requires level) := inferInstanceAs (Decidable (_ ∧ _))

/-! ### Directives -/

structure ParsedSignatureLevel where
  level : SigLevel
  mask : SigLevel

def setSignatureFlags (parsed : ParsedSignatureLevel) (flags : SigLevel) : ParsedSignatureLevel :=
  ⟨parsed.level ∪ flags, parsed.mask ∪ flags⟩

def unsetSignatureFlags (parsed : ParsedSignatureLevel) (flags : SigLevel) : ParsedSignatureLevel :=
  ⟨parsed.level \ flags, parsed.mask ∪ flags⟩

inductive Directive
  | never
  | optional
  | required
  | trustedOnly
  | trustAll
  deriving DecidableEq

def parseDirective (name : Text) : Option Directive :=
  if name = "Never" then some .never
  else if name = "Optional" then some .optional
  else if name = "Required" then some .required
  else if name = "TrustedOnly" then some .trustedOnly
  else if name = "TrustAll" then some .trustAll
  else none

structure Scoped where
  package : Bool
  database : Bool
  directive : Text

def scope (original : Text) : Scoped :=
  match stripPrefix "Package" original with
  | some directive => ⟨true, false, directive⟩
  | none =>
    match stripPrefix "Database" original with
    | some directive => ⟨false, true, directive⟩
    | none => ⟨true, true, original⟩

def applyTo (needed optional : SigFlag) (trust : SigLevel) (parsed : ParsedSignatureLevel) :
    Directive → ParsedSignatureLevel
  | .never => unsetSignatureFlags parsed {needed}
  | .optional => setSignatureFlags parsed {needed, optional}
  | .required => unsetSignatureFlags (setSignatureFlags parsed {needed}) {optional}
  | .trustedOnly => unsetSignatureFlags parsed trust
  | .trustAll => setSignatureFlags parsed trust

def applyToPackages : ParsedSignatureLevel → Directive → ParsedSignatureLevel :=
  applyTo .package .packageOptional {.packageMarginalOk, .packageUnknownOk}

def applyToDatabases : ParsedSignatureLevel → Directive → ParsedSignatureLevel :=
  applyTo .database .databaseOptional {.databaseMarginalOk, .databaseUnknownOk}

def invalidDirectiveMessage (original : Text) : Text :=
  "Invalid pacman SigLevel directive '" ++ original ++ ['\'']

def applyWord (parsed : ParsedSignatureLevel) (original : Text) : Result ParsedSignatureLevel :=
  let target := scope original
  match parseDirective target.directive with
  | none => bail (invalidDirectiveMessage original)
  | some directive =>
    let parsed := if target.package then applyToPackages parsed directive else parsed
    let parsed := if target.database then applyToDatabases parsed directive else parsed
    .ok { parsed with level := parsed.level \ {.useDefault} }

def words (value : Option Text) : List Text := (value.map splitWhitespace).getD []

def parseSignatureLevel (value : Option Text) (initial : SigLevel) : Result ParsedSignatureLevel :=
  (words value).foldlM applyWord ⟨initial, ∅⟩

def mergeSignatureLevel (base : SigLevel) (override : ParsedSignatureLevel) : SigLevel :=
  if override.mask = ∅ then
    if .useDefault ∈ override.level then base else override.level
  else override.level ∩ override.mask ∪ base \ override.mask

/-! ### The policy -/

structure Repository where
  name : Text
  sigLevel : Option Text

structure PacmanConfig where
  sigLevel : Option Text
  localFileSigLevel : Option Text
  remoteFileSigLevel : Option Text
  repos : List Repository

structure SignaturePolicy where
  default : SigLevel
  localFile : SigLevel
  remoteFile : SigLevel

def signaturePolicy (config : PacmanConfig) : Result SignaturePolicy := do
  let default ← parseSignatureLevel config.sigLevel {.package, .database}
  let localFile ← parseSignatureLevel config.localFileSigLevel {.useDefault}
  let remoteFile ← parseSignatureLevel config.remoteFileSigLevel {.useDefault}
  return ⟨default.level, mergeSignatureLevel default.level localFile,
    mergeSignatureLevel default.level remoteFile⟩

def repositorySiglevel (default : SigLevel) (configured : Option Text) : Result SigLevel := do
  let parsed ← parseSignatureLevel configured {.useDefault}
  return mergeSignatureLevel default parsed

def enforceRequiredPackageSignature (level : SigLevel) (required : Bool) : SigLevel :=
  if required then (level ∪ {.package}) \ {.packageOptional, .useDefault} else level

inductive AlpmCall
  | setDefaultSiglevel
  | setLocalFileSiglevel
  | setRemoteFileSiglevel
  | registerSyncdb (name : Text)
  | transInit
  | sysupgrade
  | remove (name : Text)
  | load (path : Text)
  | add (name : Text)

structure AlpmError where
  isHandleLock : Bool
  text : Text

structure Alpm where
  call : AlpmCall → Except AlpmError Unit
  checkDatabaseLock : Result Unit
  ensureRemovalNotHeld : Text → Result Unit
  isInstalled : Text → Bool
  validateLocalPackageFile : Text → Result (Option Text)
  isAvailable : Text → Bool

def Alpm.ask (alpm : Alpm) (call : AlpmCall) (message : AlpmError → AnyhowError) : Result Unit :=
  match alpm.call call with
  | .ok () => .ok ()
  | .error error => .error (message error)

def configureMessage (which : Text) : Text :=
  "Failed to configure " ++ which ++ " package signature policy"

/-- `configure_signature_policy`. -/
def configureSignaturePolicy (alpm : Alpm) (config : PacmanConfig)
    (requirePgp : Result Bool) : Result SignaturePolicy := do
  let signatures ← signaturePolicy config
  let required ← requirePgp
  let default := enforceRequiredPackageSignature signatures.default required
  let localFile := enforceRequiredPackageSignature signatures.localFile required
  let remoteFile := enforceRequiredPackageSignature signatures.remoteFile required
  alpm.ask .setDefaultSiglevel fun error => [configureMessage "default", error.text]
  alpm.ask .setLocalFileSiglevel fun error => [configureMessage "local", error.text]
  alpm.ask .setRemoteFileSiglevel fun error => [configureMessage "remote", error.text]
  return ⟨default, localFile, remoteFile⟩

def registerMessage (name : Text) : Text :=
  "Failed to register configured sync database '" ++ name ++
    "'; refusing a partial repository set"

def registerSyncdb (alpm : Alpm) (default : SigLevel) (required : Bool) (repo : Repository) :
    Result SigLevel := do
  let siglevel ← repositorySiglevel default repo.sigLevel
  alpm.ask (.registerSyncdb repo.name) fun error => [registerMessage repo.name, error.text]
  return enforceRequiredPackageSignature siglevel required

def registerConfiguredSyncdbs (alpm : Alpm) (config : PacmanConfig)
    (requirePgp : Result Bool) : Result (List SigLevel) := do
  let policy ← signaturePolicy config
  let required ← requirePgp
  config.repos.mapM (registerSyncdb alpm policy.default required)

/-! ### Transactions -/

inductive TransactionKind
  | install
  | installAurArtifact
  | remove (recursive : Bool)
  | systemUpgrade
  deriving DecidableEq

def localPackageSiglevel (kind : TransactionKind) (configured : SigLevel) : SigLevel :=
  if kind = .installAurArtifact then
    configured ∩ {.packageMarginalOk, .packageUnknownOk} ∪ {.package} ∪ {.packageOptional}
  else configured

def targetsMessage : Text := "System upgrade transactions do not accept explicit package targets"

def transInitMessage (error : AlpmError) : Text :=
  if error.isHandleLock then
    ("✗ Database is locked by another process.\n  " ++
      "→ Check holders with: pgrep -a '^(pacman|yay|paru|pikaur|omg|omgd|makepkg)$'\n  " ++
      "→ If a manager is mid-transaction, wait for it and retry.\n  → Only when no manager is " ++
      "running, clear the stale lock: sudo rm /var/lib/pacman/db.lck\n  " ++
      "→ Then re-run; `omg doctor` reports stale vs live locks").toList
  else "Failed to initialize transaction: " ++ error.text

def sysupgradeMessage : Text := "Failed to setup sysupgrade"

def removalMessage (name error : Text) : Text :=
  "Failed to add " ++ name ++ " to removal list: " ++ error

def invalidPathMessage : Text := "Package path contains invalid UTF-8"

def loadMessage (name error : Text) : Text :=
  "Failed to load local package " ++ name ++ ": " ++ error

def addLocalMessage (name error : Text) : Text :=
  "Failed to add local package " ++ name ++ " to transaction: " ++ error

def addMessage (name error : Text) : Text :=
  "Failed to add " ++ name ++ " to installation list: " ++ error

def missingPackageMessage (name : Text) : Text :=
  "✗ Package '" ++ name ++ ("' not found in any configured repository.\n  " ++
    "→ Run 'omg sync' to update package databases\n  → Search AUR: omg search ").toList ++ name ++
    "\n  → Check package name at: https://archlinux.org/packages/"

variable (alpm : Alpm) (config : PacmanConfig) {base : SigLevel}
  {parsed parsed' : ParsedSignatureLevel}

def prepareRemoval (name : Text) : Result Unit := do
  alpm.ensureRemovalNotHeld name
  if alpm.isInstalled name then
    alpm.ask (.remove name) fun error => [removalMessage name error.text]

def loadLocalPackage (kind : TransactionKind) (name : Text) : Result SigLevel := do
  let canonical ← alpm.validateLocalPackageFile name
  let path ← required canonical invalidPathMessage
  let policy ← signaturePolicy config
  alpm.ask (.load path) fun error => [loadMessage name error.text]
  alpm.ask (.add name) fun error => [addLocalMessage name error.text]
  return localPackageSiglevel kind policy.localFile

def addSyncPackage (name : Text) : Result Unit :=
  if alpm.isAvailable name then alpm.ask (.add name) fun error => [addMessage name error.text]
  else bail (missingPackageMessage name)

def prepareTarget (kind : TransactionKind) (name : Text) : Result (List SigLevel) :=
  match kind with
  | .remove _ => (prepareRemoval alpm name).map fun _ => []
  | _ =>
    if isLocalPackageFile name then (loadLocalPackage alpm config kind name).map fun level =>
      [level]
    else (addSyncPackage alpm name).map fun _ => []

def prepareAlpmTransaction (packages : List Text) (kind : TransactionKind) :
    Result (List SigLevel) := do
  ensure (kind ≠ .systemUpgrade || packages.isEmpty) targetsMessage
  alpm.checkDatabaseLock
  alpm.ask .transInit fun error => [transInitMessage error]
  if kind = .systemUpgrade then
    (alpm.ask .sysupgrade fun error => [sysupgradeMessage, error.text]).map fun _ => []
  else (packages.mapM (prepareTarget alpm config kind)).map List.flatten

def noRepositoriesMessage : Text := "pacman configuration contains no repositories"

/-- All levels under which a package can enter a transaction: those of the handle, those of the
registered databases, and those that local files are loaded with. -/
def transactionLevels (requirePgp : Result Bool) (packages : List Text)
    (kind : TransactionKind) : Result (List SigLevel) := do
  let handle ← configureSignaturePolicy alpm config requirePgp
  ensure (!config.repos.isEmpty) noRepositoriesMessage
  let databases ← registerConfiguredSyncdbs alpm config requirePgp
  let localFiles ← prepareAlpmTransaction alpm config packages kind
  return [handle.default, handle.localFile, handle.remoteFile] ++ databases ++ localFiles

/-! ### The directive that decides -/

def presence (original : Text) : Option Directive :=
  if (scope original).package then
    (parseDirective (scope original).directive).filter
      (· ∈ [Directive.never, .optional, .required])
  else none

def lastPresence (words : List Text) : Option Directive := (words.filterMap presence).getLast?

def overlay (base : SigLevel) (parsed : ParsedSignatureLevel) : SigLevel :=
  parsed.level ∩ parsed.mask ∪ base \ parsed.mask

lemma mem_overlay {flag : SigFlag} : flag ∈ overlay base parsed ↔
      if flag ∈ parsed.mask then flag ∈ parsed.level else flag ∈ base := by
  unfold overlay
  split_ifs with hma <;> simp [hma]

lemma lastPresence_cons (word : Text) (rest : List Text) :
    lastPresence (word :: rest) = (lastPresence rest).or (presence word) := by
  unfold lastPresence
  cases hw : presence word with
  | none => rw [filterMap_cons_none hw, Option.or_none]
  | some drv =>
    rw [filterMap_cons_some hw, getLast?_cons]
    cases (rest.filterMap presence).getLast? <;> rfl

lemma lastPresence_append (l l' : List Text) :
    lastPresence (l ++ l') = (lastPresence l').or (lastPresence l) := by
  simp only [lastPresence, filterMap_append, getLast?_append]

lemma requires_applyWord {word : Text} (h : applyWord parsed word = .ok parsed') :
    Requires (overlay base parsed') ↔ match presence word with
      | none => Requires (overlay base parsed)
      | some drv => drv = .required := by
  unfold applyWord at h
  unfold presence
  cases hdir : parseDirective (scope word).directive with
  | none => simp [hdir, bail] at h
  | some drv =>
    simp only [hdir, Except.ok.injEq] at h
    subst h
    cases (scope word).package <;> cases (scope word).database <;> cases drv <;>
      simp [Requires, mem_overlay, applyToPackages, applyToDatabases, applyTo, setSignatureFlags,
        unsetSignatureFlags, Option.filter]

lemma requires_foldlM {ws : List Text} (h : ws.foldlM applyWord parsed = .ok parsed') :
    Requires (overlay base parsed') ↔ match lastPresence ws with
      | none => Requires (overlay base parsed)
      | some drv => drv = .required := by
  induction ws generalizing parsed with
  | nil =>
    obtain rfl : parsed = parsed' := Except.ok.inj h
    rfl
  | cons word rest ih =>
    obtain ⟨next, hw, hr⟩ := bind_eq_ok.mp h
    rw [ih hr, lastPresence_cons]
    cases lastPresence rest with
    | none => exact requires_applyWord hw
    | some drv => rfl

structure Refines (parsed parsed' : ParsedSignatureLevel) : Prop where
  mask : parsed.mask ⊆ parsed'.mask
  level : ∀ flag ∉ parsed'.mask, flag ≠ .useDefault →
    (flag ∈ parsed'.level ↔ flag ∈ parsed.level)

lemma Refines.refl (parsed : ParsedSignatureLevel) : Refines parsed parsed :=
  ⟨Finset.Subset.refl _, fun _ _ _ => Iff.rfl⟩

lemma Refines.trans {a b c : ParsedSignatureLevel} (hab : Refines a b) (hbc : Refines b c) :
    Refines a c := by
  refine ⟨hab.mask.trans hbc.mask, fun flag hfg hdef => ?_⟩
  rw [hbc.level flag hfg hdef]
  exact hab.level flag (fun h => hfg (hbc.mask h)) hdef

lemma refines_applyTo (needed optional : SigFlag) (trust : SigLevel)
    (parsed : ParsedSignatureLevel) (drv : Directive) :
    Refines parsed (applyTo needed optional trust parsed drv) := by
  cases drv <;> constructor <;>
    simp +contextual [applyTo, setSignatureFlags, unsetSignatureFlags, Finset.subset_iff]

lemma mask_applyTo_ne_empty {needed optional : SigFlag} {trust : SigLevel} (htru : trust ≠ ∅)
    (parsed : ParsedSignatureLevel) (drv : Directive) :
    (applyTo needed optional trust parsed drv).mask ≠ ∅ := by
  cases drv <;> simp [applyTo, setSignatureFlags, unsetSignatureFlags, htru]

lemma refines_applyWord {word : Text} (h : applyWord parsed word = .ok parsed') :
    Refines parsed parsed' ∧ parsed'.mask ≠ ∅ := by
  unfold applyWord at h
  cases hdir : parseDirective (scope word).directive with
  | none => simp [hdir, bail] at h
  | some drv =>
    simp only [hdir, Except.ok.injEq] at h
    subst h
    have hpks : Refines parsed (applyToPackages parsed drv) := refines_applyTo ..
    have hdbs : ∀ parsed, Refines parsed (applyToDatabases parsed drv) :=
      fun parsed => refines_applyTo ..
    have hdr : ∀ parsed : ParsedSignatureLevel,
        Refines parsed { parsed with level := parsed.level \ {.useDefault} } := fun parsed =>
      ⟨Finset.Subset.refl _, fun flag _ hdef => by simp [hdef]⟩
    have hpackagesMask : (applyToPackages parsed drv).mask ≠ ∅ :=
      mask_applyTo_ne_empty (Finset.insert_ne_empty _ _) parsed drv
    have hdatabasesMask : ∀ parsed, (applyToDatabases parsed drv).mask ≠ ∅ :=
      fun parsed => mask_applyTo_ne_empty (Finset.insert_ne_empty _ _) parsed drv
    unfold scope
    split
    · exact ⟨hpks.trans (hdr _), hpackagesMask⟩
    · split
      · exact ⟨(hdbs parsed).trans (hdr _), hdatabasesMask parsed⟩
      · exact ⟨(hpks.trans (hdbs _)).trans (hdr _), hdatabasesMask _⟩

lemma refines_foldlM {ws : List Text} (h : ws.foldlM applyWord parsed = .ok parsed') :
    Refines parsed parsed' ∧ (parsed'.mask = ∅ → parsed' = parsed) := by
  induction ws generalizing parsed with
  | nil =>
    obtain rfl : parsed = parsed' := Except.ok.inj h
    exact ⟨.refl parsed, fun _ => rfl⟩
  | cons word rest ih =>
    obtain ⟨next, hw, hr⟩ := bind_eq_ok.mp h
    obtain ⟨hf, hne⟩ := refines_applyWord hw
    obtain ⟨hla, hem⟩ := ih hr
    refine ⟨hf.trans hla, fun hma => absurd ?_ hne⟩
    rw [← hem hma, hma]

lemma mergeSignatureLevel_eq_overlay {val : Option Text}
    (h : parseSignatureLevel val {.useDefault} = .ok parsed) :
    mergeSignatureLevel base parsed = overlay base parsed := by
  unfold mergeSignatureLevel
  split_ifs with hma hdef
  · rw [overlay, hma, Finset.inter_empty, Finset.empty_union, Finset.sdiff_empty]
  · rw [(refines_foldlM h).2 hma] at hdef
    exact absurd (Finset.mem_singleton_self _) hdef
  · rfl

lemma requires_parse_iff {value : Option Text}
    (h : parseSignatureLevel value {.package, .database} = .ok parsed) :
    Requires parsed.level ↔ ∀ directive, lastPresence (words value) = some directive →
      directive = .required := by
  have hlv : ∀ flag, flag ≠ .useDefault →
      (flag ∈ parsed.level ↔ flag ∈ overlay {.package, .database} parsed) := by
    intro flag hdef
    rw [mem_overlay]
    split_ifs with hma
    · rfl
    · exact (refines_foldlM h).1.level flag hma hdef
  have hreq : Requires parsed.level ↔ Requires (overlay {.package, .database} parsed) := by
    rw [Requires, Requires, hlv .package (by decide), hlv .packageOptional (by decide)]
  rw [hreq, requires_foldlM h]
  cases lastPresence (words value) with
  | none => simp [Requires, mem_overlay]
  | some directive => simp

def LocalFilesRequired (config : PacmanConfig) : Prop :=
  ∀ directive, lastPresence (words config.sigLevel ++ words config.localFileSigLevel) =
    some directive → directive = .required

lemma requires_localFile_iff {config : PacmanConfig} {policy : SignaturePolicy}
    (h : signaturePolicy config = .ok policy) :
    Requires policy.localFile ↔ LocalFilesRequired config := by
  obtain ⟨default, hdef, h⟩ := bind_eq_ok.mp h
  obtain ⟨localFile, hloc, h⟩ := bind_eq_ok.mp h
  obtain ⟨remoteFile, -, h⟩ := bind_eq_ok.mp h
  obtain rfl := (Except.ok.inj h).symm
  have hba : Requires (overlay default.level ⟨{.useDefault}, ∅⟩) ↔ Requires default.level := by
    simp [Requires, mem_overlay]
  rw [mergeSignatureLevel_eq_overlay hloc, requires_foldlM hloc, LocalFilesRequired,
    lastPresence_append]
  cases lastPresence (words config.localFileSigLevel) with
  | none => rw [Option.none_or, hba, requires_parse_iff hdef]
  | some directive => simp

end Arch

end Omg
