import Omg.Arch.SignatureLevel

/-!
# Required signatures in ALPM transactions

Where a policy that requires signatures is imposed, a level requires them whatever the directives
say: this is so for the handle and for every registered database. A local package file is loaded
with the level of the configuration, which requires signatures just if the last directive on them
does.

Source: `src/package_managers/alpm_ops.rs` and `src/core/pacman_conf.rs`.
-/

namespace Omg.Arch

open List Control Except

open Text (ensure bail required withContext)
open Security (isLocalPackageFile)

lemma requires_enforce (lv : SigLevel) : Requires (enforceRequiredPackageSignature lv true) := by
  simp [Requires, enforceRequiredPackageSignature]

variable {alpm : Alpm} {config : PacmanConfig} {name : Text} {kind : TransactionKind}
  {levels : List SigLevel} {packages : List Text} {pol : SignaturePolicy}

lemma requires_of_configure {handle : SignaturePolicy}
    (h : configureSignaturePolicy alpm config (.ok true) = .ok handle) :
    Requires handle.default ∧ Requires handle.localFile ∧ Requires handle.remoteFile := by
  obtain ⟨signatures, -, h⟩ := bind_eq_ok.mp h
  obtain ⟨rqr, hreq, h⟩ := bind_eq_ok.mp h
  obtain ⟨_, -, h⟩ := bind_eq_ok.mp h
  obtain ⟨_, -, h⟩ := bind_eq_ok.mp h
  obtain ⟨_, -, h⟩ := bind_eq_ok.mp h
  obtain rfl := ok.inj hreq
  obtain rfl := ok.inj h
  exact ⟨requires_enforce _, requires_enforce _, requires_enforce _⟩

lemma requires_of_registerSyncdb {default lv : SigLevel} {repo : Repository}
    (h : registerSyncdb alpm default true repo = .ok lv) : Requires lv := by
  obtain ⟨siglevel, -, h⟩ := bind_eq_ok.mp h
  obtain ⟨_, -, h⟩ := bind_eq_ok.mp h
  obtain rfl := ok.inj h
  exact requires_enforce siglevel

lemma requires_of_register {dbs : List SigLevel}
    (h : registerConfiguredSyncdbs alpm config (.ok true) = .ok dbs) : ∀ lv ∈ dbs, Requires lv := by
  obtain ⟨pol, -, h⟩ := bind_eq_ok.mp h
  obtain ⟨rqr, hreq, h⟩ := bind_eq_ok.mp h
  obtain rfl := ok.inj hreq
  intro lv hlv
  obtain ⟨_, -, hrqr⟩ := forall_of_mapM h (fun repo _ lv => requires_of_registerSyncdb) lv hlv
  exact hrqr

/-! ### Local files -/

lemma level_of_loadLocalPackage {lv : SigLevel}
    (h : loadLocalPackage alpm config .install name = .ok lv) :
    ∃ pol, signaturePolicy config = .ok pol ∧ lv = pol.localFile := by
  obtain ⟨_, -, h⟩ := bind_eq_ok.mp h
  obtain ⟨_, -, h⟩ := bind_eq_ok.mp h
  obtain ⟨pol, hpo, h⟩ := bind_eq_ok.mp h
  obtain ⟨_, -, h⟩ := bind_eq_ok.mp h
  obtain ⟨_, -, h⟩ := bind_eq_ok.mp h
  exact ⟨pol, hpo, (ok.inj h).symm⟩

section

variable (hki : kind ≠ .installAurArtifact)

include hki

lemma level_of_prepareTarget
    (hupg : kind ≠ .systemUpgrade) (h : prepareTarget alpm config kind name = .ok levels) :
    ∀ lv ∈ levels, kind = .install ∧ isLocalPackageFile name ∧
      ∃ pol, signaturePolicy config = .ok pol ∧ lv = pol.localFile := by
  cases kind with
  | installAurArtifact => exact absurd rfl hki
  | systemUpgrade => exact absurd rfl hupg
  | remove recursive =>
    obtain ⟨_, -, rfl⟩ := map_eq_ok.mp h
    simp
  | install =>
    by_cases hloc : isLocalPackageFile name = true
    · simp only [prepareTarget, if_pos hloc] at h
      obtain ⟨lv, hlv, rfl⟩ := map_eq_ok.mp h
      intro lv' hlv'
      obtain rfl := mem_singleton.mp hlv'
      exact ⟨rfl, hloc, level_of_loadLocalPackage hlv⟩
    · simp only [prepareTarget, if_neg hloc] at h
      obtain ⟨_, -, rfl⟩ := map_eq_ok.mp h
      simp

lemma level_of_prepare (h : prepareAlpmTransaction alpm config packages kind = .ok levels) :
    ∀ lv ∈ levels, kind = .install ∧ (∃ name ∈ packages, isLocalPackageFile name) ∧
      ∃ pol, signaturePolicy config = .ok pol ∧ lv = pol.localFile := by
  obtain ⟨_, -, h⟩ := bind_eq_ok.mp h
  obtain ⟨_, -, h⟩ := bind_eq_ok.mp h
  obtain ⟨_, -, h⟩ := bind_eq_ok.mp h
  split_ifs at h with hupg
  · obtain ⟨_, -, rfl⟩ := map_eq_ok.mp h
    simp
  · obtain ⟨gps, hgro, rfl⟩ := map_eq_ok.mp h
    intro lv hlv
    obtain ⟨gp, hgr, hlv⟩ := mem_flatten.mp hlv
    obtain ⟨name, hn, hall⟩ := forall_of_mapM hgro
      (fun name _ levels => level_of_prepareTarget hki hupg) gp hgr
    obtain ⟨hins, hloc, hpo⟩ := hall lv hlv
    exact ⟨hins, ⟨name, hn, hloc⟩, hpo⟩

lemma transactionLevels_require
    (hsa : kind ≠ .install ∨ (∀ name ∈ packages, isLocalPackageFile name = false) ∨
      LocalFilesRequired config)
    (h : transactionLevels alpm config (.ok true) packages kind = .ok levels) :
    ∀ lv ∈ levels, Requires lv := by
  obtain ⟨handle, hhan, h⟩ := bind_eq_ok.mp h
  obtain ⟨_, -, h⟩ := bind_eq_ok.mp h
  obtain ⟨dbs, hdbs, h⟩ := bind_eq_ok.mp h
  obtain ⟨localFiles, hloc, h⟩ := bind_eq_ok.mp h
  obtain rfl := ok.inj h
  obtain ⟨hdef, hlocalFile, hremoteFile⟩ := requires_of_configure hhan
  intro lv hlv
  rcases mem_append.mp hlv with hlv | hlv
  · rcases mem_append.mp hlv with hlv | hlv
    · simp only [mem_cons, not_mem_nil, or_false] at hlv
      rcases hlv with rfl | rfl | rfl
      · exact hdef
      · exact hlocalFile
      · exact hremoteFile
    · exact requires_of_register hdbs lv hlv
  · obtain ⟨hins, ⟨name, hn, hf⟩, pol, hpo, rfl⟩ := level_of_prepare hki hloc lv hlv
    rcases hsa with hot | hno | hreq
    · exact absurd hins hot
    · rw [hno name hn] at hf
      cases hf
    · exact (requires_localFile_iff hpo).mpr hreq

end

/-! ### Configurations that are accepted -/

def configWords (config : PacmanConfig) : List Text :=
  words config.sigLevel ++ words config.localFileSigLevel ++ words config.remoteFileSigLevel ++
    config.repos.flatMap fun repo => words repo.sigLevel

def Accepted (config : PacmanConfig) : Prop :=
  config.repos ≠ [] ∧
    ∀ word ∈ configWords config, (parseDirective (scope word).directive).isSome = true

lemma exists_applyWord_iff (psd : ParsedSignatureLevel) {word : Text} :
    (∃ psd', applyWord psd word = .ok psd') ↔
      (parseDirective (scope word).directive).isSome := by
  unfold applyWord
  cases hdir : parseDirective (scope word).directive with
  | none => simp [hdir, bail]
  | some drv => simp [hdir]

lemma exists_parse_iff (start : SigLevel) {value : Option Text} :
    (∃ parsed, parseSignatureLevel value start = .ok parsed) ↔
      ∀ word ∈ words value, (parseDirective (scope word).directive).isSome := by
  unfold parseSignatureLevel
  generalize (⟨start, ∅⟩ : ParsedSignatureLevel) = parsed₀
  induction words value generalizing parsed₀ with
  | nil => simp [pure, Except.pure]
  | cons word rest ih =>
    rw [forall_mem_cons, ← exists_applyWord_iff parsed₀]
    simp only [foldlM_cons, bind_eq_ok]
    constructor
    · rintro ⟨parsed, next, hw, hr⟩
      exact ⟨⟨next, hw⟩, (ih next).mp ⟨parsed, hr⟩⟩
    · rintro ⟨⟨next, hw⟩, hr⟩
      obtain ⟨parsed, hpd⟩ := (ih next).mpr hr
      exact ⟨parsed, next, hw, hpd⟩

lemma exists_signaturePolicy_iff : (∃ policy, signaturePolicy config = .ok policy) ↔
      ∀ word ∈ words config.sigLevel ++ words config.localFileSigLevel ++
        words config.remoteFileSigLevel, (parseDirective (scope word).directive).isSome := by
  simp only [forall_mem_append]
  rw [← exists_parse_iff {.package, .database}, ← exists_parse_iff {.useDefault},
    ← exists_parse_iff {.useDefault}]
  unfold signaturePolicy
  simp only [bind_eq_ok]
  constructor
  · rintro ⟨policy, default, hdef, localFile, hloc, remoteFile, hrem, -⟩
    exact ⟨⟨⟨default, hdef⟩, localFile, hloc⟩, remoteFile, hrem⟩
  · rintro ⟨⟨⟨default, hdef⟩, localFile, hloc⟩, remoteFile, hrem⟩
    exact ⟨_, default, hdef, localFile, hloc, remoteFile, hrem, rfl⟩

lemma accepted_of_transactionLevels {requirePgp : Result Bool}
    (h : transactionLevels alpm config requirePgp packages kind = .ok levels) :
    Accepted config := by
  obtain ⟨_, -, h⟩ := bind_eq_ok.mp h
  obtain ⟨_, hrep, h⟩ := bind_eq_ok.mp h
  obtain ⟨databases, hdbs, -⟩ := bind_eq_ok.mp h
  obtain ⟨policy, hpo, hdbs⟩ := bind_eq_ok.mp hdbs
  obtain ⟨required, -, hdbs⟩ := bind_eq_ok.mp hdbs
  refine ⟨by simpa using hrep, forall_mem_append.mpr
    ⟨exists_signaturePolicy_iff.mp ⟨policy, hpo⟩, fun word hw => ?_⟩⟩
  obtain ⟨repo, hre, hw⟩ := mem_flatMap.mp hw
  obtain ⟨level, -, hlv⟩ := exists_of_mapM hdbs repo hre
  obtain ⟨_, hsig, -⟩ := bind_eq_ok.mp hlv
  obtain ⟨parsed, hpd, -⟩ := bind_eq_ok.mp hsig
  exact (exists_parse_iff _).mp ⟨parsed, hpd⟩ word hw

def Alpm.willing : Alpm where
  call _ := .ok ()
  checkDatabaseLock := .ok ()
  ensureRemovalNotHeld _ := .ok ()
  isInstalled _ := true
  validateLocalPackageFile name := .ok (some name)
  isAvailable _ := true

lemma exists_register_willing (h : Accepted config) (hpo : signaturePolicy config = .ok policy) :
    ∃ databases, registerConfiguredSyncdbs .willing config (.ok true) = .ok databases := by
  have hrep : ∃ databases,
      config.repos.mapM (registerSyncdb .willing policy.default true) = .ok databases := by
    refine exists_mapM fun repo hre => ?_
    obtain ⟨parsed, hpd⟩ := (exists_parse_iff {.useDefault}).mpr fun word hw =>
      h.2 word (mem_append_right _ (mem_flatMap.mpr ⟨repo, hre, hw⟩))
    refine ⟨enforceRequiredPackageSignature (mergeSignatureLevel policy.default parsed) true, ?_⟩
    unfold registerSyncdb repositorySiglevel
    rw [hpd]
    rfl
  obtain ⟨databases, hdbs⟩ := hrep
  refine ⟨databases, ?_⟩
  unfold registerConfiguredSyncdbs
  rw [hpo]
  exact hdbs

lemma prepareTarget_willing (hpo : signaturePolicy config = .ok pol) (name : Text) :
    prepareTarget .willing config .install name =
      .ok (if isLocalPackageFile name then [pol.localFile] else []) := by
  unfold prepareTarget
  by_cases hloc : isLocalPackageFile name = true
  · simp only [if_pos hloc]
    unfold loadLocalPackage
    rw [hpo]
    rfl
  · simp only [if_neg hloc]
    rfl

lemma exists_transactionLevels_willing (h : Accepted config) (hn : name ∈ packages)
    (hloc : isLocalPackageFile name) : ∃ pol levels, signaturePolicy config = .ok pol ∧
      transactionLevels .willing config (.ok true) packages .install = .ok levels ∧
      pol.localFile ∈ levels := by
  obtain ⟨pol, hpo⟩ := exists_signaturePolicy_iff.mpr fun word hw =>
    h.2 word (mem_append_left _ hw)
  obtain ⟨dbs, hdbs⟩ := exists_register_willing h hpo
  obtain ⟨gps, hgro⟩ := exists_mapM fun name _ =>
    ⟨_, prepareTarget_willing hpo name⟩
  obtain ⟨gp, hgr, hres⟩ := exists_of_mapM hgro name hn
  rw [prepareTarget_willing hpo, if_pos hloc] at hres
  obtain rfl := ok.inj hres
  have hprp : prepareAlpmTransaction .willing config packages .install = .ok gps.flatten := by
    unfold prepareAlpmTransaction
    rw [hgro]
    rfl
  have hrep : Text.ensure (!config.repos.isEmpty) noRepositoriesMessage = .ok () := by
    simpa using h.1
  have hhan : ∃ handle, configureSignaturePolicy .willing config (.ok true) = .ok handle := by
    unfold configureSignaturePolicy
    rw [hpo]
    exact ⟨_, rfl⟩
  obtain ⟨handle, hhan⟩ := hhan
  refine ⟨pol, [handle.default, handle.localFile, handle.remoteFile] ++ dbs ++ gps.flatten, hpo,
    ?_, ?_⟩
  · unfold transactionLevels
    rw [hhan, hrep, hdbs, hprp]
    rfl
  · exact mem_append_right _ (mem_flatten.mpr ⟨_, hgr, mem_singleton_self _⟩)

/-- Under a policy that requires signatures, all levels under which packages enter a transaction
require them, just if no local package file is installed, or the last directive on signatures of
packages in `SigLevel` and `LocalFileSigLevel` requires them or there is none, or the configuration
is not accepted at all. -/
theorem transactionLevels_require_iff (config : PacmanConfig) (packages : List Text)
    (kind : TransactionKind) (hkind : kind ≠ .installAurArtifact) :
    (∀ alpm levels, transactionLevels alpm config (.ok true) packages kind = .ok levels →
        ∀ level ∈ levels, Requires level) ↔
      (kind ≠ .install ∨ (∀ name ∈ packages, isLocalPackageFile name = false) ∨
        LocalFilesRequired config ∨ ¬ Accepted config) := by
  constructor
  · intro h
    by_contra hcon
    simp only [not_or, not_not, not_forall, Bool.not_eq_false] at hcon
    obtain ⟨rfl, ⟨name, hn, hloc⟩, hreq, hac⟩ := hcon
    obtain ⟨policy, levels, hpo, hlvs, hmem⟩ := exists_transactionLevels_willing hac hn hloc
    exact hreq ((requires_localFile_iff hpo).mp (h .willing levels hlvs _ hmem))
  · rintro (hot | hno | hreq | hac) alpm levels hlvs
    · exact transactionLevels_require hkind (.inl hot) hlvs
    · exact transactionLevels_require hkind (.inr (.inl hno)) hlvs
    · exact transactionLevels_require hkind (.inr (.inr hreq)) hlvs
    · exact absurd (accepted_of_transactionLevels hlvs) hac

def requiredConfig : PacmanConfig :=
  ⟨some "Required DatabaseOptional", some "DatabaseNever", none, [⟨"core", some "Optional"⟩]⟩

/-- With it, all levels of an installation of a local file require signatures. -/
theorem transactionLevels_require_iff_required :
    ∃ levels, transactionLevels .willing requiredConfig (.ok true)
      ["/tmp/a.pkg.tar.zst".toList] .install = .ok levels ∧ ∀ level ∈ levels, Requires level := by
  have hac : Accepted requiredConfig := ⟨by decide, by decide +kernel⟩
  have hla : lastPresence (words requiredConfig.sigLevel ++
      words requiredConfig.localFileSigLevel) = some .required := by decide +kernel
  obtain ⟨-, levels, -, hlvs, -⟩ := exists_transactionLevels_willing hac
    (mem_singleton_self "/tmp/a.pkg.tar.zst".toList) (by decide +kernel)
  have hreq : LocalFilesRequired requiredConfig := fun directive hdir =>
    Option.some.inj (hdir.symm.trans hla)
  exact ⟨levels, hlvs, (transactionLevels_require_iff requiredConfig
    ["/tmp/a.pkg.tar.zst".toList] .install (by decide)).mpr (.inr (.inr (.inl hreq)))
    .willing levels hlvs⟩

def optionalConfig : PacmanConfig := ⟨none, some "Optional", none, [⟨"core", none⟩]⟩

/-- With it, a local file is loaded under a level that does not require a signature. -/
theorem exists_unrequired_level :
    ∃ alpm levels level, transactionLevels alpm optionalConfig (.ok true)
      ["/tmp/a.pkg.tar.zst".toList] .install = .ok levels ∧ level ∈ levels ∧ ¬ Requires level := by
  have hac : Accepted optionalConfig := ⟨by decide, by decide +kernel⟩
  have hla : lastPresence (words optionalConfig.sigLevel ++
      words optionalConfig.localFileSigLevel) = some .optional := by decide +kernel
  obtain ⟨policy, levels, hpo, hlvs, hmem⟩ := exists_transactionLevels_willing hac
    (mem_singleton_self "/tmp/a.pkg.tar.zst".toList) (by decide +kernel)
  refine ⟨.willing, levels, policy.localFile, hlvs, hmem, fun hreq => ?_⟩
  cases (requires_localFile_iff hpo).mp hreq .optional hla

/-!
### The level of a repository

The directives of all `SigLevel` lines of a section are joined into one text, which is folded into a
level and a mask and merged with the default level. This is the same as applying the directives to
the default level one after the other.
-/

open Text

/-- The text of the lines so far, and the value of one more line; a line without `=` has none. -/
def appendSignatureOption : Option Text → Option Text → Option Text
  | option, none => option
  | some existing, some value => some (existing ++ ' ' :: value)
  | none, some value => some value

/-- The joined text of the lines of a section. -/
def joined (values : List (Option Text)) : Option Text := values.foldl appendSignatureOption none

/-- One directive, applied to a level by itself. -/
def applyDirective (level : SigLevel) (word : Text) : Result SigLevel :=
  (applyWord ⟨level, ∅⟩ word).map (·.level)

/-- What a directive does to the flags of packages, or of databases. -/
def Directive.effect (needed optional : SigFlag) (trust level : SigLevel) : Directive → SigLevel
  | .never => level \ {needed}
  | .optional => level ∪ {needed, optional}
  | .required => (level ∪ {needed}) \ {optional}
  | .trustedOnly => level \ trust
  | .trustAll => level ∪ trust

/-- A directive changes the flags of its scope, and a level with a directive is not the default. -/
lemma applyDirective_eq (level : SigLevel) (word : Text) : applyDirective level word =
    match parseDirective (scope word).directive with
    | none => bail (invalidDirectiveMessage word)
    | some directive =>
      let level := if (scope word).package then directive.effect .package .packageOptional
        {.packageMarginalOk, .packageUnknownOk} level else level
      let level := if (scope word).database then directive.effect .database .databaseOptional
        {.databaseMarginalOk, .databaseUnknownOk} level else level
      .ok (level \ {.useDefault}) := by
  unfold applyDirective applyWord
  cases hdirective : parseDirective (scope word).directive with
  | none => simp [hdirective, bail, Except.map]
  | some directive =>
    simp only [hdirective, Except.map]
    split_ifs <;> cases directive <;> rfl

lemma words_appendSignatureOption (option value : Option Text) :
    words (appendSignatureOption option value) = words option ++ words value := by
  rcases option with _ | existing <;> rcases value with _ | value
  · rfl
  · rfl
  · exact (append_nil _).symm
  · simp only [appendSignatureOption, words, Option.map_some, Option.getD_some, splitWhitespace]
    rw [splitOnP_append_cons _ _ (by decide), filter_append]

lemma words_joined (values : List (Option Text)) :
    words (joined values) = values.flatMap words := by
  have h : ∀ option, words (values.foldl appendSignatureOption option) =
      words option ++ values.flatMap words := by
    induction values with
    | nil => exact fun option => (append_nil _).symm
    | cons value values ih =>
      intro option
      rw [foldl_cons, ih, words_appendSignatureOption, flatMap_cons, append_assoc]
  exact h none

variable {base : SigLevel}

lemma overlay_setSignatureFlags (p : ParsedSignatureLevel) (flags : SigLevel) :
    overlay base (setSignatureFlags p flags) = overlay base p ∪ flags := by
  ext flag
  by_cases hma : flag ∈ p.mask <;> by_cases hfl : flag ∈ flags <;>
    simp [mem_overlay, setSignatureFlags, hfl]

lemma overlay_unsetSignatureFlags (p : ParsedSignatureLevel) (flags : SigLevel) :
    overlay base (unsetSignatureFlags p flags) = overlay base p \ flags := by
  ext flag
  by_cases hma : flag ∈ p.mask <;> by_cases hfl : flag ∈ flags <;>
    simp [mem_overlay, unsetSignatureFlags, hfl]

/-- A directive changes the merged level as it changes a level by itself. -/
lemma level_applyTo {p q : ParsedSignatureLevel} (h : q.level = overlay base p)
    (needed optional : SigFlag) (trust : SigLevel) (drv : Directive) :
    (applyTo needed optional trust q drv).level =
      overlay base (applyTo needed optional trust p drv) := by
  cases drv <;> simp only [applyTo, overlay_setSignatureFlags, overlay_unsetSignatureFlags] <;>
    simp only [setSignatureFlags, unsetSignatureFlags, h]

section

variable (hb : .useDefault ∉ base)

include hb

lemma applyDirective_overlay (p : ParsedSignatureLevel) (word : Text) :
    applyDirective (overlay base p) word = (applyWord p word).map (overlay base) := by
  have hdr : ∀ p : ParsedSignatureLevel,
      overlay base { p with level := p.level \ {.useDefault} } =
        overlay base p \ {.useDefault} := by
    intro p
    ext flag
    by_cases hdef : flag = .useDefault <;> simp [mem_overlay, hdef, hb]
  unfold applyDirective applyWord
  cases hdir : parseDirective (scope word).directive with
  | none => simp [hdir, bail, Except.map]
  | some drv =>
    simp only [hdir, Except.map, Except.ok.injEq, hdr]
    congr 1
    have h : (⟨overlay base p, ∅⟩ : ParsedSignatureLevel).level = overlay base p := rfl
    split_ifs
    · exact level_applyTo (level_applyTo h ..) ..
    · exact level_applyTo h ..
    · exact level_applyTo h ..
    · exact h

lemma foldlM_applyDirective (ws : List Text) (p : ParsedSignatureLevel) :
    ws.foldlM applyDirective (overlay base p) = (ws.foldlM applyWord p).map (overlay base) := by
  induction ws generalizing p with
  | nil => rfl
  | cons word ws ih =>
    rw [foldlM_cons, foldlM_cons, applyDirective_overlay hb]
    cases applyWord p word with
    | error e => rfl
    | ok p' => exact ih p'

lemma repositorySiglevel_eq (value : Option Text) :
    repositorySiglevel base value = (words value).foldlM applyDirective base := by
  have hst : overlay base ⟨{.useDefault}, ∅⟩ = base := by
    ext flag
    simp [mem_overlay]
  conv_rhs => rw [← hst, foldlM_applyDirective hb]
  unfold repositorySiglevel
  cases h : parseSignatureLevel value {.useDefault} with
  | error e =>
    rw [parseSignatureLevel] at h
    rw [h]
    rfl
  | ok p =>
    have hp : mergeSignatureLevel base p = overlay base p := mergeSignatureLevel_eq_overlay h
    rw [parseSignatureLevel] at h
    rw [h]
    exact congrArg ok hp

lemma useDefault_notMem_of_foldlM {ws : List Text} {level : SigLevel}
    (h : ws.foldlM applyDirective base = .ok level) : .useDefault ∉ level := by
  induction ws generalizing base with
  | nil =>
    obtain rfl : base = level := ok.inj h
    exact hb
  | cons word ws ih =>
    obtain ⟨next, hw, h⟩ := bind_eq_ok.mp h
    refine ih ?_ h
    obtain ⟨p, hp, rfl⟩ := map_eq_ok.mp hw
    unfold applyWord at hp
    cases hdir : parseDirective (scope word).directive with
    | none => simp [hdir, bail] at hp
    | some drv =>
      simp only [hdir, ok.injEq] at hp
      simp [← hp]

end

/-- **The directives of a section, one after the other.** The level depends on the directives alone,
not on the lines they stand in, and can be found for a first part of them and then for the rest. -/
theorem repositorySiglevel_sequential (default : SigLevel) (hdefault : .useDefault ∉ default)
    (values : List (Option Text)) :
    repositorySiglevel default (joined values) =
        (values.flatMap words).foldlM applyDirective default ∧
      (∀ first rest, first.flatMap words ++ rest.flatMap words = values.flatMap words →
        repositorySiglevel default (joined values) =
          repositorySiglevel default (joined first) >>= (repositorySiglevel · (joined rest))) ∧
      ((∃ word ∈ values.flatMap words, parseDirective (scope word).directive = none) →
        ∃ e, repositorySiglevel default (joined values) = .error e) := by
  have hseq := fun values => repositorySiglevel_eq hdefault (joined values)
  simp only [words_joined] at hseq
  refine ⟨hseq values, fun first rest h => ?_, fun ⟨word, hmem, hno⟩ => ?_⟩
  · rw [hseq values, hseq first, ← h, foldlM_append]
    cases hf : (first.flatMap words).foldlM applyDirective default with
    | error e => rfl
    | ok level =>
      have hl := repositorySiglevel_eq (useDefault_notMem_of_foldlM hdefault hf) (joined rest)
      rw [words_joined] at hl
      exact hl.symm
  · refine exists_error_iff.mpr fun ⟨level, hl⟩ => ?_
    obtain ⟨p, hp, -⟩ := bind_eq_ok.mp hl
    have hall := (exists_parse_iff {.useDefault}).mp ⟨p, hp⟩ word (by rwa [words_joined])
    rw [hno] at hall
    cases hall

/-- Two lines, of which the second one takes back what the first one says. -/
theorem repositorySiglevel_sequential_two :
    let lines := [some "Optional".toList, some "PackageRequired".toList]
    repositorySiglevel {.package} (joined lines) =
      (lines.flatMap words).foldlM applyDirective {.package} :=
  (repositorySiglevel_sequential {.package} (by decide) _).1

end Omg.Arch
