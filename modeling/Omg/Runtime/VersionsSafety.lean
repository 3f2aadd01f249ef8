import Omg.Runtime.Versions

/-!
# What an interrupted operation leaves installed

Every operation works on hidden names until one renaming puts a whole tree, or the link to a
version, in place. The exception is the removal of a version, which deletes its files in place.
-/

namespace Omg.Runtime

open Control Fs Text List Steps AList Operation

namespace Versions

/-- The worlds differ in names of the set `free` only. -/
structure Agree (free : Text → Prop) (w w' : Versions) : Prop where
  lookup : ∀ name, ¬ free name → w'.entries.lookup name = w.entries.lookup name
  published : w'.published = w.published

lemma Agree.refl (free : Text → Prop) (w : Versions) : Agree free w w := ⟨fun _ _ => rfl, rfl⟩

variable {free : Text → Prop}

lemma Agree.trans {w w' w'' : Versions} (h : Agree free w w') (h' : Agree free w' w'') :
    Agree free w w'' :=
  ⟨fun name hn => (h'.lookup name hn).trans (h.lookup name hn), h'.published.trans h.published⟩

lemma Agree.insert {w : Versions} {name : Text} (hn : free name) (item : Item) :
    Agree free w { w with entries := w.entries.insert name item } :=
  ⟨fun _ h => lookup_insert_ne fun heq => h (heq ▸ hn), rfl⟩

lemma Agree.erase {w : Versions} {name : Text} (hn : free name) :
    Agree free w { w with entries := w.entries.erase name } :=
  ⟨fun _ h => lookup_erase_ne fun heq => h (heq ▸ hn), rfl⟩

def Complete (w : Versions) (version : Text) (files : Files) : Prop :=
  w.entries.lookup version = some (.directory files) ∧ w.published.lookup version = some files

/-- Every reported version is complete, and `current` names a complete version, which is reported
unless one of the marker files is in its tree. -/
structure Sound (le : Text → Text → Bool) (versionsDir : List Text) (w : Versions) : Prop where
  listed : ∀ version ∈ listInstalledVersions le w, ∃ files, w.Complete version files
  current : ∀ item, w.entries.lookup currentName = some item →
    ∃ version files, item = .symlink (versionsDir ++ [version]) ∧ w.Complete version files ∧
      (validItem (.directory files) = true → version ∈ listInstalledVersions le w)

/-- What the operations maintain: all directories with a name that is not hidden are complete. -/
structure Maintained (versionsDir : List Text) (w : Versions) : Prop where
  complete : ∀ version files, isHidden version = false → version ≠ currentName →
    w.entries.lookup version = some (.directory files) → w.published.lookup version = some files
  current : ∀ item, w.entries.lookup currentName = some item →
    ∃ version files, item = .symlink (versionsDir ++ [version]) ∧ isHidden version = false ∧
      version ≠ currentName ∧ w.entries.lookup version = some (.directory files)

lemma mem_listInstalledVersions {le : Text → Text → Bool} {w : Versions} {version : Text} :
    version ∈ listInstalledVersions le w ↔ isHidden version = false ∧ version ≠ currentName ∧
      ∃ item, w.entries.lookup version = some item ∧ validItem item := by
  unfold listInstalledVersions
  rw [(mergeSort_perm _ _).mem_iff, mem_filter, ← AList.mem_keys, ← AList.lookup_isSome]
  cases hlk : w.entries.lookup version with
  | none => simp
  | some item => simp [and_assoc]

lemma Maintained.sound {versionsDir : List Text} {w : Versions} (h : w.Maintained versionsDir)
    (le : Text → Text → Bool) : w.Sound le versionsDir := by
  refine ⟨fun version hmem => ?_, fun item hit => ?_⟩
  · obtain ⟨hhi, hcu, item, hlk, hv⟩ := mem_listInstalledVersions.mp hmem
    cases item with
    | directory files => exact ⟨files, hlk, h.complete version files hhi hcu hlk⟩
    | symlink tgt => cases hv
    | file => cases hv
  · obtain ⟨version, files, rfl, hhi, hcu, hlk⟩ := h.current item hit
    exact ⟨version, files, rfl, ⟨hlk, h.complete version files hhi hcu hlk⟩,
      fun hv => mem_listInstalledVersions.mpr ⟨hhi, hcu, _, hlk, hv⟩⟩

lemma not_hidden_currentName : ¬ isHidden currentName := by decide +kernel

lemma Maintained.of_agree {versionsDir : List Text} {w w' : Versions}
    (h : w.Maintained versionsDir) (hag : Agree (fun name => isHidden name) w w') :
    w'.Maintained versionsDir := by
  have hvis : ∀ {version}, isHidden version = false →
      w'.entries.lookup version = w.entries.lookup version := fun hhi =>
    hag.lookup _ (by simp [hhi])
  refine ⟨fun version files hhi hcu hlk => ?_, fun item hit => ?_⟩
  · rw [hag.published]
    exact h.complete version files hhi hcu (hvis hhi ▸ hlk)
  · rw [hag.lookup _ not_hidden_currentName] at hit
    obtain ⟨version, files, hit, hhi, hcu, hlk⟩ := h.current item hit
    exact ⟨version, files, hit, hhi, hcu, (hvis hhi).trans hlk⟩

end Versions

/-! ### Calls -/

section

open Versions

variable {free : Text → Prop} {I : Versions → Prop} {α : Type} {P : Versions → Prop}
  {Q : α → Versions → Prop} {x : VersionsM α} (hI : ∀ w w', Agree free w w' → I w → I w')

lemma satisfies_look {f : Versions → Except Errno α × Versions} (hf : ∀ w, (f w).2 = w)
    (hok : ∀ w a, P w → (f w).1 = .ok a → Q a w) :
    Satisfies I P (.step .fault f) Q (fun _ => P) := by
  refine .step (fun _ _ hP => hP) fun w hw hP => ⟨(hf w).symm ▸ hw, fun a ha => ?_, fun _ _ => ?_⟩
  · exact (hf w).symm ▸ hok w a hP ha
  · exact (hf w).symm ▸ hP

lemma satisfies_lstat (name : Text) : Satisfies I P (lstat name)
      (fun item w => P w ∧ w.entries.lookup name = some item) (fun _ => P) := by
  refine satisfies_look (fun w => ?_) fun w item hP hit => ⟨hP, ?_⟩
  · cases w.entries.lookup name <;> rfl
  · cases hlk : w.entries.lookup name with
    | none => simp [hlk] at hit
    | some item' => simpa [hlk] using hit

lemma satisfies_lstatIn (name path : Text) : Stays I P (lstatIn name path) := by
  refine satisfies_look (fun w => ?_) fun w _ hP _ => hP
  split <;> rfl

lemma satisfies_probe (hx : Satisfies I P x Q fun _ => P) : Satisfies I P (probe x)
      (fun oc w => (∃ a, oc = .ok a ∧ Q a w) ∨ (∃ e, oc = .error e) ∧ P w) (fun _ => P) := by
  refine .tryCatch (.bind hx fun a => .pure fun w _ hw => .inl ⟨a, rfl, hw⟩) fun e => ?_
  exact .pure fun w _ hw => .inr ⟨⟨e, rfl⟩, hw⟩

lemma satisfies_probe_of_look (hx : Stays I P x) : Stays I P (probe x) := by
  refine (satisfies_probe hx).post fun oc w hw => ?_
  rcases hw with ⟨a, -, hw⟩ | ⟨-, hw⟩
  · exact hw
  · exact hw

lemma satisfies_isValidVersionDir (version : Text) :
    Satisfies I P (isValidVersionDir version) (fun valid w => P w ∧
        (valid → ∃ files, w.entries.lookup version = some (.directory files))) (fun _ => P) := by
  refine .bind (satisfies_probe (satisfies_lstat version)) fun oc => .of_forall fun w _ hw => ?_
  rcases hw with ⟨item, rfl, hP, hlk⟩ | ⟨⟨e, rfl⟩, hP⟩
  · cases item with
    | symlink tgt => exact .pure fun w' _ hw' => ⟨hw' ▸ hP, by simp⟩
    | file => exact .pure fun w' _ hw' => ⟨hw' ▸ hP, by simp⟩
    | directory files =>
      have hsm : ∀ w', w' = w → P w' ∧ ∃ files, w'.entries.lookup version =
          some (.directory files) := by
        rintro w' rfl
        exact ⟨hP, files, hlk⟩
      refine .bind ((satisfies_probe_of_look
        (satisfies_lstatIn version testRuntimeMarker)).mono (fun _ hw => hw) (fun _ _ hw => hw)
        fun _ w' hw' => (hsm w' hw').1) fun mock => ?_
      cases mock with
      | ok _ => exact .pure fun w' _ hw' => ⟨(hsm w' hw').1, by simp⟩
      | error e =>
        refine .bind ((satisfies_probe_of_look
          (satisfies_lstatIn version installPendingMarker)).mono (fun _ hw => hw)
          (fun _ _ hw => hw) fun _ w' hw' => (hsm w' hw').1) fun pnd => ?_
        exact .pure fun w' _ hw' => ⟨(hsm w' hw').1, fun _ => (hsm w' hw').2⟩
  · exact .pure fun w' _ hw' => ⟨hw' ▸ hP, by simp⟩

include hI

lemma satisfies_free {f : Versions → Except Errno α × Versions} (hf : ∀ w, Agree free w (f w).2)
    (hok : ∀ w a, P w → (f w).1 = .ok a → Q a (f w).2) :
    Satisfies I P (.step .fault f) Q (fun _ _ => True) :=
  .step (fun _ _ _ => trivial) fun w hw hP =>
    ⟨hI w _ (hf w) hw, fun a ha => hok w a hP ha, fun _ _ => trivial⟩

variable {name : Text}

lemma agree_alterFiles (hn : free name) (f : Files → Files) {Q : Unit → Versions → Prop}
    (hok : ∀ w files, P w → w.entries.lookup name = some (.directory files) → Q ()
      { w with entries := w.entries.insert name (.directory (f files)) }) :
    Satisfies I P (alterFiles name f) Q (fun _ _ => True) := by
  refine satisfies_free hI (fun w => ?_) fun w _ hP hrun => ?_
  · split
    · exact .insert hn _
    · exact .refl _ _
  · split at hrun
    · rename_i files hlk
      exact hok w files hP hlk
    · cases hrun

lemma satisfies_alterFiles (hn : free name) (f : Files → Files) (files : Files) :
    Satisfies I (fun w => w.entries.lookup name = some (.directory files)) (alterFiles name f)
      (fun _ w => w.entries.lookup name = some (.directory (f files))) (fun _ _ => True) := by
  refine agree_alterFiles hI hn f fun w fs' hfs hlk => ?_
  obtain rfl : files = fs' := by simpa [hfs] using hlk
  exact lookup_insert _

lemma satisfies_removeFiles (hn : free name) (ps : List Text) :
    Keeps I (fun _ => True) (removeFiles name ps) := by
  induction ps with
  | nil =>
    unfold removeFiles rmdirEntry
    refine satisfies_free hI (fun w => ?_) fun _ _ _ _ => trivial
    split
    · exact .erase hn
    · exact .refl _ _
  | cons path ps ih => exact .bind (agree_alterFiles hI hn _ fun _ _ _ _ => trivial) fun _ => ih

lemma satisfies_removeDirAll (hn : free name) : Keeps I (fun _ => True) (removeDirAll name) := by
  refine .bind (satisfies_lstat name) fun item => ?_
  cases item with
  | directory files => exact (satisfies_removeFiles hI hn _).pre fun _ _ => trivial
  | symlink tgt => exact .throw fun _ _ _ => trivial
  | file => exact .throw fun _ _ _ => trivial

lemma satisfies_lockMutation (hlo : free mutationLock)
    (hP : ∀ w item, P w → P { w with entries := w.entries.insert mutationLock item }) :
    Satisfies I P lockMutation (fun _ => P) (fun _ _ => True) := by
  refine .mapError (satisfies_free hI (fun w => ?_) fun w _ hw hrun => ?_) fun _ _ _ => trivial
  · split
    · exact .insert hlo _
    · exact .refl _ _
    · exact .refl _ _
  · split at hrun
    · exact hP w _ hw
    · exact hw
    · cases hrun

omit hI in
lemma satisfies_call {ctx : Text} {E : Errno → Versions → Prop} (hx : Satisfies I P x Q E) :
    Satisfies I P (call ctx x) Q fun _ _ => True := hx.mapError fun _ _ _ => trivial

end

/-! ### Staged operations -/

section

open Versions

variable {versionsDir : List Text} {staging version temp : Text} {files : Files}

def Staged (staging : Text) (files : Files) (w : Versions) : Prop :=
  w.entries.lookup staging = some (.directory files)

lemma maintained_of_hidden (w w' : Versions)
    (hag : Agree (fun name => isHidden name) w w') (h : w.Maintained versionsDir) :
    w'.Maintained versionsDir :=
  h.of_agree hag

lemma satisfies_fillStage (hstg : isHidden staging) (files more : Files) :
    Satisfies (Maintained versionsDir) (Staged staging files) (fillStage staging more)
      (fun _ => Staged staging (files ++ more)) (fun _ _ => True) := by
  induction more generalizing files with
  | nil => exact .pure fun w _ hw => by simpa using hw
  | cons file more ih =>
    refine .bind (satisfies_call (satisfies_alterFiles maintained_of_hidden hstg _ files))
      fun _ => ?_
    have hap : files ++ file :: more = files ++ [file] ++ more := by simp
    rw [hap]
    exact ih (files ++ [file])

lemma satisfies_writeInstallMarker (hstg : isHidden staging) :
    Satisfies (Maintained versionsDir) (Staged staging files)
      (writeInstallMarker staging version temp)
      (fun _ => Staged staging (stagedTree version temp files)) (fun _ _ => True) :=
  .bind (satisfies_call (satisfies_alterFiles maintained_of_hidden hstg _ _)) fun _ =>
    .bind (satisfies_call (satisfies_alterFiles maintained_of_hidden hstg _ _)) fun _ =>
      satisfies_call (satisfies_alterFiles maintained_of_hidden hstg _ _)

lemma satisfies_lockMutation_staged (hne : staging ≠ mutationLock) :
    Satisfies (Maintained versionsDir) (Staged staging files) lockMutation
      (fun _ => Staged staging files) (fun _ _ => True) := by
  refine satisfies_lockMutation maintained_of_hidden (by decide +kernel) fun w item hw => ?_
  exact (lookup_insert_ne hne).trans hw

/-- After a tree was put in place under a name that is not `current`. -/
lemma Versions.Maintained.publish {w w' : Versions} (h : w.Maintained versionsDir)
    (hver : version ≠ currentName) (htr : w'.entries.lookup version = some (.directory files))
    (hot : ∀ name, name ≠ version → isHidden name = false →
      w'.entries.lookup name = w.entries.lookup name)
    (hpbd : w'.published = w.published.insert version files) : w'.Maintained versionsDir := by
  refine ⟨fun name fs' hhi hcu hlk => ?_, fun item hit => ?_⟩
  · rw [hpbd]
    by_cases hn : name = version
    · subst hn
      rw [htr] at hlk
      cases hlk
      exact lookup_insert _
    · rw [lookup_insert_ne hn]
      exact h.complete name fs' hhi hcu (hot name hn hhi ▸ hlk)
  · rw [hot _ hver.symm (by simpa using not_hidden_currentName)] at hit
    obtain ⟨name, fs', hit, hhi, hcu, hlk⟩ := h.current item hit
    by_cases hn : name = version
    · subst hn
      exact ⟨name, files, hit, hhi, hcu, htr⟩
    · exact ⟨name, fs', hit, hhi, hcu, (hot name hn hhi).trans hlk⟩

section

variable (hstg : isHidden staging = true)

include hstg

lemma ne_of_isHidden {name : Text} (hn : isHidden name = false) : name ≠ staging := by
  rintro rfl
  simp [hn] at hstg

lemma satisfies_renameNoReplace (hver : version ≠ currentName) :
    Keeps (Maintained versionsDir) (Staged staging files)
      (renameNoReplace staging version files) := by
  refine .step (fun _ _ _ => trivial) fun w h hw => ?_
  simp only [show w.entries.lookup staging = some (.directory files) from hw]
  cases hfe : w.entries.lookup version with
  | some item => exact .error h trivial
  | none =>
    refine .ok (h.publish hver (lookup_insert _) (fun name hn hhi => ?_) rfl) trivial
    exact (lookup_insert_ne hn).trans (lookup_erase_ne (ne_of_isHidden hstg hhi))

lemma satisfies_renameExchange (hver : version ≠ currentName) :
    Keeps (Maintained versionsDir) (Staged staging files)
      (renameExchange staging version files) := by
  refine .step (fun _ _ _ => trivial) fun w h hw => ?_
  simp only [show w.entries.lookup staging = some (.directory files) from hw]
  cases hold : w.entries.lookup version with
  | none => exact .error h trivial
  | some item =>
    refine .ok (h.publish hver (lookup_insert _) (fun name hn hhi => ?_) rfl) trivial
    exact (lookup_insert_ne hn).trans (lookup_insert_ne (ne_of_isHidden hstg hhi))

lemma satisfies_completeStagedInstall (hlo : staging ≠ mutationLock)
    (hver : version ≠ currentName) : Keeps (Maintained versionsDir) (Staged staging files)
      (completeStagedInstall staging version temp files) :=
  .bind (satisfies_lockMutation_staged hlo) fun _ =>
    .bind (satisfies_writeInstallMarker hstg) fun _ =>
      satisfies_call (satisfies_renameNoReplace hstg hver)

lemma satisfies_replaceStagedInstall (hlo : staging ≠ mutationLock) (hver : version ≠ currentName) :
    Keeps (Maintained versionsDir) (Staged staging files)
      (replaceStagedInstall staging version temp files) := by
  refine .bind (satisfies_lockMutation_staged hlo) fun _ =>
    .bind (satisfies_writeInstallMarker hstg) fun _ => ?_
  refine .bind ((satisfies_call (satisfies_isValidVersionDir version)).post fun _ _ hw => hw.1)
    fun valid => ?_
  refine .bind (.check fun _ _ _ => trivial) fun _ => ?_
  exact satisfies_call (satisfies_renameExchange hstg hver)

lemma satisfies_dropStage : Keeps (Maintained versionsDir) (fun _ => True) (dropStage staging) :=
  .tryCatch (satisfies_call (satisfies_removeDirAll maintained_of_hidden hstg)) fun _ =>
    .pure fun _ _ _ => trivial

end

/-- The name `current` is refused. -/
lemma ne_currentName_of_validate (h : validateRuntimeVersion version = .ok ()) :
    version ≠ currentName := by
  rintro rfl
  revert h
  decide +kernel

lemma satisfies_withStage (hstg : isHidden staging) {publish : OperationM Unit}
    (hpub : version ≠ currentName → Keeps (Maintained versionsDir) (Staged staging files)
      publish) : Keeps (Maintained versionsDir) (fun _ => True)
      (withStage staging version files publish) := by
  refine .bind (.lift (fun _ _ hv _ _ => ne_currentName_of_validate hv) fun _ _ _ _ _ => trivial)
    fun _ => .of_forall fun w₀ _ hver => ?_
  refine .bind (Q := fun _ => Staged staging []) (satisfies_call (satisfies_free
    maintained_of_hidden (fun w => ?_) fun w _ _ hrun => ?_)) fun _ => ?_
  · split
    · exact .refl _ _
    · exact .insert hstg _
  · split at hrun
    · cases hrun
    · exact lookup_insert _
  · refine .tryCatch (E := fun _ _ => True) ?_ fun e => ?_
    · refine .bind (satisfies_fillStage hstg [] files) fun _ => ?_
      exact .bind (hpub hver) fun _ => satisfies_dropStage hstg
    · exact .bind (satisfies_dropStage hstg) fun _ => .throw fun _ _ _ => trivial

end

/-! ### Activation -/

section

open Versions

variable {versionsDir : List Text} {version temp : Text}

def Installed (version : Text) (w : Versions) : Prop :=
  ∃ files, w.entries.lookup version = some (.directory files)

section

variable (hver : isHidden version = false)

include hver

lemma Installed.of_agree {w w' : Versions}
    (hag : Agree (fun name => isHidden name) w w') (h : Installed version w) :
    Installed version w' := by
  obtain ⟨files, hfs⟩ := h
  exact ⟨files, (hag.lookup version (by simp [hver])).trans hfs⟩

lemma satisfies_createEntry (htm : isHidden temp)
    (item : Item) : Satisfies (Maintained versionsDir) (Installed version) (createEntry temp item)
      (fun _ w => Installed version w ∧ w.entries.lookup temp = some item) (fun _ _ => True) := by
  refine satisfies_free maintained_of_hidden (fun w => ?_) fun w _ hw hrun => ?_
  · split
    · exact .refl _ _
    · exact .insert htm _
  · split at hrun
    · cases hrun
    · exact ⟨hw.of_agree hver (.insert htm item), lookup_insert _⟩

lemma satisfies_unlinkEntry (htm : isHidden temp) :
    Satisfies (Maintained versionsDir) (Installed version) (unlinkEntry temp)
      (fun _ => Installed version) (fun _ _ => True) := by
  refine satisfies_free maintained_of_hidden (fun w => ?_) fun w _ hw hrun => ?_
  · split
    · exact .refl _ _
    · exact .erase htm
    · exact .refl _ _
  · split at hrun
    · cases hrun
    · exact hw.of_agree hver (.erase htm)
    · cases hrun

end

lemma Versions.Maintained.activate {w w' : Versions} (h : w.Maintained versionsDir)
    (hver : isHidden version = false) (hcu : version ≠ currentName) (hins : Installed version w)
    (hli : w'.entries.lookup currentName = some (.symlink (versionsDir ++ [version])))
    (hot : ∀ name, isHidden name = false → name ≠ currentName →
      w'.entries.lookup name = w.entries.lookup name)
    (hpbd : w'.published = w.published) : w'.Maintained versionsDir := by
  obtain ⟨files, hfs⟩ := hins
  refine ⟨fun name fs' hhi hn hlk => ?_, fun item hit => ?_⟩
  · rw [hpbd]
    exact h.complete name fs' hhi hn (hot name hhi hn ▸ hlk)
  · rw [hli] at hit
    cases hit
    exact ⟨version, files, rfl, hver, hcu, (hot _ hver hcu).trans hfs⟩

lemma satisfies_renameLink (hver : isHidden version = false)
    (hcu : version ≠ currentName) (htm : isHidden temp) : Keeps (Maintained versionsDir)
      (fun w => Installed version w ∧ w.entries.lookup temp = some
      (.symlink (versionsDir ++ [version]))) (renameLink temp currentName) := by
  refine .step (fun _ _ _ => trivial) fun w h hw => ?_
  obtain ⟨hins, hli⟩ := hw
  split
  · exact .error h trivial
  · rename_i item hit _
    obtain rfl : Item.symlink (versionsDir ++ [version]) = item :=
      Option.some.inj (hli.symm.trans hit)
    refine .ok (h.activate hver hcu hins (lookup_insert _) (fun name hhi hn => ?_) rfl) trivial
    have hne : name ≠ temp := by
      rintro rfl
      simp [hhi] at htm
    exact (lookup_insert_ne hn).trans (lookup_erase_ne hne)
  · exact .error h trivial

lemma satisfies_checkCurrent {I P : Versions → Prop} :
    Satisfies I P checkCurrent (fun _ => P) (fun _ _ => True) := by
  refine .bind (satisfies_call (satisfies_probe_of_look
    ((satisfies_lstat currentName).post fun _ _ hw => hw.1))) fun oc => ?_
  split
  · exact .pure fun _ _ hw => hw
  · exact .pure fun _ _ hw => hw
  · exact .throw fun _ _ _ => trivial
  · exact .throw fun _ _ _ => trivial

lemma satisfies_setCurrentVersion (hver : isHidden version = false) (htm : isHidden temp) :
    Keeps (Maintained versionsDir) (fun _ => True)
      (setCurrentVersion versionsDir version temp) := by
  refine .bind (.lift (fun _ _ hv _ _ => ne_currentName_of_validate hv) fun _ _ _ _ _ => trivial)
    fun _ => .of_forall fun w₀ _ hcu => ?_
  refine .bind ((satisfies_lockMutation maintained_of_hidden
    (by decide +kernel) fun _ _ _ => trivial).pre fun _ _ => trivial) fun _ => ?_
  refine .bind ((satisfies_call (satisfies_isValidVersionDir version)).post fun _ _ hw => hw.2)
    fun valid => ?_
  refine .bind (.lift (fun _ _ hv _ hw => hw (ensure_eq_ok.mp hv)) fun _ _ _ _ _ => trivial)
    fun _ => ?_
  refine .bind satisfies_checkCurrent fun _ => ?_
  refine .bind ((satisfies_call
    (satisfies_createEntry hver htm .file)).post fun _ _ hw => hw.1) fun _ => ?_
  refine .tryCatch (E := fun _ _ => True) ?_ fun e => ?_
  · refine .bind (satisfies_call (satisfies_unlinkEntry hver htm)) fun _ => ?_
    exact .bind (satisfies_call (satisfies_createEntry hver htm _)) fun _ =>
      satisfies_call (satisfies_renameLink hver hcu htm)
  · refine .bind (Q := fun _ _ => True) (.tryCatch (satisfies_call
      (satisfies_free maintained_of_hidden (fun w => ?_) fun _ _ _ _ => trivial)) fun _ =>
      .pure fun _ _ _ => trivial) fun _ => .throw fun _ _ _ => trivial
    split
    · exact .refl _ _
    · exact .erase htm
    · exact .refl _ _

end

/-! ### Removal -/

section

open Versions

variable {versionsDir : List Text} {version : Text}

def Removable (version name : Text) : Prop := isHidden name = true ∨ name = version

/-- A removal that goes no further only makes the lock file. -/
lemma satisfies_checkInstalled {free : Text → Prop} (hfree : free mutationLock) (w₀ : Versions) :
    Satisfies (Agree free w₀) (fun _ => True) (checkInstalled version)
      (fun _ => Installed version) fun _ _ => True := by
  have hI : ∀ w w', Agree free w w' → Agree free w₀ w → Agree free w₀ w' :=
    fun _ _ h h' => h'.trans h
  refine .bind (.check fun _ _ _ => trivial) fun _ => ?_
  refine .bind (satisfies_lockMutation hI hfree fun _ _ hw => hw) fun _ => ?_
  refine .bind ((satisfies_call (satisfies_isValidVersionDir version)).post fun _ _ hw => hw.2)
    fun valid => ?_
  exact .lift (fun _ _ hv _ hw => hw (ensure_eq_ok.mp hv)) fun _ _ _ _ _ => trivial

lemma satisfies_uninstallVersion (w₀ : Versions) :
    Keeps (Agree (Removable version) w₀) (fun _ => True) (uninstallVersion version) := by
  have hI : ∀ w w', Agree (Removable version) w w' → Agree (Removable version) w₀ w →
      Agree (Removable version) w₀ w' := fun _ _ h h' => h'.trans h
  refine .bind ((satisfies_checkInstalled (.inl (by decide +kernel)) w₀).post
    fun _ _ _ => trivial) fun _ => ?_
  refine .bind (satisfies_call (satisfies_probe_of_look
    ((satisfies_lstat currentName).post fun _ _ hw => hw.1))) fun current => ?_
  refine .bind (.check fun _ _ _ => trivial) fun _ => ?_
  exact satisfies_call (satisfies_removeDirAll hI (.inr rfl))

/-! A removal of which no call fails. -/

/-- No call fails. -/
def noFaults : ℕ → Bool := fun _ => false

lemma step_noFaults {ε α : Type} (fault : ε) (f : Versions → Except ε α × Versions)
    (h : History Versions) : Steps.step fault f noFaults h = ((f h.now).1, h.record (f h.now).2) :=
  rfl

lemma removeFiles_noFaults {paths : List Text} {files : Files} {h : History Versions}
    (hlookup : h.now.entries.lookup version = some (.directory files))
    (hall : ∀ file ∈ files, file.1 ∈ paths) :
    (removeFiles version paths noFaults h).2.now.entries.lookup version = none := by
  induction paths generalizing files h with
  | nil =>
    obtain rfl : files = [] := eq_nil_iff_forall_not_mem.mpr fun file hfile =>
      absurd (hall file hfile) not_mem_nil
    rw [removeFiles, rmdirEntry, step_noFaults]
    simp [hlookup]
  | cons path paths ih =>
    let rest := Item.directory (files.filter fun file => file.1 ≠ path)
    have hstep : alterFiles version (fun files => files.filter fun file => file.1 ≠ path) noFaults
        h = (.ok (), h.record { h.now with entries := h.now.entries.insert version rest }) := by
      rw [alterFiles, step_noFaults]
      simp [hlookup, rest]
    rw [removeFiles, bind_apply_ok hstep]
    refine ih (lookup_insert _) fun file hfile => ?_
    obtain ⟨hmem, hne⟩ := mem_filter.mp hfile
    exact (mem_cons.mp (hall file hmem)).resolve_left (of_decide_eq_true hne)

lemma removeDirAll_noFaults {h : History Versions} (hins : Installed version h.now) :
    (removeDirAll version noFaults h).2.now.entries.lookup version = none := by
  obtain ⟨files, hlookup⟩ := hins
  have hstep : lstat version noFaults h = (.ok (.directory files), h.record h.now) := by
    rw [lstat, step_noFaults]
    simp [hlookup]
  rw [removeDirAll, bind_apply_ok hstep]
  exact removeFiles_noFaults hlookup fun file hfile => mem_map_of_mem hfile

/-- The version is refused as active, or removed whole. -/
lemma removeInactive_noFaults {h : History Versions} (hins : Installed version h.now) :
    (removeInactive version noFaults h).2.now = h.now ∨
      (removeInactive version noFaults h).2.now.entries.lookup version = none ∧
        ∀ target, h.now.entries.lookup currentName = some (.symlink target) →
          target.getLast? ≠ some version := by
  obtain ⟨current, hcurrent, hlink⟩ : ∃ current : Except Errno Item,
      call [] (probe (lstat currentName)) noFaults h = (.ok current, h.record h.now) ∧
        ∀ target, h.now.entries.lookup currentName = some (.symlink target) →
          current = .ok (.symlink target) := by
    cases hlookup : h.now.entries.lookup currentName with
    | none =>
      refine ⟨.error .notFound, ?_, by simp⟩
      simp [call, probe, lstat, Steps.mapError, tryCatch, MonadExcept.tryCatch,
        step_noFaults, hlookup, Bind.bind, Pure.pure, Except.mapError]
    | some item =>
      refine ⟨.ok item, ?_, by simp⟩
      simp [call, probe, lstat, Steps.mapError, tryCatch, MonadExcept.tryCatch,
        step_noFaults, hlookup, Bind.bind, Pure.pure, Except.mapError]
  rw [removeInactive, bind_apply_ok hcurrent]
  cases hallowed : isInactive version current with
  | false => exact .inl rfl
  | true =>
    refine .inr ⟨removeDirAll_noFaults (h := h.record h.now) hins, fun target htarget hlast => ?_⟩
    simp [isInactive, hlink target htarget, hlast] at hallowed

/-- A removal of which no call fails leaves the version as it was, or removes it whole and not while
it is active. -/
lemma uninstallVersion_noFaults {w : Versions} (hvis : isHidden version = false) :
    let w' := (uninstallVersion version noFaults (.start w)).2.now
    w'.entries.lookup version = w.entries.lookup version ∨
      w'.entries.lookup version = none ∧
        w.entries.lookup currentName ≠ some (.symlink (versionsDir ++ [version])) := by
  intro w'
  have hstart : ∀ v ∈ (History.start w).states, Agree (fun name => isHidden name) w v := by
    simpa using Agree.refl _ w
  have hsat : Satisfies (Agree (fun name => isHidden name) w) (fun _ => True)
      (checkInstalled version) (fun _ => Installed version) fun _ _ => True :=
    satisfies_checkInstalled (by decide +kernel) w
  obtain ⟨hagree, hinstalled, -⟩ := hsat noFaults (.start w) hstart trivial
  have hnow := hagree _ (History.now_mem_states _)
  cases hchecked : checkInstalled version noFaults (.start w) with
  | mk result h =>
    rw [hchecked] at hnow hinstalled
    cases result with
    | error e =>
      left
      have : w' = h.now := by simp only [w', uninstallVersion, bind_apply_error hchecked]
      rw [this, hnow.lookup version (by simp [hvis])]
    | ok _ =>
      have hw' : w' = (removeInactive version noFaults h).2.now := by
        simp only [w', uninstallVersion, bind_apply_ok hchecked]
      rcases removeInactive_noFaults (hinstalled () rfl) with hsame | ⟨hgone, hlink⟩
      · exact .inl (by rw [hw', hsame, hnow.lookup version (by simp [hvis])])
      · refine .inr ⟨hw' ▸ hgone, fun hactive => ?_⟩
        rw [← hnow.lookup currentName not_hidden_currentName] at hactive
        exact hlink _ hactive (by simp)

/-- The version was not touched, or it is gone and `current` does not name it. -/
lemma Versions.Maintained.uninstall {w w' : Versions} (h : w.Maintained versionsDir)
    (hag : Agree (Removable version) w w') (hver : isHidden version ∨
      w'.entries.lookup version = w.entries.lookup version ∨ w'.entries.lookup version = none ∧
        w.entries.lookup currentName ≠ some (.symlink (versionsDir ++ [version])))
    (hcu : version ≠ currentName) : w'.Maintained versionsDir := by
  have hot : ∀ name, isHidden name = false → name ≠ version →
      w'.entries.lookup name = w.entries.lookup name := by
    intro name hhi hn
    exact hag.lookup name (by simp [Removable, hhi, hn])
  have hcurrentName : w'.entries.lookup currentName = w.entries.lookup currentName :=
    hot _ (by simpa using not_hidden_currentName) hcu.symm
  refine ⟨fun name files hhi hn hlk => ?_, fun item hit => ?_⟩
  · rw [hag.published]
    refine h.complete name files hhi hn ?_
    by_cases heq : name = version
    · subst heq
      rcases hver with hver | hsm | ⟨hno, -⟩
      · simp [hhi] at hver
      · rwa [hsm] at hlk
      · rw [hno] at hlk
        cases hlk
    · rwa [hot name hhi heq] at hlk
  · rw [hcurrentName] at hit
    obtain ⟨name, files, hit', hhi, hn, hlk⟩ := h.current item hit
    refine ⟨name, files, hit', hhi, hn, ?_⟩
    by_cases heq : name = version
    · subst heq
      rcases hver with hver | hsm | ⟨-, hact⟩
      · simp [hhi] at hver
      · rwa [hsm]
      · exact absurd (hit'▸ hit) hact
    · rwa [hot name hhi heq]

end

/-! ### Runs -/

open Versions

/-- What may fail in an operation that starts in `w`, and where it may be cut. A removal is cut
while it still looks whether the version is installed, whatever fails; or no call of it fails, and
it is not cut. A version that is activated has a name that is not hidden. -/
def Operation.Undisturbed (w : Versions) (fails : ℕ → Bool) (cut : Versions) : Operation → Prop
  | .uninstall version => cut ∈ (checkInstalled version fails (.start w)).2.states ∨
      fails = noFaults ∧ cut = (uninstallVersion version fails (.start w)).2.now
  | .activate version _ => isHidden version = false
  | .install _ _ _ _ => True
  | .replace _ _ _ _ => True

/-- The states that are reached from an empty directory. Each operation is cut after any number of
its steps, and any of its steps may fail, as far as `P` allows it. -/
inductive Run (versionsDir : List Text)
    (P : Versions → (ℕ → Bool) → Versions → Operation → Prop) : Versions → Prop
  | start : Run versionsDir P ⟨∅, ∅⟩
  | step {w w' : Versions} (hw : Run versionsDir P w) (op : Operation) (fails : ℕ → Bool)
      (hstate : w' ∈ (op.run versionsDir fails (.start w)).2.states) (hP : P w fails w' op) :
      Run versionsDir P w'

variable {w : Versions}

lemma maintained_of_mem_states {versionsDir : List Text} {x : OperationM Unit} {w' : Versions}
    {fl : ℕ → Bool} (hw : w.Maintained versionsDir)
    (hx : Keeps (Maintained versionsDir) (fun _ => True) x)
    (hstate : w' ∈ (x fl (.start w)).2.states) : w'.Maintained versionsDir :=
  (hx fl (.start w) (by simpa using hw) trivial).1 w' hstate

lemma stage_ne_mutationLock (random : Text) : tempName "install-" random ≠ mutationLock := by
  rintro ⟨⟩

lemma satisfies_install (versionsDir : List Text) (version : Text) (files : Files)
    (stage temp : Text) : Keeps (Maintained versionsDir) (fun _ => True)
      ((install version files stage temp).run versionsDir) :=
  satisfies_withStage rfl fun hver =>
    satisfies_completeStagedInstall rfl (stage_ne_mutationLock stage) hver

lemma satisfies_replace (versionsDir : List Text) (version : Text) (files : Files)
    (stage temp : Text) : Keeps (Maintained versionsDir) (fun _ => True)
      ((replace version files stage temp).run versionsDir) :=
  satisfies_withStage rfl fun hver =>
    satisfies_replaceStagedInstall rfl (stage_ne_mutationLock stage) hver

lemma satisfies_activate (versionsDir : List Text) {version : Text} (temp : Text)
    (hver : isHidden version = false) : Keeps (Maintained versionsDir) (fun _ => True)
      ((activate version temp).run versionsDir) :=
  satisfies_setCurrentVersion hver rfl

lemma Versions.Maintained.step {versionsDir : List Text} {w' : Versions}
    (h : w.Maintained versionsDir) (op : Operation) (fl : ℕ → Bool)
    (hstate : w' ∈ (op.run versionsDir fl (.start w)).2.states)
    (hop : op.Undisturbed w fl w') : w'.Maintained versionsDir := by
  cases op with
  | install version files stage temp =>
    exact maintained_of_mem_states h (satisfies_install versionsDir version files stage temp) hstate
  | replace version files stage temp =>
    exact maintained_of_mem_states h (satisfies_replace versionsDir version files stage temp) hstate
  | activate version temp =>
    exact maintained_of_mem_states h (satisfies_activate versionsDir temp hop) hstate
  | uninstall version =>
    have hstart : ∀ free, ∀ v ∈ (History.start w).states, Agree free w v := by
      simpa using fun free => Agree.refl free w
    rcases hop with hcut | ⟨rfl, rfl⟩
    · exact h.of_agree ((satisfies_checkInstalled (by decide +kernel) w fl (.start w) (hstart _)
        trivial).1 w' hcut)
    · cases hval : validateRuntimeVersion version with
      | error e =>
        -- The name is refused, and the state is the one at the start.
        have hrun : checkInstalled version noFaults (.start w) = (.error e, .start w) := by
          unfold checkInstalled
          rw [hval]
          rfl
        rw [uninstallVersion, bind_apply_error hrun]
        exact h
      | ok _ =>
        have hcu := ne_currentName_of_validate hval
        refine h.uninstall ((satisfies_uninstallVersion w noFaults (.start w) (hstart _)
          trivial).1 _ hstate) ?_ hcu
        cases hvis : isHidden version with
        | true => exact .inl rfl
        | false => exact .inr (uninstallVersion_noFaults hvis)

/-- In every run in which no removal is cut or has a call that fails once it has found the version,
and no hidden directory is activated, every state is sound. -/
theorem sound_of_undisturbed (le : Text → Text → Bool) (versionsDir : List Text) {w : Versions}
    (hrun : Run versionsDir (fun w fails cut op => op.Undisturbed w fails cut) w) :
    w.Sound le versionsDir := by
  suffices h : w.Maintained versionsDir from h.sound le
  induction hrun with
  | start =>
    refine ⟨fun _ _ _ _ h => ?_, fun _ h => ?_⟩
    · rw [lookup_empty] at h
      cases h
    · rw [lookup_empty] at h
      cases h
  | step hw op fl hstate hop ih => exact ih.step op fl hstate hop

/-! ### Runs that are disturbed -/

def sampleDir : List Text := ["data"]

def sampleInstall : Operation := .install "1" [("bin", some [1]), ("lib", some [2])] "a" "b"

def Operation.after (op : Operation) (fails : ℕ → Bool) (w : Versions) : Versions :=
  (op.run sampleDir fails (.start w)).2.now

lemma Run.after {P : Versions → (ℕ → Bool) → Versions → Operation → Prop} (hw : Run sampleDir P w)
    (op : Operation) (fails : ℕ → Bool) (hP : P w fails (op.after fails w) op) :
    Run sampleDir P (op.after fails w) :=
  hw.step op fails (History.now_mem_states _) hP

/-- Two versions are installed, the second one is activated, and the first one is removed. -/
def switched : Versions :=
  (Operation.uninstall "1").after noFaults
    ((Operation.activate "2" "c").after noFaults
      ((Operation.install "2" [("bin", some [3])] "d" "e").after noFaults
        (sampleInstall.after noFaults ⟨∅, ∅⟩)))

theorem sound_of_undisturbed_switched :
    listInstalledVersions (fun _ _ => true) switched = ["2".toList] ∧
      switched.Sound (fun _ _ => true) sampleDir := by
  have hrun : Run sampleDir (fun w fails cut op => op.Undisturbed w fails cut) switched :=
    (((Run.start.after _ _ trivial).after _ _ trivial).after _ _ rfl).after _ _ (.inr ⟨rfl, rfl⟩)
  exact ⟨by decide +kernel, sound_of_undisturbed _ _ hrun⟩

lemma not_complete_of_ne {version : Text}
    (h : w.entries.lookup version ≠ (w.published.lookup version).map .directory) (files : Files) :
    ¬ w.Complete version files := by
  rintro ⟨hes, hpbd⟩
  exact h (by rw [hes, hpbd, Option.map_some])

def interrupted : Versions :=
  (Operation.uninstall "1").after (fun k => k = 7)
    (sampleInstall.after (fun _ => false) ⟨∅, ∅⟩)

/-- The link `current` could not be read. -/
def deactivated : Versions :=
  (Operation.uninstall "1").after (fun k => k = 4)
    ((Operation.activate "1" "c").after (fun _ => false)
      (sampleInstall.after (fun _ => false) ⟨∅, ∅⟩))

def misled : Versions :=
  (Operation.activate ".install-a" "c").after (fun _ => false)
    (sampleInstall.after (fun k => 2 ≤ k) ⟨∅, ∅⟩)

/-- An interrupted removal leaves a version that is reported and not complete. If `current` cannot
be read, the active version is removed. A stage that an interrupted installation left can be
activated by its name. -/
theorem exists_unsound : (Run sampleDir (fun _ _ _ _ => True) interrupted ∧
      "1".toList ∈ listInstalledVersions (fun _ _ => true) interrupted ∧
      ∀ files, ¬ interrupted.Complete "1".toList files) ∧
    (Run sampleDir (fun _ _ _ _ => True) deactivated ∧
      deactivated.entries.lookup currentName = some (.symlink (sampleDir ++ ["1".toList])) ∧
      deactivated.entries.lookup "1".toList = none) ∧
    (Run sampleDir (fun _ _ _ _ => True) misled ∧
      misled.entries.lookup currentName = some (.symlink (sampleDir ++ [".install-a".toList])) ∧
      ∀ files, ¬ misled.Complete ".install-a".toList files) := by
  refine ⟨⟨?_, ?_, ?_⟩, ⟨?_, ?_, ?_⟩, ⟨?_, ?_, ?_⟩⟩
  · exact (Run.start.after _ _ trivial).after _ _ trivial
  · exact mem_listInstalledVersions.mpr ⟨by decide +kernel, by decide +kernel, _, rfl,
      by decide +kernel⟩
  · exact not_complete_of_ne (by decide +kernel)
  · exact ((Run.start.after _ _ trivial).after _ _ trivial).after _ _ trivial
  · decide +kernel
  · decide +kernel
  · exact (Run.start.after _ _ trivial).after _ _ trivial
  · decide +kernel
  · exact not_complete_of_ne (by decide +kernel)

end Omg.Runtime
