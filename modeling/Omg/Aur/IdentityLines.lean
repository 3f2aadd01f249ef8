import Omg.Aur.InspectionSafety

/-!
# The identity in the metadata of an archive

The name, version, base and architecture of a package are read from two metadata files and compared.
The fields of `.BUILDINFO` have to stand in it once.

Source: `src/package_managers/aur/artifact_inspector.rs`.
-/

namespace Omg.Aur

open Control Text List Option

def fieldValues (content : Text) (key : String) : List Text :=
  (strLines content).filterMap (fieldValue key.toList)

def metadataText (entry : TarEntry) : Option Text := entry.data.toOption.bind utf8Decode

def identityKeys : List (String × (Identity → Text)) :=
  [("pkgname", Identity.name), ("pkgver", Identity.version), ("pkgbase", Identity.base),
    ("arch", Identity.architecture), ("pkgarch", Identity.architecture)]

def Tells (content : Text) (identity : Identity) : Prop :=
  ∀ key ∈ identityKeys, ∀ value ∈ fieldValues content key.1, value = key.2 identity

def Agree (content : Text) (key key' : String) : Prop :=
  ∀ value ∈ fieldValues content key, ∀ value' ∈ fieldValues content key', value = value'

instance (content : Text) (key key' : String) : Decidable (Agree content key key') := by
  unfold Agree
  infer_instance

/-- The lines of `.PKGINFO` agree. -/
def PkginfoAgrees (content : Text) : Prop :=
  Agree content "pkgname" "pkgname" ∧ Agree content "pkgver" "pkgver" ∧
    Agree content "pkgbase" "pkgbase" ∧ Agree content "arch" "arch" ∧ Agree content "arch" "pkgarch"

instance (content : Text) : Decidable (PkginfoAgrees content) := by
  unfold PkginfoAgrees
  infer_instance

/-! ### The two parsers -/

variable {content : Text} {key : String} {identity : Identity}

lemma mem_fieldValues_of_findSome {val : Text}
    (h : (strLines content).findSome? (fieldValue key.toList) = some val) :
    val ∈ fieldValues content key := by
  obtain ⟨line, hl, hval⟩ := exists_of_findSome?_eq_some h
  exact mem_filterMap.mpr ⟨line, hl, hval⟩

lemma fieldValues_eq_nil (h : (strLines content).findSome? (fieldValue key.toList) = none) :
    fieldValues content key = [] :=
  filterMap_eq_nil_iff.mpr (findSome?_eq_none_iff.mp h)

lemma parsePkginfo_ok {debugChar : Char → Text}
    (h : parsePkginfo debugChar content = .ok identity) :
    identity.name ∈ fieldValues content "pkgname" ∧
      identity.version ∈ fieldValues content "pkgver" ∧
      (identity.base ∈ fieldValues content "pkgbase" ∨ fieldValues content "pkgbase" = []) ∧
      identity.architecture ∈ fieldValues content "arch" := by
  obtain ⟨name, hname, h⟩ := bind_eq_ok.mp h
  obtain ⟨ver, hver, h⟩ := bind_eq_ok.mp h
  obtain ⟨architecture, har, h⟩ := bind_eq_ok.mp h
  obtain ⟨_, -, h⟩ := bind_eq_ok.mp h
  obtain ⟨_, -, h⟩ := bind_eq_ok.mp h
  obtain ⟨_, -, h⟩ := bind_eq_ok.mp h
  obtain ⟨_, -, h⟩ := bind_eq_ok.mp h
  cases h
  refine ⟨mem_fieldValues_of_findSome (required_eq_ok.mp hname),
    mem_fieldValues_of_findSome (required_eq_ok.mp hver), ?_,
    mem_fieldValues_of_findSome (required_eq_ok.mp har)⟩
  cases hba : (strLines content).findSome? (fieldValue "pkgbase") with
  | none => exact .inr (fieldValues_eq_nil hba)
  | some base =>
    refine .inl ?_
    dsimp only
    rw [hba]
    exact mem_fieldValues_of_findSome hba

lemma exactlyOne_ok {val : Text} (h : exactlyOne content key = .ok val) :
    fieldValues content key = [val] := by
  unfold exactlyOne at h
  split at h
  · cases h
    assumption
  · cases h

lemma parseBuildinfo_ok (h : parseBuildinfo content = .ok identity) :
    fieldValues content "pkgname" = [identity.name] ∧
      fieldValues content "pkgver" = [identity.version] ∧
      fieldValues content "pkgbase" = [identity.base] ∧
      fieldValues content "pkgarch" = [identity.architecture] := by
  obtain ⟨fmt, -, h⟩ := bind_eq_ok.mp h
  obtain ⟨_, -, h⟩ := bind_eq_ok.mp h
  obtain ⟨name, hname, h⟩ := bind_eq_ok.mp h
  obtain ⟨ver, hver, h⟩ := bind_eq_ok.mp h
  obtain ⟨base, hba, h⟩ := bind_eq_ok.mp h
  obtain ⟨architecture, har, h⟩ := bind_eq_ok.mp h
  cases h
  exact ⟨exactlyOne_ok hname, exactlyOne_ok hver, exactlyOne_ok hba, exactlyOne_ok har⟩

lemma tells_iff_of_parsePkginfo {debugChar : Char → Text}
    (h : parsePkginfo debugChar content = .ok identity) :
    Tells content identity ↔ PkginfoAgrees content := by
  obtain ⟨hname, hver, hba, har⟩ := parsePkginfo_ok h
  simp only [Tells, identityKeys, forall_mem_cons, not_mem_nil, false_imp_iff,
    implies_true, and_true]
  constructor
  · rintro ⟨hn, hv, hb, ha, hp⟩
    exact ⟨fun v hv' v' hv'' => (hn v hv').trans (hn v' hv'').symm,
      fun v hv' v' hv'' => (hv v hv').trans (hv v' hv'').symm,
      fun v hv' v' hv'' => (hb v hv').trans (hb v' hv'').symm,
      fun v hv' v' hv'' => (ha v hv').trans (ha v' hv'').symm,
      fun v hv' v' hv'' => (ha v hv').trans (hp v' hv'').symm⟩
  · rintro ⟨hn, hv, hb, ha, hp⟩
    refine ⟨fun v hv' => hn v hv' _ hname, fun v hv' => hv v hv' _ hver, fun v hv' => ?_,
      fun v hv' => ha v hv' _ har, fun v hv' => (hp _ har v hv').symm⟩
    rcases hba with hba | hnil
    · exact hb v hv' _ hba
    · rw [hnil] at hv'
      cases hv'

lemma tells_iff_of_parseBuildinfo (h : parseBuildinfo content = .ok identity) :
    Tells content identity ↔ Agree content "pkgarch" "arch" := by
  obtain ⟨hname, hver, hba, har⟩ := parseBuildinfo_ok h
  simp only [Tells, Agree, identityKeys, forall_mem_cons, not_mem_nil, false_imp_iff,
    implies_true, and_true, hname, hver, hba, har, true_and]
  exact forall₂_congr fun _ _ => eq_comm

/-! ### The loop -/

namespace Inspector

variable {x : Inspector} {file : Bytes} {inspection : ArtifactInspection}
  {progress progress' : Progress} {entry : TarEntry}

lemma inspectMember_metadata (h : x.inspectMember progress entry = .ok progress') :
    ∃ mbr lst, memberName entry = some mbr ∧ lst.pkginfo = progress.pkginfo ∧
      lst.buildinfo = progress.buildinfo ∧ x.inspectMetadata mbr entry lst = .ok progress' := by
  obtain ⟨⟨pts, mbr, admitted⟩, had, h⟩ := bind_eq_ok.mp h
  obtain ⟨_, -, h⟩ := bind_eq_ok.mp h
  obtain ⟨mode, -, h⟩ := bind_eq_ok.mp h
  obtain ⟨cap, -, h⟩ := bind_eq_ok.mp h
  obtain ⟨lst, hli, hmetadata⟩ := bind_eq_ok.mp h
  obtain ⟨_, -, had⟩ := bind_eq_ok.mp had
  obtain ⟨_, -, had⟩ := bind_eq_ok.mp had
  obtain ⟨_, -, had⟩ := bind_eq_ok.mp had
  obtain ⟨_, -, had⟩ := bind_eq_ok.mp had
  obtain ⟨fd, hps, had⟩ := bind_eq_ok.mp had
  obtain ⟨_, -, had⟩ := bind_eq_ok.mp had
  cases had
  obtain ⟨-, hpki, hbui, -⟩ := listFile_ok hli
  exact ⟨_, lst, memberName_eq_some.mpr ⟨pts, hps, rfl⟩, hpki, hbui, hmetadata⟩

structure Slot (x : Inspector) where
  name : Text
  get : Progress → Option Identity
  parse : Text → Result Identity
  sets : ∀ {progress progress' entry}, x.inspectMember progress entry = .ok progress' →
    memberName entry = some name → ∃ content identity, metadataText entry = some content ∧
      parse content = .ok identity ∧ get progress' = some identity
  keeps : ∀ {progress progress' entry}, x.inspectMember progress entry = .ok progress' →
    memberName entry ≠ some name → get progress' = get progress

lemma Slot.keeps_run (slot : Slot x) {mems : List TarEntry}
    (h : mems.foldlM x.inspectMember progress = .ok progress')
    (hsn : slot.name ∈ progress.seen) : slot.get progress' = slot.get progress := by
  induction mems generalizing progress with
  | nil =>
    cases h
    rfl
  | cons entry mems ih =>
    obtain ⟨next, he, hr⟩ := bind_eq_ok.mp h
    obtain ⟨mbr, hname, hnew, hnx, -⟩ := inspectMember_ok he
    have hot : memberName entry ≠ some slot.name := by
      rintro heq
      rw [hname] at heq
      exact hnew (some.inj heq ▸ hsn)
    rw [ih hr (by rw [hnx]; exact mem_append_left _ hsn), slot.keeps he hot]

lemma Slot.sets_run (slot : Slot x) {mems : List TarEntry}
    (h : mems.foldlM x.inspectMember progress = .ok progress') (he : entry ∈ mems)
    (hname : memberName entry = some slot.name) :
    ∃ content identity, metadataText entry = some content ∧ slot.parse content = .ok identity ∧
      slot.get progress' = some identity := by
  induction mems generalizing progress with
  | nil => cases he
  | cons first mems ih =>
    obtain ⟨next, hf, hr⟩ := bind_eq_ok.mp h
    rcases mem_cons.mp he with rfl | he
    · obtain ⟨content, identity, hc, hpr, hget⟩ := slot.sets hf hname
      obtain ⟨mbr, hmember, -, hnx, -⟩ := inspectMember_ok hf
      obtain rfl : mbr = slot.name := some.inj (hmember.symm.trans hname)
      refine ⟨content, identity, hc, hpr, ?_⟩
      rw [slot.keeps_run hr (by simp [hnx]), hget]
    · exact ih hr he

lemma inspectMetadata_cases {mbr : Text}
    (h : x.inspectMetadata mbr entry progress = .ok progress') :
    (mbr = ".PKGINFO" → ∃ content identity, metadataText entry = some content ∧
      parsePkginfo x.debugChar content = .ok identity ∧ progress'.pkginfo = some identity) ∧
    (mbr ≠ ".PKGINFO" → progress'.pkginfo = progress.pkginfo) ∧
    (mbr = ".BUILDINFO" → ∃ content identity, metadataText entry = some content ∧
      parseBuildinfo content = .ok identity ∧ progress'.buildinfo = some identity) ∧
    (mbr ≠ ".BUILDINFO" → progress'.buildinfo = progress.buildinfo) := by
  have hns : ".BUILDINFO".toList ≠ ".PKGINFO".toList := by decide
  unfold inspectMetadata at h
  split_ifs at h with hmember
  · obtain ⟨_, -, h⟩ := bind_eq_ok.mp h
    obtain ⟨_, -, h⟩ := bind_eq_ok.mp h
    obtain ⟨bs, hby, h⟩ := bind_eq_ok.mp h
    obtain ⟨_, -, h⟩ := bind_eq_ok.mp h
    have htx : metadataText entry = utf8Decode bs := by
      rw [metadataText, hby]
      rfl
    rw [htx]
    unfold parseMetadata at h
    split_ifs at h with hpki hbui hmtr
    · obtain ⟨content, hc, h⟩ := bind_eq_ok.mp h
      obtain ⟨identity, hpr, h⟩ := bind_eq_ok.mp h
      cases h
      exact ⟨fun _ => ⟨content, identity, required_eq_ok.mp hc, hpr, rfl⟩,
        (absurd hpki), fun heq => absurd (heq.symm.trans hpki) hns,
        fun _ => rfl⟩
    · obtain ⟨content, hc, h⟩ := bind_eq_ok.mp h
      obtain ⟨identity, hpr, h⟩ := bind_eq_ok.mp h
      cases h
      exact ⟨fun heq => absurd heq hpki, fun _ => rfl,
        fun _ => ⟨content, identity, required_eq_ok.mp hc, hpr, rfl⟩,
        (absurd hbui)⟩
    · cases h
      exact ⟨fun heq => absurd heq hpki, fun _ => rfl, fun heq => absurd heq hbui, fun _ => rfl⟩
    · cases h
      exact ⟨fun heq => absurd heq hpki, fun _ => rfl, fun heq => absurd heq hbui, fun _ => rfl⟩
  · cases h
    refine ⟨?_, fun _ => rfl, ?_, fun _ => rfl⟩
    · rintro rfl
      exact absurd (by decide) hmember
    · rintro rfl
      exact absurd (by decide) hmember

def pkginfoSlot (x : Inspector) : Slot x where
  name := ".PKGINFO"
  get := Progress.pkginfo
  parse := parsePkginfo x.debugChar
  sets h hname := by
    obtain ⟨member, listed, hmember, -, -, hmetadata⟩ := inspectMember_metadata h
    exact (inspectMetadata_cases hmetadata).1 (some.inj (hmember.symm.trans hname))
  keeps h hname := by
    obtain ⟨member, listed, hmember, hlisted, -, hmetadata⟩ := inspectMember_metadata h
    rw [← hlisted]
    exact (inspectMetadata_cases hmetadata).2.1 fun heq => hname (heq ▸ hmember)

def buildinfoSlot (x : Inspector) : Slot x where
  name := ".BUILDINFO"
  get := Progress.buildinfo
  parse := parseBuildinfo
  sets h hname := by
    obtain ⟨member, listed, hmember, -, -, hmetadata⟩ := inspectMember_metadata h
    exact (inspectMetadata_cases hmetadata).2.2.1 (some.inj (hmember.symm.trans hname))
  keeps h hname := by
    obtain ⟨member, listed, hmember, -, hlisted, hmetadata⟩ := inspectMember_metadata h
    rw [← hlisted]
    exact (inspectMetadata_cases hmetadata).2.2.2 fun heq => hname (heq ▸ hmember)

/-- **Identities of accepted archives.** Every line of the metadata with a key of the identity has
the value that is reported exactly if the lines of `.PKGINFO` with the same key agree, and in both
files the lines for the two keys of the architecture. -/
theorem identity_lines_iff (h : x.inspectArchive file = .ok inspection) :
    (∀ entry ∈ x.visitedMembers file,
      memberName entry = some ".PKGINFO".toList ∨ memberName entry = some ".BUILDINFO".toList →
      ∀ content ∈ metadataText entry, Tells content inspection.identity) ↔
    ∀ entry ∈ x.visitedMembers file, ∀ content ∈ metadataText entry,
      (memberName entry = some ".PKGINFO".toList → PkginfoAgrees content) ∧
      (memberName entry = some ".BUILDINFO".toList → Agree content "pkgarch" "arch") := by
  obtain ⟨strm, progress, hstm, hrun, -, hrep⟩ := inspectArchive_cases h
  have hvi : x.visitedMembers file = (x.tar.read strm).1 := by rw [visitedMembers, hstm]
  obtain ⟨identity, hidn, hrep⟩ := bind_eq_ok.mp hrep
  obtain ⟨buildinfo, hbld, hrep⟩ := bind_eq_ok.mp hrep
  obtain ⟨_, hequ, hrep⟩ := bind_eq_ok.mp hrep
  obtain ⟨_, -, hrep⟩ := bind_eq_ok.mp hrep
  cases hrep
  obtain rfl : buildinfo = identity := by simpa using ensure_eq_ok.mp hequ
  rw [hvi]
  -- Both sides are about the same texts, and these were parsed to the reported identity.
  have hpki : ∀ entry ∈ (x.tar.read strm).1, memberName entry = some ".PKGINFO" →
      ∀ content ∈ metadataText entry, Tells content buildinfo ↔ PkginfoAgrees content := by
    intro entry he hname content hc
    obtain ⟨txt', identity, hc', hpr, hget⟩ := (pkginfoSlot x).sets_run hrun he hname
    obtain rfl := some.inj (hc'.symm.trans hc)
    obtain rfl := some.inj (hget.symm.trans (required_eq_ok.mp hidn))
    exact tells_iff_of_parsePkginfo hpr
  have hbui : ∀ entry ∈ (x.tar.read strm).1, memberName entry = some ".BUILDINFO" →
      ∀ content ∈ metadataText entry, Tells content buildinfo ↔ Agree content "pkgarch" "arch" := by
    intro entry he hname content hc
    obtain ⟨txt', identity, hc', hpr, hget⟩ := (buildinfoSlot x).sets_run hrun he hname
    obtain rfl := some.inj (hc'.symm.trans hc)
    obtain rfl := some.inj (hget.symm.trans (required_eq_ok.mp hbld))
    exact tells_iff_of_parseBuildinfo hpr
  constructor
  · intro htel entry he content hc
    exact ⟨fun hname => (hpki entry he hname content hc).mp (htel entry he (.inl hname) content hc),
      fun hname => (hbui entry he hname content hc).mp (htel entry he (.inr hname) content hc)⟩
  · rintro hag entry he (hname | hname) content hc
    · exact (hpki entry he hname content hc).mpr ((hag entry he content hc).1 hname)
    · exact (hbui entry he hname content hc).mpr ((hag entry he content hc).2 hname)

end Inspector

/-! ### A second name -/

theorem identity_lines_wholeArchive :
    ∃ inspection, sampleInspector.inspectArchive wholeArchive = .ok inspection ∧
      ∀ entry ∈ sampleInspector.visitedMembers wholeArchive,
        memberName entry = some ".PKGINFO".toList ∨ memberName entry = some ".BUILDINFO".toList →
        ∀ content ∈ metadataText entry, Tells content inspection.identity := by
  obtain ⟨inspection, hres⟩ := exists_inspection
  exact ⟨inspection, hres, (Inspector.identity_lines_iff hres).mpr (by decide +kernel)⟩

def withSecondName (entry : TarEntry) : TarEntry :=
  if memberName entry = some ".PKGINFO" then
    packageFile ".PKGINFO" 0o644 "pkgname = tool\npkgver = 1\narch = any\npkgname = other\n"
  else entry

def secondNameInspector : Inspector := { sampleInspector with tar := sampleTar.map withSecondName }

/-- An archive with two names is accepted, and the first one is reported. -/
theorem second_name_accepted :
    (secondNameInspector.inspectArchive wholeArchive).toOption.map (·.identity) =
        some ⟨"tool".toList, "1".toList, "tool".toList, "any".toList⟩ ∧
      ∃ entry ∈ secondNameInspector.visitedMembers wholeArchive,
        memberName entry = some ".PKGINFO".toList ∧
        ∃ content ∈ metadataText entry, "other".toList ∈ fieldValues content "pkgname" := by
  refine ⟨by decide +kernel, ?_⟩
  have hany : (secondNameInspector.visitedMembers wholeArchive).any (fun entry =>
      memberName entry = some ".PKGINFO" && (metadataText entry).any
        fun content => "other" ∈ fieldValues content "pkgname") = true := by decide +kernel
  obtain ⟨entry, he, hte⟩ := any_eq_true.mp hany
  rw [Bool.and_eq_true, decide_eq_true_iff] at hte
  obtain ⟨hname, hot⟩ := hte
  cases hc : metadataText entry with
  | none => rw [hc] at hot; cases hot
  | some content =>
    rw [hc] at hot
    exact ⟨entry, he, hname, content, hc, of_decide_eq_true hot⟩

end Omg.Aur
