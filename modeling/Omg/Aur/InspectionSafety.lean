import Omg.Aur.ArtifactInspector

/-!
# What the inspection of an AUR archive covers

The inspection reads the first member of a gzip file and the first frame of a Zstandard file, while
the installer reads all of them as one tar stream. If the first part ends between two tar members,
and without the mark at the end of an archive, then the inspection takes its end for the end of the
archive and accepts it.

Source: `src/package_managers/aur/artifact_inspector.rs`.
-/

namespace Omg.Aur

open Codec Control Text List RecordFormat

namespace Inspector

variable (x : Inspector)

def compressedParts (file : Bytes) : Option (List Stream) :=
  if zstdMagic <+: file then (x.zstdFrames file).toOption
  else if xzMagic <+: file then none
  else if gzipMagic <+: file then some (x.gzipMembers file)
  else none

def joined : List Stream → Stream
  | [] => ⟨[], none⟩
  | s :: rest => if s.fault = none then s.extend (joined rest) else s

def installerStream (file : Bytes) : Stream :=
  match x.compressedParts file with
  | some parts => joined parts
  | none => if xzMagic <+: file then x.xz file else ⟨file, none⟩

def inspectedStream (file : Bytes) : Stream :=
  match x.compressedParts file with
  | some parts => firstPart parts
  | none => x.installerStream file

def installedMembers (file : Bytes) : List TarEntry := (x.tar.read (x.installerStream file)).1

def visitedMembers (file : Bytes) : List TarEntry :=
  match x.archiveReader file with
  | .ok stream => (x.tar.read stream).1
  | .error _ => []

def Covers (file : Bytes) : Prop :=
  (x.installedMembers file).Sublist (x.visitedMembers file) ∧
    ∀ entry ∈ x.installedMembers file, ∃ progress progress',
      x.inspectMember progress entry = .ok progress'

/-! ### Archives that are accepted -/

variable {x} {file : Bytes} {inspection : ArtifactInspection}

lemma inspectArchive_cases (h : x.inspectArchive file = .ok inspection) :
    ∃ strm prog, x.archiveReader file = .ok strm ∧
      (x.tar.read strm).1.foldlM x.inspectMember Progress.start = .ok prog ∧
      ((x.tar.read strm).2 = .marker ∨ (x.tar.read strm).2 = .eof) ∧
      x.report file prog = .ok inspection := by
  obtain ⟨strm, hstm, h⟩ := bind_eq_ok.mp h
  obtain ⟨prog, hpro, h⟩ := bind_eq_ok.mp h
  obtain ⟨_, hedg, h⟩ := bind_eq_ok.mp h
  refine ⟨strm, prog, hstm, hpro, ?_, h⟩
  cases hend : (x.tar.read strm).2 with
  | marker => exact .inl rfl
  | eof => exact .inr rfl
  | fault msg => rw [hend] at hedg; cases hedg

lemma exists_of_foldlM {σ α : Type} {f : σ → α → Result σ} {l : List α} {s s' : σ}
    (h : l.foldlM f s = .ok s') {a : α} (ha : a ∈ l) : ∃ t t', f t a = .ok t' := by
  induction l generalizing s with
  | nil => cases ha
  | cons b l ih =>
    obtain ⟨t, hb, hl⟩ := bind_eq_ok.mp h
    rcases mem_cons.mp ha with rfl | ha
    · exact ⟨s, t, hb⟩
    · exact ih hl ha

lemma read_budgeted {lim : ℕ} {s : Stream}
    (h : (x.tar.read (budgeted lim s)).2 = .marker ∨ (x.tar.read (budgeted lim s)).2 = .eof) :
    x.tar.read (budgeted lim s) = x.tar.read s := by
  unfold budgeted at h ⊢
  split_ifs at h ⊢ with hlm
  · rfl
  · rcases h with hmk | heof
    · have hext := (read_extend _ ⟨s.data.drop lim, s.fault⟩).1 hmk
      rw [← hext, Stream.extend, take_append_drop]
    · have hfau := ((read_extend _ ⟨[], none⟩).2 heof).1
      cases hfau

lemma read_archiveReader {strm : Stream} (h : x.archiveReader file = .ok strm)
    (hedg : (x.tar.read strm).2 = .marker ∨ (x.tar.read strm).2 = .eof) :
    x.tar.read strm = x.tar.read (x.inspectedStream file) := by
  unfold archiveReader archiveReaderWithLimit at h
  unfold inspectedStream installerStream compressedParts
  by_cases hzs : zstdMagic <+: file
  · simp only [if_pos hzs] at h ⊢
    cases hfra : x.zstdFrames file with
    | error msg => rw [hfra] at h; cases h
    | ok frs =>
      rw [hfra] at h
      cases h
      exact read_budgeted hedg
  · simp only [if_neg hzs] at h ⊢
    by_cases hxz : xzMagic <+: file
    · simp only [if_pos hxz] at h ⊢
      unfold decodeXz at h
      split at h
      · cases h
        rfl
      · cases h
    · simp only [if_neg hxz] at h ⊢
      split_ifs at h ⊢ with hgz
      · cases h
        exact read_budgeted hedg
      · cases h
        exact read_budgeted hedg

lemma installedMembers_eq {first : Stream} {ltr : List Stream}
    (hps : x.compressedParts file = some (first :: ltr)) :
    ((x.tar.read first).2 = .marker → x.installedMembers file = (x.tar.read first).1) ∧
      ((x.tar.read first).2 = .eof →
        x.installedMembers file = (x.tar.read first).1 ++ (x.tar.read (joined ltr)).1) := by
  have hstm : x.installerStream file = joined (first :: ltr) := by rw [installerStream, hps]
  rw [installedMembers, hstm, joined]
  constructor
  · intro hmk
    split_ifs
    · rw [(read_extend _ _).1 hmk]
    · rfl
  · intro heof
    rw [if_pos ((read_extend _ ⟨[], none⟩).2 heof).1, ((read_extend _ _).2 heof).2]

/-- The inspection of an archive that is accepted covers what is installed unless the tar data of
the first gzip member or Zstandard frame has no mark at its end and more members follow. -/
theorem inspection_covers_iff (h : x.inspectArchive file = .ok inspection) :
    x.Covers file ↔ ∀ first later, x.compressedParts file = some (first :: later) →
      (x.tar.read first).2 = .marker ∨ (x.tar.read (joined later)).1 = [] := by
  obtain ⟨strm, prog, hstm, hpro, hedg, -⟩ := inspectArchive_cases h
  have hrd := read_archiveReader hstm hedg
  have hvi : x.visitedMembers file = (x.tar.read (x.inspectedStream file)).1 := by
    rw [visitedMembers, hstm, ← hrd]
  -- The visited members pass, so only the order of the members has to be looked at.
  have hcov : x.Covers file ↔ (x.installedMembers file).Sublist (x.visitedMembers file) := by
    refine and_iff_left_of_imp fun hsub e he => ?_
    have hmem := hsub.subset he
    rw [visitedMembers, hstm] at hmem
    exact exists_of_foldlM hpro hmem
  rw [hcov, hvi]
  rw [hrd] at hedg
  cases hps : x.compressedParts file with
  | none =>
    have hsm : x.installerStream file = x.inspectedStream file := by rw [inspectedStream, hps]
    rw [installedMembers, hsm]
    exact iff_of_true (List.Sublist.refl _) (by simp)
  | some pts =>
    rw [inspectedStream, hps] at hedg ⊢
    cases pts with
    | nil =>
      have hsm : x.installerStream file = ⟨[], none⟩ := by
        rw [installerStream, hps]
        rfl
      rw [installedMembers, hsm]
      exact iff_of_true (List.Sublist.refl _) (by simp)
    | cons first later =>
      have hf : firstPart (first :: later) = first := rfl
      simp only [hf] at hedg ⊢
      obtain ⟨hmk, heof⟩ := installedMembers_eq hps
      rcases hedg with hend | hend
      · rw [hmk hend]
        refine iff_of_true (List.Sublist.refl _) ?_
        rintro first' ltr' hcn
        cases hcn
        exact .inl hend
      · rw [heof hend]
        constructor
        · rintro hsub first' ltr' hcn
          cases hcn
          have hlen := hsub.length_le
          rw [length_append] at hlen
          exact .inr (length_eq_zero_iff.mp (by omega))
        · intro hla
          rcases hla first later rfl with hcon | hnil
          · rw [hend] at hcon
            cases hcon
          · rw [hnil, append_nil]

end Inspector

/-! ### An archive in two parts -/

def packageFile (path : String) (mode : ℕ) (data : String) : TarEntry where
  size := data.length
  path := .ofText path.toList
  kind := .file
  linkName := .ok none
  mode := .ok mode
  paxExtensions := .ok none
  data := .ok (utf8 data.toList)

def sampleMember : UInt8 → TarEntry
  | 1 => packageFile ".PKGINFO" 0o644 "pkgname = tool\npkgver = 1\narch = any\n"
  | 2 => packageFile ".BUILDINFO" 0o644
      "format = 2\npkgname = tool\npkgver = 1\npkgbase = tool\npkgarch = any\n"
  | 3 => packageFile ".MTREE" 0o644 ""
  | _ => packageFile "usr/bin/tool" 0o4755 ""

def sampleNext (s : Stream) : NextRecord TarEntry :=
  match s with
  | ⟨[], none⟩ => .eof
  | ⟨[], some message⟩ => .fault message
  | ⟨b :: data, fault⟩ => if b = 0 then .marker else .record (sampleMember b) ⟨data, fault⟩

lemma sampleNext_eq_record {s rest : Stream} {e : TarEntry} (h : sampleNext s = .record e rest) :
    ∃ b, b ≠ 0 ∧ e = sampleMember b ∧ s = ⟨b :: rest.data, rest.fault⟩ := by
  unfold sampleNext at h
  split at h
  · cases h
  · cases h
  · split_ifs at h with hb
    cases h
    exact ⟨_, hb, rfl, rfl⟩

lemma sampleNext_eq_marker {s : Stream} (h : sampleNext s = .marker) :
    ∃ data flt, s = ⟨0 :: data, flt⟩ := by
  unfold sampleNext at h
  split at h
  · cases h
  · cases h
  · split_ifs at h with hb
    exact ⟨_, _, by rw [hb]⟩

def sampleTar : RecordFormat TarEntry where
  next := sampleNext
  next_lt h := by
    obtain ⟨b, -, -, rfl⟩ := sampleNext_eq_record h
    simp
  next_fault h := by
    obtain ⟨b, -, -, rfl⟩ := sampleNext_eq_record h
    rfl
  next_extend h t := by
    obtain ⟨b, hb, rfl, rfl⟩ := sampleNext_eq_record h
    exact if_neg hb
  marker_extend h t := by
    obtain ⟨data, fault, rfl⟩ := sampleNext_eq_marker h
    rfl
  of_eof {s} h := by
    unfold sampleNext at h
    split at h
    · rfl
    · cases h
    · split_ifs at h

def sampleInspector : Inspector where
  sha256 bytes := bytes
  debugChar c := [c]
  tar := sampleTar
  gzipMembers file := ((file.drop 2).splitOn 0xff).map (⟨·, none⟩)
  zstdFrames _ := .ok []
  xz _ := ⟨[], none⟩

def splitArchive : Bytes := [0x1f, 0x8b, 1, 2, 3, 0xff, 4]

theorem inspection_misses_member :
    (∃ inspection, sampleInspector.inspectArchive splitArchive = .ok inspection) ∧
      ¬sampleInspector.Covers splitArchive := by
  constructor
  · have hok : (sampleInspector.inspectArchive splitArchive).isOk = true := by decide +kernel
    cases hres : sampleInspector.inspectArchive splitArchive with
    | ok inspection => exact ⟨inspection, rfl⟩
    | error e => rw [hres] at hok; cases hok
  · rintro ⟨hsub, -⟩
    have hlen : (sampleInspector.visitedMembers splitArchive).length <
        (sampleInspector.installedMembers splitArchive).length := by decide +kernel
    exact absurd hsub.length_le (by omega)

def wholeArchive : Bytes := [0x1f, 0x8b, 1, 2, 3, 4, 0]

lemma exists_inspection :
    ∃ inspection, sampleInspector.inspectArchive wholeArchive = .ok inspection := by
  have hok : (sampleInspector.inspectArchive wholeArchive).isOk = true := by decide +kernel
  cases hres : sampleInspector.inspectArchive wholeArchive with
  | error e => rw [hres] at hok; cases hok
  | ok inspection => exact ⟨inspection, rfl⟩

theorem inspection_covers_wholeArchive : sampleInspector.Covers wholeArchive := by
  obtain ⟨inspection, hres⟩ := exists_inspection
  refine (Inspector.inspection_covers_iff hres).mpr fun first ltr hps => .inl ?_
  cases hps
  decide +kernel

/-!
### Privileged members of AUR archives

The inspection lists the files of an archive that bear a privilege: a set-user-ID or set-group-ID
bit of their mode, or file capabilities. Only members of the kind of a regular file are looked at.
-/

open Fs Option Except
open Omg.Runtime (components pathComponents)

/-! ### Paths of members -/

variable {path : OsString} {entry : TarEntry}

lemma isFileName_of_normal {part : OsString} {name : Text} (h : .normal part ∈ components path)
    (hn : part.toStr = some name) : Path.IsFileName name := by
  have hpa : .normal part ∈ (Path.parts path).map Runtime.pathComponent := by
    have hmem : .normal part ∈ pathComponents path := by
      unfold components at h
      cases hcom : pathComponents path with
      | nil => rw [hcom] at h; cases h
      | cons c rest =>
        rw [hcom] at h
        exact (cons_sublist_cons.mpr filter_sublist).subset h
    unfold pathComponents at hmem
    split at hmem
    · cases hmem
    · rename_i rest _ hps
      rw [hps]
      rcases mem_cons.mp hmem with hro | hr
      · cases hro
      · exact mem_cons_of_mem _ hr
    · exact hmem
  obtain ⟨oth, hot, hnor⟩ := mem_map.mp hpa
  unfold Runtime.pathComponent at hnor
  split_ifs at hnor with hcur hpar
  obtain rfl : oth = part := by injection hnor
  exact Path.isFileName_of_mem_parts hot (fun hnil => hcur (.inl hnil))
    (fun hdot => hcur (.inr hdot)) hpar hn

lemma mem_memberParts {part : Text} : ∀ {cs : List (Component OsString)}
    {parts : List Text}, memberParts path cs = .ok parts → part ∈ parts →
      ∃ name, .normal name ∈ cs ∧ name.toStr = some part
  | [], parts, h, hpa => by
    cases h
    cases hpa
  | .normal name :: rest, parts, h, hpa => by
    unfold memberParts at h
    obtain ⟨first, hf, h⟩ := bind_eq_ok.mp h
    obtain ⟨others, hots, h⟩ := bind_eq_ok.mp h
    cases h
    rcases mem_cons.mp hpa with rfl | hpa
    · exact ⟨name, mem_cons_self, by simpa using hf⟩
    · obtain ⟨oth, hot, htx⟩ := mem_memberParts hots hpa
      exact ⟨oth, mem_cons_of_mem _ hot, htx⟩
  | .curDir :: rest, parts, h, hpa => by
    have hr : memberParts path rest = .ok parts := h
    obtain ⟨oth, hot, htx⟩ := mem_memberParts hr hpa
    exact ⟨oth, mem_cons_of_mem _ hot, htx⟩
  | .rootDir :: _, parts, h, _ => by cases h
  | .parentDir :: _, parts, h, _ => by cases h

lemma normalizeMemberParts_ok {pts : List Text} (h : normalizeMemberParts path = .ok pts) :
    pts ≠ [] ∧ ∀ part ∈ pts, Path.IsFileName part := by
  obtain ⟨fd, hfo, h⟩ := bind_eq_ok.mp h
  obtain ⟨_, hne, h⟩ := bind_eq_ok.mp h
  cases h
  refine ⟨by simpa using hne, fun part hpa => ?_⟩
  obtain ⟨name, hn, htx⟩ := mem_memberParts hfo hpa
  exact isFileName_of_normal hn htx

/-! ### Privileges -/

def BearsPrivilege (entry : TarEntry) : Prop :=
  (∃ mode, entry.mode = .ok mode ∧ hasSetId mode = true) ∨
    ∃ extensions key value, entry.paxExtensions = .ok (some extensions) ∧
      .ok (key, value) ∈ extensions ∧ key ∈ capabilityKeys

lemma isSome_lastCapability {exts : List (Result (Bytes × Bytes))}
    {fd cap : Option Text} (h : lastCapability fd exts = .ok cap) : cap.isSome ↔
      fd.isSome ∨ ∃ key val, .ok (key, val) ∈ exts ∧ key ∈ capabilityKeys := by
  induction exts generalizing fd with
  | nil =>
    cases h
    simp
  | cons extension rest ih =>
    obtain ⟨⟨key, val⟩, rfl, h⟩ := bind_eq_ok.mp h
    rw [ih h]
    by_cases hkey : key ∈ capabilityKeys
    · simp only [if_pos hkey, isSome_some, true_or, true_iff]
      exact .inr ⟨key, val, mem_cons_self, hkey⟩
    · simp only [if_neg hkey, mem_cons]
      refine or_congr_right (exists_congr fun oth => exists_congr fun _ => ?_)
      refine and_congr_left fun hot => (or_iff_right ?_).symm
      rintro heq
      cases heq
      exact hkey hot

lemma isSome_readCapability {cap : Option Text} (h : readCapability entry = .ok cap) :
    cap.isSome ↔ ∃ exts key val, entry.paxExtensions = .ok (some exts) ∧
      .ok (key, val) ∈ exts ∧ key ∈ capabilityKeys := by
  obtain ⟨fd, hfo, h⟩ := bind_eq_ok.mp h
  cases fd with
  | none =>
    cases h
    simp [hfo]
  | some exts =>
    rw [isSome_lastCapability h, hfo]
    simp

def privilegedFileOf (entry : TarEntry) : Option PrivilegedFile :=
  match normalizeMemberPath entry.path, entry.mode, readCapability entry with
  | .ok member, .ok mode, .ok capability =>
    if entry.kind = .file ∧ (hasSetId mode ∨ capability.isSome) then
      some ⟨member, mode, capability⟩
    else none
  | _, _, _ => none

def memberName (entry : TarEntry) : Option Text := (normalizeMemberPath entry.path).toOption

lemma memberName_eq_some {mbr : Text} :
    memberName entry = some mbr ↔ ∃ pts, normalizeMemberParts entry.path = .ok pts ∧
      List.intercalate ['/'] pts = mbr := by
  unfold memberName normalizeMemberPath
  cases normalizeMemberParts entry.path with
  | error e => simp [Except.toOption]
  | ok pts => simp [bind, Except.bind, pure, Except.pure, Except.toOption]

lemma privilegedFileOf_eq_some {lst : PrivilegedFile} (h : privilegedFileOf entry = some lst) :
    entry.kind = .file ∧ memberName entry = some lst.path := by
  unfold privilegedFileOf at h
  split at h
  · rename_i member mode capability hme _ _
    split_ifs at h with hco
    cases h
    exact ⟨hco.1, by rw [memberName, hme]; rfl⟩
  · cases h

namespace Inspector

variable {x : Inspector} {file : Bytes} {inspection : ArtifactInspection} {prog prog' : Progress}

/-! ### The loop -/

lemma inspectMetadata_ok {mbr : Text} {entry : TarEntry}
    (h : x.inspectMetadata mbr entry prog = .ok prog') :
    prog'.seen = prog.seen ∧ prog'.privilegedFiles = prog.privilegedFiles := by
  unfold inspectMetadata at h
  split_ifs at h
  · obtain ⟨_, -, h⟩ := bind_eq_ok.mp h
    obtain ⟨_, -, h⟩ := bind_eq_ok.mp h
    obtain ⟨bs, -, h⟩ := bind_eq_ok.mp h
    obtain ⟨_, -, h⟩ := bind_eq_ok.mp h
    unfold parseMetadata at h
    split_ifs at h
    · obtain ⟨txt, -, h⟩ := bind_eq_ok.mp h
      obtain ⟨idt, -, h⟩ := bind_eq_ok.mp h
      cases h
      exact ⟨rfl, rfl⟩
    · obtain ⟨txt, -, h⟩ := bind_eq_ok.mp h
      obtain ⟨idt, -, h⟩ := bind_eq_ok.mp h
      cases h
      exact ⟨rfl, rfl⟩
    · cases h
      exact ⟨rfl, rfl⟩
    · cases h
      exact ⟨rfl, rfl⟩
  · cases h
    exact ⟨rfl, rfl⟩

lemma listFile_ok {mbr : Text} {kind : EntryKind} {mode : ℕ} {cap : Option Text}
    (h : listFile mbr kind mode cap prog = .ok prog') :
    prog'.seen = prog.seen ∧ prog'.pkginfo = prog.pkginfo ∧ prog'.buildinfo = prog.buildinfo ∧
      prog'.privilegedFiles = prog.privilegedFiles ++
        if kind = .file ∧ (hasSetId mode ∨ cap.isSome) then [⟨mbr, mode, cap⟩] else [] := by
  unfold listFile at h
  by_cases hlis : kind = .file ∧ (hasSetId mode ∨ cap.isSome)
  · simp only [if_pos hlis] at h ⊢
    obtain ⟨_, -, h⟩ := bind_eq_ok.mp h
    cases h
    split_ifs <;> exact ⟨rfl, rfl, rfl, rfl⟩
  · simp only [if_neg hlis] at h ⊢
    cases h
    split_ifs <;> exact ⟨rfl, rfl, rfl, (append_nil _).symm⟩

lemma inspectMember_ok {entry : TarEntry} (h : x.inspectMember prog entry = .ok prog') :
    ∃ mbr, memberName entry = some mbr ∧ mbr ∉ prog.seen ∧ prog'.seen = prog.seen ++ [mbr] ∧
      prog'.privilegedFiles = prog.privilegedFiles ++ (privilegedFileOf entry).toList ∧
      entry.kind ≠ .other ∧
      (entry.kind = .file → BearsPrivilege entry → (privilegedFileOf entry).isSome) := by
  obtain ⟨⟨pts, mbr, admitted⟩, had, h⟩ := bind_eq_ok.mp h
  obtain ⟨_, hki, h⟩ := bind_eq_ok.mp h
  obtain ⟨mode, hmd, h⟩ := bind_eq_ok.mp h
  obtain ⟨cap, hcpb, h⟩ := bind_eq_ok.mp h
  obtain ⟨lst, hli, h⟩ := bind_eq_ok.mp h
  have hme := inspectMetadata_ok h
  obtain ⟨hsn, -, -, hlis⟩ := listFile_ok hli
  obtain ⟨_, -, had⟩ := bind_eq_ok.mp had
  obtain ⟨_, -, had⟩ := bind_eq_ok.mp had
  obtain ⟨_, -, had⟩ := bind_eq_ok.mp had
  obtain ⟨_, -, had⟩ := bind_eq_ok.mp had
  obtain ⟨fd, hps, had⟩ := bind_eq_ok.mp had
  obtain ⟨_, hnew, had⟩ := bind_eq_ok.mp had
  cases had
  have hpt : normalizeMemberPath entry.path = .ok (List.intercalate ['/'] pts) := by
    rw [normalizeMemberPath, hps]
    rfl
  have hf : privilegedFileOf entry = if entry.kind = .file ∧ (hasSetId mode ∨ cap.isSome) then
        some ⟨List.intercalate ['/'] pts, mode, cap⟩ else none := by
    rw [privilegedFileOf, hpt, hmd, hcpb]
  have hn : memberName entry = some (List.intercalate ['/'] pts) := by
    rw [memberName, hpt]
    rfl
  refine ⟨_, hn, by simpa using hnew, hme.1.trans hsn, ?_, ?_, ?_⟩
  · rw [hme.2, hlis, hf]
    split_ifs <;> rfl
  · rintro hot
    rw [checkKind, hot] at hki
    cases hki
  · intro hreg hbrs
    have hlis : hasSetId mode ∨ cap.isSome := by
      rcases hbrs with ⟨oth, hot, hset⟩ | hcap
      · rw [hmd] at hot
        cases hot
        exact .inl hset
      · exact .inr ((isSome_readCapability hcpb).mpr hcap)
    rw [hf, if_pos ⟨hreg, hlis⟩]
    rfl

lemma foldlM_inspectMember {mems : List TarEntry}
    (h : mems.foldlM x.inspectMember prog = .ok prog') (hsn : prog.seen.Nodup) :
    ∃ ns, mems.map memberName = ns.map some ∧ prog'.seen = prog.seen ++ ns ∧ prog'.seen.Nodup ∧
      prog'.privilegedFiles = prog.privilegedFiles ++ mems.filterMap privilegedFileOf ∧
      ∀ entry ∈ mems, entry.kind ≠ .other ∧
        (entry.kind = .file → BearsPrivilege entry → (privilegedFileOf entry).isSome) := by
  induction mems generalizing prog with
  | nil =>
    cases h
    exact ⟨[], rfl, (append_nil _).symm, hsn, (append_nil _).symm, by simp⟩
  | cons entry mems ih =>
    obtain ⟨next, he, hr⟩ := bind_eq_ok.mp h
    obtain ⟨mbr, hn, hnew, hnx, hlis, hki, hbrs⟩ := inspectMember_ok he
    have hnd : next.seen.Nodup := by
      rw [hnx]
      exact nodup_append'.mpr ⟨hsn, nodup_singleton mbr, disjoint_singleton.mpr hnew⟩
    obtain ⟨ns, hns, hsn', hnd', hfs, hall⟩ := ih hr hnd
    refine ⟨mbr :: ns, ?_, ?_, hnd', ?_, ?_⟩
    · rw [map_cons, map_cons, hn, hns]
    · rw [hsn', hnx, append_assoc, singleton_append]
    · rw [hfs, hlis, append_assoc]
      cases hf : privilegedFileOf entry with
      | none => rw [filterMap_cons_none hf]; rfl
      | some lst => rw [filterMap_cons_some hf]; rfl
    · intro oth hot
      rcases mem_cons.mp hot with rfl | hot
      · exact ⟨hki, hbrs⟩
      · exact hall oth hot

/-! ### The report -/

lemma mem_privilegedFiles (h : x.report file prog = .ok inspection) {lst : PrivilegedFile} :
    lst ∈ inspection.privilegedFiles ↔ lst ∈ prog.privilegedFiles := by
  obtain ⟨idt, -, h⟩ := bind_eq_ok.mp h
  obtain ⟨buildinfo, -, h⟩ := bind_eq_ok.mp h
  obtain ⟨_, -, h⟩ := bind_eq_ok.mp h
  obtain ⟨_, -, h⟩ := bind_eq_ok.mp h
  cases h
  exact mem_insertionSort _

lemma exists_parts {es : List TarEntry} {ns : List Text}
    (h : es.map memberName = ns.map some) (hnd : ns.Nodup) : ∃ mems : List (List Text),
      es.map (fun entry => normalizeMemberParts entry.path) = mems.map .ok ∧
      (mems.map (List.intercalate ['/'])).Nodup ∧
      ∀ pts ∈ mems, pts ≠ [] ∧ ∀ part ∈ pts, Path.IsFileName part := by
  suffices hps : ∃ mems : List (List Text),
      es.map (fun entry => normalizeMemberParts entry.path) = mems.map .ok ∧
        mems.map (List.intercalate ['/']) = ns by
    obtain ⟨mems, hmap, hj⟩ := hps
    refine ⟨mems, hmap, hj ▸ hnd, fun pts hmem => ?_⟩
    have hok : ok pts ∈ es.map fun entry => normalizeMemberParts entry.path := by
      rw [hmap]
      exact mem_map_of_mem hmem
    obtain ⟨entry, -, he⟩ := mem_map.mp hok
    exact normalizeMemberParts_ok he
  clear hnd
  induction es generalizing ns with
  | nil =>
    obtain rfl : ns = [] := by simpa using h.symm
    exact ⟨[], rfl, rfl⟩
  | cons entry es ih =>
    cases ns with
    | nil => cases h
    | cons name ns =>
      obtain ⟨hn, hr⟩ := List.cons.inj h
      obtain ⟨pts, hps, rfl⟩ := memberName_eq_some.mp hn
      obtain ⟨mems, hmap, rfl⟩ := ih hr
      exact ⟨pts :: mems, by rw [map_cons, hps, hmap, map_cons], rfl⟩

def Listed (inspection : ArtifactInspection) (entry : TarEntry) : Prop :=
  (∃ listed ∈ inspection.privilegedFiles, memberName entry = some listed.path) ∧
    inspection.requiresException = true

/-- The members of an archive that is accepted have paths of names of entries, no two of them the
same. The members that bear a privilege, directories and symbolic links apart, are listed exactly if
no hard link bears one. -/
theorem privileged_listed_iff (h : x.inspectArchive file = .ok inspection) :
    ((∀ entry ∈ x.visitedMembers file, entry.kind ≠ .dir → entry.kind ≠ .symlink →
        BearsPrivilege entry → Listed inspection entry) ↔
      ∀ entry ∈ x.visitedMembers file, entry.kind = .hardLink → ¬BearsPrivilege entry) ∧
    ∃ members : List (List Text),
      (x.visitedMembers file).map (fun entry => normalizeMemberParts entry.path) =
        members.map .ok ∧
      (members.map (List.intercalate ['/'])).Nodup ∧
      ∀ parts ∈ members, parts ≠ [] ∧ ∀ part ∈ parts, Path.IsFileName part := by
  obtain ⟨stream, progress, hstm, hpro, -, hrep⟩ := inspectArchive_cases h
  have hvi : x.visitedMembers file = (x.tar.read stream).1 := by rw [visitedMembers, hstm]
  rw [← hvi] at hpro
  obtain ⟨names, hns, hsn, hnd, hfs, hall⟩ := foldlM_inspectMember hpro nodup_nil
  have hnames_nodup : names.Nodup := by rwa [hsn, Progress.start] at hnd
  have hinj : (x.visitedMembers file).map memberName |>.Nodup := by
    rw [hns]
    exact hnames_nodup.map (some_injective _)
  have hmem : ∀ listed, listed ∈ inspection.privilegedFiles ↔
      ∃ entry ∈ x.visitedMembers file, privilegedFileOf entry = some listed := by
    intro listed
    rw [mem_privilegedFiles hrep, hfs, Progress.start, nil_append, mem_filterMap]
  refine ⟨⟨fun hlis entry he hli hbrs => ?_,
    fun hno entry he hdir hsym hbrs => ?_⟩, exists_parts hns hnames_nodup⟩
  · -- A file that is listed has another path than the link.
    obtain ⟨⟨listed, hf, hn⟩, -⟩ := hlis entry he (by simp [hli]) (by simp [hli]) hbrs
    obtain ⟨other, hot, hof⟩ := (hmem listed).mp hf
    obtain ⟨hreg, hother_name⟩ := privilegedFileOf_eq_some hof
    obtain rfl := inj_on_of_nodup_map hinj he hot (hn.trans hother_name.symm)
    rw [hli] at hreg
    cases hreg
  · have hreg : entry.kind = .file := by
      cases hki : entry.kind with
      | file => rfl
      | dir => exact absurd hki hdir
      | symlink => exact absurd hki hsym
      | hardLink => exact absurd hbrs (hno entry he hki)
      | other => exact absurd hki (hall entry he).1
    obtain ⟨listed, hof⟩ := isSome_iff_exists.mp ((hall entry he).2 hreg hbrs)
    have hlis : listed ∈ inspection.privilegedFiles := (hmem listed).mpr ⟨entry, he, hof⟩
    refine ⟨⟨listed, hlis, (privilegedFileOf_eq_some hof).2⟩, ?_⟩
    rw [ArtifactInspection.requiresException, Bool.or_eq_true, Bool.not_eq_true',
      isEmpty_eq_false_iff]
    exact .inr (ne_nil_of_mem hlis)

end Inspector

/-! ### A hard link with a privilege -/

theorem privileged_listed_wholeArchive :
    (∀ entry ∈ sampleInspector.visitedMembers wholeArchive, entry.kind = .hardLink →
        ¬BearsPrivilege entry) ∧
      ∃ inspection, sampleInspector.inspectArchive wholeArchive = .ok inspection ∧
        ∀ entry ∈ sampleInspector.visitedMembers wholeArchive, entry.kind ≠ .dir →
          entry.kind ≠ .symlink → BearsPrivilege entry → Inspector.Listed inspection entry := by
  have hlin : ∀ entry ∈ sampleInspector.visitedMembers wholeArchive, entry.kind ≠ .hardLink := by
    decide +kernel
  have hno : ∀ entry ∈ sampleInspector.visitedMembers wholeArchive, entry.kind = .hardLink →
      ¬BearsPrivilege entry := fun entry he hli => absurd hli (hlin entry he)
  obtain ⟨inspection, hres⟩ := exists_inspection
  exact ⟨hno, inspection, hres, (Inspector.privileged_listed_iff hres).1.mpr hno⟩

def asHardLink (entry : TarEntry) : TarEntry :=
  if memberName entry = some "usr/bin/tool" then
    { entry with
      kind := .hardLink
      linkName := .ok (some (.ofText "usr/bin/other")) }
  else entry

def linkInspector : Inspector := { sampleInspector with tar := sampleTar.map asHardLink }

/-- A hard link with the set-user-ID bit is accepted, and nothing is listed. -/
theorem hard_link_not_listed :
    ∃ inspection, linkInspector.inspectArchive wholeArchive = .ok inspection ∧
      inspection.requiresException = false ∧
      ∃ entry ∈ linkInspector.visitedMembers wholeArchive, entry.kind = .hardLink ∧
        BearsPrivilege entry ∧ ¬Inspector.Listed inspection entry := by
  have hqu : ((linkInspector.inspectArchive wholeArchive).toOption.map
      ArtifactInspection.requiresException) = some false := by decide +kernel
  cases hres : linkInspector.inspectArchive wholeArchive with
  | error e => rw [hres] at hqu; cases hqu
  | ok inspection =>
    rw [hres] at hqu
    have hfls : inspection.requiresException = false := some.inj hqu
    have hli : (linkInspector.visitedMembers wholeArchive).any (fun entry =>
        entry.kind = .hardLink && entry.mode.toOption.any hasSetId) = true := by decide +kernel
    obtain ⟨entry, he, hbrs⟩ := any_eq_true.mp hli
    rw [Bool.and_eq_true, decide_eq_true_iff] at hbrs
    refine ⟨inspection, rfl, hfls, entry, he, hbrs.1, ?_, ?_⟩
    · cases hmd : entry.mode with
      | error e => rw [hmd] at hbrs; cases hbrs.2
      | ok mode =>
        rw [hmd] at hbrs
        exact .inl ⟨mode, hmd, hbrs.2⟩
    · rintro ⟨-, htr⟩
      rw [hfls] at htr
      cases htr

end Omg.Aur
