import Omg.Security.Artifact

/-!
# What root stages is what was pinned

Against every interference of other processes, the privileged side stages exactly the bytes that
the unprivileged side sealed, in the order of the targets and under the names of the packages, and
a handoff says again what the snapshot it describes says.
-/

namespace Omg.Security

open Control List Text Function Option Interfered Meets Kept ArchiveSnapshot OsString
open Control.Interfered (Meets)
open Text (ensure bail required hexEncode decimal)

variable {sha256 : Bytes → Bytes} {P : Process} {w w' : System} {directory : Option Text}
  {bytes : Bytes} {d : Text} {par ch : Process} {w₁ w₂ : System} {s : ArchiveSnapshot}

/-! ### Copies of sealed files -/

def SealedAs (w : System) (file : File) (bytes : Bytes) : Prop :=
  ∃ n, w.inodes file.ino = some n ∧ n.isSealed = true ∧ n.contents = bytes

lemma SealedAs.kept {file : File} (h : SealedAs w file bytes) (hk : Kept P directory w w') :
    SealedAs w' file bytes := by
  obtain ⟨n, hn, hse, hby⟩ := h
  exact ⟨n, hk.inodes _ n hn hse, hse, hby⟩

lemma append_chunk_isPrefix {cop : Bytes} (h : cop <+: bytes) (count : ℕ) :
    cop ++ (bytes.drop cop.length).take count <+: bytes := by
  obtain ⟨rest, rfl⟩ := h
  simpa using take_prefix count rest

lemma eq_of_chunk_eq_nil {cop : Bytes} (h : cop <+: bytes) {count : ℕ}
    (hco : 0 < count) (hck : (bytes.drop cop.length).take count = []) : cop = bytes := by
  obtain ⟨rest, rfl⟩ := h
  have hrest : rest = [] := by
    rcases take_eq_nil_iff.mp hck with h0 | hnil
    · omega
    · simpa using hnil
  simp [hrest]

lemma wanted_none_ne_zero (n : ℕ) : wanted none n ≠ 0 := by simp [wanted, bufferBytes]

/-- A copy keeps what its sink keeps, an invariant `I` of the sink holds of what was copied, and
the copy of a sealed file is complete. -/
lemma meets_copyLoop {src : File} {lim : Option ℕ} {sink : ℕ → Bytes → Call Unit}
    {I : Bytes → System → Prop} (hstb : ∀ {acc w w'}, Kept P none w w' → I acc w → I acc w')
    (hsi : ∀ off ck, Meets (Kept P none) (sink off ck) fun w _ w' => Kept P directory
      w w' ∧ ∀ acc, acc.length = off → I acc w → I (acc ++ ck) w') (fuel : ℕ) (cop : Bytes) :
    Meets (Kept P none) (copyLoop src lim sink fuel cop) fun w out w' =>
      Kept P directory w w' ∧ (I cop w → I out w') ∧
        ∀ bytes, lim = none → SealedAs w src bytes → cop <+: bytes → out = bytes := by
  induction fuel generalizing cop with
  | zero => exact throw
  | succ fuel ih =>
    unfold copyLoop
    split_ifs with hwan
    · refine pure fun w => ⟨refl w, id, fun bytes hlm => ?_⟩
      subst hlm
      exact absurd hwan (wanted_none_ne_zero _)
    · refine (meets_readAt src _ _).bind fun ck => ?_
      split_ifs with hck
      · refine pure fun w' w hrd => ?_
        obtain ⟨hk, n, granted, hn, hck'⟩ := hrd
        refine ⟨hk.outside, hstb hk, fun bytes _ hse hcop => ?_⟩
        obtain ⟨n', hn', -, rfl⟩ := hse.kept hk
        obtain rfl : n = n' := some.inj (hn.symm.trans hn')
        exact eq_of_chunk_eq_nil hcop (by omega) (hck'.symm.trans hck)
      · refine (hsi cop.length ck).bind fun _ => (ih (cop ++ ck)).mono ?_
        rintro w₂ out w' ⟨hk₂, hI₂, hout⟩ w₁ ⟨hk₁, hI₁⟩ w ⟨hk, n, granted, hn, rfl⟩
        refine ⟨(hk.outside.trans hk₁).trans hk₂,
          fun hI => hI₂ (hI₁ cop rfl (hstb hk hI)), fun bytes hlm hse hcop => ?_⟩
        obtain ⟨n', hn', hn'sealed, rfl⟩ := hse.kept hk
        obtain rfl : n = n' := some.inj (hn.symm.trans hn')
        exact hout n.contents hlm (SealedAs.kept ⟨n, hn, hn'sealed, rfl⟩ hk₁)
          (append_chunk_isPrefix hcop _)

lemma meets_copy {src : File} {lim : Option ℕ} {sink : ℕ → Bytes → Call Unit} (hsi : ∀ off ck,
      Meets (Kept P none) (sink off ck) fun w _ w' => Kept P none w w') :
    Meets (Kept P none) (copy src lim sink) fun w out w' =>
      Kept P none w w' ∧ ∀ bytes, lim = none → SealedAs w src bytes → out = bytes :=
  (meets_copyLoop (fun _ _ => trivial)
    (fun off ck => (hsi off ck).mono fun _ _ _ h => ⟨h, fun _ _ _ => trivial⟩)
    _ _).mono fun _ _ _ h => ⟨h.1, fun bytes hlm hse => h.2.2 bytes hlm hse (by simp)⟩

lemma meets_digest (file : File) : Meets (Kept P none) (digest sha256 file) fun w hash w' =>
      Kept P none w w' ∧ ∀ bytes, SealedAs w file bytes → hash = hexEncode (sha256 bytes) := by
  refine (meets_copy fun _ _ => pure refl).bind fun out => ?_
  refine pure fun w' w ⟨hk, hout⟩ => ⟨hk, fun bytes hse => ?_⟩
  rw [hout bytes rfl hse]

/-! ### Snapshots are valid -/

structure PinnedAs (sha256 : Bytes → Bytes) (P : Process) (w : System) (pinned : File × Text)
    (bytes : Bytes) : Prop where
  holds : P.Holds w pinned.1
  isSealed : SealedAs w pinned.1 bytes
  digest_eq : pinned.2 = hexEncode (sha256 bytes)

lemma PinnedAs.kept {pin : File × Text} (h : PinnedAs sha256 P w pin bytes)
    (hk : Kept P directory w w') : PinnedAs sha256 P w' pin bytes :=
  ⟨h.holds.kept hk, h.isSealed.kept hk, h.digest_eq⟩

lemma meets_sealedCopy (src : File) : Meets (Kept P none) (sealedCopy sha256 P src) fun w pin w' =>
      Kept P none w w' ∧ ∃ bytes, PinnedAs sha256 P w' pin bytes := by
  refine (meets_fileMetadata src).bind fun n => lift_bind fun _ _ => ?_
  refine meets_memfdCreate.bind fun file => ?_
  refine (meets_copy (meets_writeAt file)).bind fun _ =>
    lift_bind fun _ _ => ?_
  refine (meets_addSeals file).bind fun _ => (meets_digest file).bind fun hash =>
    pure ?_
  rintro w' w₄ ⟨hk₄, hha⟩ w₃ ⟨hk₃, n, hn, hse⟩ w₂ ⟨hk₂, -⟩ w₁ ⟨hk₁, hho⟩ w ⟨hk, -⟩
  have hsealedAs : SealedAs w₄ file n.contents := ⟨n, hn, hse, rfl⟩
  exact ⟨(((hk.trans hk₁).trans hk₂).trans hk₃).trans hk₄, n.contents,
    ((hho.kept hk₂).kept hk₃).kept hk₄, hsealedAs.kept hk₄, hha _ hsealedAs⟩

lemma meets_fitsLimit (file : File) :
    Meets (Kept P none) (fitsLimit file) fun w _ w' => Kept P none w w' := by
  refine (meets_fileMetadata file).bind fun n => ?_
  split_ifs
  · refine (meets_fileMetadata file).bind fun n' => pure ?_
    rintro w' w₁ ⟨hk₁, -⟩ w ⟨hk, -⟩
    exact hk.trans hk₁
  · exact pure fun _ _ h => h.1

/-- What `openSealed` accepts was sealed before its digest was taken. -/
lemma meets_openSealed (pid fd : ℕ) (exd : Text) :
    Meets (Kept P none) (openSealed sha256 P pid fd exd) fun w file w' =>
      Kept P none w w' ∧ ∃ bytes, PinnedAs sha256 P w' (file, exd) bytes := by
  refine lift_bind fun _ _ => (meets_openProc pid fd).bind fun file => ?_
  refine (meets_getSeals file).bind fun seals => lift_bind fun _ hsea => ?_
  refine (meets_fitsLimit file).bind fun _ => lift_bind fun _ _ => ?_
  refine (meets_digest file).bind fun act => lift_bind fun _ hact => ?_
  refine pure ?_
  rintro w' w₃ ⟨hk₃, hha⟩ w₂ hk₂ w₁ ⟨hk₁, n, hn, hse⟩ w ⟨hk, hho, -⟩
  simp only [ensure_eq_ok, beq_iff_eq] at hsea hact
  have hsealedAs : SealedAs w₂ file n.contents := ⟨n, hn, hse.trans hsea, rfl⟩
  exact ⟨((hk.trans hk₁).trans hk₂).trans hk₃, n.contents,
    ((hho.kept hk₁).kept hk₂).kept hk₃, (hsealedAs.kept hk₂).kept hk₃,
    hact.symm.trans (hha _ (hsealedAs.kept hk₂))⟩

structure ArchiveSnapshot.Valid (sha256 : Bytes → Bytes) (P : Process) (w : System)
    (snapshot : ArchiveSnapshot) : Prop where
  file : ∃ bytes, PinnedAs sha256 P w (snapshot.file, snapshot.digest) bytes
  signature : ∀ pinned, snapshot.signature = some pinned → ∃ bytes, PinnedAs sha256 P w pinned bytes
  name : Path.IsFileName snapshot.name
  original : isNamed snapshot.original = true

lemma ArchiveSnapshot.Valid.kept {snap : ArchiveSnapshot} (h : snap.Valid sha256 P w)
    (hk : Kept P directory w w') : snap.Valid sha256 P w' where
  file := h.file.imp fun _ hby => hby.kept hk
  signature pinned hpin := (h.signature pinned hpin).imp fun _ hby => hby.kept hk
  name := h.name
  original := h.original

def fieldDigest (field : Text) : Option Text :=
  if field = noSignature then none else (splitOnce '-' field).map Prod.snd

lemma meets_signatureFromHandoff (pid : ℕ) (field : Text) :
    Meets (Kept P none) (signatureFromHandoff sha256 P pid field) fun w signature w' =>
      Kept P none w w' ∧ signature.map Prod.snd = fieldDigest field ∧
        ∀ pinned, signature = some pinned → ∃ bytes, PinnedAs sha256 P w' pinned bytes := by
  unfold signatureFromHandoff
  split_ifs with hfi
  · exact pure fun w => ⟨refl w, by simp [fieldDigest, hfi], by simp⟩
  · refine lift_bind fun r hr => lift_bind fun fd _ => ?_
    refine (meets_openSealed pid fd r.2).bind fun file => pure ?_
    rintro w' w ⟨hk, hby⟩
    have hsp : splitOnce '-' field = some r := by
      cases h : splitOnce '-' field <;> simp_all [required, bail]
    refine ⟨hk, by simp [fieldDigest, hfi, hsp], ?_⟩
    rintro pinned ⟨⟩
    exact hby

lemma isFileName_of_handoffFields {val a b c name : Text} {rest : List Text}
    (h : handoffFields val = some (a :: b :: c :: d :: name :: rest))
    (hn : isNamed name) : Path.IsFileName name := by
  obtain ⟨s, -, hs⟩ := map_eq_some_iff.mp h
  obtain ⟨s₁, hs₁⟩ := splitN_tail hs
  obtain ⟨s₂, hs₂⟩ := splitN_tail hs₁
  obtain ⟨s₃, hs₃⟩ := splitN_tail hs₂
  obtain ⟨s₄, hs₄⟩ := splitN_tail hs₃
  simp only [isNamed, decide_not, Bool.and_eq_true, Bool.not_eq_eq_eq_not, Bool.not_true,
    decide_eq_false_iff_not] at hn
  exact ⟨hn.1.1, hn.1.2, hn.2, notMem_of_splitN hs₄⟩

lemma isNamed_handoffOriginal {val a b c name : Text} {rest : List Text}
    (h : handoffFields val = some (a :: b :: c :: d :: name :: rest))
    (hn : isNamed name) : isNamed ((handoffOriginal val).getD name) = true := by
  cases rest with
  | nil => simp [handoffOriginal, h, hn]
  | cons original rest =>
    cases hori : isNamed original <;> simp [handoffOriginal, h, hn, hori]

lemma meets_fromHandoff (val : Text) :
    Meets (Kept P none) (fromHandoff sha256 P val) fun w res w' =>
      Kept P none w w' ∧ (res = none → handoffFields val = none) ∧
        ∀ snap, res = some snap → snap.Valid sha256 P w' ∧ ∃ pid fd sig rest, handoffFields val =
              some (pid :: fd :: snap.digest :: sig :: snap.name :: rest) ∧
            snap.signature.map Prod.snd = fieldDigest sig ∧
            snap.original = (handoffOriginal val).getD snap.name := by
  unfold fromHandoff
  split
  · rename_i hfl
    exact pure fun w => ⟨refl w, fun _ => hfl, by simp⟩
  · rename_i pidText fdText digest signatureText name rest hfl
    refine lift_bind fun pid _ => lift_bind fun fd _ => ?_
    refine lift_bind fun _ hnm => (meets_openSealed pid fd digest).bind ?_
    refine fun file => (meets_signatureFromHandoff pid signatureText).bind fun sig => ?_
    refine pure ?_
    rintro w' w₁ ⟨hk₁, hdg, hsig⟩ w ⟨hk, bytes, hby⟩
    simp only [ensure_eq_ok, Bool.and_eq_true] at hnm
    refine ⟨hk.trans hk₁, by simp, ?_⟩
    rintro snap ⟨⟩
    exact ⟨⟨⟨bytes, hby.kept hk₁⟩, hsig, isFileName_of_handoffFields hfl hnm.2,
      isNamed_handoffOriginal hfl hnm.2⟩, pidText, fdText, signatureText, rest, hfl,
      hdg, rfl⟩
  · exact throw

/-- **A handoff is not believed.** Whatever text is received, a snapshot that is made from it has
the name of a file and sealed files with the digests of the text, and this stays so. -/
theorem fromHandoff_valid (P : Process) (value : Text) :
    Meets (Kept P none) (fromHandoff sha256 P value) fun _ result w => ∀ snapshot,
      result = some snapshot → ∀ later, Kept P none w later → snapshot.Valid sha256 P later ∧
        ∃ pid fd sig rest, handoffFields value =
            some (pid :: fd :: snapshot.digest :: sig :: snapshot.name :: rest) ∧
          snapshot.signature.map Prod.snd = fieldDigest sig := by
  intro env henv k w result k' w' h snapshot hs later hk
  obtain ⟨hva, pid, fd, sig, rest, hfl, hsig, -⟩ :=
    (meets_fromHandoff value env henv k w result k' w' h).2.2 snapshot hs
  exact ⟨hva.kept hk, pid, fd, sig, rest, hfl, hsig⟩

lemma meets_validateLocalArchiveFile (path : Text) (spd : Bool) :
    Meets (Kept P none) (validateLocalArchiveFile P path spd) fun w canon w' =>
      Kept P none w w' ∧ ∃ rest, canon = .char '/' :: rest := by
  refine lift_bind fun _ _ => (meets_symlinkMetadata _ _).bind fun lk => ?_
  refine lift_bind fun _ _ => (meets_canonicalize _ _).bind fun canon => ?_
  refine (meets_metadata _).bind fun tgt => lift_bind fun _ _ => ?_
  refine lift_bind fun invokingUid _ => lift_bind fun _ _ => ?_
  refine lift_bind fun _ _ => lift_bind fun par _ => ?_
  refine (meets_metadata _).bind fun _ => lift_bind fun _ _ => ?_
  refine lift_bind fun _ _ => pure ?_
  rintro w' w₃ hk₃ w₂ hk₂ w₁ ⟨hk₁, hcan⟩ w hk
  exact ⟨((hk.trans hk₁).trans hk₂).trans hk₃, hcan⟩

lemma meets_validateFile (path : Text) : Meets (Kept P none) (validateFile P path) fun w canon w' =>
      Kept P none w w' ∧ ∃ rest, canon = .char '/' :: rest := by
  unfold validateFile
  split_ifs <;> exact meets_validateLocalArchiveFile _ _

lemma meets_openSource (canon : OsString) :
    Meets (Kept P none) (openSource P canon) fun w _ w' => Kept P none w w' := by
  refine (meets_openNoFollow canon).bind fun res => ?_
  refine lift_bind fun src _ => (meets_fileMetadata src).bind fun n => ?_
  refine lift_bind fun uid _ => lift_bind fun _ _ => ?_
  refine pure ?_
  rintro w' w₁ ⟨hk₁, -⟩ w hk
  exact hk.trans hk₁

lemma meets_captureSignature (canon : OsString) :
    Meets (Kept P none) (captureSignature sha256 P canon) fun w sig w' => Kept P none w w' ∧
        ∀ pin, sig = some pin → ∃ bytes, PinnedAs sha256 P w' pin bytes := by
  refine (meets_openNoFollow _).bind fun res => ?_
  match res with
  | .ok source =>
    refine (meets_sealedCopy source).bind fun pin => pure ?_
    rintro w' w₁ ⟨hk₁, hby⟩ w hk
    refine ⟨hk.trans hk₁, ?_⟩
    rintro _ ⟨⟩
    exact hby
  | .error .notFound => exact pure fun w' w hk => ⟨hk, by simp⟩
  | .error (.other message) => exact throw

lemma isNamed_toStringLossy (rest : OsString) :
    isNamed (toStringLossy (.char '/' :: rest)) = true := by
  simp [isNamed, toStringLossy]

lemma meets_captureFile (path : Text) :
    Meets (Kept P none) (captureFile sha256 P path) fun w snapshot w' =>
      Kept P none w w' ∧ snapshot.Valid sha256 P w' := by
  refine (meets_validateFile path).bind fun canonical => lift_bind fun name hn => ?_
  refine (meets_openSource canonical).bind fun source => (meets_sealedCopy source).bind ?_
  refine fun pinned => (meets_captureSignature canonical).bind fun signature => ?_
  refine pure ?_
  rintro w' w₃ ⟨hk₃, hsig⟩ w₂ ⟨hk₂, bytes, hby⟩ w₁ hk₁ w ⟨hk, rest, rfl⟩
  obtain ⟨part, hpa, hpa'⟩ : ∃ part, Path.fileName (.char '/' :: rest) = some part ∧
      toStr part = some name := by
    cases h : (Path.fileName (.char '/' :: rest)).bind toStr with
    | none => simp [h] at hn
    | some name' =>
      obtain rfl : name' = name := by simpa [h] using hn
      exact bind_eq_some_iff.mp h
  exact ⟨((hk.trans hk₁).trans hk₂).trans hk₃, ⟨bytes, hby.kept hk₃⟩, hsig,
    Path.isFileName_of_fileName hpa hpa', isNamed_toStringLossy rest⟩

lemma meets_capture (path : Text) : Meets (Kept P none) (capture sha256 P path) fun w snap w' =>
      Kept P none w w' ∧ snap.Valid sha256 P w' := by
  refine (meets_fromHandoff path).bind fun pin => ?_
  cases pin with
  | some snap => exact pure fun w' w h => ⟨h.1, (h.2.2 snap rfl).1⟩
  | none =>
    refine (meets_captureFile path).mono ?_
    rintro w₁ snap w' ⟨hk₁, hvalid⟩ w ⟨hk, -⟩
    exact ⟨hk.trans hk₁, hvalid⟩

/-! ### A handoff says what the snapshot says -/

structure ArchiveSnapshot.Agrees (s t : ArchiveSnapshot) : Prop where
  name : t.name = s.name
  digest : t.digest = s.digest
  signature : t.signature.map Prod.snd = s.signature.map Prod.snd
  original : t.original = s.original

lemma slash_notMem_decimal (n : ℕ) : '/' ∉ decimal n := fun h =>
  absurd (isDigit_of_mem_decimal h) (by decide)

lemma dash_notMem_decimal (n : ℕ) : '-' ∉ decimal n := fun h =>
  absurd (isDigit_of_mem_decimal h) (by decide)

lemma slash_notMem_hexEncode (bytes : Bytes) : '/' ∉ hexEncode bytes := fun h =>
  absurd (isAsciiHexdigit_of_mem_hexEncode h) (by decide)

lemma dash_notMem_noSignature : '-' ∉ noSignature := by decide

lemma slash_notMem_noSignature : '/' ∉ noSignature := by decide

namespace ArchiveSnapshot.Valid

variable {s : ArchiveSnapshot}

section

variable (h : s.Valid sha256 P w)

include h

lemma slash_notMem_digest : '/' ∉ s.digest := by
  obtain ⟨bytes, hby⟩ := h.file
  rw [show s.digest = _ from hby.digest_eq]
  exact slash_notMem_hexEncode _

lemma slash_notMem_signatureField : '/' ∉ s.signatureField := by
  unfold signatureField
  split
  · exact slash_notMem_noSignature
  · rename_i file hash hsig
    obtain ⟨bytes, hby⟩ := h.signature _ hsig
    rw [show hash = _ from hby.digest_eq]
    simp [slash_notMem_decimal, slash_notMem_hexEncode]

lemma handoffFields_handoff :
    handoffFields (s.handoff P) = some [decimal P.pid, decimal s.file.fd, s.digest,
      s.signatureField, s.name, s.original] := by
  rw [handoffFields, handoff, stripPrefix_append, map_some,
    splitN_append (slash_notMem_decimal _), splitN_append (slash_notMem_decimal _),
    splitN_append h.slash_notMem_digest, splitN_append h.slash_notMem_signatureField,
    splitN_append h.name.slash_notMem, splitN]

lemma handoffOriginal_handoff : handoffOriginal (s.handoff P) = some s.original := by
  simp [handoffOriginal, h.handoffFields_handoff, h.original]

end

end ArchiveSnapshot.Valid

lemma fieldDigest_signatureField (s : ArchiveSnapshot) :
    fieldDigest s.signatureField = s.signature.map Prod.snd := by
  unfold signatureField
  split
  · rename_i hsig
    simp [fieldDigest, hsig]
  · rename_i file hash hsig
    have hne : decimal file.fd ++ '-' :: hash ≠ noSignature := fun h =>
      dash_notMem_noSignature (h ▸ by simp)
    simp [fieldDigest, hne, hsig, splitOnce_append (dash_notMem_decimal _)]

lemma meets_fromHandoff_handoff (hs : s.Valid sha256 par w₁) :
    Meets (Kept ch none) (fromHandoff sha256 ch (s.handoff par)) fun w res w' => Kept ch none w w' ∧
        ∃ t, res = some t ∧ s.Agrees t ∧ t.Valid sha256 ch w' := by
  refine (meets_fromHandoff _).mono ?_
  rintro w res w' ⟨hk, hno, hso⟩
  refine ⟨hk, ?_⟩
  cases res with
  | none =>
    have := hno rfl
    simp [hs.handoffFields_handoff] at this
  | some t =>
    obtain ⟨hvalid, pid, fd, sig, rest, hfl, hsig, hori⟩ := hso t rfl
    rw [hs.handoffFields_handoff] at hfl
    simp only [some.injEq, List.cons.injEq] at hfl
    obtain ⟨-, -, hdg, rfl, hn, -⟩ := hfl
    refine ⟨t, rfl, ⟨hn.symm, hdg.symm, ?_, ?_⟩, hvalid⟩
    · rw [hsig, fieldDigest_signatureField]
    · rw [hori, hs.handoffOriginal_handoff, getD_some]

/-! ### Staging -/

lemma Kept.fresh (h : Kept P none w w₁) (hfre : w₁.staging d = none)
    (h' : Kept P (some d) w₁ w') : Kept P none w w' where
  inodes i n hn hse := h'.inodes i n (h.inodes i n hn hse) hse
  descriptors fd ino hfd := h'.descriptors fd ino (h.descriptors fd ino hfd)
  staging d' files hd hfs := by
    have hfs₁ := h.staging d' files hd hfs
    refine h'.staging d' files (fun heq => ?_) hfs₁
    rw [some.inj heq, hfre] at hfs₁
    cases hfs₁

lemma meets_writeStaged_append (d name : Text) (fs : Text → Option Bytes) (off : ℕ) (ck : Bytes) :
    Meets (Kept P none) (writeStaged d name off ck) fun w _ w' =>
      Kept P (some d) w w' ∧ ∀ acc, acc.length = off →
        w.staging d = some (update fs name (some acc)) →
        w'.staging d = some (update fs name (some (acc ++ ck))) := by
  refine (meets_writeStaged d name off ck).mono ?_
  rintro w _ w' ⟨hk, hwri⟩
  refine ⟨hk, fun acc hacc hfs => ?_⟩
  rw [hwri _ acc hfs (by simp), update_idem, ← hacc, overwrite_length]

lemma meets_copy_writeStaged (rd : File) (d name : Text) :
    Meets (Kept P none) (copy rd none (writeStaged d name)) fun w _ w' =>
      Kept P (some d) w w' ∧ ∀ fs bytes, SealedAs w rd bytes →
        w.staging d = some (update fs name (some [])) →
        w'.staging d = some (update fs name (some bytes)) := by
  intro env henv k w out k' w' hrun
  have hco (fs : Text → Option Bytes) := meets_copyLoop
    (I := fun acc w => w.staging d = some (update fs name (some acc)))
    (fun hk h => hk.staging d _ (by simp) h)
    (meets_writeStaged_append d name fs) maxOffset [] env henv k w out k' w' hrun
  refine ⟨(hco fun _ => none).1, fun fs bytes hse hfs => ?_⟩
  obtain ⟨-, hI, hout⟩ := hco fs
  rw [← hout bytes rfl hse (by simp)]
  exact hI hfs

open StagedInputs (signatureName)

lemma signatureName_ne (name : Text) : signatureName name ≠ name := by
  intro h
  have hlen := congrArg List.length h
  have hpos : 0 < (".sig".toList).length := by decide
  rw [signatureName, length_append] at hlen
  omega

lemma meets_stageSignature (d name : Text) (sig : Option (File × Text)) :
    Meets (Kept P none) (StagedInputs.stageSignature d name sig) fun w _ w' =>
      Kept P (some d) w w' ∧ ∀ fs, w.staging d = some fs → (sig = none → w'.staging d = some fs) ∧
        ∀ pin bytes, sig = some pin → SealedAs w pin.1 bytes →
          w'.staging d = some (update fs (signatureName name) (some bytes)) := by
  cases sig with
  | none => exact pure fun w => ⟨refl w, fun _ h => ⟨fun _ => h, by simp⟩⟩
  | some pin =>
    refine (meets_createStaged false d _).bind fun _ => ?_
    refine (meets_copy_writeStaged pin.1 d _).bind fun _ => pure ?_
    rintro w' w₁ ⟨hk₁, hco⟩ w ⟨hk, hcre⟩
    refine ⟨hk.trans hk₁, fun fs hfs => ⟨by simp, ?_⟩⟩
    rintro _ bytes ⟨⟩ hse
    exact hco fs bytes (hse.kept hk) (hcre fs hfs)

/-- The files that a snapshot `s` of the process `P` was staged as, at `path`: the package holds
the bytes that `P` sealed, and there is a signature exactly if `P` sealed one, with its bytes. -/
def StagedAs (sha256 : Bytes → Bytes) (P : Process) (w₁ w₂ : System) (s : ArchiveSnapshot)
    (path : Text) : Prop :=
  ∃ directory files, path = directory ++ '/' :: s.name ∧ w₂.staging directory = some files ∧
    (∃ bytes, PinnedAs sha256 P w₁ (s.file, s.digest) bytes ∧ files s.name = some bytes) ∧
    (s.signature = none → files (signatureName s.name) = none) ∧
    ∀ pinned, s.signature = some pinned → ∃ bytes, PinnedAs sha256 P w₁ pinned bytes ∧
      files (signatureName s.name) = some bytes

lemma StagedAs.kept {path : Text} (h : StagedAs sha256 par w₁ w₂ s path)
    (hk : Kept ch none w₂ w') : StagedAs sha256 par w₁ w' s path := by
  obtain ⟨directory, fs, hpt, hfs, hrest⟩ := h
  exact ⟨directory, fs, hpt, hk.staging _ _ (by simp) hfs, hrest⟩

lemma PinnedAs.bytes_eq (hinj : Injective sha256) {p q : File × Text} {bs' : Bytes}
    (h : PinnedAs sha256 par w₁ p bytes) (h' : PinnedAs sha256 ch w₂ q bs')
    (heq : q.2 = p.2) : bs' = bytes :=
  hinj (hexEncode_injective (h'.digest_eq.symm.trans (heq.trans h.digest_eq)))

lemma meets_capture_handoff (hs : s.Valid sha256 par w₁) :
    Meets (Kept ch none) (capture sha256 ch (s.handoff par))
      fun w t w' => Kept ch none w w' ∧ s.Agrees t ∧ t.Valid sha256 ch w' := by
  refine (meets_fromHandoff_handoff hs).bind fun pin => ?_
  cases pin with
  | some t =>
    refine pure ?_
    rintro w' w ⟨hk, _, ⟨⟩, h⟩
    exact ⟨hk, h⟩
  | none =>
    refine (meets_captureFile _).mono ?_
    rintro _ _ _ _ w ⟨-, t, ht, -⟩
    cases ht

lemma meets_stage (hinj : Injective sha256) (hs : s.Valid sha256 par w₁) :
    Meets (Kept ch none) (StagedInputs.stage sha256 ch (s.handoff par)) fun w r w' =>
      Kept ch none w w' ∧ StagedAs sha256 par w₁ w' s r.1 := by
  refine lift_bind fun _ _ => (meets_capture_handoff hs).bind fun t => ?_
  refine meets_tempdirIn.bind fun d => (meets_createStaged true d t.name).bind fun _ => ?_
  refine (meets_openProc ch.pid t.file.fd).bind fun rd => ?_
  refine (meets_copy_writeStaged rd d t.name).bind fun _ => ?_
  refine (meets_stageSignature d t.name t.signature).bind fun _ => pure ?_
  rintro w' w₆ ⟨hk₆, hsgn⟩ w₅ ⟨hk₅, hco⟩ w₄ ⟨hk₄, -, hrea⟩ w₃
    ⟨hk₃, hcre⟩ w₂ ⟨hk₂, hfre, hem⟩ w ⟨hk, hagr, ht⟩
  have hk' : Kept ch (some d) w₂ w₅ := (hk₂.trans hk₃).trans hk₄.outside
  refine ⟨hk.fresh hfre ((hk'.trans hk₅).trans hk₆), d, ?_⟩
  obtain ⟨bytes, hby⟩ := hs.file
  obtain ⟨tbytes, htby⟩ := ht.file
  obtain rfl : tbytes = bytes := hby.bytes_eq hinj htby hagr.digest
  -- It is read through the descriptor of the snapshot, hence from the same file.
  have hino : rd.ino = t.file.ino := hrea _ rfl ((htby.holds.kept hk₂).kept hk₃).descriptor
  have hse : SealedAs w₅ rd tbytes := by
    obtain ⟨n, hn, hrest⟩ := htby.isSealed.kept hk'
    exact ⟨n, by rw [hino]; exact hn, hrest⟩
  have hfs : w₆.staging d = some (update (fun _ => none) t.name (some tbytes)) :=
    hco _ tbytes hse (hk₄.staging d _ (by simp) (hcre _ hem))
  obtain ⟨hno, hso⟩ := hsgn _ hfs
  rw [← hagr.name]
  cases hsig : t.signature with
  | none =>
    have hsig' : s.signature = none := by simpa [hsig] using hagr.signature.symm
    refine ⟨_, rfl, hno hsig, ⟨tbytes, hby, by simp⟩, fun _ => ?_, by simp [hsig']⟩
    simp [signatureName_ne]
  | some tpinned =>
    obtain ⟨pin, hsig', hha⟩ : ∃ pin, s.signature = some pin ∧ tpinned.2 = pin.2 := by
      have := hagr.signature
      cases h : s.signature <;> simp_all
    obtain ⟨sbytes, hsby⟩ := hs.signature pin hsig'
    obtain ⟨stbytes, hstb⟩ := ht.signature tpinned hsig
    obtain rfl : stbytes = sbytes := hsby.bytes_eq hinj hstb hha
    have hse' := (hstb.isSealed.kept hk').kept hk₅
    refine ⟨_, rfl, hso tpinned stbytes hsig hse', ⟨tbytes, hby, ?_⟩, by simp [hsig'], ?_⟩
    · simp [update_of_ne (signatureName_ne t.name).symm]
    · rintro _ hpin
      obtain rfl := some.inj (hsig'.symm.trans hpin)
      exact ⟨stbytes, hsby, by simp⟩

/-! ### Whole target lists -/

section

variable {debianBackend : Bool} {targets rewritten staged : List Text}
  {snapshots : List ArchiveSnapshot}

/-- How `capture` rewrites targets: a local package becomes the handoff of a valid snapshot, every
other target stays. -/
inductive Pins (sha256 : Bytes → Bytes) (debianBackend : Bool) (P : Process) (w : System) :
    List Text → List ArchiveSnapshot → List Text → Prop
  | nil : Pins sha256 debianBackend P w [] [] []
  | passed {target targets snapshots rewritten}
      (harchive : isArchiveInput debianBackend target = false)
      (hrest : Pins sha256 debianBackend P w targets snapshots rewritten) :
      Pins sha256 debianBackend P w (target :: targets) snapshots (target :: rewritten)
  | archive {target targets snapshots rewritten snapshot}
      (harchive : isArchiveInput debianBackend target = true)
      (hvalid : ArchiveSnapshot.Valid sha256 P w snapshot)
      (hrest : Pins sha256 debianBackend P w targets snapshots rewritten) :
      Pins sha256 debianBackend P w (target :: targets) (snapshot :: snapshots)
        (snapshot.handoff P :: rewritten)

/-- How targets and snapshots belong to staged targets: a local package becomes a path at which
its snapshot was staged, every other target stays. -/
inductive Staged (sha256 : Bytes → Bytes) (debianBackend : Bool) (P : Process) (w₁ w₂ : System) :
    List Text → List ArchiveSnapshot → List Text → Prop
  | nil : Staged sha256 debianBackend P w₁ w₂ [] [] []
  | passed {target targets snapshots staged}
      (harchive : isArchiveInput debianBackend target = false)
      (hrest : Staged sha256 debianBackend P w₁ w₂ targets snapshots staged) :
      Staged sha256 debianBackend P w₁ w₂ (target :: targets) snapshots (target :: staged)
  | archive {target targets snapshots staged snapshot path}
      (harchive : isArchiveInput debianBackend target = true)
      (hstaged : StagedAs sha256 P w₁ w₂ snapshot path)
      (hrest : Staged sha256 debianBackend P w₁ w₂ targets snapshots staged) :
      Staged sha256 debianBackend P w₁ w₂ (target :: targets) (snapshot :: snapshots)
        (path :: staged)

lemma Pins.valid (h : Pins sha256 debianBackend P w targets snapshots rewritten) :
    ∀ snap ∈ snapshots, snap.Valid sha256 P w := by
  induction h with
  | nil => simp
  | passed _ _ ih => exact ih
  | archive _ hvalid _ ih => exact forall_mem_cons.mpr ⟨hvalid, ih⟩

section

variable (h : Staged sha256 debianBackend P w₁ w₂ targets snapshots staged)

include h

lemma Staged.length_eq : staged.length = targets.length := by
  induction h with
  | nil => rfl
  | passed _ _ ih => simp [ih]
  | archive _ _ _ ih => simp [ih]

lemma Staged.getElem_passed : ∀ (i : ℕ) (tgt : Text), targets[i]? = some tgt →
      isArchiveInput debianBackend tgt = false → staged[i]? = some tgt := by
  induction h with
  | nil => simp
  | passed _ _ ih =>
    rintro (_ | i) tgt ht hpsd
    · exact ht
    · exact ih i tgt ht hpsd
  | archive harchive _ _ ih =>
    rintro (_ | i) tgt ht hpsd
    · obtain rfl : _ = tgt := some.inj ht
      simp [harchive] at hpsd
    · exact ih i tgt ht hpsd

end

/-- The loop of `SnapshotInputs::capture`: later targets leave earlier snapshots valid. -/
lemma meets_snapshotInputs_capture (targets : List Text) :
    Meets (Kept P none) (SnapshotInputs.capture sha256 P debianBackend targets) fun w inps w' =>
      Kept P none w w' ∧ Pins sha256 debianBackend P w' targets inps.snapshots inps.targets := by
  induction targets with
  | nil => exact pure fun w => ⟨refl w, .nil⟩
  | cons tgt targets ih =>
    unfold SnapshotInputs.capture
    split_ifs with harchive
    · refine (meets_capture tgt).bind fun snap => ih.bind fun rest => ?_
      refine pure ?_
      rintro w' w₁ ⟨hk₁, hpi⟩ w ⟨hk, hvalid⟩
      exact ⟨hk.trans hk₁, .archive harchive (hvalid.kept hk₁) hpi⟩
    · refine ih.bind fun rest => pure ?_
      rintro w' w ⟨hk, hpi⟩
      exact ⟨hk, .passed (Bool.eq_false_iff.mpr harchive) hpi⟩

/-- The loop of `StagedInputs::prepare` over rewritten targets: later targets leave earlier staged
files alone. -/
lemma meets_prepare (hinj : Injective sha256)
    (h : Pins sha256 debianBackend par w₁ targets snapshots rewritten) :
    Meets (Kept ch none) (StagedInputs.prepare sha256 ch debianBackend rewritten)
      fun w inps w' => Kept ch none w w' ∧
        Staged sha256 debianBackend par w₁ w' targets snapshots inps.targets := by
  induction h with
  | nil => exact pure fun w => ⟨refl w, .nil⟩
  | passed harchive _ ih =>
    unfold StagedInputs.prepare
    rw [if_neg (by simp [harchive])]
    refine ih.bind fun rest => pure ?_
    rintro w' w ⟨hk, hstaged⟩
    exact ⟨hk, .passed harchive hstaged⟩
  | archive harchive hvalid _ ih =>
    unfold StagedInputs.prepare
    refine (meets_stage hinj hvalid).bind fun r => ih.bind fun rest => pure ?_
    rintro w' w₂ ⟨hk₂, hstaged⟩ w ⟨hk, hpt⟩
    exact ⟨hk.trans hk₂, .archive harchive (hpt.kept hk₂) hstaged⟩

end

end Omg.Security
