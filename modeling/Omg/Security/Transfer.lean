import Mathlib.Data.Finset.Card
import Omg.Security.Handoff

/-!
# The handoff of local packages as a whole

As long as the unprivileged side keeps its descriptors open and no system call fails, the other side
can open what a handoff describes. Together with what `Omg.Security.Handoff` says of the bytes, this
gives the contract of the handoff.
-/

namespace Omg.Security

open Control Text Except Interfered Attains ArchiveSnapshot
open Control.Interfered (Attains)
open Text (ensure bail required hexEncode decimal isAsciiHexdigit)

variable {sha256 : Bytes → Bytes} {holder reader : Process} {w w' : System}
  {env : ℕ → System → System} {I : System → Prop} {α : Type} {file : File} {n : Inode}
  {pinned : File × Text} {s : ArchiveSnapshot}

/-! ### System calls that succeed -/

/-- `reader` has at least `m` descriptors left. -/
def Room (reader : Process) (m : ℕ) (w : System) : Prop :=
  ∃ free : Finset ℕ, m ≤ free.card ∧
    ∀ fd ∈ free, fd < 2 ^ 31 ∧ w.descriptors reader.pid fd = none

/-- An environment in which the calls of `reader` work. The other processes leave the files of
`holder` and the descriptor table of `reader` alone, no call is made to fail, and the system finds a
free descriptor for `reader` as long as there is one. -/
structure Quiet (holder reader : Process) (env : ℕ → System → System) : Prop where
  kept : ∀ k w, Kept holder none w (env k w)
  fault : ∀ k w, (env k w).fault = none
  descriptors : ∀ k w, (env k w).descriptors reader.pid = w.descriptors reader.pid
  free : ∀ k w, Room reader 1 w → (env k w).nextDescriptor < 2 ^ 31 ∧
    (env k w).descriptors reader.pid (env k w).nextDescriptor = none

def Steady (env : ℕ → System → System) (I : System → Prop) : Prop := ∀ k w, I w → I (env k w)

/-- What holds between the calls that read a handoff: `holder` has kept what it had in `w₀`, and
`reader` can still open `m` files. -/
def Readable (holder reader : Process) (w₀ : System) (m : ℕ) (w : System) : Prop :=
  Kept holder none w₀ w ∧ Room reader m w

lemma Room.mono {m m' : ℕ} (h : Room reader m w) (hle : m' ≤ m) : Room reader m' w := by
  obtain ⟨free, hcard, hfree⟩ := h
  exact ⟨free, hle.trans hcard, hfree⟩

/-- Opening a file takes one descriptor. -/
lemma Room.attach {m ino : ℕ} (h : Room reader (m + 1) w)
    (hat : w.attach reader ino = .ok (file, w')) : Room reader m w' := by
  obtain ⟨free, hcard, hfree⟩ := h
  unfold System.attach at hat
  split_ifs at hat
  cases hat
  refine ⟨free.erase w.nextDescriptor, ?_, fun fd hfd => ?_⟩
  · have := free.pred_card_le_card_erase (a := w.nextDescriptor)
    omega
  · obtain ⟨hne, hmem⟩ := Finset.mem_erase.mp hfd
    exact ⟨(hfree fd hmem).1, by simpa [hne] using (hfree fd hmem).2⟩

section

variable (hqu : Quiet holder reader env)

include hqu

lemma attains_call {f : System → Result (α × System)} {Q : α → System → Prop}
    (h : ∀ k w, I w → ∃ a w', f (env k w) = .ok (a, w') ∧ Q a w') : Attains env I (call f) Q := by
  refine step fun k w hw => ?_
  simpa [hqu.fault] using h k w hw

lemma steady_readable (w₀ : System) (m : ℕ) : Steady env (Readable holder reader w₀ m) := by
  rintro k w ⟨hkept, free, hcard, hfree⟩
  refine ⟨hkept.trans (hqu.kept k w), free, hcard, ?_⟩
  rwa [hqu.descriptors k w]

lemma attains_look {f : System → Result α} {φ : α → Prop} (hst : Steady env I)
    (hf : ∀ w, I w → ∃ a, f w = .ok a ∧ φ a) : Attains env I (look f) fun a w => I w ∧ φ a := by
  refine attains_call hqu fun k w hw => ?_
  have hw' := hst k w hw
  obtain ⟨a, ha, hφ⟩ := hf _ hw'
  exact ⟨a, env k w, by simp [ha, Except.map], hw', hφ⟩

lemma attains_openProc {pid fd ino m : ℕ} {w₀ : System}
    (hino : ∀ w, Kept holder none w₀ w → w.descriptors pid fd = some ino) :
    Attains env (Readable holder reader w₀ (m + 1)) (openProc reader pid fd) fun file w =>
      Readable holder reader w₀ m w ∧ file.ino = ino := by
  refine attains_call hqu fun k w hw => ?_
  have hfree := hqu.free k w (hw.2.mono (by omega))
  obtain ⟨hkept, hroom⟩ := steady_readable hqu w₀ (m + 1) k w hw
  cases hat : (env k w).attach reader ino with
  | error msg =>
    unfold System.attach at hat
    rw [if_pos hfree] at hat
    cases hat
  | ok r =>
    refine ⟨r.1, r.2, ?_, ⟨hkept.trans (kept_attach hat), hroom.attach hat⟩, (attach_eq_ok hat).1⟩
    simp [hino _ hkept, hat, Except.mapError]

lemma attains_copyLoop (hst : Steady env I)
    (hn : ∀ w, I w → w.inodes file.ino = some n) (fuel : ℕ) (cop : Bytes)
    (hcop : cop <+: n.contents) (hfu : n.contents.length < cop.length + fuel) :
    Attains env I (copyLoop file none (fun _ _ => pure ()) fuel cop) fun out w =>
      I w ∧ out = n.contents := by
  induction fuel generalizing cop with
  | zero =>
    have := hcop.length_le
    omega
  | succ fuel ih =>
    unfold copyLoop
    have hrd : Attains env I (readAt file cop.length (wanted none cop.length))
        fun ck w => I w ∧ ∃ granted, ck = (n.contents.drop cop.length).take
          (min (wanted none cop.length) (granted + 1)) :=
      attains_look hqu hst fun w hw => ⟨_, by rw [hn w hw], w.granted, rfl⟩
    refine hrd.bind fun ck => ?_
    split_ifs with hck
    · refine pure ?_
      rintro w ⟨hw, granted, hgra⟩
      have hpos : 0 < min (wanted none cop.length) (granted + 1) := by
        have := wanted_none_ne_zero cop.length
        omega
      exact ⟨hw, eq_of_chunk_eq_nil hcop hpos (hgra.symm.trans hck)⟩
    · -- The chunk is only known under the assertion, so the assertion is opened first.
      intro k w hw
      obtain ⟨hI, granted, rfl⟩ := hw
      refine ih _ (append_chunk_isPrefix hcop _) ?_ k w hI
      have := List.length_pos_iff.mpr hck
      simp only [List.length_append]
      omega

lemma attains_digest (hst : Steady env I)
    (hn : ∀ w, I w → w.inodes file.ino = some n) (hlen : n.contents.length < maxOffset) :
    Attains env I (digest sha256 file) fun hash w =>
      I w ∧ hash = hexEncode (sha256 n.contents) := by
  refine (attains_copyLoop hqu hst hn maxOffset [] (by simp) hlen).bind ?_
  refine fun out => pure ?_
  rintro w ⟨hw, rfl⟩
  exact ⟨hw, rfl⟩

end

/-! ### Reading a handoff succeeds -/

/-- A pinned file that the holder still has open and that passes the checks of the reader: sealed,
regular, not too long, and with a digest of 32 bytes. -/
structure Transferable (sha256 : Bytes → Bytes) (holder : Process) (w : System)
    (pinned : File × Text) (n : Inode) : Prop where
  holds : holder.Holds w pinned.1
  inode : w.inodes pinned.1.ino = some n
  isSealed : n.isSealed = true
  isFile : n.isFile = true
  length_le : n.contents.length ≤ maxArchiveBytes
  digest_eq : pinned.2 = hexEncode (sha256 n.contents)
  digest_length : (sha256 n.contents).length = 32

lemma Transferable.kept (h : Transferable sha256 holder w pinned n) (hk : Kept holder none w w') :
    Transferable sha256 holder w' pinned n :=
  { h with
    holds := h.holds.kept hk
    inode := hk.inodes _ n h.inode h.isSealed }

section

variable (hqu : Quiet holder reader env) (hst : Steady env I)

include hqu hst

lemma attains_fileMetadata (hn : ∀ w, I w → w.inodes file.ino = some n) :
    Attains env I (fileMetadata file) fun n' w => I w ∧ n' = n :=
  attains_look hqu hst fun w hw => ⟨n, by rw [hn w hw], rfl⟩

lemma attains_fitsLimit (hn : ∀ w, I w → w.inodes file.ino = some n) (hf : n.isFile)
    (hlen : n.contents.length ≤ maxArchiveBytes) :
    Attains env I (fitsLimit file) fun fits w => I w ∧ fits := by
  refine (attains_fileMetadata hqu hst hn).bind fun n' => ?_
  rintro k w ⟨hw, rfl⟩
  rw [if_pos hf]
  refine ((attains_fileMetadata hqu hst hn).bind fun n'' => ?_) k w hw
  refine pure ?_
  rintro w ⟨hw, rfl⟩
  exact ⟨hw, by simpa using hlen⟩

end

/-- A pinned file of the holder passes the checks of `openSealed`. -/
lemma attains_openSealed (hqu : Quiet holder reader env) {w₀ : System} {m : ℕ}
    (hn : Transferable sha256 holder w₀ pinned n) :
    Attains env (Readable holder reader w₀ (m + 1))
      (openSealed sha256 reader holder.pid pinned.1.fd pinned.2)
      fun _ w => Readable holder reader w₀ m w := by
  have hst := steady_readable hqu w₀ m
  have hdg : byteLen pinned.2 = 64 ∧ pinned.2.all isAsciiHexdigit = true := by
    rw [hn.digest_eq, byteLen_hexEncode, hn.digest_length]
    exact ⟨rfl, List.all_eq_true.mpr fun _ => isAsciiHexdigit_of_mem_hexEncode⟩
  have hmax : n.contents.length < maxOffset :=
    Nat.lt_of_le_of_lt hn.length_le (by simp [maxArchiveBytes, maxOffset])
  refine lift_bind (a := ()) (by simp [hdg]) ?_
  refine (attains_openProc hqu fun w hk => (hn.kept hk).holds.descriptor).bind ?_
  rintro file k w ⟨hw, hino⟩
  have hind : ∀ w, Readable holder reader w₀ m w → w.inodes file.ino = some n := fun w hw => by
    rw [hino]
    exact (hn.kept hw.1).inode
  have hsea : Attains env (Readable holder reader w₀ m) (getSeals file) fun seals w =>
      Readable holder reader w₀ m w ∧ seals = true :=
    attains_look hqu hst fun w hw => ⟨n.isSealed, by rw [hind w hw], hn.isSealed⟩
  refine (hsea.bind ?_) k w hw
  rintro seals k w ⟨hw, rfl⟩
  refine (lift_bind (a := ()) (by simp) ?_) k w hw
  refine (attains_fitsLimit hqu hst hind hn.isFile hn.length_le).bind ?_
  rintro fits k w ⟨hw, rfl⟩
  refine (lift_bind (a := ()) (by simp) ?_) k w hw
  refine (attains_digest hqu hst hind hmax).bind ?_
  rintro act k w ⟨hw, rfl⟩
  refine (lift_bind (a := ()) ?_ ?_) k w hw
  · simp [hn.digest_eq]
  · exact pure fun w hw => hw

lemma parseU32_decimal {n : ℕ} (h : n < 2 ^ 32) : parseU32 (decimal n) = .ok n := by
  rw [parseU32, parseUnsigned_decimal h]

lemma attains_signatureFromHandoff (hqu : Quiet holder reader env) {w₀ : System}
    (hpin : ∀ pinned, s.signature = some pinned → ∃ n, Transferable sha256 holder w₀ pinned n) :
    Attains env (Readable holder reader w₀ 1)
      (signatureFromHandoff sha256 reader holder.pid s.signatureField) fun _ _ => True := by
  cases hsig : s.signature with
  | none =>
    have hfi : s.signatureField = noSignature := by simp [signatureField, hsig]
    rw [signatureFromHandoff, if_pos hfi]
    exact pure fun _ _ => trivial
  | some pinned =>
    obtain ⟨n, hn⟩ := hpin pinned hsig
    have hfi : s.signatureField = decimal pinned.1.fd ++ '-' :: pinned.2 := by
      simp [signatureField, hsig]
    have hne : s.signatureField ≠ noSignature := fun h =>
      dash_notMem_noSignature (h ▸ by simp [hfi])
    rw [signatureFromHandoff, if_neg hne, hfi]
    have hsp := splitOnce_append (dash_notMem_decimal pinned.1.fd) pinned.2
    refine lift_bind (a := (decimal pinned.1.fd, pinned.2)) (by simp [hsp]) ?_
    refine lift_bind (parseU32_decimal (Nat.lt_trans hn.holds.fd_lt (by decide))) ?_
    refine (attains_openSealed hqu hn).bind fun file => ?_
    exact pure fun _ _ => trivial

/-- With two descriptors left, `reader` opens the package and its signature. -/
lemma attains_fromHandoff (hqu : Quiet holder reader env) (hs : s.Valid sha256 holder w)
    (hf : Transferable sha256 holder w (s.file, s.digest) n)
    (hsig : ∀ pinned, s.signature = some pinned → ∃ n, Transferable sha256 holder w pinned n)
    (hroom : Room reader 2 w) (k : ℕ) :
    ∃ res k' w', fromHandoff sha256 reader (s.handoff holder) env (k, w) = .ok (res, k', w') := by
  have hna : isNamed s.name = true := by
    simp [isNamed, hs.name.ne_nil, hs.name.ne_dot, hs.name.ne_dotdot]
  suffices hatt : Attains env (Readable holder reader w 2)
      (fromHandoff sha256 reader (s.handoff holder)) fun _ _ => True by
    obtain ⟨res, k', w', hrun, -⟩ := hatt k w ⟨Kept.refl w, hroom⟩
    exact ⟨res, k', w', hrun⟩
  unfold fromHandoff
  rw [hs.handoffFields_handoff]
  refine lift_bind (parseU32_decimal holder.pid_lt) ?_
  refine lift_bind (parseU32_decimal (Nat.lt_trans hf.holds.fd_lt (by decide))) ?_
  refine lift_bind (a := ()) (by simp [holder.pid_pos, hna]) ?_
  refine (attains_openSealed hqu hf).bind fun file => ?_
  refine (attains_signatureFromHandoff hqu hsig).bind fun sig => ?_
  exact pure fun _ _ => trivial

/-! ### The contract -/

def WithinLimits (sha256 : Bytes → Bytes) (w : System) (file : File) : Prop :=
  ∀ n, w.inodes file.ino = some n → n.isFile = true ∧ n.contents.length ≤ maxArchiveBytes ∧
    (sha256 n.contents).length = 32

lemma PinnedAs.transferable {bs : Bytes} {w₁ : System}
    (h : PinnedAs sha256 holder w₁ pinned bs) (hlim : WithinLimits sha256 w₁ pinned.1)
    (hk : Kept holder none w₁ w) : ∃ n, Transferable sha256 holder w pinned n := by
  obtain ⟨n, hn, hse, rfl⟩ := h.isSealed
  obtain ⟨hf, hlen, hdg⟩ := hlim n hn
  exact ⟨n, h.holds.kept hk, hk.inodes _ n hn hse, hse, hf, hlen, h.digest_eq, hdg⟩

/-- Let `parent` pin the local packages among its targets, against any interference that leaves
sealed files and its own descriptors alone. Whatever happens afterwards, if a process prepares the
rewritten targets, then the staged list has the length and order of the targets, targets that are
not local packages are unchanged, and each package is staged under its name with the bytes that
`parent` sealed, with a signature exactly if `parent` sealed one, and with its bytes. Reading the
handoff of a snapshot gives a snapshot with the same name, digests and original path, and it does
succeed while `parent` has its files open and the system lets the reader open two more. -/
theorem staged_of_capture_prepare {parent : Process} {debianBackend : Bool}
    (hinj : Function.Injective sha256) {env₁ : ℕ → System → System}
    (henv₁ : ∀ k w, Kept parent none w (env₁ k w)) {targets : List Text}
    {captured : SnapshotInputs} {k₀ k₁ : ℕ} {w₀ w₁ : System}
    (hcapture : SnapshotInputs.capture sha256 parent debianBackend targets env₁ (k₀, w₀) =
      .ok (captured, k₁, w₁)) :
    (∀ (child : Process) (env₂ : ℕ → System → System), (∀ k w, Kept child none w (env₂ k w)) →
      ∀ k₂ w₂ staged k₃ w₃, StagedInputs.prepare sha256 child debianBackend captured.targets env₂
          (k₂, w₂) = .ok (staged, k₃, w₃) →
        staged.targets.length = targets.length ∧
        (∀ (i : ℕ) (target : Text), targets[i]? = some target →
          isArchiveInput debianBackend target = false → staged.targets[i]? = some target) ∧
        Staged sha256 debianBackend parent w₁ w₃ targets captured.snapshots staged.targets) ∧
    ∀ s ∈ captured.snapshots, ∀ (reader : Process) (env₂ : ℕ → System → System),
      (∀ k w, Kept reader none w (env₂ k w)) → ∀ k₂ w₂,
        (∀ result k₃ w₃, ArchiveSnapshot.fromHandoff sha256 reader (s.handoff parent) env₂
            (k₂, w₂) = .ok (result, k₃, w₃) → ∃ t, result = some t ∧ s.Agrees t) ∧
        (Quiet parent reader env₂ → Kept parent none w₁ w₂ → Room reader 2 w₂ →
          WithinLimits sha256 w₁ s.file →
          (∀ pinned, s.signature = some pinned → WithinLimits sha256 w₁ pinned.1) →
          ∃ t k₃ w₃, ArchiveSnapshot.fromHandoff sha256 reader (s.handoff parent) env₂ (k₂, w₂) =
            .ok (some t, k₃, w₃) ∧ s.Agrees t) := by
  obtain ⟨-, hpi⟩ := meets_snapshotInputs_capture targets env₁ henv₁ k₀ w₀ captured k₁ w₁ hcapture
  refine ⟨fun child env₂ henv₂ k₂ w₂ staged k₃ w₃ hprp => ?_,
    fun s hs reader env₂ henv₂ k₂ w₂ => ?_⟩
  · obtain ⟨-, hstd⟩ := meets_prepare hinj hpi env₂ henv₂ k₂ w₂ staged k₃ w₃ hprp
    exact ⟨hstd.length_eq, hstd.getElem_passed, hstd⟩
  · have hv := hpi.valid s hs
    have hagr : ∀ result k₃ w₃, fromHandoff sha256 reader (s.handoff parent) env₂
        (k₂, w₂) = .ok (result, k₃, w₃) → ∃ t, result = some t ∧ s.Agrees t := by
      intro result k₃ w₃ hrun
      obtain ⟨-, t, ht, hst, -⟩ := meets_fromHandoff_handoff hv env₂ henv₂ k₂ w₂ result k₃ w₃ hrun
      exact ⟨t, ht, hst⟩
    refine ⟨hagr, fun hqu hk hroom hf hsig => ?_⟩
    obtain ⟨bs, hby⟩ := hv.file
    obtain ⟨n, hn⟩ := hby.transferable hf hk
    have hsig' : ∀ pinned, s.signature = some pinned →
        ∃ n, Transferable sha256 parent w₂ pinned n := fun pinned hpin => by
      obtain ⟨sbytes, hsby⟩ := hv.signature pinned hpin
      exact hsby.transferable (hsig pinned hpin) hk
    obtain ⟨result, k₃, w₃, hrun⟩ := attains_fromHandoff hqu (hv.kept hk) hn hsig' hroom k₂
    obtain ⟨t, rfl, hst⟩ := hagr result k₃ w₃ hrun
    exact ⟨t, k₃, w₃, hrun, hst⟩

def packageSystem : System :=
  { (default : System) with
    lstat := fun _ => .ok ⟨false, true, 0, 0o644⟩
    stat := fun _ => .ok ⟨false, true, 0, 0o644⟩
    canonicalize := fun path => .ok path.tail
    resolve := fun path =>
      if path = OsString.ofText "/p.pkg.tar" then .ok 0 else .error .notFound
    inodes := fun i => if i = 0 then some ⟨true, 0, 0o644, List.replicate 32 7, false⟩ else none }

def privileged : Process := ⟨2, by decide, by decide, 0, none, none, fun _ => .ok none⟩

def packageTargets : List Text := ["/p.pkg.tar", "jq"]

/-- What the witness needs of a capture: one snapshot, without a signature and of a file of 32
bytes, and two descriptors that `privileged` has not opened. -/
def oneSmallSnapshot (r : SnapshotInputs × ℕ × System) : Bool :=
  r.1.snapshots.length = 1 && r.1.snapshots.all (fun s => s.signature.isNone &&
    (r.2.2.inodes s.file.ino).all fun n => n.isFile && n.contents.length = 32) &&
  [0, 1].all fun fd => (r.2.2.descriptors privileged.pid fd).isNone

def packageRun : Result (Bool × StagedInputs × ℕ × System) := do
  let captured ← SnapshotInputs.capture id default false packageTargets (fun _ w => w)
    (0, packageSystem)
  let staged ← StagedInputs.prepare id privileged false captured.1.targets (fun _ w => w) captured.2
  pure (oneSmallSnapshot captured, staged)

lemma packageRun_eq : packageRun.toOption.any (·.1) := by decide +kernel

open Classical in
/-- The environment that does nothing but look for a descriptor of `reader`. -/
noncomputable def findDescriptor (reader : Process) (w : System) : System :=
  { w with
    fault := none
    nextDescriptor :=
      if h : ∃ fd < 2 ^ 31, w.descriptors reader.pid fd = none then h.choose else 0 }

lemma quiet_findDescriptor : Quiet holder reader fun _ => findDescriptor reader where
  kept _ _ := ⟨fun _ _ h _ => h, fun _ _ h => h, fun _ _ _ h => h⟩
  fault _ _ := rfl
  descriptors _ _ := rfl
  free _ w := by
    rintro ⟨free, hcard, hfree⟩
    obtain ⟨fd, hfd⟩ := Finset.card_pos.mp hcard
    have h : ∃ fd < 2 ^ 31, w.descriptors reader.pid fd = none := ⟨fd, hfree fd hfd⟩
    simp only [findDescriptor, dif_pos h]
    exact h.choose_spec

theorem staged_of_capture_prepare_package : ∃ captured k₁ w₁ staged k₃ w₃ s t k w,
    SnapshotInputs.capture id default false packageTargets (fun _ w => w) (0, packageSystem) =
      .ok (captured, k₁, w₁) ∧
    StagedInputs.prepare id privileged false captured.targets (fun _ w => w) (k₁, w₁) =
      .ok (staged, k₃, w₃) ∧
    Staged id false default w₁ w₃ packageTargets captured.snapshots staged.targets ∧
    captured.snapshots = [s] ∧
    ArchiveSnapshot.fromHandoff id privileged (s.handoff default)
      (fun _ => findDescriptor privileged) (k₁, w₁) = .ok (some t, k, w) ∧ s.Agrees t := by
  obtain ⟨⟨small, staged, k₃, w₃⟩, hrun, rfl⟩ : ∃ r, packageRun = .ok r ∧ r.1 = true := by
    cases h : packageRun with
    | error e => simpa [h, Except.toOption] using packageRun_eq
    | ok r => exact ⟨r, rfl, by simpa [h, Except.toOption] using packageRun_eq⟩
  obtain ⟨⟨captured, k₁, w₁⟩, hcap, hrest⟩ := bind_eq_ok.mp hrun
  obtain ⟨_, hprp, heq⟩ := bind_eq_ok.mp hrest
  obtain ⟨hsmall, rfl⟩ := Prod.mk.inj (Except.ok.inj heq)
  simp only [oneSmallSnapshot, Bool.and_eq_true, decide_eq_true_eq, List.length_eq_one_iff,
    List.all_cons, List.all_nil, Option.isNone_iff_eq_none, and_true] at hsmall
  obtain ⟨⟨⟨s, hs⟩, hall⟩, hfree⟩ := hsmall
  simp only [hs, List.all_cons, List.all_nil, Bool.and_true, Bool.and_eq_true,
    Option.isNone_iff_eq_none, Option.all_eq_true, decide_eq_true_eq] at hall
  obtain ⟨hstaged, hread⟩ :=
    staged_of_capture_prepare Function.injective_id (fun _ w => Kept.refl w) hcap
  have hroom : Room privileged 2 w₁ := by
    refine ⟨{0, 1}, by simp, fun fd hfd => ?_⟩
    obtain rfl | rfl : fd = 0 ∨ fd = 1 := by simpa using hfd
    · exact ⟨by decide, hfree.1⟩
    · exact ⟨by decide, hfree.2⟩
  have hquiet : ∀ holder, Quiet holder privileged fun _ => findDescriptor privileged :=
    fun _ => quiet_findDescriptor
  obtain ⟨t, k, w, ht, hagrees⟩ := (hread s (by simp [hs]) privileged _ (hquiet privileged).kept k₁
    w₁).2 (hquiet _) (Kept.refl w₁) hroom
      (fun n hn => ⟨(hall.2 n hn).1, by simp [(hall.2 n hn).2, maxArchiveBytes],
        (hall.2 n hn).2⟩)
      (fun pinned hpin => by simp [hall.1] at hpin)
  exact ⟨captured, k₁, w₁, staged, k₃, w₃, s, t, k, w, hcap, hprp,
    (hstaged privileged _ (fun _ w => Kept.refl w) k₁ w₁ staged k₃ w₃ hprp).2.2, hs, ht, hagrees⟩

end Omg.Security
