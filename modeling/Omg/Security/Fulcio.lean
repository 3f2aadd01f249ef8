import Omg.Security.Crypto

/-!
# Fulcio certificate chains

A Fulcio leaf certificate names the signer of an artifact. It is accepted when an embedded
certificate issued it, directly or through the embedded intermediate, and when each certificate of
the chain may play its role and was valid when the log recorded the entry.

Source: `src/core/security/slsa.rs`.
-/

namespace Omg.Security

open List Option

/-! ### Extensions and roles -/

/-- Whether an extension is supported in the role; `none` if it forbids the role. The role is that
of a leaf, or of an issuer with the given number of issuers below it. -/
def extensionSupported (caBelow : Option ℕ) : ParsedExtension → Option Bool
  | .basicConstraints ca pathLen =>
    match caBelow with
    | some count => if !ca || pathLen.any fun limit => count > limit then none else some true
    | none => if ca || pathLen.isSome then none else some true
  | .keyUsage keyCertSign digitalSignature =>
    if (if caBelow.isSome then keyCertSign else digitalSignature) then some true else none
  | .extendedKeyUsage codeSigning =>
    if caBelow.isNone then (if codeSigning then some true else none) else some false
  | .subjectAlternativeName _ => some caBelow.isNone
  | .parseError => none
  | .unparsed => none
  | .other => some false

def extensionsPermitRole (caBelow : Option ℕ) : List Text → List Extension → Bool
  | _, [] => true
  | seen, extension :: extensions =>
    if extension.oid ∈ seen then false
    else match extensionSupported caBelow extension.parsed with
      | none => false
      | some supported =>
        if extension.critical && !supported then false
        else extensionsPermitRole caBelow (extension.oid :: seen) extensions

def fulcioExtensionsPermitRole (certificate : X509Certificate) (caBelow : Option ℕ) : Bool :=
  extensionsPermitRole caBelow [] certificate.extensions

def certificateValidAt (certificate : X509Certificate) (time : ℤ) : Bool :=
  certificate.notBefore ≤ time && time ≤ certificate.notAfter

def certificateIsCa (certificate : X509Certificate) : Bool :=
  certificate.extensions.any fun extension =>
    match extension.parsed with
    | .basicConstraints ca _ => ca
    | _ => false

/-- The flags of a leaf: whether its last basic constraints make it an authority, and whether it has
the code-signing usage. -/
def leafProfile (extensions : List Extension) : Bool × Bool :=
  extensions.foldl (fun flags extension =>
    match extension.parsed with
    | .basicConstraints ca _ => (ca, flags.2)
    | .extendedKeyUsage codeSigning => (flags.1, flags.2 || codeSigning)
    | _ => flags) (false, false)

def identityOfNames : Option Text → List GeneralName → Option Text
  | firstUri, [] => firstUri
  | _, .rfc822Name email :: _ => some email
  | firstUri, .uri uri :: names => identityOfNames (firstUri.or (some uri)) names
  | firstUri, .other :: names => identityOfNames firstUri names

def fulcioSignerIdentity (leaf : X509Certificate) : Option Text :=
  leaf.extensions.findSome? fun extension =>
    match extension.parsed with
    | .subjectAlternativeName names => identityOfNames none names
    | _ => none

/-- A certificate that may issue certificates, with the given number of issuers below it. Key usage
that is absent restricts nothing. -/
structure X509Certificate.IsIssuer (c : X509Certificate) (caBelow : ℕ) : Prop where
  unique : (c.extensions.map Extension.oid).Nodup
  authority : ∃ e ∈ c.extensions, ∃ pathLen, e.parsed = .basicConstraints true pathLen
  pathLength : ∀ e ∈ c.extensions, ∀ ca pathLen, e.parsed = .basicConstraints ca pathLen →
    ca = true ∧ ∀ limit ∈ pathLen, caBelow ≤ limit
  keyUsage : ∀ e ∈ c.extensions, ∀ sign digital, e.parsed = .keyUsage sign digital → sign = true
  critical : ∀ e ∈ c.extensions, e.critical = true →
    (∃ ca pathLen, e.parsed = .basicConstraints ca pathLen) ∨
      ∃ sign digital, e.parsed = .keyUsage sign digital

structure X509Certificate.IsLeaf (c : X509Certificate) : Prop where
  unique : (c.extensions.map Extension.oid).Nodup
  notAuthority : ∀ e ∈ c.extensions, ∀ ca pathLen, e.parsed = .basicConstraints ca pathLen →
    ca = false ∧ pathLen = none
  keyUsage : ∀ e ∈ c.extensions, ∀ sign digital, e.parsed = .keyUsage sign digital →
    digital = true
  codeSigning : ∃ e ∈ c.extensions, e.parsed = .extendedKeyUsage true
  onlyCodeSigning : ∀ e ∈ c.extensions, ∀ code, e.parsed = .extendedKeyUsage code → code = true
  critical : ∀ e ∈ c.extensions, e.critical = true →
    (∃ ca pathLen, e.parsed = .basicConstraints ca pathLen) ∨
      (∃ sign digital, e.parsed = .keyUsage sign digital) ∨
      (∃ code, e.parsed = .extendedKeyUsage code) ∨
      ∃ names, e.parsed = .subjectAlternativeName names

lemma extensionsPermitRole_eq_true {caBelow : Option ℕ} :
    ∀ {exts : List Extension} {seen : List Text}, extensionsPermitRole caBelow seen exts ↔
      (exts.map Extension.oid).Nodup ∧ (∀ e ∈ exts, e.oid ∉ seen) ∧
      ∀ e ∈ exts, ∃ spd, extensionSupported caBelow e.parsed = some spd ∧
        (e.critical → spd)
  | [], seen => by simp [extensionsPermitRole]
  | e :: exts, seen => by
    unfold extensionsPermitRole
    rw [map_cons, nodup_cons, forall_mem_cons, forall_mem_cons]
    split_ifs with hsn
    · simp [hsn]
    · cases hsup : extensionSupported caBelow e.parsed with
      | none => simp
      | some spd =>
        dsimp only
        split_ifs with hcri
        · simp_all
        · rw [extensionsPermitRole_eq_true]
          have hspp : e.critical = true → spd = true := by simpa using hcri
          grind

lemma leafProfile_codeSigning {exts : List Extension} (h : (leafProfile exts).2) :
    ∃ e ∈ exts, e.parsed = .extendedKeyUsage true := by
  have hfd : ∀ (exts : List Extension) (flags : Bool × Bool), (exts.foldl (fun flags extension =>
        match extension.parsed with
        | .basicConstraints ca _ => (ca, flags.2)
        | .extendedKeyUsage codeSigning => (flags.1, flags.2 || codeSigning)
        | _ => flags) flags).2 = true →
      flags.2 = true ∨ ∃ e ∈ exts, e.parsed = .extendedKeyUsage true := by
    intro exts
    induction exts with
    | nil => exact fun _ h => .inl h
    | cons e exts ih =>
      intro flags h
      rcases ih _ h with hfg | ⟨e', he', hco⟩
      · cases hpd : e.parsed with
        | extendedKeyUsage code =>
          simp only [hpd, Bool.or_eq_true] at hfg
          rcases hfg with hfg | rfl
          · exact .inl hfg
          · exact .inr ⟨e, mem_cons_self, hpd⟩
        | _ =>
          simp only [hpd] at hfg
          exact .inl hfg
      · exact .inr ⟨e', mem_cons_of_mem _ he', hco⟩
  exact (hfd exts (false, false) h).resolve_left Bool.false_ne_true

lemma isIssuer_of_permitRole {c : X509Certificate} {caBelow : ℕ}
    (hca : certificateIsCa c) (h : fulcioExtensionsPermitRole c (some caBelow) = true) :
    c.IsIssuer caBelow := by
  obtain ⟨hun, -, hex⟩ := extensionsPermitRole_eq_true.mp h
  obtain ⟨e, he, hpd⟩ := any_eq_true.mp hca
  refine ⟨hun, ⟨e, he, ?_⟩, fun e he ca pathLen hbc => ?_, fun e he sign digital hku => ?_,
    fun e he hcri => ?_⟩
  · split at hpd
    · rename_i ca pathLen hbc
      exact ⟨pathLen, by rw [hbc, hpd]⟩
    · cases hpd
  · obtain ⟨spd, hsup, -⟩ := hex e he
    simp only [hbc, extensionSupported] at hsup
    split_ifs at hsup with hfor
    cases pathLen <;> simpa using hfor
  · obtain ⟨spd, hsup, -⟩ := hex e he
    simp only [hku, extensionSupported, isSome_some, if_true] at hsup
    split_ifs at hsup with hsi
    exact hsi
  · obtain ⟨spd, hsup, hcr⟩ := hex e he
    cases hpd : e.parsed <;> simp_all [extensionSupported]

lemma isLeaf_of_permitRole {c : X509Certificate}
    (hco : (leafProfile c.extensions).2) (h : fulcioExtensionsPermitRole c none) : c.IsLeaf := by
  obtain ⟨hun, -, hex⟩ := extensionsPermitRole_eq_true.mp h
  refine ⟨hun, fun e he ca pathLen hbc => ?_, fun e he sign digital hku => ?_,
    leafProfile_codeSigning hco, fun e he code heku => ?_, fun e he hcri => ?_⟩
  · obtain ⟨spd, hsup, -⟩ := hex e he
    simp only [hbc, extensionSupported] at hsup
    split_ifs at hsup with hfor
    simpa using hfor
  · obtain ⟨spd, hsup, -⟩ := hex e he
    exact (show digital = true ∧ spd = true by
      simpa [hku, extensionSupported] using hsup).1
  · obtain ⟨spd, hsup, -⟩ := hex e he
    exact (show code = true ∧ spd = true by
      simpa [heku, extensionSupported] using hsup).1
  · obtain ⟨spd, hsup, hcr⟩ := hex e he
    cases hpd : e.parsed <;> simp_all [extensionSupported]

def pemBegin (label : Text) : Text := "-----BEGIN " ++ label ++ "-----"

def pemEnd (label : Text) : Text := "-----END " ++ label ++ "-----"

/-- `i64::try_from` with the largest value as default. -/
def clampI64 (n : ℕ) : ℤ := if n < 2 ^ 63 then n else ((2 ^ 63 - 1 : ℕ) : ℤ)

namespace Primitives

variable {Key Sig : Type} (P : Primitives Key Sig)

def decodePemBody (pem label : Text) : Option Bytes :=
  P.base64Decode (((Text.strLines pem).map Text.trim).filter fun line =>
    line != pemBegin label && line != pemEnd label).flatten

def certificateOfPem (pem : Text) : Option X509Certificate :=
  (P.decodePemBody pem "CERTIFICATE").bind P.x509FromDer

/-- Whether `issuer` issued `certificate`, with the given number of issuers below it. -/
def issuedBy (certificate issuer : X509Certificate) (caBelow : ℕ) (time : ℤ) : Bool :=
  certificate.issuer == issuer.subject && certificateValidAt issuer time &&
    certificateIsCa issuer && fulcioExtensionsPermitRole issuer (some caBelow) &&
    P.verifyX509Signature issuer.publicKey certificate.tbsCertificate certificate.signatureValue
      certificate.signatureAlgorithm

/-- Whether one of the roots issued `certificate`. -/
def issuedByRoot (roots : List Text) (certificate : X509Certificate) (caBelow : ℕ) (time : ℤ) :
    Bool :=
  (roots.filterMap fun pem => P.decodePemBody pem "CERTIFICATE").any fun der =>
    (P.x509FromDer der).any fun root => P.issuedBy certificate root caBelow time

def chained (roots : List Text) (intermediatePem : Text) (leaf : X509Certificate) (time : ℤ) :
    Bool :=
  P.issuedByRoot roots leaf 0 time ||
    match (P.decodePemBody intermediatePem "CERTIFICATE").filter (!·.isEmpty) with
    | none => false
    | some der =>
      (P.x509FromDer der).any fun intermediate =>
        P.issuedBy leaf intermediate 0 time && P.issuedByRoot roots intermediate 1 time

/-- `verify_fulcio_chain`. -/
def verifyFulcioChain (leafDer : Bytes) (integratedTime : ℕ) (roots : List Text)
    (intermediatePem : Text) : Option Text :=
  match P.x509FromDer leafDer with
  | none => none
  | some leaf =>
    let time := clampI64 integratedTime
    let profile := leafProfile leaf.extensions
    if !fulcioExtensionsPermitRole leaf none then none
    else if !P.chained roots intermediatePem leaf time then none
    else if !certificateValidAt leaf time then none
    else if profile.1 || !profile.2 then none
    else fulcioSignerIdentity leaf

/-! ### What an accepted chain establishes -/

/-- `issuer` issued `c`: the names match, the issuer was valid and may issue, and the holder of its
key signed the certificate. -/
structure Issued (signed : Key → Bytes → Prop) (c issuer : X509Certificate) (caBelow : ℕ)
    (time : ℤ) : Prop where
  name : c.issuer = issuer.subject
  valid : issuer.notBefore ≤ time ∧ time ≤ issuer.notAfter
  role : issuer.IsIssuer caBelow
  signature : P.SpkiSigned signed issuer.publicKey c.tbsCertificate

/-- A certificate with the given number of issuers below its issuer chains link by link to an
anchor. -/
inductive ChainsTo (signed : Key → Bytes → Prop) (anchor : X509Certificate → Prop) (time : ℤ) :
    X509Certificate → ℕ → Prop
  | anchored {c root : X509Certificate} {caBelow : ℕ} (hroot : anchor root)
      (hissued : P.Issued signed c root caBelow time) : ChainsTo signed anchor time c caBelow
  | link {c issuer : X509Certificate} {caBelow : ℕ}
      (hissued : P.Issued signed c issuer caBelow time)
      (hchain : ChainsTo signed anchor time issuer (caBelow + 1)) :
      ChainsTo signed anchor time c caBelow

def IsRoot (roots : List Text) (root : X509Certificate) : Prop :=
  ∃ pem ∈ roots, P.certificateOfPem pem = some root

variable {P} {signed : Key → Bytes → Prop} {roots : List Text} {time : ℤ}

lemma Ideal.issued_of_issuedBy (hid : P.Ideal signed) {c issuer : X509Certificate}
    {caBelow : ℕ} (h : P.issuedBy c issuer caBelow time) :
    P.Issued signed c issuer caBelow time := by
  simp only [issuedBy, certificateValidAt, Bool.and_eq_true, beq_iff_eq, decide_eq_true_eq] at h
  obtain ⟨⟨⟨⟨hn, hv⟩, hca⟩, hro⟩, hsig⟩ := h
  exact ⟨hn, hv, isIssuer_of_permitRole hca hro, hid.spkiSigned_of_verifyX509Signature hsig⟩

lemma exists_root_of_issuedByRoot {c : X509Certificate} {caBelow : ℕ}
    (h : P.issuedByRoot roots c caBelow time) :
    ∃ root, P.IsRoot roots root ∧ P.issuedBy c root caBelow time := by
  obtain ⟨der, hder, hroot⟩ := any_eq_true.mp h
  obtain ⟨pem, hpem, hdc⟩ := mem_filterMap.mp hder
  obtain ⟨root, hpr, hissued⟩ := (any_eq_true _ _).mp hroot
  exact ⟨root, ⟨pem, hpem, by rw [certificateOfPem, hdc, bind_some, hpr]⟩, hissued⟩

lemma Ideal.chainsTo_of_chained (hid : P.Ideal signed) {intermediatePem : Text}
    {leaf : X509Certificate} (h : P.chained roots intermediatePem leaf time) :
    P.ChainsTo signed (P.IsRoot roots) time leaf 0 := by
  rcases Bool.or_eq_true_iff.mp h with hdir | hint
  · obtain ⟨root, hroot, hissued⟩ := exists_root_of_issuedByRoot hdir
    exact .anchored hroot (hid.issued_of_issuedBy hissued)
  · split at hint
    · cases hint
    · obtain ⟨intermediate, -, hbo⟩ := (any_eq_true _ _).mp hint
      obtain ⟨hle, hint⟩ := Bool.and_eq_true_iff.mp hbo
      obtain ⟨root, hroot, hissued⟩ := exists_root_of_issuedByRoot hint
      exact .link (hid.issued_of_issuedBy hle) (.anchored hroot (hid.issued_of_issuedBy hissued))

/-- **An accepted leaf.** The leaf has the profile of a leaf, was valid at the recorded time, chains
to an embedded certificate, and names the identity that is returned. -/
lemma Ideal.leaf_of_verifyFulcioChain (hid : P.Ideal signed) {leafDer : Bytes}
    {itm : ℕ} {intermediatePem idt : Text}
    (h : P.verifyFulcioChain leafDer itm roots intermediatePem = some idt) :
    ∃ leaf, P.x509FromDer leafDer = some leaf ∧ leaf.IsLeaf ∧
      (leaf.notBefore ≤ clampI64 itm ∧ clampI64 itm ≤ leaf.notAfter) ∧
      P.ChainsTo signed (P.IsRoot roots) (clampI64 itm) leaf 0 ∧
      fulcioSignerIdentity leaf = some idt := by
  unfold verifyFulcioChain at h
  split at h
  · cases h
  · rename_i leaf hle
    simp only [Bool.not_eq_true', Bool.or_eq_true] at h
    split_ifs at h with hro hcha hv hpro
    simp only [not_or, Bool.not_eq_false] at hro hcha hv hpro
    refine ⟨leaf, hle, isLeaf_of_permitRole hpro.2 hro, ?_, hid.chainsTo_of_chained hcha, h⟩
    simpa [certificateValidAt] using hv

end Primitives

end Omg.Security
