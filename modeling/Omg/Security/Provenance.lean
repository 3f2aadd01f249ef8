import Omg.Security.Fulcio
import Omg.Security.Rekor

/-!
# Provenance of artifacts

The verifier asks a transparency log for entries about the SHA-256 digest of an artifact and reports
the artifact as verified when one entry passes all checks: its signed timestamp, its body, the
certificate in the body, the signature over the artifact, and the identity that the caller requires.
The responses of the log server are arbitrary.

Source: `src/core/security/slsa.rs`.
-/

namespace Omg.Security

open List Text Option Except

open Control (bind_eq_ok)

/-- `SlsaError`. -/
inductive SlsaError
  | identityRequired
  | rekor (error : RekorError)
  | rekorRequest
  | rekorIndexJson
  | rekorEntryRequest
  | rekorEntryJson
  | rekorBodyDecode
  | rekorBodyJson
  | rekorBodyMissingField (field : Text)
  | signatureMalformed
  | read
  | provenanceParse
deriving DecidableEq

inductive SlsaLevel
  | none
  | level1
  | level2
  | level3
deriving DecidableEq

structure VerificationResult where
  verified : Bool
  slsaLevel : SlsaLevel
  transparencyLogEntry : Option Text
  builderId : Option Text
  buildTimestamp : Option Text
  error : Option Text
deriving DecidableEq

inductive SlsaEvidence
  | none
  | unsignedLocalJson
  | rekorIndexHit

def slsaUnverified (error : Text) : VerificationResult :=
  ⟨false, .none, none, none, none, some error⟩

def classifySlsaEvidence : SlsaEvidence → VerificationResult
  | .none => slsaUnverified "No verified SLSA provenance"
  | .unsignedLocalJson =>
    slsaUnverified "Local provenance JSON is not a verified attestation"
  | .rekorIndexHit =>
    slsaUnverified "Rekor log index hit is not in-toto/SLSA verification"

def PinnedKeys.fulcioRoots (K : PinnedKeys) : List Text :=
  [K.fulcioRootPem, K.fulcioIntermediatePem]

/-! ### The log server -/

inductive Response (α : Type)
  | failed
  | received (status : ℕ) (json : Option α)

/-- A log server: its response to the query for a digest, and to each later request for an entry. -/
structure LogServer where
  index : Text → Response (List Text)
  entry : ℕ → Text → Response (List (Text × Json))

def rekorHttpMustSucceed (status : ℕ) : Except RekorError Unit :=
  if 200 ≤ status ∧ status < 300 then .ok () else .error (.httpFailed status)

def receive {α : Type} (requestError jsonError : SlsaError) : Response α → Except SlsaError α
  | .failed => .error requestError
  | .received status json =>
    match rekorHttpMustSucceed status, json with
    | .error e, _ => .error (.rekor e)
    | .ok (), none => .error jsonError
    | .ok (), some value => .ok value

/-- A string of an entry body along a path of keys; `field` is its name in the error. -/
def bodyStr (spec : Json) (path : List Text) (field : Text) : Except SlsaError Text :=
  match (spec.pointer path).bind Json.asStr with
  | none => .error (.rekorBodyMissingField field)
  | some s => .ok s

namespace Primitives

variable {Key Sig : Type} (P : Primitives Key Sig) (K : PinnedKeys)

def getRekorEntry (server : LogServer) (request : ℕ) (uuid : Text) :
    Except SlsaError RekorEntry := do
  let entryMap ← receive .rekorEntryRequest .rekorEntryJson (server.entry request uuid)
  match P.parseRekorEntry K uuid entryMap with
  | .error e => .error (.rekor e)
  | .ok entry => .ok entry

def getRekorEntries (server : LogServer) : ℕ → List Text → Except SlsaError (List RekorEntry)
  | _, [] => .ok []
  | request, uuid :: uuids => do
    let entry ← P.getRekorEntry K server request uuid
    let entries ← getRekorEntries server (request + 1) uuids
    return entry :: entries

def queryRekor (server : LogServer) (artifactHash : Text) : Except SlsaError (List RekorEntry) := do
  let uuids ← receive .rekorRequest .rekorIndexJson
    (server.index ("sha256:" ++ artifactHash))
  P.getRekorEntries K server 0 (uuids.take 5)

/-! ### Verifying an entry -/

/-- `<[u8; 32]>::from_hex`. -/
def digestFromHex (s : Text) : Option Bytes := (hexDecode s).filter fun digest => digest.length = 32

/-- `SlsaVerifier::verify_digest_with_bytes`. -/
def verifyDigestWithBytes (spki : Bytes) (artifactHash : Text) (artifactBytes signature : Bytes) :
    Bool :=
  match digestFromHex artifactHash with
  | none => false
  | some digest =>
    if !eqIgnoreAsciiCase (hexEncode (P.sha256 artifactBytes)) artifactHash then false
    else match P.rsa.decodeKey spki with
      | some key =>
        match P.rsa.decodeSignature signature with
        | none => false
        | some sig => P.rsa.verifyPrehash key digest sig
      | none => P.p256.check P.sha256 spki artifactBytes signature

def decodeBody (s : Text) : Except SlsaError Bytes :=
  match P.base64Decode (trim s) with
  | none => .error .rekorBodyDecode
  | some bytes => .ok bytes

def decodePem (pem label : Text) : Except SlsaError Bytes :=
  match P.decodePemBody pem label with
  | none => .error .rekorBodyDecode
  | some bytes => .ok bytes

/-- The certificate path: the signer is named by a chained leaf, whose key must verify the
signature over the artifact. -/
def verifyCertified (entry : RekorEntry) (artifactHash : Text) (artifactBytes : Bytes)
    (roots : List Text) (intermediate pem : Text) (signature : Bytes) :
    Except SlsaError (Bool × Option Text) := do
  let der ← P.decodePem pem "CERTIFICATE"
  match P.verifyFulcioChain der entry.integratedTime roots intermediate with
  | none => .ok (false, none)
  | some signer =>
    match P.x509FromDer der with
    | none => .error .signatureMalformed
    | some cert =>
      .ok (P.verifyDigestWithBytes cert.publicKey artifactHash artifactBytes signature, some signer)

def verifySpec (entry : RekorEntry) (spec : Json) (artifactHash : Text) (artifactBytes : Bytes)
    (roots : List Text) (intermediate : Text) : Except SlsaError (Bool × Option Text) := do
  let recordedHash ← bodyStr spec ["data", "hash", "value"]
    "spec.data.hash.value"
  if !eqIgnoreAsciiCase recordedHash artifactHash then .ok (false, none)
  else do
    let signatureB64 ← bodyStr spec ["signature", "content"]
      "spec.signature.content"
    let pemB64 ← bodyStr spec ["signature", "publicKey", "content"]
      "spec.signature.publicKey.content"
    let signature ← P.decodeBody signatureB64
    let pemBytes ← P.decodeBody pemB64
    let pem := trim (P.fromUtf8Lossy pemBytes)
    if containsText pem "BEGIN CERTIFICATE" then
      P.verifyCertified entry artifactHash artifactBytes roots intermediate pem signature
    else do
      -- A plain public key proves nothing about the signer and is never reported as verified.
      let _ ← P.decodePem pem "PUBLIC KEY"
      return (false, none)

def verifyRekorEntry (entry : RekorEntry) (artifactHash : Text) (artifactBytes : Bytes)
    (roots : List Text) (intermediate : Text) : Except SlsaError (Bool × Option Text) := do
  let bodyJson ← P.decodeBody entry.body
  match P.jsonFromSlice bodyJson with
  | none => .error .rekorBodyJson
  | some body =>
    if (body.get "kind").bind Json.asStr ≠ some "hashedrekord" then .ok (false, none)
    else match body.get "spec" with
      | none => .error (.rekorBodyMissingField "spec")
      | some spec => P.verifySpec entry spec artifactHash artifactBytes roots intermediate

def findVerified (artifactHash : Text) (artifactBytes : Bytes) (required : Option Text) :
    List RekorEntry → Option (RekorEntry × Option Text)
  | [] => none
  | entry :: entries =>
    match P.verifyRekorEntry entry artifactHash artifactBytes K.fulcioRoots K.fulcioIntermediatePem
      with
    | .error _ => findVerified artifactHash artifactBytes required entries
    | .ok (verified, signer) =>
      if verified && required.isSome && signer != required then
        findVerified artifactHash artifactBytes required entries
      else if verified then some (entry, signer)
      else findVerified artifactHash artifactBytes required entries

end Primitives

inductive ProvenanceFile
  | absent
  | unreadable
  | content (text : Text)

def localEvidence (parses : Text → Bool) : ProvenanceFile → Except SlsaError VerificationResult
  | .absent => .ok (classifySlsaEvidence .none)
  | .unreadable => .error .read
  | .content text =>
    if parses text then .ok (classifySlsaEvidence .unsignedLocalJson) else .error .provenanceParse

namespace Primitives

variable {Key Sig : Type} (P : Primitives Key Sig) (K : PinnedKeys)

/-- Verify the provenance of an artifact, whose bytes are `none` if it cannot be read. -/
def verifyProvenance (server : LogServer) (parses : Text → Bool) (blob : Option Bytes)
    (provenance : ProvenanceFile) (required : Option Text) : Except SlsaError VerificationResult :=
  if required.all fun identity => (trim identity).isEmpty then .error .identityRequired
  else match blob with
    | none => .error .read
    | some artifactBytes =>
      let artifactHash := hexEncode (P.sha256 artifactBytes)
      match P.queryRekor K server artifactHash with
      | .error e => .error e
      | .ok entries =>
        match P.findVerified K artifactHash artifactBytes required entries with
        | some (entry, signer) => .ok ⟨true, .none, some entry.uuid, signer, none, none⟩
        | none =>
          match entries.head? with
          | some entry =>
            .ok { classifySlsaEvidence .rekorIndexHit with transparencyLogEntry := some entry.uuid }
          | none => localEvidence parses provenance

/-! ### What a verified artifact rests on -/

structure Attested (signed : Key → Bytes → Prop) (artifact : Bytes) (identity : Text)
    (entry : RekorEntry) (logId : Text) (body : Json) (leaf : X509Certificate) : Prop where
  set : P.SetSigned K signed entry logId
  body_eq : (P.base64Decode entry.body).bind P.jsonFromSlice = some body
  kind : (body.get "kind").bind Json.asStr = some "hashedrekord"
  hash : ∃ recorded, (body.pointer ["spec", "data", "hash",
    "value"]).bind Json.asStr = some recorded ∧
      hexDecode recorded = some (P.sha256 artifact)
  leaf_eq : ∃ content pemBytes, (body.pointer ["spec", "signature",
    "publicKey", "content"]).bind Json.asStr = some content ∧
      P.base64Decode (trim content) = some pemBytes ∧
      P.certificateOfPem (trim (P.fromUtf8Lossy pemBytes)) = some leaf
  role : leaf.IsLeaf
  valid : leaf.notBefore ≤ entry.integratedTime ∧ (entry.integratedTime : ℤ) ≤ leaf.notAfter
  chain : P.ChainsTo signed (P.IsRoot K.fulcioRoots) entry.integratedTime leaf 0
  identity_eq : fulcioSignerIdentity leaf = some identity
  artifact_signed : P.SpkiSigned signed leaf.publicKey artifact

variable {P K} {signed : Key → Bytes → Prop} {artifact : Bytes} {entry : RekorEntry}
  {signer : Option Text}

lemma Ideal.setSigned_of_getRekorEntries (hid : P.Ideal signed) {server : LogServer} :
    ∀ {req : ℕ} {uus : List Text} {es : List RekorEntry},
    P.getRekorEntries K server req uus = .ok es →
    ∀ entry ∈ es, ∃ lid, P.SetSigned K signed entry lid
  | _, [], es, h => by
    obtain rfl := ok.inj h
    simp
  | req, uuid :: uus, es, h => by
    rw [getRekorEntries] at h
    obtain ⟨entry, he, h⟩ := bind_eq_ok.mp h
    obtain ⟨es', hes', h⟩ := bind_eq_ok.mp h
    obtain rfl := ok.inj h
    refine forall_mem_cons.mpr ⟨?_, setSigned_of_getRekorEntries hid hes'⟩
    obtain ⟨entryMap, -, hpr⟩ := bind_eq_ok.mp he
    split at hpr
    · cases hpr
    · rename_i hpd
      obtain rfl := ok.inj hpr
      exact (hid.setSigned_of_parseRekorEntry hpd).2

lemma Ideal.setSigned_of_queryRekor (hid : P.Ideal signed) {server : LogServer} {hash : Text}
    {es : List RekorEntry} (h : P.queryRekor K server hash = .ok es) :
    ∀ entry ∈ es, ∃ lid, P.SetSigned K signed entry lid := by
  obtain ⟨uus, -, h⟩ := bind_eq_ok.mp h
  exact hid.setSigned_of_getRekorEntries h

lemma Ideal.spkiSigned_of_verifyDigestWithBytes (hid : P.Ideal signed) {spki signature : Bytes}
    (h : P.verifyDigestWithBytes spki (hexEncode (P.sha256 artifact)) artifact signature =
      true) : P.SpkiSigned signed spki artifact := by
  unfold verifyDigestWithBytes at h
  split at h
  · cases h
  · rename_i digest hdg
    have hsha : P.sha256 artifact = digest := by
      rw [digestFromHex, hexDecode_hexEncode] at hdg
      exact (filter_eq_some_iff.mp hdg).1 |> some.inj
    split_ifs at h
    split at h
    · rename_i key hkey
      split at h
      · cases h
      · rw [← hsha] at h
        exact ⟨key, .inl hkey, hid.rsa key artifact _ h⟩
    · obtain ⟨key, hkey, hsgn⟩ := hid.p256.of_check h
      exact ⟨key, .inr (.inl hkey), hsgn⟩

lemma isWhitespace_of_isBase64Char {c : Char} (h : isBase64Char c) : isWhitespace c = false := by
  have hran : 33 ≤ c.toNat ∧ c.toNat ≤ 122 := by
    simp only [isBase64Char, Bool.or_eq_true, beq_iff_eq] at h
    rcases h with ((haln | rfl) | rfl) | rfl
    · have := toNat_of_isAlphanum haln
      omega
    all_goals decide
  simp only [isWhitespace, Bool.or_eq_false_iff, Bool.and_eq_false_iff, decide_eq_false_iff_not,
    beq_eq_false_iff_ne]
  omega

lemma clampI64_of_le {n : ℕ} (h : n ≤ maxSafeInteger) : clampI64 n = n := by
  have hlt : n < 2 ^ 63 := lt_of_le_of_lt h (by decide)
  exact if_pos hlt

lemma decodeBody_eq_ok {s : Text} {bs : Bytes} (h : P.decodeBody s = .ok bs) :
    P.base64Decode (trim s) = some bs := by
  unfold decodeBody at h
  split at h
  · cases h
  · rename_i bytes' hby
    rw [hby, ok.inj h]

lemma decodePem_eq_ok {pem label : Text} {bs : Bytes} (h : P.decodePem pem label = .ok bs) :
    P.decodePemBody pem label = some bs := by
  unfold decodePem at h
  split at h
  · cases h
  · rename_i bytes' hby
    rw [hby, ok.inj h]

lemma bodyStr_eq_ok {spec : Json} {path : List Text} {fd s : Text}
    (h : bodyStr spec path fd = .ok s) : (spec.pointer path).bind Json.asStr = some s := by
  unfold bodyStr at h
  split at h
  · cases h
  · rename_i s' hs
    rw [hs, ok.inj h]

lemma Ideal.leaf_of_verifyCertified (hid : P.Ideal signed) {signature : Bytes}
    {rts : List Text} {intermediate pem : Text} (hti : entry.integratedTime ≤ maxSafeInteger)
    (h : P.verifyCertified entry (hexEncode (P.sha256 artifact)) artifact rts intermediate
      pem signature = .ok (true, signer)) :
    ∃ idt leaf, signer = some idt ∧ P.certificateOfPem pem = some leaf ∧ leaf.IsLeaf ∧
      (leaf.notBefore ≤ entry.integratedTime ∧ (entry.integratedTime : ℤ) ≤ leaf.notAfter) ∧
      P.ChainsTo signed (P.IsRoot rts) entry.integratedTime leaf 0 ∧
      fulcioSignerIdentity leaf = some idt ∧ P.SpkiSigned signed leaf.publicKey artifact := by
  obtain ⟨der, hder, h⟩ := bind_eq_ok.mp h
  split at h
  · cases h
  · rename_i idt hch
    obtain ⟨leaf, hle, hro, hv, hcha, hidn⟩ := hid.leaf_of_verifyFulcioChain hch
    rw [clampI64_of_le hti] at hv hcha
    rw [hle] at h
    obtain ⟨hvd, rfl⟩ := Prod.mk.inj (ok.inj h)
    refine ⟨idt, leaf, rfl, ?_, hro, hv, hcha, hidn, hid.spkiSigned_of_verifyDigestWithBytes hvd⟩
    rw [certificateOfPem, decodePem_eq_ok hder, bind_some, hle]

lemma Ideal.attested_of_verifyRekorEntry (hid : P.Ideal signed) {lid : Text}
    (hset : P.SetSigned K signed entry lid)
    (h : P.verifyRekorEntry entry (hexEncode (P.sha256 artifact)) artifact K.fulcioRoots
      K.fulcioIntermediatePem = .ok (true, signer)) : ∃ idt body leaf, signer = some idt ∧
      P.Attested K signed artifact idt entry lid body leaf := by
  obtain ⟨-, pl, -, hpl, -⟩ := id hset
  obtain ⟨-, hti, -, hb, -⟩ := canonicalSetPayload_eq_some.mp hpl
  have htr : trim entry.body = entry.body := trim_eq_self fun c hc =>
    isWhitespace_of_isBase64Char (all_eq_true.mp hb c hc)
  obtain ⟨bs, hby, h⟩ := bind_eq_ok.mp h
  replace hby := decodeBody_eq_ok hby
  rw [htr] at hby
  split at h
  · cases h
  · rename_i body hjs
    split_ifs at h with hki
    · cases h
    split at h
    · cases h
    · rename_i spec hsp
      obtain ⟨recorded, hrec, h⟩ := bind_eq_ok.mp h
      split_ifs at h with hmis
      · cases h
      · obtain ⟨signatureB64, -, h⟩ := bind_eq_ok.mp h
        obtain ⟨pemB64, hpem, h⟩ := bind_eq_ok.mp h
        obtain ⟨signature, -, h⟩ := bind_eq_ok.mp h
        obtain ⟨pemBytes, hpemBytes, h⟩ := bind_eq_ok.mp h
        dsimp only at h
        split_ifs at h with hcer
        · obtain ⟨idt, leaf, rfl, hle, hro, hv, hch, hidn, hsgn⟩ :=
            hid.leaf_of_verifyCertified hti h
          refine ⟨idt, body, leaf, rfl, hset, ?_, not_not.mp hki, ⟨recorded, ?_, ?_⟩,
            ⟨pemB64, pemBytes, ?_, decodeBody_eq_ok hpemBytes, hle⟩, hro, hv, hch,
            hidn, hsgn⟩
          · rw [hby, bind_some, hjs]
          · rw [Json.pointer, hsp]
            exact bodyStr_eq_ok hrec
          · exact hexDecode_of_eqIgnoreAsciiCase (by simpa using hmis)
          · rw [Json.pointer, hsp]
            exact bodyStr_eq_ok hpem
        · obtain ⟨-, -, h⟩ := bind_eq_ok.mp h
          cases h

lemma findVerified_eq_some {artifactHash : Text} {rqr : Option Text} {es : List RekorEntry}
    (h : P.findVerified K artifactHash artifact rqr es = some (entry, signer)) :
    entry ∈ es ∧ (rqr.isSome → signer = rqr) ∧
      P.verifyRekorEntry entry artifactHash artifact K.fulcioRoots K.fulcioIntermediatePem =
        .ok (true, signer) := by
  induction es with
  | nil => cases h
  | cons first es ih =>
    unfold findVerified at h
    split at h
    · obtain ⟨hmem, hr⟩ := ih h
      exact ⟨mem_cons_of_mem _ hmem, hr⟩
    · rename_i verified signer' hvf
      split_ifs at h with hot hvd
      · obtain ⟨hmem, hr⟩ := ih h
        exact ⟨mem_cons_of_mem _ hmem, hr⟩
      · obtain ⟨rfl, rfl⟩ := Prod.mk.inj (some.inj h)
        subst hvd
        refine ⟨mem_cons_self, fun hreq => ?_, hvf⟩
        simpa [hreq] using hot
      · obtain ⟨hmem, hr⟩ := ih h
        exact ⟨mem_cons_of_mem _ hmem, hr⟩

/-- **Verified provenance.** If signatures are ideal, then for every artifact, every required
identity and all responses of the log server: an artifact that is reported as verified is attested
by one log entry for the required identity. Nothing depends on which keys are pinned. -/
theorem attested_of_verifyProvenance (P : Primitives Key Sig) (K : PinnedKeys)
    (signed : Key → Bytes → Prop)
    (hideal : P.Ideal signed) (server : LogServer) (parses : Text → Bool) (blob : Option Bytes)
    (provenance : ProvenanceFile) (required : Option Text) (result : VerificationResult)
    (h : P.verifyProvenance K server parses blob provenance required = .ok result)
    (hverified : result.verified = true) :
    ∃ artifact identity entry logId body leaf, blob = some artifact ∧ required = some identity ∧
      result.transparencyLogEntry = some entry.uuid ∧
      P.Attested K signed artifact identity entry logId body leaf := by
  unfold verifyProvenance at h
  split_ifs at h with hbl
  have hreq : required.isSome = true := by
    cases required with
    | none => simp at hbl
    | some identity => rfl
  split at h
  · cases h
  · rename_i artifact
    dsimp only at h
    split at h
    · cases h
    · rename_i entries hq
      split at h
      · rename_i entry signer hfo
        obtain rfl := ok.inj h
        obtain ⟨hmem, hsig, hvf⟩ := findVerified_eq_some hfo
        obtain ⟨logId, hset⟩ := hideal.setSigned_of_queryRekor hq entry hmem
        obtain ⟨identity, body, leaf, rfl, hatt⟩ := hideal.attested_of_verifyRekorEntry hset hvf
        exact ⟨artifact, identity, entry, logId, body, leaf, rfl, (hsig hreq).symm, rfl, hatt⟩
      · -- Without such an entry nothing is reported as verified.
        split at h
        · obtain rfl := ok.inj h
          cases hverified
        · unfold localEvidence at h
          split at h
          · obtain rfl := ok.inj h
            cases hverified
          · cases h
          · split_ifs at h
            obtain rfl := ok.inj h
            cases hverified

/-! ### A verified artifact -/

/-- Primitives in which every signature verifies and there are two certificates, a leaf for
`dev@example.org` and an authority. -/
def plainPrimitives : Primitives Bytes Bytes where
  sha256 _ := List.replicate 32 7
  sha384 _ := List.replicate 48 7
  rsa := ⟨some, some, fun _ _ _ => true⟩
  p256 := ⟨some, some, fun _ _ _ => true⟩
  p384 := ⟨some, some, fun _ _ _ => true⟩
  p256KeyFromPem _ := some [0]
  base64Decode s := some (if s = "leaf" then [1] else [2])
  fromUtf8Lossy _ := "-----BEGIN CERTIFICATE-----\nleaf"
  jsonFromSlice _ := some (.object [("kind", .string "hashedrekord"), ("spec", .object [
      ("data", .object [("hash", .object [
        ("value", .string (hexEncode (List.replicate 32 7)))])]),
      ("signature", .object [("content", .string "s"), ("publicKey", .object [
          ("content", .string "pem")])])])])
  x509FromDer der :=
    if der = [1] then
      some ⟨[1], [2], [3], [4], [5], "1.2.840.10045.4.3.2", 0, 100,
        [⟨"2.5.29.37", false, .extendedKeyUsage true⟩, ⟨"2.5.29.17", true, .subjectAlternativeName
            [.uri "https://example.org", .rfc822Name "dev@example.org"]⟩]⟩
    else
      some ⟨[1], [1], [6], [7], [8], "1.2.840.10045.4.3.3", 0, 100,
        [⟨"2.5.29.19", true, .basicConstraints true (some 1)⟩]⟩

def plainKeys : PinnedKeys := ⟨"log", "root", "intermediate"⟩

def plainServer : LogServer where
  index _ := .received 200 (some ["e"])
  entry _ uuid := .received 200 (some [(uuid, .object [("logIndex", .number (some 1)),
    ("integratedTime", .number (some 50)), ("body", .string "Ym9keQ=="),
    ("logID", .string "c0"), ("verification", .object [
      ("signedEntryTimestamp", .string "set")])])])

theorem attested_of_verifyProvenance_plain :
    ∃ artifact identity entry logId body leaf, some [1, 2] = some artifact ∧
      some "dev@example.org".toList = some identity ∧ some "e".toList = some entry.uuid ∧
      plainPrimitives.Attested plainKeys (fun _ _ => True)
        artifact identity entry logId body leaf :=
  attested_of_verifyProvenance plainPrimitives plainKeys (fun _ _ => True)
    ⟨fun _ _ _ _ => trivial, fun _ _ _ _ => trivial, fun _ _ _ _ => trivial⟩ plainServer
    (fun _ => false) (some [1, 2]) .absent (some "dev@example.org")
    ⟨true, .none, some "e", some "dev@example.org", none, none⟩
    (by decide +kernel) rfl

/-! ### Entries of others -/

section

variable {P : Primitives Key Sig} {K : PinnedKeys} {server : LogServer}

lemma exists_getRekorEntries {req : ℕ} {uus : List Text} :
    (∃ es, P.getRekorEntries K server req uus = .ok es) ↔ ∀ i uuid, uus[i]? = some uuid →
        ∃ entry, P.getRekorEntry K server (req + i) uuid = .ok entry := by
  induction uus generalizing req with
  | nil => simp [getRekorEntries]
  | cons first uus ih =>
    simp only [getRekorEntries, bind_eq_ok]
    constructor
    · rintro ⟨es, entry, he, rest, hr, -⟩ i uuid huu
      cases i with
      | zero =>
        obtain rfl := some.inj huu
        exact ⟨entry, he⟩
      | succ i =>
        rw [show req + (i + 1) = req + 1 + i by omega]
        exact ih.mp ⟨rest, hr⟩ i uuid huu
    · intro h
      obtain ⟨entry, he⟩ := h 0 first rfl
      obtain ⟨rest, hr⟩ := (@ih (req + 1)).mpr fun i uuid huu => by
        rw [Nat.add_right_comm]
        exact h (i + 1) uuid huu
      exact ⟨entry :: rest, entry, he, rest, hr, rfl⟩

lemma mem_of_getRekorEntries {req i : ℕ} {uus : List Text} {uuid : Text} {entry : RekorEntry}
    {es : List RekorEntry} (h : P.getRekorEntries K server req uus = .ok es)
    (huu : uus[i]? = some uuid)
    (he : P.getRekorEntry K server (req + i) uuid = .ok entry) : entry ∈ es := by
  induction uus generalizing req i es with
  | nil => cases huu
  | cons first uus ih =>
    simp only [getRekorEntries, bind_eq_ok] at h
    obtain ⟨e', he', rest, hr, h⟩ := h
    obtain rfl := ok.inj h
    cases i with
    | zero =>
      obtain rfl := some.inj huu
      obtain rfl := ok.inj (he'.symm.trans he)
      exact mem_cons_self
    | succ i =>
      rw [show req + (i + 1) = req + 1 + i by omega] at he
      exact mem_cons_of_mem _ (ih hr huu he)

lemma exists_findVerified {artifactHash idt : Text} {artifact : Bytes} {entry : RekorEntry}
    {es : List RekorEntry} (hmem : entry ∈ es)
    (hvf : P.verifyRekorEntry entry artifactHash artifact K.fulcioRoots K.fulcioIntermediatePem =
      .ok (true, some idt)) :
    ∃ fd, P.findVerified K artifactHash artifact (some idt) es = some fd := by
  induction es with
  | nil => cases hmem
  | cons first es ih =>
    unfold findVerified
    rcases mem_cons.mp hmem with rfl | hmem
    · rw [hvf]
      exact ⟨(entry, some idt), by simp⟩
    · split
      · exact ih hmem
      · split_ifs
        · exact ih hmem
        · exact ⟨_, rfl⟩
        · exact ih hmem

variable (P K server)

/-- One of the first five entries of an index is well formed, has a valid timestamp, and verifies
for an artifact and an identity. -/
def HasProof (uuids : List Text) (artifact : Bytes) (identity : Text) : Prop :=
  ∃ i uuid entry, (uuids.take 5)[i]? = some uuid ∧ P.getRekorEntry K server i uuid = .ok entry ∧
    P.verifyRekorEntry entry (hexEncode (P.sha256 artifact)) artifact K.fulcioRoots
      K.fulcioIntermediatePem = .ok (true, some identity)

/-- **Foreign entries count.** If one of the first five entries proves the provenance of an
artifact, the artifact is reported as verified exactly if all of the first five entries can be
fetched and are well formed, with valid timestamps. What they say does not matter. -/
theorem verifyProvenance_verified_iff (parses : Text → Bool) (artifact : Bytes)
    (provenance : ProvenanceFile) (identity : Text) (uuids : List Text)
    (hidentity : Text.trim identity ≠ [])
    (hindex : receive .rekorRequest .rekorIndexJson
      (server.index ("sha256:".toList ++ Text.hexEncode (P.sha256 artifact))) = .ok uuids)
    (hproof : P.HasProof K server uuids artifact identity) :
    (∃ result, P.verifyProvenance K server parses (some artifact) provenance (some identity) =
        .ok result ∧ result.verified = true) ↔
      ∀ i uuid, (uuids.take 5)[i]? = some uuid →
        ∃ entry, P.getRekorEntry K server i uuid = .ok entry := by
  have hq : P.queryRekor K server (hexEncode (P.sha256 artifact)) =
      P.getRekorEntries K server 0 (uuids.take 5) := by
    rw [queryRekor, hindex]
    rfl
  have hfet : (∃ es, P.getRekorEntries K server 0 (uuids.take 5) = .ok es) ↔
      ∀ i uuid, (uuids.take 5)[i]? = some uuid →
        ∃ entry, P.getRekorEntry K server i uuid = .ok entry := by
    rw [exists_getRekorEntries]
    simp only [Nat.zero_add]
  have hbl : (some identity).all (fun s => (trim s).isEmpty) = false := by simpa using hidentity
  rw [← hfet, verifyProvenance, hbl]
  simp only [Bool.false_eq_true, if_false, hq]
  constructor
  · rintro ⟨result, hres, -⟩
    split at hres
    · cases hres
    · exact ⟨_, ‹_›⟩
  · rintro ⟨es, hes⟩
    obtain ⟨i, uuid, entry, huu, he, hvf⟩ := hproof
    rw [← Nat.zero_add i] at he
    obtain ⟨fd, hfo⟩ := exists_findVerified (mem_of_getRekorEntries hes huu he) hvf
    rw [hes]
    dsimp only
    rw [hfo]
    exact ⟨_, rfl, rfl⟩

end

/-- A server that lists the entry of `plainServer` behind one that it does not have. -/
def brokenServer : LogServer where
  index _ := .received 200 (some ["x", "e"])
  entry request uuid :=
    if uuid = "x" then .received 404 none else plainServer.entry request uuid

theorem verifyProvenance_verified_plain :
    ∃ result, plainPrimitives.verifyProvenance plainKeys plainServer (fun _ => false) (some [1, 2])
      .absent (some "dev@example.org".toList) = .ok result ∧ result.verified = true := by
  refine (verifyProvenance_verified_iff plainPrimitives plainKeys plainServer
    (fun _ => false) [1, 2]
    .absent "dev@example.org" ["e"] (by decide) (by decide +kernel)
    ⟨0, "e", ⟨"e", 1, 50, "Ym9keQ=="⟩, rfl, by decide +kernel,
      by decide +kernel⟩).mpr ?_
  rintro (_ | i) uuid huu
  · obtain rfl := some.inj huu
    exact ⟨⟨"e", 1, 50, "Ym9keQ=="⟩, by decide +kernel⟩
  · cases huu

/-- An entry that the server does not have hides the one that proves the provenance. -/
theorem verifyProvenance_hidden :
    plainPrimitives.HasProof plainKeys brokenServer ["x".toList, "e".toList] [1, 2]
      "dev@example.org".toList ∧
    plainPrimitives.verifyProvenance plainKeys brokenServer (fun _ => false) (some [1, 2]) .absent
      (some "dev@example.org".toList) = .error (.rekor (.httpFailed 404)) :=
  ⟨⟨1, "e", ⟨"e", 1, 50, "Ym9keQ=="⟩, rfl, by decide +kernel,
    by decide +kernel⟩, by decide +kernel⟩

end Primitives

end Omg.Security
