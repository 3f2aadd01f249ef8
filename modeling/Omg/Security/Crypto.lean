import Omg.Text.Basic

/-!
# The primitives of signature verification

Hashes, signature schemes and decoders that the verifier takes from other crates are parameters. A
signature scheme is ideal if a signature verifies only when the holder of the key signed exactly
that message.

Source: `src/core/security/slsa.rs`.
-/

namespace Omg.Security

/-- A signature scheme: public keys from SPKI DER, signatures from bytes, and verification of a
signature over a digest. -/
structure SignatureScheme (Key Sig : Type) where
  decodeKey : Bytes → Option Key
  decodeSignature : Bytes → Option Sig
  verifyPrehash : Key → Bytes → Sig → Bool

inductive GeneralName
  | rfc822Name (email : Text)
  | uri (uri : Text)
  | other
deriving DecidableEq

inductive ParsedExtension
  | basicConstraints (ca : Bool) (pathLenConstraint : Option ℕ)
  | keyUsage (keyCertSign digitalSignature : Bool)
  | extendedKeyUsage (codeSigning : Bool)
  | subjectAlternativeName (names : List GeneralName)
  | parseError
  | unparsed
  | other
deriving DecidableEq

structure Extension where
  oid : Text
  critical : Bool
  parsed : ParsedExtension
deriving DecidableEq

/-- The parts of an X.509 certificate that the verifier reads. The key is the raw SPKI, and the
times are seconds since the epoch. -/
structure X509Certificate where
  issuer : Bytes
  subject : Bytes
  publicKey : Bytes
  tbsCertificate : Bytes
  signatureValue : Bytes
  signatureAlgorithm : Text
  notBefore : ℤ
  notAfter : ℤ
  extensions : List Extension
deriving DecidableEq

structure Primitives (Key Sig : Type) where
  sha256 : Bytes → Bytes
  sha384 : Bytes → Bytes
  rsa : SignatureScheme Key Sig
  p256 : SignatureScheme Key Sig
  p384 : SignatureScheme Key Sig
  p256KeyFromPem : Text → Option Key
  base64Decode : Text → Option Bytes
  fromUtf8Lossy : Bytes → Text
  jsonFromSlice : Bytes → Option Json
  x509FromDer : Bytes → Option X509Certificate

structure PinnedKeys where
  rekorPublicKeyPem : Text
  fulcioRootPem : Text
  fulcioIntermediatePem : Text

variable {Key Sig : Type}

/-- A scheme in which a signature over the digest of a message verifies only if the holder of the
key signed that message. -/
def SignatureScheme.Ideal (S : SignatureScheme Key Sig) (hash : Bytes → Bytes)
    (signed : Key → Bytes → Prop) : Prop :=
  ∀ key message sig, S.verifyPrehash key (hash message) sig = true → signed key message

def SignatureScheme.check (S : SignatureScheme Key Sig) (hash : Bytes → Bytes)
    (spki message signature : Bytes) : Bool :=
  match S.decodeKey spki with
  | none => false
  | some key =>
    match S.decodeSignature signature with
    | none => false
    | some sig => S.verifyPrehash key (hash message) sig

/-- The holder of an SPKI key signed a message: `signed` holds of the key it decodes to. -/
def Primitives.SpkiSigned (P : Primitives Key Sig) (signed : Key → Bytes → Prop) (spki : Bytes)
    (message : Bytes) : Prop :=
  ∃ key, (P.rsa.decodeKey spki = some key ∨ P.p256.decodeKey spki = some key ∨
    P.p384.decodeKey spki = some key) ∧ signed key message

/-- All three schemes are ideal for the messages that key holders `signed`. -/
structure Primitives.Ideal (P : Primitives Key Sig) (signed : Key → Bytes → Prop) : Prop where
  rsa : P.rsa.Ideal P.sha256 signed
  p256 : P.p256.Ideal P.sha256 signed
  p384 : P.p384.Ideal P.sha384 signed

lemma SignatureScheme.Ideal.of_check {S : SignatureScheme Key Sig} {hash : Bytes → Bytes}
    {sgd : Key → Bytes → Prop} (hid : S.Ideal hash sgd) {spki msg signature : Bytes}
    (h : S.check hash spki msg signature) : ∃ key, S.decodeKey spki = some key ∧ sgd key msg := by
  unfold check at h
  split at h
  · cases h
  · rename_i key hkey
    split at h
    · cases h
    · exact ⟨key, hkey, hid key msg _ h⟩

namespace Primitives

variable (P : Primitives Key Sig)

def verifyX509Signature (issuerSpki tbs signature : Bytes) (algorithm : Text) : Bool :=
  if algorithm = "1.2.840.113549.1.1.11" then P.rsa.check P.sha256 issuerSpki tbs signature
  else if algorithm = "1.2.840.10045.4.3.2" then
    P.p256.check P.sha256 issuerSpki tbs signature
  else if algorithm = "1.2.840.10045.4.3.3" then
    P.p384.check P.sha384 issuerSpki tbs signature
  else false

variable {P}

lemma Ideal.spkiSigned_of_verifyX509Signature {sgd : Key → Bytes → Prop}
    (hid : P.Ideal sgd) {issuerSpki tbs signature : Bytes} {algorithm : Text}
    (h : P.verifyX509Signature issuerSpki tbs signature algorithm) :
    P.SpkiSigned sgd issuerSpki tbs := by
  unfold verifyX509Signature at h
  split_ifs at h
  · obtain ⟨key, hkey, hsgn⟩ := hid.rsa.of_check h
    exact ⟨key, .inl hkey, hsgn⟩
  · obtain ⟨key, hkey, hsgn⟩ := hid.p256.of_check h
    exact ⟨key, .inr (.inl hkey), hsgn⟩
  · obtain ⟨key, hkey, hsgn⟩ := hid.p384.of_check h
    exact ⟨key, .inr (.inr hkey), hsgn⟩

end Primitives

end Omg.Security
