import Omg.Control.Except
import Omg.Security.Crypto
import Omg.Text.JsonText

/-!
# Entries of the transparency log

An entry of the Rekor transparency log is taken from a response of the log server only after its
signed entry timestamp verifies against the pinned key of the log. The signature covers a canonical
JSON text, which is put together again from the fields of the entry; the admitted alphabets make
that text determine the fields.

Source: `src/core/security/slsa.rs`.
-/

namespace Omg.Security

open List Text

open Control (bind_eq_ok)
open Text (isAsciiHexdigit decimal decimal_injective isDigit_of_mem_decimal append_cons_inj
  JsonScalar canonicalObject escapeChar)

inductive RekorError
  | httpFailed (status : ℕ)
  | entryMissingField (uuid field : Text)
  | entryInvalidField (uuid field : Text)
  | entryNotFound (uuid : Text)
  | emptyEntryMap
  | entrySetMalformed (uuid : Text)
  | entrySetVerificationFailed (uuid : Text)
  | rekorPublicKeyMalformed
deriving DecidableEq

structure RekorEntry where
  uuid : Text
  logIndex : ℕ
  integratedTime : ℕ
  body : Text
deriving DecidableEq

def requiredU64 (value : Json) (uuid field : Text) : Except RekorError ℕ :=
  match value.get field with
  | none => .error (.entryMissingField uuid field)
  | some v =>
    match v.asU64 with
    | none => .error (.entryInvalidField uuid field)
    | some n => .ok n

/-- A string along a path of keys; `field` is its name in the error. -/
def requiredStr (value : Json) (uuid : Text) (path : List Text) (field : Text) :
    Except RekorError Text :=
  match (value.pointer path).bind Json.asStr with
  | none => .error (.entryMissingField uuid field)
  | some s => .ok s

/-! ### The signed text -/

def maxSafeInteger : ℕ := 2 ^ 53 - 1

def isBase64Char (c : Char) : Bool := c.isAlphanum || c == '+' || c == '/' || c == '='

def setBodyKey : Text := "\x7b\"body\":\""

def setTimeKey : Text := ",\"integratedTime\":"

def setLogIdKey : Text := "\"logID\":\""

def setLogIndexKey : Text := ",\"logIndex\":"

def canonicalSetPayload (logId : Text) (logIndex integratedTime : ℕ) (body : Text) : Option Text :=
  if logIndex > maxSafeInteger || integratedTime > maxSafeInteger then none
  else if !logId.all isAsciiHexdigit then none
  else if !body.all isBase64Char then none
  else some (setBodyKey ++ (body ++ '"' :: (setTimeKey ++ (decimal integratedTime ++ ',' ::
    (setLogIdKey ++ (logId ++ '"' :: (setLogIndexKey ++ (decimal logIndex ++ ['\x7d']))))))))

lemma quote_notMem_of_all {p : Char → Bool} (hp : p '"' = false) {s : Text} (h : s.all p) :
    '"' ∉ s := fun hmem => by
  simp [all_eq_true.mp h _ hmem] at hp

lemma comma_notMem_decimal (n : ℕ) : ',' ∉ decimal n := fun hmem => by
  simpa using isDigit_of_mem_decimal hmem

lemma canonicalSetPayload_eq_some {lid body pl : Text} {li itm : ℕ} :
    canonicalSetPayload lid li itm body = some pl ↔
      li ≤ maxSafeInteger ∧ itm ≤ maxSafeInteger ∧ lid.all isAsciiHexdigit ∧
      body.all isBase64Char ∧ pl =
        setBodyKey ++ (body ++ '"' :: (setTimeKey ++ (decimal itm ++ ',' ::
          (setLogIdKey ++ (lid ++ '"' :: (setLogIndexKey ++ (decimal li ++ ['\x7d']))))))) := by
  unfold canonicalSetPayload
  split_ifs <;> grind

/-- **The signed text determines the entry.** -/
lemma canonicalSetPayload_injective {lid lid' body body' pl : Text}
    {li li' time time' : ℕ} (h : canonicalSetPayload lid li time body = some pl)
    (h' : canonicalSetPayload lid' li' time' body' = some pl) :
    lid' = lid ∧ li' = li ∧ time' = time ∧ body' = body := by
  obtain ⟨-, -, hlog, hb, rfl⟩ := canonicalSetPayload_eq_some.mp h
  obtain ⟨-, -, hlog', hb', heq⟩ := canonicalSetPayload_eq_some.mp h'
  -- The fields are read off from the left; each ends at a character that it cannot contain.
  obtain ⟨rfl, hafterBody⟩ := append_cons_inj (quote_notMem_of_all (by decide) hb)
    (quote_notMem_of_all (by decide) hb') (append_cancel_left heq)
  obtain ⟨hti, hafterTime⟩ := append_cons_inj (comma_notMem_decimal _) (comma_notMem_decimal _)
    (append_cancel_left hafterBody)
  obtain ⟨rfl, hafterLogId⟩ := append_cons_inj (quote_notMem_of_all (by decide) hlog)
    (quote_notMem_of_all (by decide) hlog') (append_cancel_left hafterTime)
  have hix := append_cancel_right (append_cancel_left hafterLogId)
  exact ⟨rfl, decimal_injective hix.symm, decimal_injective hti.symm, rfl⟩

lemma escapeChar_of_le {c : Char} (hquo : c ≠ '"') (hbac : c ≠ '\\') (h : 32 ≤ c.toNat) :
    escapeChar c = [c] := by
  rw [escapeChar, if_neg hquo, if_neg hbac, if_neg (by omega)]

lemma flatMap_escapeChar_of_all {p : Char → Bool} (hp : ∀ c, p c → escapeChar c = [c])
    {s : Text} (h : s.all p) : s.flatMap escapeChar = s := by
  induction s with
  | nil => rfl
  | cons c s ih =>
    rw [all_cons, Bool.and_eq_true] at h
    rw [flatMap_cons, hp c h.1, ih h.2, singleton_append]

lemma escapeChar_of_isAlphanum {c : Char} (h : c.isAlphanum) : escapeChar c = [c] := by
  have hran := toNat_of_isAlphanum h
  refine escapeChar_of_le ?_ ?_ (by omega)
  · rintro rfl
    cases h
  · rintro rfl
    cases h

lemma escapeChar_of_isAsciiHexdigit {c : Char} (h : isAsciiHexdigit c) : escapeChar c = [c] := by
  refine escapeChar_of_isAlphanum ?_
  simp only [isAsciiHexdigit, Bool.or_eq_true, Bool.and_eq_true, decide_eq_true_eq,
    Char.le_def] at h
  unfold Char.isAlphanum Char.isAlpha Char.isUpper Char.isLower
  simp only [Bool.or_eq_true, Bool.and_eq_true, decide_eq_true_eq, ge_iff_le,
    UInt32.le_iff_toNat_le]
  rcases h with (hdig | ⟨hlow, hhi⟩) | ⟨hlow, hhi⟩
  · exact .inr hdig
  · exact .inl (.inr ⟨hlow, hhi.trans (by decide)⟩)
  · exact .inl (.inl ⟨hlow, hhi.trans (by decide)⟩)

lemma escapeChar_of_isBase64Char {c : Char} (h : isBase64Char c) : escapeChar c = [c] := by
  simp only [isBase64Char, Bool.or_eq_true, beq_iff_eq] at h
  rcases h with ((haln | rfl) | rfl) | rfl
  · exact escapeChar_of_isAlphanum haln
  all_goals rfl

def setMembers (logId : Text) (logIndex integratedTime : ℕ) (body : Text) :
    List (Text × JsonScalar) :=
  [("body", .string body), ("integratedTime", .number integratedTime),
    ("logID", .string logId), ("logIndex", .number logIndex)]

lemma setMembers_sorted (logId : Text) (logIndex time : ℕ) (body : Text) :
    (setMembers logId logIndex time body).Pairwise fun m m' => utf16 m.1 < utf16 m'.1 := by
  have hks : (["body", "integratedTime", "logID", "logIndex"].map
      utf16).Pairwise (· < ·) := by decide
  exact pairwise_map.mp (show ((setMembers logId logIndex time body).map
    fun m => utf16 m.1).Pairwise (· < ·) from hks)

lemma jsonObject_setMembers {logId body : Text} (hlog : logId.flatMap escapeChar = logId)
    (hb : body.flatMap escapeChar = body) (logIndex time : ℕ) :
    jsonObject (setMembers logId logIndex time body) =
      setBodyKey ++ (body ++ '"' :: (setTimeKey ++ (decimal time ++ ',' ::
        (setLogIdKey ++
          (logId ++ '"' :: (setLogIndexKey ++ (decimal logIndex ++ ['\x7d']))))))) := by
  have hbodyKey : setBodyKey = '\x7b' :: (jsonString "body" ++ [':', '"']) := by decide
  have htimeKey : setTimeKey = ',' :: (jsonString "integratedTime" ++ [':']) := by decide
  have hlogIdKey : setLogIdKey = jsonString "logID" ++ [':', '"'] := by decide
  have hindexKey : setLogIndexKey = ',' :: (jsonString "logIndex" ++ [':']) := by decide
  have hstr : ∀ s : Text, s.flatMap escapeChar = s → jsonString s = '"' :: (s ++ ['"']) :=
    fun s hs => by rw [jsonString, hs]
  rw [hbodyKey, htimeKey, hlogIdKey, hindexKey]
  simp only [setMembers, jsonObject, jsonMember, JsonScalar.render, hstr _ hlog,
    hstr _ hb, flatMap_cons, flatMap_nil, append_assoc, cons_append,
    nil_append]

/-- **The signed text is canonical.** Equal texts are those of the same fields. The text is the
canonical JSON of the object with the four fields as its members, in which no string is escaped and
the numbers are exact as doubles. -/
theorem canonicalSetPayload_canonical (logId : Text) (logIndex time : ℕ) (body payload : Text)
    (h : canonicalSetPayload logId logIndex time body = some payload) :
    (∀ logId' logIndex' time' body', canonicalSetPayload logId' logIndex' time' body' =
      some payload →
      (logId', logIndex', time', body') = (logId, logIndex, time, body)) ∧
    (∀ members, members.Perm (setMembers logId logIndex time body) →
      payload = canonicalObject members) ∧
    logId.flatMap escapeChar = logId ∧ body.flatMap escapeChar = body ∧
    logIndex < 2 ^ 53 ∧ time < 2 ^ 53 := by
  obtain ⟨hix, hti, hlog, hb, hpl⟩ := canonicalSetPayload_eq_some.mp h
  have hlog' := flatMap_escapeChar_of_all (fun _ => escapeChar_of_isAsciiHexdigit) hlog
  have hb' := flatMap_escapeChar_of_all (fun _ => escapeChar_of_isBase64Char) hb
  refine ⟨?_, ?_, hlog', hb', ?_, ?_⟩
  · intro logId' logIndex' time' body' h'
    obtain ⟨rfl, rfl, rfl, rfl⟩ := canonicalSetPayload_injective h h'
    rfl
  · intro members hms
    rw [canonicalObject_of_perm hms (setMembers_sorted ..), jsonObject_setMembers hlog' hb', hpl]
  · exact Nat.lt_of_le_pred (by decide) hix
  · exact Nat.lt_of_le_pred (by decide) hti

theorem canonicalSetPayload_canonical_one :
    ∃ payload, canonicalSetPayload "c0".toList 1 50 "aa".toList = some payload ∧
      payload = canonicalObject (setMembers "c0".toList 1 50 "aa".toList).reverse := by
  have h := canonicalSetPayload_eq_some.mpr (⟨by decide, by decide, by decide, by decide, rfl⟩ :
    1 ≤ maxSafeInteger ∧ 50 ≤ maxSafeInteger ∧ "c0".toList.all isAsciiHexdigit ∧
      "aa".toList.all isBase64Char ∧ _)
  exact ⟨_, h, (canonicalSetPayload_canonical _ _ _ _ _ h).2.1 _ (reverse_perm _)⟩

/-! ### Taking an entry from a response -/

namespace Primitives

variable {Key Sig : Type} (P : Primitives Key Sig) (K : PinnedKeys)

def verifySetSignature (canonical setSignatureDer : Bytes) (key : Key) : Bool :=
  match P.p256.decodeSignature setSignatureDer with
  | none => false
  | some signature => P.p256.verifyPrehash key (P.sha256 canonical) signature

def rekorVerifyingKey : Except RekorError Key :=
  match P.p256KeyFromPem K.rekorPublicKeyPem with
  | none => .error .rekorPublicKeyMalformed
  | some key => .ok key

def decodeSet (uuid setB64 : Text) : Except RekorError Bytes :=
  match P.base64Decode (trim setB64) with
  | none => .error (.entrySetMalformed uuid)
  | some bytes => .ok bytes

def setPayloadOf (uuid logId : Text) (logIndex integratedTime : ℕ) (body : Text) :
    Except RekorError Text :=
  match canonicalSetPayload logId logIndex integratedTime body with
  | none => .error (.entrySetMalformed uuid)
  | some payload => .ok payload

/-- Take the requested entry from a response, and refuse it unless its signed entry timestamp
verifies against the pinned key. -/
def parseRekorEntry (requestedUuid : Text) (entryMap : List (Text × Json)) :
    Except RekorError RekorEntry :=
  if entryMap.isEmpty then .error .emptyEntryMap
  else match entryMap.lookup requestedUuid with
    | none => .error (.entryNotFound requestedUuid)
    | some value => do
      let logIndex ← requiredU64 value requestedUuid "logIndex"
      let integratedTime ← requiredU64 value requestedUuid "integratedTime"
      let body ← requiredStr value requestedUuid ["body"] "body"
      let logId ← requiredStr value requestedUuid ["logID"] "logID"
      let setB64 ← requiredStr value requestedUuid
        ["verification", "signedEntryTimestamp"]
        "verification.signedEntryTimestamp"
      let setBytes ← P.decodeSet requestedUuid setB64
      let canonical ← setPayloadOf requestedUuid logId logIndex integratedTime body
      let key ← P.rekorVerifyingKey K
      if P.verifySetSignature (utf8 canonical) setBytes key then
        .ok ⟨requestedUuid, logIndex, integratedTime, body⟩
      else .error (.entrySetVerificationFailed requestedUuid)

/-- The holder of the pinned log key signed a timestamp over the body, the integrated time, the log
id and the log index of an entry, and over no other ones. -/
def SetSigned (signed : Key → Bytes → Prop) (entry : RekorEntry) (logId : Text) : Prop :=
  ∃ key payload, P.p256KeyFromPem K.rekorPublicKeyPem = some key ∧
    canonicalSetPayload logId entry.logIndex entry.integratedTime entry.body = some payload ∧
    signed key (utf8 payload) ∧
    ∀ logId' logIndex' time' body',
      canonicalSetPayload logId' logIndex' time' body' = some payload →
        logId' = logId ∧ logIndex' = entry.logIndex ∧ time' = entry.integratedTime ∧
          body' = entry.body

variable {P K}

lemma Ideal.signed_of_verifySetSignature {sgd : Key → Bytes → Prop} (hid : P.Ideal sgd)
    {canon sig : Bytes} {key : Key}
    (h : P.verifySetSignature canon sig key) : sgd key canon := by
  unfold verifySetSignature at h
  split at h
  · cases h
  · exact hid.p256 key canon _ h

lemma rekorVerifyingKey_eq_ok {key : Key} (h : P.rekorVerifyingKey K = .ok key) :
    P.p256KeyFromPem K.rekorPublicKeyPem = some key := by
  unfold rekorVerifyingKey at h
  split at h
  · cases h
  · rename_i key' hkey
    rw [hkey, Except.ok.inj h]

lemma setPayloadOf_eq_ok {uuid lid body pl : Text} {li time : ℕ}
    (h : setPayloadOf uuid lid li time body = .ok pl) :
    canonicalSetPayload lid li time body = some pl := by
  unfold setPayloadOf at h
  split at h
  · cases h
  · rename_i payload' hpl
    rw [hpl, Except.ok.inj h]

lemma Ideal.setSigned_of_parseRekorEntry {sgd : Key → Bytes → Prop} (hid : P.Ideal sgd)
    {uuid : Text} {entryMap : List (Text × Json)} {e : RekorEntry}
    (h : P.parseRekorEntry K uuid entryMap = .ok e) :
    e.uuid = uuid ∧ ∃ lid, P.SetSigned K sgd e lid := by
  unfold parseRekorEntry at h
  split_ifs at h
  split at h
  · cases h
  · simp only [bind_eq_ok] at h
    obtain ⟨li, -, time, -, body, -, lid, -, set, -, setBytes, -, pl, hpl, key, hkey, hvf⟩ := h
    split_ifs at hvf with hset
    obtain rfl := Except.ok.inj hvf
    refine ⟨rfl, lid, key, pl, ?_, ?_, hid.signed_of_verifySetSignature hset, ?_⟩
    · exact rekorVerifyingKey_eq_ok hkey
    · exact setPayloadOf_eq_ok hpl
    · intro lid' li' time' body' h'
      exact canonicalSetPayload_injective (setPayloadOf_eq_ok hpl) h'

end Primitives

end Omg.Security
