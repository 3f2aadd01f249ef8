import Omg.Codec.Framing
import Omg.Control.Except
import Omg.Daemon.Protocol

/-!
# Frames on a byte stream

A frame goes over a socket as its length, in four bytes with the most significant one first, and its
bytes. The reader asks for a number of bytes and is given them in chunks, as the socket delivers
them. What it reads does not depend on the chunks.

Source: `src/daemon/protocol.rs`.
-/

namespace Omg.Daemon

open Codec List

def maxFrameSize : ℕ := 10 * 1024 * 1024

/-- `std::io::Error`, as far as it is produced here. -/
inductive IoError
  | invalidInput (message : Text)
  | invalidData (message : Text)
  | unexpectedEof
  deriving DecidableEq

/-- `write_frame`: the bytes that are written. -/
def writeFrame (payload : Bytes) : Except IoError Bytes :=
  if payload.length < 2 ^ 32 then .ok (bigEndian 4 payload.length ++ payload)
  else .error (.invalidInput "payload too large for protocol framing")

def writeFrames (payloads : List Bytes) : Except IoError Bytes :=
  (payloads.mapM writeFrame).map List.flatten

/-! ### Reading -/

/-- The bytes that are still to come, in the chunks in which they are delivered. An empty chunk
would be the end of the stream. -/
structure Reader where
  chunks : List Bytes
  ne_nil : ∀ chunk ∈ chunks, chunk ≠ []

namespace Reader

def bytes (r : Reader) : Bytes := r.chunks.flatten

/-- `Read::read_exact` on chunks. A chunk that is not used up is left. -/
def takeExact : ℕ → List Bytes → Except IoError Bytes × List Bytes
  | 0, chunks => (.ok [], chunks)
  | _ + 1, [] => (.error .unexpectedEof, [])
  | n + 1, chunk :: rest =>
    if n + 1 < chunk.length then (.ok (chunk.take (n + 1)), chunk.drop (n + 1) :: rest)
    else
      let (result, rest') := takeExact (n + 1 - chunk.length) rest
      (result.map (chunk ++ ·), rest')

variable {n : ℕ} {chunks : List Bytes} {r : Reader} {frame rest : Bytes}

lemma takeExact_ne_nil (h : ∀ ck ∈ chunks, ck ≠ []) : ∀ ck ∈ (takeExact n chunks).2, ck ≠ [] := by
  induction chunks generalizing n with
  | nil => cases n <;> simp [takeExact]
  | cons ck rest ih =>
    obtain ⟨-, hrest⟩ := forall_mem_cons.mp h
    cases n with
    | zero => exact h
    | succ n =>
      unfold takeExact
      split_ifs with hlt
      · refine forall_mem_cons.mpr ⟨fun hnil => ?_, hrest⟩
        have hlen := congrArg List.length hnil
        rw [length_drop, length_nil] at hlen
        omega
      · exact ih hrest

/-- `Read::read_exact`. -/
def readExact (n : ℕ) (r : Reader) : Except IoError Bytes × Reader :=
  ((takeExact n r.chunks).1, ⟨(takeExact n r.chunks).2, takeExact_ne_nil r.ne_nil⟩)

/-- `read_frame`. -/
def readFrame (r : Reader) : Except IoError Bytes × Reader :=
  match r.readExact 4 with
  | (.error e, r') => (.error e, r')
  | (.ok lenBuf, r') =>
    let len := ofBigEndian lenBuf
    if maxFrameSize < len then
      (.error (.invalidData ("frame length " ++ Text.decimal len ++
        " exceeds maximum " ++ Text.decimal maxFrameSize)), r')
    else r'.readExact len

/-- `read_frame` again and again, up to the first error. -/
inductive Reads : Reader → List Bytes → IoError → Prop
  | stop {r r' : Reader} {e : IoError} (h : r.readFrame = (.error e, r')) : Reads r [] e
  | next {r r' : Reader} {frame : Bytes} {frames : List Bytes} {e : IoError}
      (h : r.readFrame = (.ok frame, r')) (hrest : Reads r' frames e) : Reads r (frame :: frames) e

/-! ### Reading does not depend on the chunks -/

lemma takeExact_of_le (h : n ≤ chunks.flatten.length) :
    (takeExact n chunks).1 = .ok (chunks.flatten.take n) ∧
      (takeExact n chunks).2.flatten = chunks.flatten.drop n := by
  induction chunks generalizing n with
  | nil =>
    obtain rfl : n = 0 := by simpa using h
    simp [takeExact]
  | cons ck rest ih =>
    cases n with
    | zero => simp [takeExact]
    | succ n =>
      rw [flatten_cons, length_append] at h
      unfold takeExact
      split_ifs with hlt
      · simp only [flatten_cons]
        rw [take_append_of_le_length (Nat.le_of_lt hlt),
          drop_append_of_le_length (Nat.le_of_lt hlt)]
        exact ⟨rfl, rfl⟩
      · have hck : ck.length ≤ n + 1 := by omega
        obtain ⟨hf, hsec⟩ := ih (n := n + 1 - ck.length) (by omega)
        simp only [hf, hsec, flatten_cons]
        rw [take_append, drop_append, take_of_length_le hck, drop_of_length_le hck]
        exact ⟨rfl, rfl⟩

lemma takeExact_of_lt (h : chunks.flatten.length < n) :
    takeExact n chunks = (.error .unexpectedEof, []) := by
  induction chunks generalizing n with
  | nil =>
    cases n with
    | zero => simp at h
    | succ n => rfl
  | cons ck rest ih =>
    cases n with
    | zero => omega
    | succ n =>
      rw [flatten_cons, length_append] at h
      unfold takeExact
      rw [if_neg (by omega), ih (by omega)]
      rfl

lemma readExact_of_le (h : n ≤ r.bytes.length) :
    (r.readExact n).1 = .ok (r.bytes.take n) ∧ (r.readExact n).2.bytes = r.bytes.drop n :=
  takeExact_of_le h

lemma readExact_of_lt (h : r.bytes.length < n) : (r.readExact n).1 = .error .unexpectedEof :=
  congrArg Prod.fst (takeExact_of_lt h)

/-! ### Frames -/

def wire (frame : Bytes) : Bytes := bigEndian 4 frame.length ++ frame

lemma length_wire (frame : Bytes) : (wire frame).length = 4 + frame.length := by
  rw [wire, length_append, length_bigEndian]

lemma ofBigEndian_length (h : frame.length ≤ maxFrameSize) :
    ofBigEndian (bigEndian 4 frame.length) = frame.length := by
  rw [ofBigEndian_bigEndian]
  refine Nat.mod_eq_of_lt (lt_of_le_of_lt h ?_)
  decide

lemma readFrame_of_length_lt (h : r.bytes.length < 4) :
    (r.readFrame).1 = .error .unexpectedEof := by
  have hlen := readExact_of_lt h
  unfold readFrame
  cases hrd : r.readExact 4 with
  | mk res r' =>
    rw [hrd] at hlen
    cases hlen
    rfl

lemma readFrame_of_header {hdr : Bytes} (hhea : hdr.length = 4) (h : r.bytes = hdr ++ rest) :
    ∃ r' : Reader, r'.bytes = rest ∧ r.readFrame = if maxFrameSize < ofBigEndian hdr then
        (.error (.invalidData ("frame length " ++ Text.decimal (ofBigEndian hdr) ++
          " exceeds maximum " ++ Text.decimal maxFrameSize)), r')
      else r'.readExact (ofBigEndian hdr) := by
  have hle : 4 ≤ r.bytes.length := by
    rw [h, length_append]
    omega
  obtain ⟨hf, hsec⟩ := readExact_of_le hle
  rw [h, take_left' hhea] at hf
  rw [h, drop_left' hhea] at hsec
  refine ⟨(r.readExact 4).2, hsec, ?_⟩
  unfold readFrame
  cases hrd : r.readExact 4 with
  | mk res r' =>
    rw [hrd] at hf
    cases hf
    rfl

lemma readFrame_of_wire (hfr : frame.length ≤ maxFrameSize) (h : r.bytes = wire frame ++ rest) :
    ∃ r' : Reader, r'.bytes = rest ∧ r.readFrame = (.ok frame, r') := by
  rw [wire, append_assoc] at h
  obtain ⟨r', hr', hrd⟩ := readFrame_of_header (length_bigEndian 4 frame.length) h
  rw [ofBigEndian_length hfr, if_neg (Nat.not_lt.mpr hfr)] at hrd
  obtain ⟨hf, hsec⟩ := readExact_of_le (n := frame.length) (by
    rw [hr', length_append]
    omega)
  rw [hr', take_left] at hf
  rw [hr', drop_left] at hsec
  exact ⟨(r'.readExact frame.length).2, hsec, hrd.trans (Prod.ext hf rfl)⟩

lemma readFrame_of_lt (hfr : frame.length ≤ maxFrameSize)
    (h : r.bytes <+: wire frame ++ rest) (hlt : r.bytes.length < (wire frame).length) :
    (r.readFrame).1 = .error .unexpectedEof := by
  rw [length_wire] at hlt
  rcases Nat.lt_or_ge r.bytes.length 4 with hsh | hlo
  · exact readFrame_of_length_lt hsh
  · -- The length is complete.
    have hhea : bigEndian 4 frame.length <+: r.bytes := by
      refine prefix_of_prefix_length_le ?_ h (by rwa [length_bigEndian])
      exact prefix_append _ _
    obtain ⟨pl, hpl⟩ := hhea
    obtain ⟨r', hr', hrd⟩ := readFrame_of_header (length_bigEndian 4 frame.length) hpl.symm
    rw [ofBigEndian_length hfr, if_neg (Nat.not_lt.mpr hfr)] at hrd
    rw [hrd]
    refine readExact_of_lt ?_
    rw [← hpl, length_append, length_bigEndian] at hlt
    rw [hr']
    omega

lemma reads_take {frames : List Bytes} (hfra : ∀ frame ∈ frames, frame.length ≤ maxFrameSize)
    (h : r.bytes <+: frames.flatMap wire) :
    ∃ k ≤ frames.length, Reads r (frames.take k) .unexpectedEof ∧
      (frames.take k).flatMap wire <+: r.bytes ∧
      (k < frames.length → ¬(frames.take (k + 1)).flatMap wire <+: r.bytes) := by
  induction frames generalizing r with
  | nil =>
    have hby : r.bytes = [] := prefix_nil.mp h
    have hrd := readFrame_of_length_lt (r := r) (by simp [hby])
    exact ⟨0, le_rfl, .stop (Prod.ext hrd rfl), nil_prefix, fun hlt => absurd hlt (by simp)⟩
  | cons frame frames ih =>
    obtain ⟨hfr, hrest⟩ := forall_mem_cons.mp hfra
    rw [flatMap_cons] at h
    rcases Nat.lt_or_ge r.bytes.length (wire frame).length with hlt | hle
    · have hrd := readFrame_of_lt hfr h hlt
      refine ⟨0, Nat.zero_le _, .stop (Prod.ext hrd rfl), nil_prefix, fun _ hwi => ?_⟩
      have hlen := hwi.length_le
      simp only [take_succ_cons, take_zero, flatMap_cons, flatMap_nil, append_nil] at hlen
      omega
    · obtain ⟨rest, hby⟩ := prefix_of_prefix_length_le (prefix_append _ _) h hle
      rw [← hby, prefix_append_right_inj] at h
      obtain ⟨r', hr', hrd⟩ := readFrame_of_wire hfr hby.symm
      obtain ⟨k, hk, hrds, hta, hmr⟩ := ih hrest (hr' ▸ h)
      refine ⟨k + 1, Nat.succ_le_succ hk, .next hrd hrds, ?_, fun hlt => ?_⟩
      · rw [take_succ_cons, flatMap_cons, ← hby, prefix_append_right_inj, ← hr']
        exact hta
      · rw [take_succ_cons, flatMap_cons, ← hby, prefix_append_right_inj, ← hr']
        exact hmr (Nat.lt_of_succ_lt_succ hlt)

lemma Reads.unique {frames frs' : List Bytes} {e e' : IoError} (h : Reads r frames e)
    (h' : Reads r frs' e') : frames = frs' ∧ e = e' := by
  induction h generalizing frs' with
  | stop hsto =>
    cases h' with
    | stop hsto' =>
      rw [hsto] at hsto'
      cases hsto'
      exact ⟨rfl, rfl⟩
    | next hnx' _ =>
      rw [hsto] at hnx'
      cases hnx'
  | next hnx hrest ih =>
    cases h' with
    | stop hsto' =>
      rw [hnx] at hsto'
      cases hsto'
    | next hnx' hr' =>
      rw [hnx] at hnx'
      cases hnx'
      obtain ⟨rfl, rfl⟩ := ih hr'
      exact ⟨rfl, rfl⟩

end Reader

/-! ### The round trip -/

variable {α : Type} {codec : Bitcode α} {values : List α} {frames : List Bytes}

lemma writeFrames_eq (h : ∀ frame ∈ frames, frame.length ≤ maxFrameSize) :
    writeFrames frames = .ok (frames.flatMap Reader.wire) := by
  have hwri : frames.mapM writeFrame = .ok (frames.map Reader.wire) := by
    induction frames with
    | nil => rfl
    | cons frame frames ih =>
      obtain ⟨hfr, hrest⟩ := forall_mem_cons.mp h
      have hlen : frame.length < 2 ^ 32 := lt_of_le_of_lt hfr (by decide)
      rw [mapM_cons, writeFrame, if_pos hlen, ih hrest]
      rfl
  rw [writeFrames, hwri]
  rfl

lemma splitFrame_of_encodeFrame (h : values.mapM (encodeFrame codec) = .ok frames) :
    ∃ pls, values.mapM codec.serialize = .ok pls ∧
      frames.map splitFrame = pls.map fun pl => .ok (protocolVersion, pl) := by
  induction values generalizing frames with
  | nil =>
    cases h
    exact ⟨[], rfl, rfl⟩
  | cons val values ih =>
    rw [mapM_cons] at h
    obtain ⟨frame, hfr, h⟩ := Control.bind_eq_ok.mp h
    obtain ⟨rest, hrest, h⟩ := Control.bind_eq_ok.mp h
    cases h
    obtain ⟨pls, hpay, hsp⟩ := ih hrest
    unfold encodeFrame at hfr
    cases hser : codec.serialize val with
    | error msg =>
      rw [hser] at hfr
      cases hfr
    | ok pl =>
      rw [hser] at hfr
      cases hfr
      refine ⟨pl :: pls, ?_, ?_⟩
      · rw [mapM_cons, hser, hpay]
        rfl
      · rw [map_cons, map_cons, splitFrame_version, hsp]

lemma exists_error_of_splitFrame {frame : Bytes} (h : frame.length < 4 ∨
    ∃ a b c d pl, frame = a :: b :: c :: d :: pl ∧
      fromLeBytes a b c d ≠ protocolVersion) : ∃ e, splitFrame frame = .error e := by
  rcases h with hsh | ⟨a, b, c, d, pl, rfl, hver⟩
  · unfold splitFrame
    split
    · simp only [length_cons] at hsh
      omega
    · exact ⟨_, rfl⟩
  · exact ⟨_, if_pos hver⟩

/-- **Frames on a stream.** Frames of values, if they are not too long, are written and read in
their order whatever the chunks, and hold the serialised values. If the stream ends early then
exactly the complete frames are read, and the next one is an error. A length above the limit is an
error before the payload is touched, and a frame without this version has no payload. -/
theorem frames_round_trip (hencode : values.mapM (encodeFrame codec) = .ok frames)
    (hsize : ∀ frame ∈ frames, frame.length ≤ maxFrameSize) :
    (∃ payloads, values.mapM codec.serialize = .ok payloads ∧
      frames.map splitFrame = payloads.map fun payload => .ok (protocolVersion, payload)) ∧
    (∃ stream, writeFrames frames = .ok stream ∧
      (∀ r : Reader, r.bytes = stream → ∀ read e,
        r.Reads read e ↔ read = frames ∧ e = .unexpectedEof) ∧
      ∀ r : Reader, r.bytes <+: stream → r.bytes ≠ stream → ∃ k < frames.length,
        (∀ read e, r.Reads read e ↔ read = frames.take k ∧ e = .unexpectedEof) ∧
        (frames.take k).flatMap Reader.wire <+: r.bytes ∧
        ¬(frames.take (k + 1)).flatMap Reader.wire <+: r.bytes) ∧
    (∀ (r : Reader) (header rest : Bytes), header.length = 4 → r.bytes = header ++ rest →
      maxFrameSize < ofBigEndian header →
        ∃ message r', r.readFrame = (.error (.invalidData message), r') ∧ r'.bytes = rest) ∧
    ∀ frame : Bytes, (frame.length < 4 ∨ ∃ a b c d payload, frame = a :: b :: c :: d :: payload ∧
      fromLeBytes a b c d ≠ protocolVersion) → ∃ e, splitFrame frame = .error e := by
  refine ⟨splitFrame_of_encodeFrame hencode, ⟨_, writeFrames_eq hsize, fun r hr read e => ?_,
    fun r hpx hne => ?_⟩, fun r header rest hhea hr hlo => ?_,
    fun frame => exists_error_of_splitFrame⟩
  · obtain ⟨k, hk, hrds, -, hmr⟩ := Reader.reads_take hsize ⟨[], by rw [hr, append_nil]⟩
    -- The last frame is complete too.
    have hall : frames.take k = frames := by
      refine take_of_length_le (Nat.not_lt.mp fun hlt => hmr hlt ?_)
      rw [hr]
      nth_rewrite 2 [← take_append_drop (k + 1) frames]
      rw [flatMap_append]
      exact prefix_append _ _
    rw [hall] at hrds
    constructor
    · exact fun h => h.unique hrds
    · rintro ⟨rfl, rfl⟩
      exact hrds
  · obtain ⟨k, hk, hrds, hta, hmr⟩ := Reader.reads_take hsize hpx
    have hlt : k < frames.length := by
      refine lt_of_le_of_ne hk fun heq => hne ?_
      rw [heq, take_length] at hta
      exact hpx.eq_of_length_le hta.length_le
    refine ⟨k, hlt, fun read e => ⟨fun h => h.unique hrds, ?_⟩, hta, hmr hlt⟩
    rintro ⟨rfl, rfl⟩
    exact hrds
  · obtain ⟨r', hr', hrd⟩ := Reader.readFrame_of_header hhea hr
    rw [if_pos hlo] at hrd
    exact ⟨_, r', hrd, hr'⟩

def plainBitcode : Bitcode Bytes where
  serialize := .ok
  deserialize := .ok
  faithful value bytes h := by rw [← h]

theorem frames_round_trip_plain :
    [[1], [2, 3]].mapM (encodeFrame plainBitcode) = .ok [[4, 0, 0, 0, 1], [4, 0, 0, 0, 2, 3]] ∧
      ∃ payloads, [[1], [2, 3]].mapM plainBitcode.serialize = .ok payloads ∧
        [[4, 0, 0, 0, 1], [4, 0, 0, 0, 2, 3]].map splitFrame =
          payloads.map fun payload => .ok (protocolVersion, payload) := by
  have hen : [[1], [2, 3]].mapM (encodeFrame plainBitcode) =
      .ok [[4, 0, 0, 0, 1], [4, 0, 0, 0, 2, 3]] := by rfl
  exact ⟨hen, (frames_round_trip hen (by decide)).1⟩

end Omg.Daemon
