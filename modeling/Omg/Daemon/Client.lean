import Omg.Daemon.Handlers

/-!
# The clients of the daemon

A call takes the stream out of its client. It gives it back only when it has received a frame that
is decoded to a response with its own id. So a call that was cancelled, that timed out or that got
anything else leaves a client without a stream.

What the world decides in one call is its `Fate`. A future that is dropped before it was polled for
the first time has done nothing.

Source: `src/core/client.rs`.
-/

namespace Omg.Daemon

variable (codecs : Codecs)

inductive CallError
  | daemon (code : ℤ) (message : Text)
  | other (messages : AnyhowError)

def CallError.messages : CallError → AnyhowError
  | daemon code message =>
    ["Daemon error (" ++ (toString code).toList ++ "): " ++ message]
  | other messages => messages

/-- `decode_correlated_response`. -/
def decodeCorrelatedResponse (frame : Bytes) (expectedId : ℕ) : Result Response :=
  match splitFrame frame with
  | .error error => .error ["Daemon protocol error: " ++ error.text]
  | .ok (_, payload) =>
    match codecs.response.deserialize payload with
    | .error error => .error ["Failed to deserialize daemon response: " ++ error]
    | .ok response =>
      if response.id ≠ expectedId then
        .error ["Request ID mismatch: sent " ++ Text.decimal expectedId ++ ", got " ++
          Text.decimal response.id]
      else .ok response

def responseResult : Response → Except CallError ResponseResult
  | .success _ result => .ok result
  | .error _ code message => .error (.daemon code message)

/-! ### Calls -/

inductive Transport
  | async
  | sync
  deriving DecidableEq

structure Client where
  transport : Transport
  isConnected : Bool

def interruptedText : Text := "Daemon connection interrupted; reconnect before another request"

namespace Client

def start (client : Client) (request : Request) : Result Bytes × Client :=
  match client.transport, encodeFrame codecs.request request with
  | .async, .error error => (.error ["Failed to encode request", error.text], client)
  | .async, .ok bytes =>
    if client.isConnected then (.ok bytes, { client with isConnected := false })
    else (.error [interruptedText], client)
  | .sync, encoded =>
    if client.isConnected then
      match encoded with
      | .error error =>
        (.error ["Failed to encode daemon request", error.text],
          { client with isConnected := false })
      | .ok bytes => (.ok bytes, { client with isConnected := false })
    else (.error [interruptedText], client)

def finish (client : Client) (request : Request) (frame : Bytes) :
    Except CallError ResponseResult × Client :=
  match decodeCorrelatedResponse codecs frame request.id with
  | .error messages => (.error (.other messages), client)
  | .ok response => (responseResult response, { client with isConnected := true })

end Client

open Client

inductive Stop
  | cancelled
  | timedOut (cause : Text)
  | closed (cause : Text)
  | failed (cause : Text)

def sendOutcome : Transport → Stop → Option (Except CallError ResponseResult)
  | _, .cancelled => none
  | .async, .timedOut cause =>
    some (.error (.other ["Timed out sending request to daemon", cause]))
  | .async, .closed cause | .async, .failed cause => some (.error (.other [cause]))
  | .sync, .timedOut cause | .sync, .closed cause | .sync, .failed cause =>
    some (.error (.other ["Failed to write request to daemon socket", cause]))

def receiveOutcome : Transport → Stop → Option (Except CallError ResponseResult)
  | _, .cancelled => none
  | .async, .timedOut cause =>
    some (.error (.other ["Timed out waiting for daemon response", cause]))
  | .async, .closed _ => some (.error (.other ["Daemon disconnected"]))
  | .async, .failed cause => some (.error (.other [cause]))
  | .sync, .timedOut cause | .sync, .closed cause | .sync, .failed cause =>
    some (.error (.other ["Failed to read response from daemon", cause]))

inductive Fate
  | unpolled
  | stoppedSending (stop : Stop)
  | stoppedReceiving (stop : Stop)
  | received (frame : Bytes)

inductive Access
  | write (bytes : Bytes)
  | read
  deriving DecidableEq

structure CallRecord where
  accesses : List Access
  outcome : Option (Except CallError ResponseResult)

def Client.proceed (client : Client) (request : Request) (bytes : Bytes) :
    Fate → CallRecord × Client
  | .unpolled => (⟨[], none⟩, client)
  | .stoppedSending stop => (⟨[.write bytes], sendOutcome client.transport stop⟩, client)
  | .stoppedReceiving stop => (⟨[.write bytes, .read], receiveOutcome client.transport stop⟩,
      client)
  | .received frame =>
    (⟨[.write bytes, .read], some (client.finish codecs request frame).1⟩,
      (client.finish codecs request frame).2)

def Client.call (client : Client) (request : Request) : Fate → CallRecord × Client
  | .unpolled => (⟨[], none⟩, client)
  | fate =>
    match client.start codecs request with
    | (.error messages, client') => (⟨[], some (.error (.other messages))⟩, client')
    | (.ok bytes, client') => client'.proceed codecs request bytes fate

def Client.calls (client : Client) : List (Request × Fate) → List CallRecord × Client
  | [] => ([], client)
  | (request, fate) :: rest =>
    let first := client.call codecs request fate
    let others := first.2.calls rest
    (first.1 :: others.1, others.2)

/-! ### Lost connections -/

variable {codecs} {client : Client} {request : Request}

lemma decodeCorrelatedResponse_eq_ok {fr : Bytes} {expectedId : ℕ} {resp : Response} :
    decodeCorrelatedResponse codecs fr expectedId = .ok resp ↔
      decodeFrame codecs.response fr = some resp ∧ resp.id = expectedId := by
  unfold decodeCorrelatedResponse decodeFrame
  cases splitFrame fr with
  | error error => simp
  | ok split =>
    dsimp only
    cases codecs.response.deserialize split.2 with
    | error error => simp [Except.toOption]
    | ok resp' =>
      dsimp only [Except.toOption]
      by_cases hid : resp'.id = expectedId
      · rw [if_neg (not_not.mpr hid)]
        constructor
        · rintro ⟨⟩
          exact ⟨rfl, hid⟩
        · rintro ⟨⟨⟩, -⟩
          rfl
      · rw [if_pos hid]
        constructor
        · rintro ⟨⟩
        · rintro ⟨⟨⟩, h⟩
          exact absurd h hid

lemma isConnected_start {cl' : Client} {bs : Bytes}
    (h : client.start codecs request = (.ok bs, cl')) :
    cl'.isConnected = false ∧ encodeFrame codecs.request request = .ok bs := by
  obtain ⟨trn, isConnected⟩ := client
  unfold start at h
  cases trn <;> cases isConnected <;>
    cases hen : encodeFrame codecs.request request <;> rw [hen] at h <;> cases h <;>
    exact ⟨rfl, rfl⟩

variable (codecs) in
lemma start_of_not_isConnected (h : client.isConnected = false) (request : Request) :
    ∃ messages, client.start codecs request = (.error messages, client) := by
  obtain ⟨trn, isConnected⟩ := client
  cases h
  unfold start
  cases trn <;> cases encodeFrame codecs.request request <;> exact ⟨_, rfl⟩

variable (codecs) in
lemma call_of_not_isConnected (h : client.isConnected = false) (request : Request) (fate : Fate) :
    (client.call codecs request fate).1.accesses = [] ∧
      (client.call codecs request fate).2 = client := by
  obtain ⟨messages, hst⟩ := start_of_not_isConnected codecs h request
  cases fate <;> simp [call, hst]

lemma accesses_of_not_isConnected (h : client.isConnected = false) (cls : List (Request × Fate)) :
    ∀ rec ∈ (client.calls codecs cls).1, rec.accesses = [] := by
  induction cls with
  | nil => nofun
  | cons call rest ih =>
    obtain ⟨hacx, hcli⟩ := call_of_not_isConnected codecs h call.1 call.2
    refine List.forall_mem_cons.mpr ⟨hacx, ?_⟩
    rw [hcli]
    exact ih

/-- The call was cancelled, it timed out, its connection failed, or it received a frame that is not
decoded to its own id. -/
def Fate.IsLost (codecs : Codecs) (request : Request) : Fate → Prop
  | unpolled => False
  | stoppedSending _ => True
  | stoppedReceiving _ => True
  | received frame => ∀ response, decodeFrame codecs.response frame = some response →
      response.id ≠ request.id

lemma isConnected_of_isLost {fate : Fate} (hlo : fate.IsLost codecs request)
    (hacx : (client.call codecs request fate).1.accesses ≠ []) :
    (client.call codecs request fate).2.isConnected = false := by
  rcases hst : client.start codecs request with ⟨messages | bs, cl'⟩
  · cases fate <;> simp only [call, hst] at hacx <;> exact absurd rfl hacx
  · have hcli' := (isConnected_start hst).1
    cases fate with
    | unpolled => exact hlo.elim
    | received fr =>
      simp only [call, hst]
      change (cl'.finish codecs request fr).2.isConnected = false
      unfold finish
      cases hdc : decodeCorrelatedResponse codecs fr request.id with
      | error messages => exact hcli'
      | ok resp =>
        obtain ⟨hres, hid⟩ := decodeCorrelatedResponse_eq_ok.mp hdc
        exact absurd hid (hlo resp hres)
    | _ stop =>
      simp only [call, hst]
      exact hcli'

lemma accesses_of_isLost {fate : Fate} (hlo : fate.IsLost codecs request)
    (hacx : (client.call codecs request fate).1.accesses ≠ []) (ltr : List (Request × Fate)) :
    ∀ rec ∈ ((client.call codecs request fate).2.calls codecs ltr).1, rec.accesses = [] :=
  accesses_of_not_isConnected (isConnected_of_isLost hlo hacx) ltr

end Omg.Daemon
