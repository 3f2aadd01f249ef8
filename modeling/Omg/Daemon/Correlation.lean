import Mathlib.Data.List.Nodup
import Omg.Daemon.Client

/-!
# Requests and responses belong together

A client and a daemon of the same version are joined by two queues of frames. The client makes one
call after the other with increasing ids. Calls may stop at any point, and each turn of the daemon
may go in any way. Every frame in the queue of responses was sent for one request of this client,
and it has the id of this request.
-/

namespace Omg.Daemon

open List Option

structure System where
  client : Client
  waiting : Option Request
  called : List Request
  toDaemon : List Bytes
  toClient : List Bytes
  isServed : Bool
  exchanges : List Exchange
  returned : List (Request × Except CallError ResponseResult)

/-- The next thing that happens. A call may stop while it sends, and its frame may arrive or not. -/
inductive Action
  | call (request : Request) (stop : Option Stop) (isDelivered : Bool)
  | turn (turn : Turn)
  | closeDaemon
  | receive
  | stopReceiving (stop : Stop)

namespace System

variable (codecs : Codecs)

def start (transport : Transport) : System := ⟨⟨transport, true⟩, none, [], [], [], true, [], []⟩

def record (s : System) (request : Request) : Option (Except CallError ResponseResult) → System
  | none => s
  | some result => { s with returned := s.returned ++ [(request, result)] }

def call (s : System) (request : Request) (stop : Option Stop) (isDelivered : Bool) : System :=
  match s.client.start codecs request with
  | (.error messages, client) =>
    { s with client }.record request (some (.error (.other messages)))
  | (.ok bytes, client) =>
    let sent : System :=
      { s with
        client
        called := s.called ++ [request]
        toDaemon := if isDelivered then s.toDaemon ++ [bytes] else s.toDaemon }
    match stop with
    | none => { sent with waiting := some request }
    | some stop => sent.record request (sendOutcome client.transport stop)

def serve (s : System) (bytes : Bytes) (rest : List Bytes) (turn : Turn) : System :=
  { s with
    toDaemon := rest
    toClient := s.toClient ++ (serveFrame codecs bytes turn).1.toList
    isServed := (serveFrame codecs bytes turn).2
    exchanges := s.exchanges ++ [⟨bytes, turn, (serveFrame codecs bytes turn).1⟩] }

def step (s : System) : Action → Option System
  | .call request stop isDelivered =>
    if s.waiting = none ∧ ∀ earlier ∈ s.called, earlier.id < request.id then
      some (s.call codecs request stop isDelivered)
    else none
  | .turn turn =>
    match s.isServed, s.toDaemon with
    | true, bytes :: rest =>
      if maxRequestSize < bytes.length then some { s with isServed := false }
      else some (s.serve codecs bytes rest turn)
    | _, _ => none
  | .closeDaemon => some { s with isServed := false }
  | .receive =>
    match s.waiting, s.toClient with
    | some request, frame :: rest =>
      some ({ s with
        waiting := none
        toClient := rest
        client := (s.client.finish codecs request frame).2 }.record request
          (some (s.client.finish codecs request frame).1))
    | _, _ => none
  | .stopReceiving stop =>
    match s.waiting with
    | some request =>
      some ({ s with waiting := none }.record request (receiveOutcome s.client.transport stop))
    | none => none

def exec (s : System) : List Action → Option System
  | [] => some s
  | a :: as => (s.step codecs a).bind fun s' => s'.exec as

/-! ### The invariant -/

def IsReply : Except CallError ResponseResult → Prop
  | .ok _ => True
  | .error (.daemon _ _) => True
  | .error (.other _) => False

def IsSent (exchanges : List Exchange) (request : Request)
    (result : Except CallError ResponseResult) : Prop :=
  ∃ e ∈ exchanges, decodeRequest codecs e.received = .ok request ∧ ∃ frame response,
    e.sent = some frame ∧ decodeFrame codecs.response frame = some response ∧
      result = responseResult response

structure Sound (s : System) : Prop where
  increasing : s.called.Pairwise fun r r' => r.id < r'.id
  waiting : ∀ request, s.waiting = some request → request ∈ s.called
  toDaemon : ∀ frame ∈ s.toDaemon, ∃ request ∈ s.called,
    decodeRequest codecs frame = .ok request
  exchanges : ∀ e ∈ s.exchanges, Correlated codecs e ∧ ∃ request ∈ s.called,
    decodeRequest codecs e.received = .ok request
  toClient : ∀ frame ∈ s.toClient, ∃ e ∈ s.exchanges, e.sent = some frame
  returned : ∀ x ∈ s.returned, IsReply x.2 → IsSent codecs s.exchanges x.1 x.2

variable {codecs} {s : System} {request : Request} {result : Except CallError ResponseResult}

lemma sound_start (trn : Transport) : (start trn).Sound codecs := by
  refine ⟨List.Pairwise.nil, ?_, ?_, ?_, ?_, ?_⟩ <;> simp [start]

lemma Sound.record (h : s.Sound codecs) {oc : Option (Except CallError ResponseResult)}
    (hout : ∀ result, oc = some result → IsReply result → IsSent codecs s.exchanges request
      result) : (s.record request oc).Sound codecs := by
  cases oc with
  | none => exact h
  | some result =>
    refine ⟨h.increasing, h.waiting, h.toDaemon, h.exchanges, h.toClient, ?_⟩
    refine forall_mem_append.mpr ⟨h.returned, fun x hx => ?_⟩
    rw [mem_singleton.mp hx]
    exact hout result rfl

lemma not_isReply_sendOutcome {trn : Transport} {stop : Stop}
    (h : sendOutcome trn stop = some result) : ¬ IsReply result := by
  cases trn <;> cases stop <;> cases h <;> exact id

lemma not_isReply_receiveOutcome {trn : Transport} {stop : Stop}
    (h : receiveOutcome trn stop = some result) : ¬ IsReply result := by
  cases trn <;> cases stop <;> cases h <;> exact id

lemma Sound.send (h : s.Sound codecs) {bytes : Bytes} (client : Client)
    (hla : ∀ earlier ∈ s.called, earlier.id < request.id)
    (hen : encodeFrame codecs.request request = .ok bytes) (isDelivered : Bool) :
    Sound codecs { s with
      client
      called := s.called ++ [request]
      toDaemon := if isDelivered then s.toDaemon ++ [bytes] else s.toDaemon } := by
  have hcal : ∀ {r : Request}, r ∈ s.called → r ∈ s.called ++ [request] :=
    (mem_append_left _)
  refine ⟨?_, fun r hr => hcal (h.waiting r hr), fun frame hfr => ?_, fun e he => ?_,
    h.toClient, h.returned⟩
  · refine pairwise_append.mpr ⟨h.increasing, pairwise_singleton .., fun r hr r' hr' => ?_⟩
    rw [mem_singleton.mp hr']
    exact hla r hr
  · have hsp : frame ∈ s.toDaemon ∨ frame = bytes := by
      cases isDelivered with
      | true => simpa using hfr
      | false => exact .inl hfr
    rcases hsp with hfr | rfl
    · obtain ⟨r, hr, hdc⟩ := h.toDaemon frame hfr
      exact ⟨r, hcal hr, hdc⟩
    · exact ⟨request, mem_append_right _ (mem_singleton_self _), decodeRequest_of_encodeFrame hen⟩
  · obtain ⟨hcor, r, hr, hdc⟩ := h.exchanges e he
    exact ⟨hcor, r, hcal hr, hdc⟩

lemma Sound.call (h : s.Sound codecs) (hla : ∀ earlier ∈ s.called, earlier.id < request.id)
    (stop : Option Stop) (isDelivered : Bool) :
    (s.call codecs request stop isDelivered).Sound codecs := by
  unfold System.call
  rcases hst : s.client.start codecs request with ⟨messages | bytes, client⟩
  · have hs : Sound codecs { s with client } :=
      ⟨h.increasing, h.waiting, h.toDaemon, h.exchanges, h.toClient, h.returned⟩
    refine hs.record fun result hres hrp => ?_
    cases hres
    exact hrp.elim
  · have hse := h.send client hla (isConnected_start hst).2 isDelivered
    cases stop with
    | none =>
      refine ⟨hse.increasing, ?_, hse.toDaemon, hse.exchanges, hse.toClient, hse.returned⟩
      rintro _ ⟨⟩
      exact mem_append_right _ (mem_singleton_self _)
    | some stop =>
      exact hse.record fun result hres hrp =>
        absurd hrp (not_isReply_sendOutcome hres)

lemma IsSent.append {exchanges : List Exchange} (h : IsSent codecs exchanges request result)
    (e : Exchange) : IsSent codecs (exchanges ++ [e]) request result := by
  obtain ⟨e', he', h⟩ := h
  exact ⟨e', mem_append_left _ he', h⟩

section

variable (h : s.Sound codecs)

include h

lemma Sound.serve {bs : Bytes} {rest : List Bytes}
    (hqe : s.toDaemon = bs :: rest) (turn : Turn) : (s.serve codecs bs rest turn).Sound codecs := by
  have hby := h.toDaemon bs (hqe ▸ mem_cons_self)
  refine ⟨h.increasing, h.waiting, fun fr hfr => ?_, ?_, fun fr hfr => ?_,
    fun x hx hrp => (h.returned x hx hrp).append _⟩
  · exact h.toDaemon fr (hqe ▸ mem_cons_of_mem _ hfr)
  · refine forall_mem_append.mpr ⟨h.exchanges, fun e he => ?_⟩
    rw [mem_singleton.mp he]
    exact ⟨correlated_serveFrame codecs bs turn, hby⟩
  · rcases mem_append.mp hfr with hfr | hfr
    · obtain ⟨e, he, hse⟩ := h.toClient fr hfr
      exact ⟨e, mem_append_left _ he, hse⟩
    · exact ⟨_, mem_append_right _ (mem_singleton_self _), mem_toList.mp hfr⟩

lemma Sound.eq_of_id_eq {r r' : Request} (hr : r ∈ s.called)
    (hr' : r' ∈ s.called) (hid : r.id = r'.id) : r = r' := by
  have hnd : (s.called.map Request.id).Nodup := pairwise_map.mpr (h.increasing.imp Nat.ne_of_lt)
  exact inj_on_of_nodup_map hnd hr hr' hid

lemma Sound.isSent_finish {fr : Bytes} (hwa : s.waiting = some request) (hfr : fr ∈ s.toClient)
    (hrp : IsReply (s.client.finish codecs request fr).1) :
    IsSent codecs s.exchanges request (s.client.finish codecs request fr).1 := by
  unfold Client.finish at hrp ⊢
  cases hdc : decodeCorrelatedResponse codecs fr request.id with
  | error messages =>
    rw [hdc] at hrp
    exact hrp.elim
  | ok resp =>
    obtain ⟨hres, hid⟩ := decodeCorrelatedResponse_eq_ok.mp hdc
    obtain ⟨e, he, hse⟩ := h.toClient fr hfr
    obtain ⟨hcor, r, hr, hrec⟩ := h.exchanges e he
    obtain ⟨resp', hcar, hid', -⟩ := hcor.answer fr r hse hrec
    have hsm : resp' = resp := some.inj (hcar.decoded.symm.trans hres)
    have hreq : r = request := by
      refine h.eq_of_id_eq hr (h.waiting request hwa) ?_
      rw [← hid', hsm, hid]
    subst hreq
    exact ⟨e, he, hrec, fr, resp, hse, hres, rfl⟩

lemma Sound.receive {fr : Bytes} {rest : List Bytes}
    (hwa : s.waiting = some request) (hqe : s.toClient = fr :: rest) :
    ({ s with
      waiting := none
      toClient := rest
      client := (s.client.finish codecs request fr).2 }.record request
        (some (s.client.finish codecs request fr).1)).Sound codecs := by
  have hs : Sound codecs { s with
      waiting := none
      toClient := rest
      client := (s.client.finish codecs request fr).2 } :=
    ⟨h.increasing, nofun, h.toDaemon, h.exchanges,
      fun fr' hfr' => h.toClient fr' (hqe ▸ mem_cons_of_mem _ hfr'),
      h.returned⟩
  refine hs.record fun result hres hrp => ?_
  cases hres
  exact h.isSent_finish hwa (hqe ▸ mem_cons_self) hrp

lemma Sound.step {s' : System} {a : Action}
    (hst : s.step codecs a = some s') : s'.Sound codecs := by
  cases a with
  | call request stop isDelivered =>
    rw [System.step] at hst
    split_ifs at hst with hca
    cases hst
    exact h.call hca.2 stop isDelivered
  | turn turn =>
    rw [System.step] at hst
    split at hst
    · rename_i bytes rest hser hqe
      split_ifs at hst
      · cases hst
        exact ⟨h.increasing, h.waiting, h.toDaemon, h.exchanges, h.toClient, h.returned⟩
      · cases hst
        exact h.serve hqe turn
    · cases hst
  | closeDaemon =>
    cases hst
    exact ⟨h.increasing, h.waiting, h.toDaemon, h.exchanges, h.toClient, h.returned⟩
  | receive =>
    rw [System.step] at hst
    split at hst
    · rename_i request frame rest hwa hqe
      cases hst
      exact h.receive hwa hqe
    · cases hst
  | stopReceiving stop =>
    rw [System.step] at hst
    split at hst
    · cases hst
      have hs : Sound codecs { s with waiting := none } :=
        ⟨h.increasing, nofun, h.toDaemon, h.exchanges, h.toClient, h.returned⟩
      exact hs.record fun result hres hrp =>
        absurd hrp (not_isReply_receiveOutcome hres)
    · cases hst

lemma sound_exec {s' : System} {as : List Action}
    (hex : s.exec codecs as = some s') : s'.Sound codecs := by
  induction as generalizing s with
  | nil => exact some.inj hex ▸ h
  | cons a as ih =>
    obtain ⟨s₁, hs, hr⟩ := bind_eq_some_iff.mp hex
    exact ih (h.step hs) hr

end

end System

/-- The exchanges of a connection: in the order of the frames, at most one response for each of
them, and nothing after a frame that was not decoded. As long as the frames are decoded and answered
the next one is taken, so that the first one that is not decoded is taken too; and each frame that
is taken is answered if the write works. -/
structure ServesInOrder (codecs : Codecs) (inputs : List (Incoming × Turn)) : Prop where
  order : (handleClient codecs inputs).map Exchange.received <+:
    inputs.filterMap fun input => input.1.frame?
  correlated : ∀ e ∈ handleClient codecs inputs, Correlated codecs e
  last : ∀ before e after message, handleClient codecs inputs = before ++ e :: after →
    decodeRequest codecs e.received = .error message → after = []
  reached : ∀ (served : List (Bytes × Turn)) bytes turn rest,
    inputs = served.map (fun x => (.frame x.1, x.2)) ++ (.frame bytes, turn) :: rest →
    (∀ x ∈ served, x.1.length ≤ maxRequestSize ∧
      (∃ request, decodeRequest codecs x.1 = .ok request) ∧ Answerable codecs x.1 x.2) →
    bytes.length ≤ maxRequestSize →
    ∃ before e after, handleClient codecs inputs = before ++ e :: after ∧
      before.map (fun e => (e.received, e.turn)) = served ∧ e.received = bytes ∧ e.turn = turn
  answered : ∀ e ∈ handleClient codecs inputs, Answerable codecs e.received e.turn →
    e.sent.isSome = true

/-- **Requests and responses belong together.** The daemon answers the frames of any client in their
order, each of them at most once, and each of them if it can; after a frame that it cannot decode it
sends one error and nothing more. A client does not use a connection again that one of its calls
lost, whoever the peer is. And a call that returns a value or an error of the daemon returns what
the daemon sent for its request. -/
theorem requests_correlated (codecs : Codecs) : (∀ inputs, ServesInOrder codecs inputs) ∧
      (∀ (client : Client) (request : Request) (fate : Fate) (later : List (Request × Fate)),
        fate.IsLost codecs request → (client.call codecs request fate).1.accesses ≠ [] →
        ∀ record ∈ ((client.call codecs request fate).2.calls codecs later).1,
          record.accesses = []) ∧
      ∀ (transport : Transport) (actions : List Action) (s : System),
        (System.start transport).exec codecs actions = some s →
        ∀ x ∈ s.returned, System.IsReply x.2 → System.IsSent codecs s.exchanges x.1 x.2 := by
  refine ⟨fun inputs => ⟨received_handleClient codecs inputs, ?_, ?_, ?_, ?_⟩, ?_, ?_⟩
  · exact fun e he => correlated_of_mem_handleClient he
  · exact fun pre e aft msg hsp hdc => last_of_not_decoded hsp hdc
  · rintro served bytes turn rest rfl hserved hlength
    exact handleClient_reaches hserved hlength
  · exact fun e he hanswer => sent_of_answerable he hanswer
  · exact fun client request fate later hlo hacx =>
      accesses_of_isLost hlo hacx later
  · exact fun transport actions s hex =>
      (System.sound_exec (System.sound_start transport) hex).returned

/-- A serialisation of the values of a list, by their positions. -/
def Bitcode.ofList {α : Type} [DecidableEq α] (values : List α) : Bitcode α where
  serialize x := if x ∈ values then .ok (replicate (values.idxOf x) 1) else .error []
  deserialize bytes :=
    match values[bytes.length]? with
    | some x => .ok x
    | none => .error []
  faithful x bytes h := by
    split_ifs at h with hx
    cases h
    simp [hx]

def shortFrameText : Text := frameErrorText .tooShort

def pingCodecs : Codecs :=
  ⟨.ofList [.ping 1], .ofList [rateLimitError 1, parseErrorResponse shortFrameText]⟩

def limitedTurn : Turn := ⟨true, none, .written⟩

def pingActions : List Action := [.call (.ping 1) none true, .turn limitedTurn, .receive]

/-- The frame of a request, and one that is too short. -/
def pingInputs : List (Incoming × Turn) :=
  [(.frame (toLeBytes protocolVersion), limitedTurn), (.frame [], limitedTurn)]

lemma answerable_ping : Answerable pingCodecs (toLeBytes protocolVersion) limitedTurn where
  written := rfl
  refusal message h := by cases h
  limited request h _ := by
    cases h
    exact ⟨_, rfl, by decide⟩
  complete request _ h := by cases h

lemma answerable_short : Answerable pingCodecs [] limitedTurn where
  written := rfl
  refusal message h := by
    cases h
    exact ⟨_, rfl, by decide⟩
  limited request h := by cases h
  complete request h := by cases h

theorem requests_correlated_ping :
    (∃ s, (System.start .async).exec pingCodecs pingActions = some s ∧
      System.IsSent pingCodecs s.exchanges (.ping 1)
        (.error (.daemon ErrorCodes.rateLimited rateLimitText))) ∧
    ∃ first last frame, handleClient pingCodecs pingInputs = [first, last] ∧
      last.sent = some frame ∧ Carries pingCodecs frame (parseErrorResponse shortFrameText) := by
  refine ⟨⟨_, rfl, (requests_correlated pingCodecs).2.2 .async pingActions _ rfl
    (.ping 1, .error (.daemon ErrorCodes.rateLimited rateLimitText)) (.head _) trivial⟩, ?_⟩
  have hserves := (requests_correlated pingCodecs).1 pingInputs
  obtain ⟨before, e, after, hrun, hbefore, hbytes, hturn⟩ := hserves.reached
    [(toLeBytes protocolVersion, limitedTurn)] [] limitedTurn [] rfl
    (fun x hx => by
      rw [mem_singleton.mp hx]
      exact ⟨by decide, ⟨.ping 1, rfl⟩, answerable_ping⟩) (by decide)
  obtain ⟨first, rfl⟩ : ∃ first, before = [first] :=
    length_eq_one_iff.mp (by simpa using congrArg List.length hbefore)
  have hmem : e ∈ handleClient pingCodecs pingInputs := by simp [hrun]
  have hdecode : decodeRequest pingCodecs e.received = .error shortFrameText := by
    rw [hbytes]
    rfl
  obtain ⟨frame, hsent⟩ := isSome_iff_exists.mp (hserves.answered e hmem (by
    rw [hbytes, hturn]
    exact answerable_short))
  obtain rfl := hserves.last _ e after _ hrun hdecode
  exact ⟨first, e, frame, hrun, hsent, (hserves.correlated e hmem).refusal frame _ hsent hdecode⟩

end Omg.Daemon
