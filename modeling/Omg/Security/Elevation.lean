import Omg.Security.Handoff

/-!
# The arguments of the elevated child

To run a command as root, `omg` starts itself under `sudo`. Who records the history and which
policy applies travel in front of the arguments: the caller appends a reserved argument if it keeps
the record, `payload_command` moves it to the front, and the policy is put before the payload. The
child takes the reserved arguments off again by their position.

Source: `src/core/privilege.rs`, `src/bin/omg.rs`, `src/core/security/policy.rs`,
`src/cli/update_notice.rs`.
-/

namespace Omg.Security

open Control List Text Interfered
open Control.Interfered (Meets)
open Text (ensure bail required hexEncode hexDecode)

def elevatedMarker : Text := "__omg_elevated"

def flowParentRecords : Text := "__omg_parent_records"

def policyMarker : Text := "__omg_policy="

structure PolicyCodec (Policy : Type) where
  toVec : Policy → Result Bytes
  fromSlice : Bytes → Result Policy

def PolicyCodec.RoundTrips {Policy : Type} (C : PolicyCodec Policy) : Prop :=
  ∀ policy bytes, C.toVec policy = .ok bytes → C.fromSlice bytes = .ok policy

inductive ParsedCommand
  | install
  | other

section

variable {Policy : Type} (sha256 : Bytes → Bytes) (P : Process) (debianBackend : Bool)
  (parse : List Text → Result ParsedCommand) (C : PolicyCodec Policy)

def callerArgs (payload : List Text) (ownsHistory : Bool) : List Text :=
  payload ++ if ownsHistory then [flowParentRecords] else []

def splitParentRecords (args : List Text) : List Text × Bool :=
  if args.getLast? = some flowParentRecords then (args.dropLast, true) else (args, false)

def internalPrivilegedEntrypoints : List Text := ["upgrade", "fullupdate", "turboupdate"]

/-- Pin the local packages of an `install` command. -/
def snapshotInstallInputs (args : List Text) : Call (Option SnapshotInputs) :=
  let payload := (splitParentRecords args).1
  match parse ("omg" :: payload) with
  | .error error =>
    if payload.head?.any (internalPrivilegedEntrypoints.contains ·) then pure none
    else throw error
  | .ok .install => do
    let inputs ← SnapshotInputs.capture sha256 P debianBackend args
    pure (some inputs)
  | .ok .other => pure none

def policyHandoff (explicit : Result (Option Policy)) : Result (Option Text) := do
  match ← explicit with
  | none => pure none
  | some policy =>
    let bytes ← C.toVec policy
    ensure (bytes.length ≤ 32768) "Security policy exceeds elevation handoff limit"
    pure (some (policyMarker ++ hexEncode bytes))

/-- The arguments of `sudo` that matter here: `-n`, and what stands behind `--`. -/
structure SudoCommand where
  nonInteractive : Bool
  argv : List Text
deriving DecidableEq

/-- The command that runs the executable again under `sudo`. -/
def payloadCommand (exe : Text) (args : List Text) (nonInteractive : Bool) : SudoCommand :=
  let (payload, parentRecords) := splitParentRecords args
  ⟨nonInteractive,
    exe :: elevatedMarker :: ((if parentRecords then [flowParentRecords] else []) ++ payload)⟩

/-- What the caller does until `sudo` runs. -/
def sudoPayload (explicit : Result (Option Policy)) (exe : Text)
    (nonInteractive : Bool) (args : List Text) : Call SudoCommand := do
  let pinned ← snapshotInstallInputs sha256 P debianBackend parse args
  let policy ← policyHandoff C explicit
  let transmitted := (pinned.map (·.targets)).getD args
  pure (payloadCommand exe (policy.toList ++ transmitted) nonInteractive)

end

section

variable {Policy : Type} [DecidableEq Policy] (C : PolicyCodec Policy) (isRoot : Bool)
  (trusted : Result Policy)

/-- Take off the reserved arguments. The result is the rest, whether the process is an elevated
child, and whether its caller records the history. -/
def stripInternalInvocationMarkers (args : List Text) : List Text × Bool × Bool :=
  if isRoot && args[1]? == some elevatedMarker then
    let rest := args.eraseIdx 1
    if rest[1]? = some flowParentRecords then (rest.eraseIdx 1, true, true)
    else (rest, true, false)
  else (args, false, false)

def policyMismatch : Text :=
  ("Inherited elevation policy does not match the invoking user's trusted policy file; " ++
    "refusing the forgeable policy handoff (custom OMG_CONFIG_DIR cannot cross sudo " ++
    "elevation)").toList

/-- The errors of `hex::decode`, without the place of a wrong character. -/
def hexError (encoded : Text) : Text :=
  if encoded.length % 2 = 1 then "Odd number of digits" else "Invalid character"

def inheritPolicy (argument : Text) : Result Policy := do
  ensure isRoot "Only an elevated child can inherit policy"
  let encoded ← required (stripPrefix policyMarker argument) "Missing policy marker"
  ensure (byteLen encoded ≤ 65536) "Inherited policy exceeds limit"
  let bytes ← required (hexDecode encoded) (hexError encoded)
  let policy ← C.fromSlice bytes
  let found ← trusted
  ensure (policy = found) policyMismatch
  pure policy

def isUpdateNotice (args : List Text) : Bool :=
  (args.length == 2 || (args.length == 3 && args[2]? == some "--refresh".toList)) &&
    args[1]? == some "__update-notice".toList

def helpFlags : List Text := ["--help", "-h", "help"]

def allCommandsFlag : Text := "--all-commands"

def rootHelpSelection (args : List Text) : Option Bool :=
  let tail := args.tail
  if tail = [] || tail.length > 2 ||
      tail.any (fun arg => !(helpFlags.contains arg || arg == allCommandsFlag)) then none
  else if tail.any (helpFlags.contains ·) then some (tail.contains allCommandsFlag)
  else none

structure Invocation (Policy : Type) where
  args : List Text
  reexecElevated : Bool
  parentRecords : Bool
  policy : Option Policy
deriving DecidableEq

inductive Start (Policy : Type)
  | updateNotice
  | rootHelp (allCommands : Bool)
  | invocation (invocation : Invocation Policy)
deriving DecidableEq

def takePolicy (args : List Text) (reexecElevated parentRecords : Bool) : Result (Start Policy) :=
  match args[1]? with
  | some argument =>
    if reexecElevated && policyMarker.isPrefixOf argument then
      (inheritPolicy C isRoot trusted argument).map fun policy =>
        .invocation ⟨args.eraseIdx 1, reexecElevated, parentRecords, some policy⟩
    else .ok (.invocation ⟨args, reexecElevated, parentRecords, none⟩)
  | none => .ok (.invocation ⟨args, reexecElevated, parentRecords, none⟩)

/-- `main` up to the point where the reserved arguments are gone. -/
def mainStart (argv : List Text) : Result (Start Policy) :=
  if isUpdateNotice argv then .ok .updateNotice
  else
    match rootHelpSelection argv with
    | some allCommands => .ok (.rootHelp allCommands)
    | none =>
      let (args, reexecElevated, parentRecords) := stripInternalInvocationMarkers isRoot argv
      takePolicy C isRoot trusted args reexecElevated parentRecords

end

/-! ### The child -/

section

variable {Policy : Type} [DecidableEq Policy] {C : PolicyCodec Policy}
  {trusted : Result Policy} {policy : Option Policy}

lemma isUpdateNotice_elevated (exe : Text) (rest : List Text) :
    isUpdateNotice (exe :: elevatedMarker :: rest) = false := by
  have hne : (elevatedMarker == "__update-notice".toList) = false := by decide +kernel
  simp only [isUpdateNotice, getElem?_cons_succ, getElem?_cons_zero, Option.some_beq_some,
    hne, Bool.and_false]

lemma rootHelpSelection_elevated (exe : Text) (rest : List Text) :
    rootHelpSelection (exe :: elevatedMarker :: rest) = none := by
  have hne : (!(helpFlags.contains elevatedMarker || elevatedMarker == allCommandsFlag)) =
    true := by
    decide +kernel
  simp only [rootHelpSelection, tail_cons, any_cons, hne, Bool.true_or, Bool.or_true, if_true]

lemma mainStart_elevated (exe : Text) (rest : List Text) :
    mainStart C true trusted (exe :: elevatedMarker :: rest) =
      if rest.head? = some flowParentRecords then
        takePolicy C true trusted (exe :: rest.tail) true true
      else takePolicy C true trusted (exe :: rest) true false := by
  have hstr : stripInternalInvocationMarkers true (exe :: elevatedMarker :: rest) =
      if rest.head? = some flowParentRecords then (exe :: rest.tail, true, true)
      else (exe :: rest, true, false) := by
    cases rest <;> simp [stripInternalInvocationMarkers]
  unfold mainStart
  rw [isUpdateNotice_elevated, rootHelpSelection_elevated, hstr, if_neg Bool.false_ne_true]
  split_ifs <;> rfl

lemma parentRecords_of_takePolicy {args : List Text} {reexecElevated prs : Bool}
    {invocation : Invocation Policy} (h : takePolicy C true trusted args reexecElevated prs =
      .ok (.invocation invocation)) : invocation.parentRecords = prs := by
  unfold takePolicy at h
  split at h
  · split_ifs at h
    · rename_i argument _ _
      cases hpo : inheritPolicy C true trusted argument with
      | error e => simp [hpo, Except.map] at h
      | ok policy =>
        simp only [hpo, Except.map, Except.ok.injEq, Start.invocation.injEq] at h
        rw [← h]
    · simp only [Except.ok.injEq, Start.invocation.injEq] at h
      rw [← h]
  · simp only [Except.ok.injEq, Start.invocation.injEq] at h
    rw [← h]

lemma inheritPolicy_handoff (hC : C.RoundTrips) {p q : Policy} {bs : Bytes}
    (hby : C.toVec p = .ok bs) (hlen : bs.length ≤ 32768) :
    inheritPolicy C true trusted (policyMarker ++ hexEncode bs) = .ok q ↔
      q = p ∧ trusted = .ok p := by
  have hlen' : byteLen (hexEncode bs) ≤ 65536 := by
    rw [byteLen_hexEncode]
    omega
  have hrd := hC p bs hby
  simp only [inheritPolicy, bind_eq_ok, ensure_eq_ok, stripPrefix_append, required,
    hexDecode_hexEncode, hrd, decide_eq_true_eq, Except.ok.injEq, exists_eq_left',
    exists_const, true_and, hlen', pure, Except.pure]
  constructor
  · rintro ⟨fd, hfo, rfl, rfl⟩
    exact ⟨rfl, hfo⟩
  · rintro ⟨rfl, hfo⟩
    exact ⟨q, hfo, rfl, rfl⟩

omit [DecidableEq Policy] in
lemma policyHandoff_eq_ok {handoff : Option Text} (h : policyHandoff C (.ok policy) = .ok handoff) :
    (policy = none ∧ handoff = none) ∨ ∃ p bs, policy = some p ∧ C.toVec p = .ok bs ∧
      bs.length ≤ 32768 ∧ handoff = some (policyMarker ++ hexEncode bs) := by
  obtain ⟨pol', ⟨⟩, h⟩ := bind_eq_ok.mp h
  cases policy with
  | none =>
    cases h
    exact .inl ⟨rfl, rfl⟩
  | some p =>
    obtain ⟨bs, hby, h⟩ := bind_eq_ok.mp h
    obtain ⟨_, hlen, h⟩ := bind_eq_ok.mp h
    cases h
    simp only [ensure_eq_ok, decide_eq_true_eq] at hlen
    exact .inr ⟨p, bs, rfl, hby, hlen, rfl⟩

/-! ### The round trip -/

/-- The payloads that come through the protocol as they are: without a record marker of the user in
the places where the protocol looks for its own, without a policy of the user in the first place,
and with a policy that the child trusts. -/
structure Transparent (trusted : Result Policy) (policy : Option Policy)
    (ownsHistory : Bool) (payload : List Text) : Prop where
  last : ownsHistory = true ∨ payload.getLast? ≠ some flowParentRecords
  head : ownsHistory = true ∨ policy.isSome = true ∨ payload.head? ≠ some flowParentRecords
  marker : policy.isSome = true ∨
    ∀ argument, payload.head? = some argument → policyMarker.isPrefixOf argument = false
  trusted : ∀ p, policy = some p → trusted = .ok p

lemma policyArgument_ne_flow (bs : Bytes) : policyMarker ++ hexEncode bs ≠ flowParentRecords := by
  intro h
  have hpx : policyMarker.isPrefixOf flowParentRecords = true := by
    rw [← h]
    exact isPrefixOf_iff_prefix.mpr (prefix_append _ _)
  revert hpx
  decide +kernel

lemma takePolicy_iff (hC : C.RoundTrips) {handoff : Option Text}
    (hhf : policyHandoff C (.ok policy) = .ok handoff) (exe : Text) (pl : List Text)
    (prs oh : Bool) : takePolicy C true trusted (exe :: (handoff.toList ++ pl)) true prs =
        .ok (.invocation ⟨exe :: pl, true, oh, policy⟩) ↔
      prs = oh ∧ (policy.isSome ∨ ∀ argument,
        pl.head? = some argument → policyMarker.isPrefixOf argument = false) ∧
        ∀ p, policy = some p → trusted = .ok p := by
  rcases policyHandoff_eq_ok hhf with ⟨rfl, rfl⟩ | ⟨p, bs, rfl, hby, hlen, rfl⟩
  · cases pl with
    | nil => simp [takePolicy]
    | cons argument pl =>
      cases hmk : policyMarker.isPrefixOf argument with
      | false => simp [takePolicy, hmk]
      | true =>
        cases hpo : inheritPolicy C true trusted argument <;>
          simp [takePolicy, hmk, hpo, Except.map]
  · have hpx : policyMarker.isPrefixOf (policyMarker ++ hexEncode bs) = true :=
      isPrefixOf_iff_prefix.mpr (prefix_append _ _)
    have hpo (q : Policy) : inheritPolicy C true trusted (policyMarker ++ hexEncode bs) =
        .ok q ↔ q = p ∧ trusted = .ok p := inheritPolicy_handoff hC hby hlen
    cases hinh : inheritPolicy C true trusted (policyMarker ++ hexEncode bs) with
    | error e =>
      have htru : trusted ≠ .ok p := fun h => by
        rw [(hpo p).mpr ⟨rfl, h⟩] at hinh
        cases hinh
      simp [takePolicy, hinh, Except.map, htru]
    | ok q =>
      obtain ⟨rfl, rfl⟩ := (hpo q).mp hinh
      simp [takePolicy, hinh, Except.map]

lemma splitParentRecords_owned (args : List Text) :
    splitParentRecords (args ++ [flowParentRecords]) = (args, true) := by
  simp [splitParentRecords]

lemma mainStart_payloadCommand_iff (hC : C.RoundTrips) {handoff : Option Text}
    (hhf : policyHandoff C (.ok policy) = .ok handoff) (exe : Text) (nonInteractive : Bool)
    (pl : List Text) (oh : Bool) : mainStart C true trusted (payloadCommand exe
        (handoff.toList ++ callerArgs pl oh) nonInteractive).argv =
        .ok (.invocation ⟨exe :: pl, true, oh, policy⟩) ↔ Transparent trusted policy oh pl := by
  cases oh with
  | true =>
    rw [callerArgs, if_pos rfl, ← append_assoc, payloadCommand, splitParentRecords_owned]
    simp only [if_true, singleton_append, mainStart_elevated, head?_cons, tail_cons]
    rw [takePolicy_iff hC hhf]
    exact ⟨fun h => ⟨.inl rfl, .inl rfl, h.2.1, h.2.2⟩, fun h => ⟨rfl, h.marker, h.trusted⟩⟩
  | false =>
    rw [callerArgs, if_neg Bool.false_ne_true, append_nil, payloadCommand]
    -- Without a policy the first and the last argument are the user's, else only the last one.
    have hla : (handoff.toList ++ pl).getLast? = some flowParentRecords ↔
        pl.getLast? = some flowParentRecords := by
      rcases policyHandoff_eq_ok hhf with ⟨-, rfl⟩ | ⟨p, bs, -, -, -, rfl⟩
      · simp
      · cases h : pl.getLast? <;> simp [getLast?_cons, h, policyArgument_ne_flow]
    have hh : (handoff.toList ++ pl).head? = some flowParentRecords ↔
        policy.isSome = false ∧ pl.head? = some flowParentRecords := by
      rcases policyHandoff_eq_ok hhf with ⟨rfl, rfl⟩ | ⟨p, bs, rfl, -, -, rfl⟩
      · simp
      · simp [policyArgument_ne_flow]
    by_cases hfl : pl.getLast? = some flowParentRecords
    · rw [splitParentRecords, if_pos (hla.mpr hfl)]
      simp only [if_true, mainStart_elevated]
      refine ⟨fun h => ?_, fun h => absurd hfl (by simpa using h.last)⟩
      have := parentRecords_of_takePolicy h
      simp at this
    · rw [splitParentRecords, if_neg (mt hla.mp hfl)]
      simp only [Bool.false_eq_true, if_false, nil_append, mainStart_elevated]
      split_ifs with hf
      · refine ⟨fun h => ?_, fun h => ?_⟩
        · have := parentRecords_of_takePolicy h
          simp at this
        · obtain ⟨hpo, hpl⟩ := hh.mp hf
          have := h.head
          simp [hpo, hpl] at this
      · rw [takePolicy_iff hC hhf]
        refine ⟨fun h => ⟨.inr hfl, .inr ?_, h.2.1, h.2.2⟩, fun h => ⟨rfl, h.marker, h.trusted⟩⟩
        cases hpo : policy.isSome with
        | true => exact .inl rfl
        | false => exact .inr fun hpl => hf (hh.mpr ⟨hpo, hpl⟩)

end

/-! ### The whole way -/

section

variable {sha256 : Bytes → Bytes} {debianBackend : Bool} {P : Process} {w : System}
  {tgts rewritten : List Text} {snapshots : List ArchiveSnapshot}

lemma Pins.eq_of_forall_passed (h : Pins sha256 debianBackend P w tgts snapshots rewritten)
    (hpsd : ∀ tgt ∈ tgts, isArchiveInput debianBackend tgt = false) : rewritten = tgts := by
  induction h with
  | nil => rfl
  | passed _ _ ih => rw [ih fun tgt ht => hpsd tgt (mem_cons_of_mem _ ht)]
  | archive har _ _ _ => simp [hpsd _ mem_cons_self] at har

lemma Pins.append_passed {last : Text} (hla : isArchiveInput debianBackend last = false)
    (h : Pins sha256 debianBackend P w (tgts ++ [last]) snapshots rewritten) :
    ∃ sent, rewritten = sent ++ [last] ∧ Pins sha256 debianBackend P w tgts snapshots sent := by
  induction tgts generalizing snapshots rewritten with
  | nil =>
    cases h with
    | passed _ hr =>
      cases hr
      exact ⟨[], rfl, .nil⟩
    | archive har _ _ => simp [hla] at har
  | cons tgt tgts ih =>
    cases h with
    | passed har hr =>
      obtain ⟨sent, rfl, hse⟩ := ih hr
      exact ⟨tgt :: sent, rfl, .passed har hse⟩
    | archive har hv hr =>
      obtain ⟨sent, rfl, hse⟩ := ih hr
      exact ⟨_ :: sent, rfl, .archive har hv hse⟩

/-- The payload that is sent: the one of the caller, with the local packages of an `install`
replaced by their handoffs. -/
def Transmitted (sha256 : Bytes → Bytes) (debianBackend : Bool) (P : Process) (w : System)
    (payload sent : List Text) : Prop :=
  sent = payload ∨ ∃ snapshots, Pins sha256 debianBackend P w payload snapshots sent

lemma isArchiveInput_flowParentRecords :
    isArchiveInput debianBackend flowParentRecords = false := by
  cases debianBackend <;> decide +kernel

lemma meets_snapshotInstallInputs (parse : List Text → Result ParsedCommand)
    (pl : List Text) (oh : Bool) : Meets (Kept P none)
      (snapshotInstallInputs sha256 P debianBackend parse (callerArgs pl oh))
      fun _ pin w' => ∃ sent, Transmitted sha256 debianBackend P w' pl sent ∧
        (pin.map (·.targets)).getD (callerArgs pl oh) = callerArgs sent oh := by
  unfold snapshotInstallInputs
  dsimp only
  split
  · split_ifs
    · exact Meets.pure fun w => ⟨pl, .inl rfl, rfl⟩
    · exact Meets.throw
  · refine (meets_snapshotInputs_capture _).bind fun inps => Meets.pure ?_
    rintro w' w ⟨-, hpi⟩
    cases oh with
    | true =>
      obtain ⟨sent, hse, hpi'⟩ := hpi.append_passed isArchiveInput_flowParentRecords
      exact ⟨sent, .inr ⟨_, hpi'⟩, hse⟩
    | false =>
      rw [callerArgs, if_neg Bool.false_ne_true, append_nil] at hpi
      exact ⟨inps.targets, .inr ⟨_, hpi⟩, by simp [callerArgs]⟩
  · exact Meets.pure fun w => ⟨pl, .inl rfl, rfl⟩

variable {Policy : Type} [DecidableEq Policy] {C : PolicyCodec Policy} {policy : Option Policy}

/-- When the caller got as far as running `sudo`, the child gets back the payload that was sent,
the owner of the record and the policy exactly if the protocol is transparent for them. The payload
that was sent is the one of the caller if no local package is among its arguments. -/
theorem mainStart_sudoPayload_iff (hC : C.RoundTrips) (trusted : Except AnyhowError Policy)
    {parse : List Text → Except AnyhowError ParsedCommand} {exe : Text} {nonInteractive : Bool}
    {payload : List Text} {ownsHistory : Bool} {env : ℕ → System → System}
    (henv : ∀ k w, Kept P none w (env k w)) {command : SudoCommand} {k k' : ℕ} {w w' : System}
    (hrun : sudoPayload sha256 P debianBackend parse C (.ok policy) exe nonInteractive
      (callerArgs payload ownsHistory) env (k, w) = .ok (command, k', w')) :
    ∃ sent, Transmitted sha256 debianBackend P w' payload sent ∧
      ((∀ target ∈ payload, isArchiveInput debianBackend target = false) → sent = payload) ∧
      (mainStart C true trusted command.argv =
          .ok (.invocation ⟨exe :: sent, true, ownsHistory, policy⟩) ↔
        Transparent trusted policy ownsHistory sent) := by
  have hmee : Meets (Kept P none) (sudoPayload sha256 P debianBackend parse C (.ok policy) exe
      nonInteractive (callerArgs payload ownsHistory)) fun _ command w' =>
        ∃ sent handoff, Transmitted sha256 debianBackend P w' payload sent ∧
          policyHandoff C (.ok policy) = .ok handoff ∧
          command = payloadCommand exe (handoff.toList ++ callerArgs sent ownsHistory)
            nonInteractive := by
    refine (meets_snapshotInstallInputs parse payload ownsHistory).bind fun pin => ?_
    refine Meets.lift_bind fun handoff hhf => Meets.pure ?_
    rintro w' w ⟨sent, hse, htar⟩
    exact ⟨sent, handoff, hse, hhf, by rw [htar]⟩
  obtain ⟨sent, handoff, hse, hhf, rfl⟩ := hmee env henv k w command k' w' hrun
  refine ⟨sent, hse, fun hpsd => ?_, mainStart_payloadCommand_iff hC hhf _ _ _ _⟩
  rcases hse with rfl | ⟨snapshots, hpi⟩
  · rfl
  · exact hpi.eq_of_forall_passed hpsd

end

def trivialPolicies : PolicyCodec Unit := ⟨fun _ => .ok [], fun _ => .ok ()⟩

/-- The default process asks for an installation, keeps the record and passes on a policy. -/
theorem mainStart_sudoPayload_iff_install :
    ∃ command, sudoPayload id default false (fun _ => .ok .install) trivialPolicies (.ok (some ()))
      "omg".toList false (callerArgs ["install".toList, "jq".toList] true) (fun _ w => w)
        (0, default) = .ok (command, 0, default) ∧
    ∃ sent, Transmitted id false default default ["install".toList, "jq".toList] sent ∧
      mainStart trivialPolicies true (.ok ()) command.argv =
        .ok (.invocation ⟨"omg".toList :: sent, true, true, some ()⟩) := by
  let command : SudoCommand := ⟨false, ["omg", elevatedMarker, flowParentRecords,
    policyMarker, "install", "jq"]⟩
  have hrun : sudoPayload id default false (fun _ => .ok .install) trivialPolicies (.ok (some ()))
      "omg" false (callerArgs ["install", "jq"] true) (fun _ w => w)
        (0, default) = .ok (command, 0, default) := rfl
  have hC : trivialPolicies.RoundTrips := fun _ _ _ => rfl
  obtain ⟨sent, hse, -, hiff⟩ := mainStart_sudoPayload_iff hC (.ok ()) (fun _ w => Kept.refl w) hrun
  exact ⟨command, hrun, sent, hse, hiff.mpr ⟨.inl rfl, .inl rfl, .inl rfl, fun _ _ => rfl⟩⟩

/-- A command that the child is to record as a whole: a last argument of the user that reads like
the record marker is taken for it. The child then gets one package less and records nothing. -/
theorem exists_argument_consumed :
    ∃ command, sudoPayload id default false (fun _ => .ok .other) trivialPolicies (.ok none)
      "omg".toList false
      (callerArgs ["remove".toList, "jq".toList, "__omg_parent_records".toList] false)
      (fun _ w => w) (0, default) = .ok (command, 0, default) ∧
    mainStart trivialPolicies true (.ok ()) command.argv =
      .ok (.invocation ⟨["omg".toList, "remove".toList, "jq".toList], true, true, none⟩) :=
  ⟨⟨false, ["omg".toList, elevatedMarker, flowParentRecords, "remove".toList, "jq".toList]⟩, rfl,
    by decide +kernel⟩

end Omg.Security
