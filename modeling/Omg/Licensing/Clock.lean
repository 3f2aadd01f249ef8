import Omg.Control.Machine
import Omg.Text.Basic

/-!
# The clock of licenses

The expiry of a license token is judged by the highest time that was ever observed and not by the
clock alone, so that a token does not come back to life when the clock is set back. The highest time
is kept in a file.

A call is a process of the machine below: any number of calls go on at once, in any interleaving.
Each reading of the clock is arbitrary, every operation on files may fail, and a call may be cut off
at any point; the operating system then releases its lock. The file is replaced atomically, but the
replacement may be reported as failed after it happened.

The verification of the token itself is a parameter.

Source: `src/core/license.rs`.
-/

namespace Omg.Licensing

open Control Text

/-! ### 64-bit integers -/

/-- The values of an `i64`. -/
structure I64 where
  val : ℤ
  bounds : -9223372036854775808 ≤ val ∧ val < 9223372036854775808
  deriving DecidableEq

instance : LE I64 := ⟨fun m n => m.val ≤ n.val⟩

instance (m n : I64) : Decidable (m ≤ n) := inferInstanceAs (Decidable (m.val ≤ n.val))

lemma I64.le_refl (n : I64) : n ≤ n := Int.le_refl n.val

variable {n : I64}

lemma I64.le_trans {l m : I64} (hlm : l ≤ m) (hmn : m ≤ n) : l ≤ n := Int.le_trans hlm hmn

/-- `Ord::max`. -/
def I64.max (m n : I64) : I64 := if m ≤ n then n else m

lemma I64.le_max_left (m n : I64) : m ≤ I64.max m n := by
  unfold I64.max
  split_ifs with h
  · exact h
  · exact I64.le_refl m

/-- `i64::to_string`. -/
def I64.toText (n : I64) : Text := if n.1 < 0 then '-' :: decimal n.1.natAbs else decimal n.1.natAbs

/-- `str::parse` to an `i64`: an optional sign, and a nonempty run of digits. -/
def parseI64 (s : Text) : Option I64 :=
  let (negative, digits) := match s with
    | '-' :: rest => (true, rest)
    | '+' :: rest => (false, rest)
    | rest => (false, rest)
  if digits ≠ [] && digits.all Char.isDigit then
    let magnitude : ℤ := Nat.ofDigitChars 10 digits 0
    let value := if negative then -magnitude else magnitude
    if h : -9223372036854775808 ≤ value ∧ value < 9223372036854775808 then some ⟨value, h⟩ else none
  else none

lemma parseI64_toText (n : I64) : parseI64 n.toText = some n := by
  obtain ⟨n, hn⟩ := n
  have hne : decimal n.natAbs ≠ [] := Nat.toDigits_ne_nil
  have hall : (decimal n.natAbs).all Char.isDigit = true :=
    List.all_eq_true.mpr fun _ => isDigit_of_mem_decimal
  have hval : Nat.ofDigitChars 10 (decimal n.natAbs) 0 = n.natAbs := Nat.ofDigitChars_ten_toDigits
  unfold I64.toText
  split_ifs with hneg
  · have hca : -(n.natAbs : ℤ) = n := by
      change n < 0 at hneg
      omega
    simp only [parseI64, hval, hca]
    simp [hne, hall, hn]
  · have hca : (n.natAbs : ℤ) = n := by
      change ¬ n < 0 at hneg
      omega
    have hsi : (match decimal n.natAbs with
        | '-' :: rest => (true, rest)
        | '+' :: rest => (false, rest)
        | rest => (false, rest)) = (false, decimal n.natAbs) := by
      split
      · rename_i rest heq
        have := isDigit_of_mem_decimal (n := n.natAbs) (c := '-') (by simp [heq])
        simp at this
      · rename_i rest heq
        have := isDigit_of_mem_decimal (n := n.natAbs) (c := '+') (by simp [heq])
        simp at this
      · rfl
    simp only [parseI64, hsi, hval, hca]
    simp [hne, hall, hn]

lemma trim_toText (n : I64) : trim n.toText = n.toText := by
  refine trim_eq_self fun c hc => ?_
  have hdig : ∀ c ∈ decimal n.1.natAbs, isWhitespace c = false := by
    intro c hc
    have h := isDigit_of_mem_decimal hc
    have hnat := toNat_of_isAlphanum (c := c) (by simp [Char.isAlphanum, h])
    simp only [isWhitespace, Bool.or_eq_false_iff, Bool.and_eq_false_iff,
      decide_eq_false_iff_not, beq_eq_false_iff_ne]
    omega
  unfold I64.toText at hc
  split_ifs at hc
  · rcases List.mem_cons.mp hc with rfl | hc
    · decide
    · exact hdig c hc
  · exact hdig c hc

/-! ### Calls -/

structure Paths where
  path : Text
  parent : Option Text
  lockPath : Text

def missingParentMessage : Text := "License clock watermark path must have a parent directory"

def createDirectoryMessage (parent : Text) : Text :=
  "Failed to create license clock watermark directory: " ++ parent

def openLockMessage (lockPath : Text) : Text := "Failed to open license clock lock: " ++ lockPath

def lockMessage (lockPath : Text) : Text := "Failed to lock license clock: " ++ lockPath

def malformedMessage (path : Text) : Text := "Malformed license clock watermark: " ++ path

def readMessage (path : Text) : Text := "Failed to read license clock watermark: " ++ path

def persistMessage : Text := "Failed to persist license clock watermark"

def unlockMessage : Text := "Failed to unlock license clock"

def alsoUnlockMessage (error : Text) : Text :=
  "License clock update also failed to unlock its lock: " ++ error

structure Store where
  file : Option Text
  lock : Option ℕ

inductive Call where
  | idle
  | preparing (now : I64)
  | opening (now : I64)
  | waiting (now : I64)
  | locked (now : I64)
  | loaded (now : I64) (stored : Option I64)
  | unlocking (result : Result I64)
  | finished (result : Result I64)
  | crashed

/-- An operation that may fail with an error of the operating system. -/
abbrev Fault := Option Text

inductive Action where
  | start (now : I64)
  | createDirectory (fault : Fault)
  | openLock (fault : Fault)
  | acquire (fault : Fault)
  | load (fault : Fault)
  | persist (fault : Fault) (replaced : Bool)
  | unlock (fault : Fault)
  | crash

def failed (message : Text) (fault : Text) : AnyhowError := [message, fault]

def loadClockWatermark (path : Text) (file : Option Text) : Fault → Result (Option I64)
  | some fault => .error (failed (readMessage path) fault)
  | none =>
    match file with
    | none => .ok none
    | some content =>
      match parseI64 (trim content) with
      | some stored => .ok (some stored)
      | none => .error [malformedMessage path]

def afterUnlock (result : Result I64) : Fault → Result I64
  | none => result
  | some fault =>
    match result with
    | .ok _ => .error (failed unlockMessage fault)
    | .error operationError => .error (alsoUnlockMessage fault :: operationError)

def floorOf (stored : Option I64) (now : I64) : I64 := I64.max (stored.getD now) now

def proceed (fault : Fault) (message : Text) (next : Call) : Call :=
  match fault with
  | none => next
  | some fault => .finished (.error (failed message fault))

/-- The calls of `license_clock_floor_with`. -/
def clock (p : Paths) : Machine ℕ Call Store Action where
  advance i action call store :=
    match call, action with
    | .idle, .start now =>
      match p.parent with
      | some _ => some (.preparing now, store)
      | none => some (.finished (.error [missingParentMessage]), store)
    | .preparing now, .createDirectory fault =>
      some (proceed fault (createDirectoryMessage (p.parent.getD [])) (.opening now), store)
    | .opening now, .openLock fault =>
      some (proceed fault (openLockMessage p.lockPath) (.waiting now), store)
    | .waiting now, .acquire none =>
      if store.lock = none then some (.locked now, { store with lock := some i }) else none
    | .waiting _, .acquire (some fault) =>
      some (.finished (.error (failed (lockMessage p.lockPath) fault)), store)
    | .locked now, .load fault =>
      match loadClockWatermark p.path store.file fault with
      | .ok stored => some (.loaded now stored, store)
      | .error error => some (.unlocking (.error error), store)
    | .loaded now stored, .persist fault replaced =>
      let floor := floorOf stored now
      let written := { store with file := some floor.toText }
      if stored ≠ some floor then
        match fault with
        | none => some (.unlocking (.ok floor), written)
        | some fault =>
          some (.unlocking (.error (failed persistMessage fault)),
            if replaced then written else store)
      else some (.unlocking (.ok floor), store)
    | .unlocking result, .unlock fault =>
      -- A lock that is not released by name is released when the file is closed.
      some (.finished (afterUnlock result fault), { store with lock := none })
    | .idle, .crash | .finished _, .crash | .crashed, .crash => none
    | _, .crash =>
      some (.crashed, { store with lock := if store.lock = some i then none else store.lock })
    | _, _ => none

def initial (file : Option Text) : Machine.Config ℕ Call Store := ⟨fun _ => .idle, ⟨file, none⟩⟩

/-! ### Transitions -/

inductive Outside : Call → Prop
  | preparing (now) : Outside (.preparing now)
  | opening (now) : Outside (.opening now)
  | waiting (now) : Outside (.waiting now)
  | failed (error) : Outside (.finished (.error error))

inductive Transition (path : Text) (i : ℕ) : Call → Store → Call → Store → Prop
  | outside {call next : Call} (store) (hnext : Outside next) :
      Transition path i call store next store
  | acquire (now) (store : Store) (hlock : store.lock = none) :
      Transition path i (.waiting now) store (.locked now) { store with lock := some i }
  | load (now) (store : Store) (fault stored)
      (hload : loadClockWatermark path store.file fault = .ok stored) :
      Transition path i (.locked now) store (.loaded now stored) store
  | loadFailed (now store error) :
      Transition path i (.locked now) store (.unlocking (.error error)) store
  | persist (now) (store : Store) (stored) :
      Transition path i (.loaded now stored) store (.unlocking (.ok (floorOf stored now)))
        { store with file := some (floorOf stored now).toText }
  | keep (now) (store : Store) (stored) (hstored : stored = some (floorOf stored now)) :
      Transition path i (.loaded now stored) store (.unlocking (.ok (floorOf stored now))) store
  | persistFailed (now) (store : Store) (stored error) (replaced : Bool) :
      Transition path i (.loaded now stored) store (.unlocking (.error error))
        (if replaced then { store with file := some (floorOf stored now).toText } else store)
  | unlock (result) (store : Store) (fault) :
      Transition path i (.unlocking result) store (.finished (afterUnlock result fault))
        { store with lock := none }
  | crash (call) (store : Store) :
      Transition path i call store .crashed
        { store with lock := if store.lock = some i then none else store.lock }

variable {next : Call} {p : Paths} {i : ℕ} {call : Call} {store : Store} {path : Text}
  {stored : Option I64} {store' : Store} {s : Machine.Config ℕ Call Store}

lemma outside_proceed (flt : Fault) (msg : Text) (h : Outside next) :
    Outside (proceed flt msg next) := by
  cases flt with
  | none => exact h
  | some flt => exact .failed _

lemma transition_of_advance {act : Action} {next : Call × Store}
    (h : (clock p).advance i act call store = some next) :
    Transition p.path i call store next.1 next.2 := by
  simp only [clock] at h
  split at h
  · -- The call starts.
    split at h <;> obtain rfl := Option.some.inj h
    · exact .outside store (.preparing _)
    · exact .outside store (.failed _)
  · obtain rfl := Option.some.inj h
    exact .outside store (outside_proceed _ _ (.opening _))
  · obtain rfl := Option.some.inj h
    exact .outside store (outside_proceed _ _ (.waiting _))
  · split_ifs at h with hlock
    obtain rfl := Option.some.inj h
    exact .acquire _ store hlock
  · obtain rfl := Option.some.inj h
    exact .outside store (.failed _)
  · split at h <;> rename_i hload <;> obtain rfl := Option.some.inj h
    · exact .load _ store _ _ hload
    · exact .loadFailed _ store _
  · rename_i now stored fault replaced
    by_cases hstored : stored = some (floorOf stored now)
    · rw [if_neg (not_not.mpr hstored)] at h
      obtain rfl := Option.some.inj h
      exact .keep now store stored hstored
    · rw [if_pos hstored] at h
      split at h <;> obtain rfl := Option.some.inj h
      · exact .persist now store stored
      · exact .persistFailed now store stored _ replaced
  · obtain rfl := Option.some.inj h
    exact .unlock _ store _
  · cases h
  · cases h
  · cases h
  · obtain rfl := Option.some.inj h
    exact .crash _ store
  · cases h

/-! ### What a call keeps -/

def watermark (file : Option Text) : Option I64 := file.bind fun content =>
  parseI64 (trim content)

/-- The file has a time that is not before `n`. -/
def AtLeast (n : I64) (file : Option Text) : Prop := ∃ w, watermark file = some w ∧ n ≤ w

lemma watermark_of_load {file : Option Text} {flt : Fault}
    (h : loadClockWatermark path file flt = .ok stored) : watermark file = stored := by
  unfold loadClockWatermark at h
  cases flt with
  | some flt => cases h
  | none =>
    cases file with
    | none => exact Except.ok.inj h
    | some txt =>
      cases hpr : parseI64 (trim txt) with
      | none => simp [hpr] at h
      | some n =>
        simp only [hpr] at h
        exact hpr.trans (Except.ok.inj h)

lemma watermark_toText (n : I64) : watermark (some n.toText) = some n := by
  change parseI64 (trim n.toText) = some n
  rw [trim_toText, parseI64_toText]

/-- What is known of a call: in its critical section it holds the lock, and the time that it read
is the one in the file. A time that it returns is not after the one in the file. -/
def CallInv (i : ℕ) (store : Store) : Call → Prop
  | .locked _ => store.lock = some i
  | .loaded _ stored => store.lock = some i ∧ watermark store.file = stored
  | .unlocking result => store.lock = some i ∧ ∀ n, result = .ok n → AtLeast n store.file
  | .finished result => ∀ n, result = .ok n → AtLeast n store.file
  | .idle | .preparing _ | .opening _ | .waiting _ | .crashed => True

/-- What a call does to the store: the file changes only under its lock and the time in it does
not go back, and it takes only a lock that is free. -/
structure Guarantee (i : ℕ) (store store' : Store) : Prop where
  file : store'.file = store.file ∨ store.lock = some i
  rises : ∀ n, AtLeast n store.file → AtLeast n store'.file
  lock : store'.lock = store.lock ∨ store.lock = none ∨ store.lock = some i

lemma Guarantee.refl (i : ℕ) (store : Store) : Guarantee i store store :=
  ⟨.inl rfl, fun _ h => h, .inl rfl⟩

lemma Guarantee.of_file_eq (hf : store'.file = store.file)
    (hlock : store.lock = none ∨ store.lock = some i) : Guarantee i store store' :=
  ⟨.inl hf, fun _ h => hf ▸ h, .inr hlock⟩

lemma atLeast_floorOf (stored : Option I64) (now : I64) :
    AtLeast (floorOf stored now) (some (floorOf stored now).toText) :=
  ⟨_, watermark_toText _, I64.le_refl _⟩

lemma le_floorOf {now : I64} (h : ∃ w, stored = some w ∧ n ≤ w) : n ≤ floorOf stored now := by
  obtain ⟨w, rfl, hn⟩ := h
  exact I64.le_trans hn (I64.le_max_left _ _)

lemma guarantee_persist (now : I64) (hlock : store.lock = some i)
    (hf : watermark store.file = stored) :
    Guarantee i store { store with file := some (floorOf stored now).toText } := by
  refine ⟨.inr hlock, fun n hn => ⟨_, watermark_toText _, le_floorOf ?_⟩, .inl rfl⟩
  obtain ⟨w, hw, hle⟩ := hn
  exact ⟨w, hf.symm.trans hw, hle⟩

lemma callInv_afterUnlock {res : Result I64} (flt : Fault)
    (hf : store'.file = store.file) (h : ∀ n, res = .ok n → AtLeast n store.file) :
    CallInv i store' (.finished (afterUnlock res flt)) := by
  intro n hn
  rw [hf]
  refine h n ?_
  cases flt with
  | none => exact hn
  | some flt => cases res <;> cases hn

lemma callInv_of_outside (h : Outside call) : CallInv i store call := by
  cases h with
  | failed error =>
    intro n hn
    cases hn
  | _ => trivial

lemma Transition.own (h : Transition path i call store next store')
    (hinv : CallInv i store call) : CallInv i store' next ∧ Guarantee i store store' := by
  cases h with
  | outside _ hnext => exact ⟨callInv_of_outside hnext, .refl i store⟩
  | acquire now _ hlock => exact ⟨rfl, .of_file_eq rfl (.inl hlock)⟩
  | load now _ flt stored hload => exact ⟨⟨hinv, watermark_of_load hload⟩, .refl i store⟩
  | loadFailed => exact ⟨⟨hinv, fun n hn => nomatch hn⟩, .refl i store⟩
  | persist now _ stored =>
    refine ⟨⟨hinv.1, fun n hn => ?_⟩, guarantee_persist now hinv.1 hinv.2⟩
    rw [← Except.ok.inj hn]
    exact atLeast_floorOf stored now
  | keep now _ stored hstored =>
    refine ⟨⟨hinv.1, fun n hn => ?_⟩, .refl i store⟩
    rw [← Except.ok.inj hn]
    exact ⟨_, hinv.2.trans hstored, I64.le_refl _⟩
  | persistFailed now _ stored error replaced =>
    cases replaced with
    | false => exact ⟨⟨hinv.1, fun n hn => nomatch hn⟩, .refl i store⟩
    | true => exact ⟨⟨hinv.1, fun n hn => nomatch hn⟩, guarantee_persist now hinv.1 hinv.2⟩
  | unlock res _ flt => exact ⟨callInv_afterUnlock flt rfl hinv.2, .of_file_eq rfl (.inr hinv.1)⟩
  | crash =>
    refine ⟨trivial, ?_⟩
    by_cases hlock : store.lock = some i
    · exact .of_file_eq rfl (.inr hlock)
    · rw [if_neg hlock]
      exact .refl i store

lemma CallInv.stable {k : ℕ} (hk : k ≠ i) (h : Guarantee i store store')
    (hinv : CallInv k store call) : CallInv k store' call := by
  have hlock : store.lock = some k → store'.lock = some k := by
    intro hloc
    rcases h.lock with hsm | hfe | hown
    · rw [hsm, hloc]
    · rw [hloc] at hfe
      cases hfe
    · exact absurd (Option.some.inj (hloc.symm.trans hown)) hk
  have hf : store.lock = some k → store'.file = store.file := fun hloc =>
    h.file.resolve_right fun hown => hk (Option.some.inj (hloc.symm.trans hown))
  cases call with
  | locked now => exact hlock hinv
  | loaded now stored => exact ⟨hlock hinv.1, by rw [hf hinv.1]; exact hinv.2⟩
  | unlocking res => exact ⟨hlock hinv.1, fun n hn => h.rises n (hinv.2 n hn)⟩
  | finished res => exact fun n hn => h.rises n (hinv n hn)
  | idle => trivial
  | crashed => trivial
  | _ now => trivial

lemma clock_preserves (p : Paths) :
    (clock p).Preserves (fun i call store => CallInv i store call) Guarantee where
  own _ _ _ _ _ hinv h := (transition_of_advance h).own hinv
  stable _ _ _ _ _ hk h hinv := hinv.stable hk h

def Reachable (p : Paths) (s : Machine.Config ℕ Call Store) : Prop :=
  ∃ file actions, (clock p).exec (initial file) actions = some s

lemma Reachable.callInv (h : Reachable p s) : ∀ i, CallInv i s.store (s.locals i) := by
  obtain ⟨file, acts, hex⟩ := h
  exact Machine.exec_invariant (clock_preserves p) hex fun _ => trivial

/-! ### Runs -/

/-- Once the file has a time that is not before `n`, this is so for ever. -/
lemma atLeast_of_exec {s' : Machine.Config ℕ Call Store} {acts : List (ℕ × Action)}
    (hs : ∀ i, CallInv i s.store (s.locals i)) (h : (clock p).exec s acts = some s')
    (hn : AtLeast n s.store.file) : AtLeast n s'.store.file := by
  refine (Machine.exec_induction (P := fun s => (∀ i, CallInv i s.store (s.locals i)) ∧
    AtLeast n s.store.file) ?_ h ⟨hs, hn⟩).2
  rintro s a s' ⟨hs, hn⟩ hst
  obtain ⟨hs', hgu⟩ := (clock_preserves p).step hs hst
  exact ⟨hs', hgu.rises n hn⟩

/-- A call that does not return a time before `n`. -/
def Ahead (n : I64) : Call → Prop
  | .loaded _ stored => ∃ w, stored = some w ∧ n ≤ w
  | .unlocking result | .finished result => ∀ v, result = .ok v → n ≤ v
  | .idle | .preparing _ | .opening _ | .waiting _ | .locked _ | .crashed => True

lemma Transition.ahead (h : Transition path i call store next store')
    (hn : AtLeast n store.file) (hca : Ahead n call) : Ahead n next := by
  cases h with
  | outside _ hnext =>
    cases hnext with
    | failed error => exact fun v hv => nomatch hv
    | _ => trivial
  | acquire => trivial
  | load now _ flt stored hload =>
    obtain ⟨w, hw, hle⟩ := hn
    exact ⟨w, (watermark_of_load hload).symm.trans hw, hle⟩
  | persist now _ stored =>
    intro v hv
    rw [← Except.ok.inj hv]
    exact le_floorOf hca
  | keep now _ stored hstored =>
    intro v hv
    rw [← Except.ok.inj hv]
    exact le_floorOf hca
  | unlock res _ flt =>
    intro v hv
    refine hca v ?_
    cases flt with
    | none => exact hv
    | some flt => cases res <;> cases hv
  | crash => trivial
  | _ => exact fun v hv => nomatch hv

/-- A call that starts when the file has a time not before `n` does not return a time before
`n`. -/
lemma ahead_of_exec {s' : Machine.Config ℕ Call Store} {acts : List (ℕ × Action)}
    (hs : ∀ i, CallInv i s.store (s.locals i)) (h : (clock p).exec s acts = some s')
    (hn : AtLeast n s.store.file) (hi : s.locals i = .idle) : Ahead n (s'.locals i) := by
  refine (Machine.exec_induction (P := fun s => (∀ i, CallInv i s.store (s.locals i)) ∧
    AtLeast n s.store.file ∧ Ahead n (s.locals i)) ?_ h ⟨hs, hn, hi ▸ trivial⟩).2.2
  rintro s a s' ⟨hs, hn, hahe⟩ hst
  obtain ⟨hs', hgu⟩ := (clock_preserves p).step hs hst
  refine ⟨hs', hgu.rises n hn, ?_⟩
  obtain ⟨next, hnext, rfl⟩ := Machine.step_cases hst
  by_cases hi : i = a.1
  · subst hi
    rw [Machine.Config.locals_put_self]
    exact (transition_of_advance hnext).ahead hn hahe
  · rw [Machine.Config.locals_put_of_ne s hi]
    exact hahe

/-! ### License tokens -/

/-- The claims of a token that are compared. -/
structure JwtPayload where
  exp : I64
  mid : Option Text
  lic : Text

structure StoredLicense where
  key : Text
  token : Option Text

/-- The claims that a license is granted. The floor is the result of the clock, and the verification
of a token depends on the time it is done at. -/
def verifiedPayload (license : StoredLicense) (floor : Result I64)
    (verifyJwt : Text → Option JwtPayload) (machineId : Text) : Option JwtPayload := do
  let token ← license.token
  let observedFloor ← floor.toOption
  let payload ← verifyJwt token
  if payload.lic ≠ license.key then none
  else if payload.mid.any (· ≠ machineId) then none
  else if payload.exp ≤ observedFloor then none
  else some payload

lemma verifiedPayload_eq_none {license : StoredLicense} {floor : Result I64}
    {verifyJwt : Text → Option JwtPayload} (machineId : Text)
    (h : ∀ tok pl v, license.token = some tok → verifyJwt tok = some pl →
      floor = .ok v → pl.exp ≤ v) : verifiedPayload license floor verifyJwt machineId = none := by
  cases htok : license.token with
  | none => simp [verifiedPayload, htok]
  | some tok =>
    cases floor with
    | error error => simp [verifiedPayload, Except.toOption]
    | ok v =>
      cases hpl : verifyJwt tok with
      | none => simp [verifiedPayload, htok, hpl]
      | some pl =>
        have hexp := h tok pl v htok hpl rfl
        simp [verifiedPayload, htok, Except.toOption, hpl, hexp]

/-- In every run: the time in the file never goes back; a call that returns a time returns none
before a time that was returned when it had not started; and when a time not before the expiry of a
token was returned, a later call does not accept the token, whatever the clock says and however the
verification of the token itself turns out. -/
theorem clock_monotone (p : Paths) (s s' : Machine.Config ℕ Call Store)
    (actions : List (ℕ × Action)) (hs : Reachable p s)
    (hrun : (clock p).exec s actions = some s') :
    (∀ w, watermark s.store.file = some w →
      ∃ w', watermark s'.store.file = some w' ∧ w ≤ w') ∧
    (∀ i j u v, s.locals j = .finished (.ok u) → s.locals i = .idle →
      s'.locals i = .finished (.ok v) → u ≤ v) ∧
    ∀ i j u result license exp verifyJwt machineId, s.locals j = .finished (.ok u) →
      s.locals i = .idle → s'.locals i = .finished result → exp ≤ u →
      (∀ token payload, license.token = some token → verifyJwt token = some payload →
        payload.exp = exp) →
      verifiedPayload license result verifyJwt machineId = none := by
  have hinv := hs.callInv
  have hret : ∀ j u, s.locals j = .finished (.ok u) → AtLeast u s.store.file := by
    intro j u hj
    have h := hinv j
    rw [hj] at h
    exact h u rfl
  have hla : ∀ i j u result, s.locals j = .finished (.ok u) → s.locals i = .idle →
      s'.locals i = .finished result → ∀ v, result = .ok v → u ≤ v := by
    intro i j u result hj hi hi'
    have h := ahead_of_exec hinv hrun (hret j u hj) hi
    rw [hi'] at h
    exact h
  refine ⟨fun w hw => atLeast_of_exec hinv hrun ⟨w, hw, I64.le_refl w⟩, ?_, ?_⟩
  · intro i j u v hj hi hi'
    exact hla i j u (.ok v) hj hi hi' v rfl
  · intro i j u result license exp verifyJwt machineId hj hi hi' hexp hcla
    refine verifiedPayload_eq_none machineId fun token payload v htok hpl hv => ?_
    rw [hcla token payload htok hpl]
    exact I64.le_trans hexp (hla i j u result hj hi hi' v hv)

def wholeCall (i : ℕ) (now : I64) : List (ℕ × Action) :=
  [.start now, .createDirectory none, .openLock none, .acquire none, .load none,
    .persist none true, .unlock none].map fun action => (i, action)

/-- The clock is set back from 9 to 5 between two calls. The second one still returns 9, and a token
that expires at 7 is not accepted. -/
theorem clock_monotone_rollback :
    ∃ s s', (clock ⟨[], some [], []⟩).exec (initial none) (wholeCall 0 ⟨9, by decide⟩) = some s ∧
      (clock ⟨[], some [], []⟩).exec s (wholeCall 1 ⟨5, by decide⟩) = some s' ∧
      s'.locals 1 = .finished (.ok ⟨9, by decide⟩) ∧
      verifiedPayload ⟨[], some []⟩ (.ok ⟨9, by decide⟩)
        (fun _ => some ⟨⟨7, by decide⟩, none, []⟩) [] = none := by
  refine ⟨_, _, rfl, rfl, rfl, ?_⟩
  exact (clock_monotone ⟨[], some [], []⟩ _ _ (wholeCall 1 ⟨5, by decide⟩)
    ⟨none, wholeCall 0 ⟨9, by decide⟩, rfl⟩ rfl).2.2 1 0 ⟨9, by decide⟩ _ ⟨[], some []⟩
    ⟨7, by decide⟩ _ [] rfl rfl rfl (by decide) (fun tok pl _ h => by cases h; rfl)

/-- The call holds the lock. -/
def Call.Holding : Call → Prop
  | .locked _ | .loaded _ _ | .unlocking _ => True
  | _ => False

lemma CallInv.lock_eq (h : CallInv i store call) (hho : call.Holding) : store.lock = some i := by
  cases call with
  | locked now => exact h
  | loaded now stored => exact h.1
  | unlocking res => exact h.1
  | _ => cases hho

/-- **One call at a time.** In every state of every run at most one call holds the lock, and a call
that does not hold it leaves the file alone. -/
theorem clock_exclusive (hs : Reachable p s) :
    (∀ i k, (s.locals i).Holding → (s.locals k).Holding → i = k) ∧
    ∀ i action call store, (clock p).advance i action (s.locals i) s.store = some (call, store) →
      store.file ≠ s.store.file → (s.locals i).Holding := by
  constructor
  · intro i k hi hk
    have hlock := (hs.callInv i).lock_eq hi
    rw [(hs.callInv k).lock_eq hk] at hlock
    exact (Option.some.inj hlock).symm
  · intro i action call store h hfile
    have htr := transition_of_advance h
    generalize s.locals i = before at htr ⊢
    cases htr with
    | persist | persistFailed => trivial
    | _ => exact absurd rfl hfile

theorem clock_exclusive_first : ∃ s, Reachable ⟨[], some [], []⟩ s ∧ (s.locals 0).Holding ∧
    ∀ k, (s.locals k).Holding → 0 = k := by
  have hs : Reachable ⟨[], some [], []⟩ _ := ⟨none, (wholeCall 0 ⟨9, by decide⟩).take 4, rfl⟩
  exact ⟨_, hs, trivial, fun k => (clock_exclusive hs).1 0 k trivial⟩

end Omg.Licensing
