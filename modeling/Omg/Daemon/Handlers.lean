import Omg.Daemon.Protocol

/-!
# The request handlers of the daemon

Each handler makes one response from what the rest of the daemon answers: the caches, the package
index, the package manager and the system. These answers are `Backend`, and they may be different
for each request.

Source: `src/daemon/handlers.rs` and `src/daemon/status_policy.rs`.
-/

namespace Omg.Daemon

open Text

inductive Timed (α : Type)
  | done (value : α)
  | timedOut

structure InstalledPackage where
  name : Text
  version : Text
  description : Text

structure AurPackageDetail where
  name : Text
  version : Text
  description : Option Text
  url : Option Text
  depends : Option (List Text)
  license : Option (List Text)

structure InfoBackend where
  validation : Except Text Unit
  /-- The package manager is not `dnf`. -/
  cacheInfo : Bool
  cached : Option DetailedPackageInfo
  isInfoMiss : Bool
  indexed : Option DetailedPackageInfo
  packageManager : Timed (Except Text (Option InstalledPackage))
  aur : Option (Timed (Except Text (List AurPackageDetail)))

structure StatusBackend where
  cached : Option StatusResult
  persisted : Option StatusResult
  counts : Except Text (ℕ × ℕ × ℕ × ℕ)
  runtimeVersions : List (Text × Text)

structure RefreshBackend where
  isProduction : Bool
  isCoalesced : Bool
  isDebounced : Bool
  snapshotLength : ℕ
  backends : Except Text Unit
  rebuilt : Except Text ℕ

structure Backend where
  isRateLimited : Bool
  healInstalledCatalog : Except Text Unit
  healIndex : Except Text Unit
  cachedSearch : Text → Option (List PackageInfo)
  cachedDebian : Text → Option (List PackageInfo)
  searchIndex : Text → Except Text (List PackageInfo)
  suggestIndex : Text → ℕ → Except Text (List Text)
  info : Text → InfoBackend
  status : StatusBackend
  explicitPackages : Except Text (List Text)
  cachedExplicitCount : Option ℕ
  scanSecurity : Except Text SecurityAuditResult
  cacheStats : ℕ × ℕ
  refresh : RefreshBackend
  metrics : MetricsSnapshot
  health : HealthStatus
  listUpdates : Except Text (List UpdateEntry)
  /-- The packages that `pacman.conf` ignores, with a worker for ALPM. -/
  ignoredPackages : Option (Except Text (List Text))

def maxQueryLength : ℕ := 500
def defaultSearchLimit : ℕ := 50
def maxSearchLimit : ℕ := 1000
def defaultSuggestLimit : ℕ := 10
def maxSuggestLimit : ℕ := 50
def infoBackendTimeout : ℕ := 5
def infoAurTimeout : ℕ := 8

def validationError (id : ℕ) (message : Text) : Response :=
  .error id ErrorCodes.invalidParams message

def internalError (id : ℕ) (message : Text) : Response := .error id ErrorCodes.internalError message

def notFoundError (id : ℕ) (message : Text) : Response :=
  .error id ErrorCodes.packageNotFound message

def rateLimitText : Text := "Rate limit exceeded. Please slow down."

def rateLimitError (id : ℕ) : Response := .error id ErrorCodes.rateLimited rateLimitText

def tooLongText (start : Text) : Text :=
  start ++ " too long (max " ++ decimal maxQueryLength ++ " characters)"

def secondsText (start : Text) (seconds : ℕ) : Text :=
  start ++ " timed out after " ++ decimal seconds ++ " seconds"

def respond {α : Type} (id : ℕ) (failure : Text) (result : α → ResponseResult) :
    Except Text α → Response
  | .ok value => .success id (result value)
  | .error error => internalError id (failure ++ error)

/-! ### Handlers -/

def handleSearch (b : Backend) (id : ℕ) (query : Text) (limit : Option ℕ) : Response :=
  if maxQueryLength < byteLen query then
    validationError id (tooLongText "Search query")
  else
    let limit := min (limit.getD defaultSearchLimit) maxSearchLimit
    match b.cachedSearch query with
    | some cached => .success id (.search ⟨cached.take limit, cached.length⟩)
    | none =>
      respond id "Search task failed: "
        (fun official => .search ⟨official.take limit, official.length⟩) (b.searchIndex query)

/-- `handle_debian_search`. -/
def handleDebianSearch (b : Backend) (id : ℕ) (query : Text) (limit : Option ℕ) : Response :=
  if maxQueryLength < byteLen query then
    .error id ErrorCodes.invalidParams (tooLongText "Query")
  else
    let limit := min (limit.getD defaultSearchLimit) maxSearchLimit
    match b.cachedDebian query with
    | some cached => .success id (.debianSearch (cached.take limit))
    | none =>
      respond id "Debian search task failed: "
        (fun results => .debianSearch
          ((results.map fun package => { package with source := .apt }).take limit))
        (b.searchIndex query)

def handleSuggest (b : Backend) (id : ℕ) (query : Text) (limit : Option ℕ) : Response :=
  if maxQueryLength < byteLen query then
    .error id ErrorCodes.invalidParams "Query too long"
  else
    let limit := min (limit.getD defaultSuggestLimit) maxSuggestLimit
    respond id "Suggest task failed: " .suggest (b.suggestIndex query limit)

def notFoundText (package : Text) : Text := "Package not found: " ++ package

def ofInstalled (cacheInfo : Bool) (package : InstalledPackage) : DetailedPackageInfo where
  name := package.name
  version := package.version
  description := package.description
  url := []
  size := 0
  downloadSize := 0
  repo := if cacheInfo then [] else "official"
  depends := []
  licenses := []
  source := .official

def ofAur (package : AurPackageDetail) : DetailedPackageInfo where
  name := package.name
  version := package.version
  description := package.description.getD []
  url := package.url.getD []
  size := 0
  downloadSize := 0
  repo := "aur"
  depends := package.depends.getD []
  licenses := package.license.getD []
  source := .aur

def handleInfoAur (b : InfoBackend) (id : ℕ) (package : Text) : Response :=
  match b.cacheInfo, b.aur with
  | true, some (.done (.ok details)) =>
    match details.find? fun detail => detail.name = package with
    | some detail => .success id (.info (ofAur detail))
    | none => notFoundError id (notFoundText package)
  | true, some (.done (.error error)) =>
    internalError id ("AUR lookup failed for " ++ package ++ ": " ++ error)
  | true, some .timedOut => internalError id (secondsText "AUR lookup" infoAurTimeout)
  | _, _ => notFoundError id (notFoundText package)

def handleInfoBackend (b : InfoBackend) (id : ℕ) (package : Text) : Response :=
  match b.packageManager with
  | .done (.ok (some info)) => .success id (.info (ofInstalled b.cacheInfo info))
  | .done (.ok none) => handleInfoAur b id package
  | .done (.error error) =>
    internalError id ("Info backend failed for " ++ package ++ ": " ++ error)
  | .timedOut => internalError id (secondsText "Info backend" infoBackendTimeout)

/-- `handle_info`. -/
def handleInfo (b : InfoBackend) (id : ℕ) (package : Text) : Response :=
  match b.validation with
  | .error error => validationError id ("Invalid package name: " ++ error)
  | .ok () =>
    match b.cacheInfo, b.cached with
    | true, some cached => .success id (.info cached)
    | _, _ =>
      if b.cacheInfo && b.isInfoMiss then notFoundError id (notFoundText package)
      else
        match b.cacheInfo, b.indexed with
        | true, some info => .success id (.info info)
        | _, _ => handleInfoBackend b id package

def statusSnapshot (counts : ℕ × ℕ × ℕ × ℕ) (runtimeVersions : List (Text × Text))
    (scannedVulnerabilities : Option ℕ) : StatusResult where
  totalPackages := counts.1
  explicitPackages := counts.2.1
  orphanPackages := counts.2.2.1
  updatesAvailable := counts.2.2.2
  securityVulnerabilities := scannedVulnerabilities.getD 0
  vulnerabilitiesScanned := scannedVulnerabilities.isSome
  runtimeVersions := runtimeVersions

def handleStatus (b : StatusBackend) (id : ℕ) : Response :=
  match b.cached.or b.persisted with
  | some cached => .success id (.status cached)
  | none =>
    respond id "Failed to get system status: "
      (fun counts => .status (statusSnapshot counts b.runtimeVersions none)) b.counts

def handleExplicitCount (b : Backend) (id : ℕ) : Response :=
  match b.cachedExplicitCount with
  | some count => .success id (.explicitCount count)
  | none =>
    respond id "Failed to count explicit packages: "
      (fun packages => .explicitCount packages.length) b.explicitPackages

def handleRefreshIndex (b : RefreshBackend) (id : ℕ) : Response :=
  if !b.isProduction then
    validationError id "Index refresh is unavailable in an isolated daemon"
  else if b.isCoalesced then .success id (.indexRefreshed b.snapshotLength)
  else if b.isDebounced then
    respond id "Failed to refresh package backends: "
      (fun _ => .indexRefreshed b.snapshotLength) b.backends
  else respond id "Failed to rebuild package index: " .indexRefreshed b.rebuilt

def filterIgnoredUpdates (updates : List UpdateEntry) (ignored : List Text) : List UpdateEntry :=
  updates.filter fun update => update.name ∉ ignored

def handleListUpdates (b : Backend) (id : ℕ) : Response :=
  match b.listUpdates, b.ignoredPackages with
  | .error error, _ => internalError id ("Failed to list updates: " ++ error)
  | .ok updates, none => .success id (.listUpdates updates)
  | .ok updates, some ignored =>
    respond id "Failed to load update filters from pacman.conf: "
      (fun ignored => .listUpdates (filterIgnoredUpdates updates ignored)) ignored

def dispatch (b : Backend) : Request → Response
  | .search id query limit => handleSearch b id query limit
  | .info id package => handleInfo (b.info package) id package
  | .ping id => .success id (.ping "pong")
  | .status id => handleStatus b.status id
  | .explicit id =>
    respond id "Failed to list explicit packages: " .explicit b.explicitPackages
  | .explicitCount id => handleExplicitCount b id
  | .securityAudit id => respond id [] .securityAudit b.scanSecurity
  | .cacheStats id => .success id (.cacheStats b.cacheStats.1 b.cacheStats.2)
  | .cacheClear id => .success id (.message "cleared")
  | .refreshIndex id => handleRefreshIndex b.refresh id
  | .metrics id => .success id (.metrics b.metrics)
  | .suggest id query limit => handleSuggest b id query limit
  | .debianSearch id query limit => handleDebianSearch b id query limit
  | .health id => .success id (.health b.health)
  | .listUpdates id => handleListUpdates b id

def queryTooLongText : Request → Text
  | .suggest .. => "Query too long"
  | _ => tooLongText "Query"

def checkQuery (b : Backend) (request : Request) : Except Response Unit :=
  match request.query? with
  | none => .ok ()
  | some query =>
    if maxQueryLength < byteLen query then
      .error (validationError request.id (queryTooLongText request))
    else
      match b.healInstalledCatalog with
      | .ok () => .ok ()
      | .error error =>
        .error (internalError request.id
          ("Failed to refresh stale installed package index: " ++ error))

def checkCatalog (b : Backend) (request : Request) : Except Response Unit :=
  match request.readsArchSyncCatalog, b.healIndex with
  | true, .error error =>
    .error (internalError request.id ("Failed to refresh stale package index: " ++ error))
  | _, _ => .ok ()

def handleRequest (b : Backend) (request : Request) : Response :=
  if b.isRateLimited then rateLimitError request.id
  else
    match checkQuery b request with
    | .error response => response
    | .ok () =>
      match checkCatalog b request with
      | .error response => response
      | .ok () => dispatch b request

/-! ### Ids -/

@[simp] lemma id_respond {α : Type} (id : ℕ) (failure : Text) (res : α → ResponseResult)
    (x : Except Text α) : (respond id failure res x).id = id := by
  cases x <;> rfl

section

variable (b : Backend) (id : ℕ) (q : Text) (lim : Option ℕ)

include b id q lim

lemma id_handleSearch : (handleSearch b id q lim).id = id := by
  unfold handleSearch
  split_ifs
  · rfl
  · dsimp only
    cases b.cachedSearch q with
    | some cached => rfl
    | none => exact id_respond ..

lemma id_handleDebianSearch : (handleDebianSearch b id q lim).id = id := by
  unfold handleDebianSearch
  split_ifs
  · rfl
  · dsimp only
    cases b.cachedDebian q with
    | some cached => rfl
    | none => exact id_respond ..

lemma id_handleSuggest : (handleSuggest b id q lim).id = id := by
  unfold handleSuggest
  split_ifs
  · rfl
  · exact id_respond ..

end

lemma id_handleInfoAur (b : InfoBackend) (id : ℕ) (pkg : Text) :
    (handleInfoAur b id pkg).id = id := by
  unfold handleInfoAur
  split
  · split <;> rfl
  all_goals rfl

lemma id_handleInfoBackend (b : InfoBackend) (id : ℕ) (pkg : Text) :
    (handleInfoBackend b id pkg).id = id := by
  unfold handleInfoBackend
  split
  case h_2 => exact id_handleInfoAur ..
  all_goals rfl

lemma id_handleInfo (b : InfoBackend) (id : ℕ) (pkg : Text) : (handleInfo b id pkg).id = id := by
  unfold handleInfo
  split
  · rfl
  · split
    · rfl
    · split_ifs
      · rfl
      · split
        · rfl
        · exact id_handleInfoBackend ..

lemma id_handleStatus (b : StatusBackend) (id : ℕ) : (handleStatus b id).id = id := by
  unfold handleStatus
  split
  · rfl
  · exact id_respond ..

lemma id_handleExplicitCount (b : Backend) (id : ℕ) : (handleExplicitCount b id).id = id := by
  unfold handleExplicitCount
  split
  · rfl
  · exact id_respond ..

lemma id_handleRefreshIndex (b : RefreshBackend) (id : ℕ) : (handleRefreshIndex b id).id = id := by
  unfold handleRefreshIndex
  split_ifs
  · rfl
  · rfl
  · exact id_respond ..
  · exact id_respond ..

lemma id_handleListUpdates (b : Backend) (id : ℕ) : (handleListUpdates b id).id = id := by
  unfold handleListUpdates
  split
  · rfl
  · rfl
  · exact id_respond ..

lemma id_dispatch (b : Backend) (req : Request) : (dispatch b req).id = req.id := by
  cases req with
  | search id q lim => exact id_handleSearch ..
  | info id pkg => exact id_handleInfo ..
  | status id => exact id_handleStatus ..
  | explicitCount id => exact id_handleExplicitCount ..
  | refreshIndex id => exact id_handleRefreshIndex ..
  | suggest id q lim => exact id_handleSuggest ..
  | debianSearch id q lim => exact id_handleDebianSearch ..
  | listUpdates id => exact id_handleListUpdates ..
  | ping id => rfl
  | cacheStats id => rfl
  | cacheClear id => rfl
  | metrics id => rfl
  | health id => rfl
  | _ id => exact id_respond ..

lemma id_of_checkQuery {b : Backend} {req : Request} {resp : Response}
    (h : checkQuery b req = .error resp) : resp.id = req.id := by
  unfold checkQuery at h
  split at h
  · cases h
  · split_ifs at h
    · cases h
      rfl
    · split at h
      · cases h
      · cases h
        rfl

lemma id_of_checkCatalog {b : Backend} {req : Request} {resp : Response}
    (h : checkCatalog b req = .error resp) : resp.id = req.id := by
  unfold checkCatalog at h
  split at h
  · cases h
    rfl
  · cases h

lemma id_handleRequest (b : Backend) (req : Request) : (handleRequest b req).id = req.id := by
  unfold handleRequest
  split_ifs
  · rfl
  · split
    · exact id_of_checkQuery ‹_›
    · split
      · exact id_of_checkCatalog ‹_›
      · exact id_dispatch b req

/-!
### The connection loop of the daemon

The daemon takes the frames of a client one after the other. A frame that cannot be decoded is
answered once, with the id 0, and the connection is closed. A request over the rate limit is
answered with an error. Otherwise the answer is the response of the handler, or an error if the
handler takes too long or if its response is too large.

The codec delivers whole frames in their order. What the world decides in one turn of the loop is
`Turn`. A write may fail; the codec may have taken the frame already, and then the peer may see it
still.

Source: `src/daemon/server.rs`.
-/

open List

def maxRequestSize : ℕ := 1048576

def maxResponseSize : ℕ := 8388608

def requestTimeout : ℕ := 30

structure Codecs where
  request : Bitcode Request
  response : Bitcode Response

variable (codecs : Codecs)

/-- How a write ends. A frame that was not written in time may have been taken by the codec. -/
inductive Write
  | written
  | failed (isTaken : Bool)

/-- The frame as the peer may see it, and whether the write succeeded. The codec refuses frames over
the budget. -/
def sendFrame (bytes : Bytes) (write : Write) : Option Bytes × Bool :=
  if maxResponseSize < bytes.length then (none, false)
  else
    match write with
    | .written => (some bytes, true)
    | .failed true => (some bytes, false)
    | .failed false => (none, false)

def tooLargeText (size : ℕ) : Text :=
  "Daemon response of " ++ Text.decimal size ++ " bytes exceeds the " ++
    Text.decimal maxResponseSize ++ "-byte response budget"

def tooLargeError (requestId size : ℕ) : Response :=
  .error requestId ErrorCodes.responseTooLarge (tooLargeText size)

def encodeBoundedResponse (response : Response) (requestId : ℕ) : Except FrameError Bytes :=
  match encodeFrame codecs.response response with
  | .error error => .error error
  | .ok bytes =>
    if bytes.length ≤ maxResponseSize then .ok bytes
    else encodeFrame codecs.response (tooLargeError requestId bytes.length)

def sendErrorResponse (response : Response) (write : Write) : Option Bytes :=
  match encodeFrame codecs.response response with
  | .error _ => none
  | .ok bytes => (sendFrame bytes write).1

/-! ### One turn -/

/-- What the world decides in one turn: whether the client is over its rate limit, what the handler
gets from the rest of the daemon, unless its time is over, and how the write ends. -/
structure Turn where
  isRateLimited : Bool
  handler : Option Backend
  write : Write

def parseErrorResponse (message : Text) : Response := .error 0 ErrorCodes.parseError message

def frameErrorText : FrameError → Text
  | .versionMismatch peer ours =>
    "unsupported peer protocol version " ++ Text.decimal peer ++
      " (this daemon speaks " ++ Text.decimal ours ++ "); update omg"
  | error => "malformed frame header: " ++ error.text

def decodeRequest (bytes : Bytes) : Except Text Request :=
  match splitFrame bytes with
  | .error error => .error (frameErrorText error)
  | .ok (_, payload) =>
    match codecs.request.deserialize payload with
    | .ok request => .ok request
    | .error error => .error ("Failed to deserialize request: " ++ error)

def timeoutError (id : ℕ) : Response :=
  .error id ErrorCodes.internalError (secondsText "Request" requestTimeout)

def handlerResponse (request : Request) : Option Backend → Response
  | some backend => handleRequest backend request
  | none => timeoutError request.id

lemma decodeRequest_of_encodeFrame {codecs : Codecs} {req : Request} {fr : Bytes}
    (h : encodeFrame codecs.request req = .ok fr) : decodeRequest codecs fr = .ok req := by
  have hdc := decodeFrame_of_encodeFrame h
  unfold decodeFrame at hdc
  unfold decodeRequest
  cases hsp : splitFrame fr with
  | error error => simp [hsp] at hdc
  | ok split =>
    cases hpl : codecs.request.deserialize split.2 with
    | error error => simp [hsp, hpl, Except.toOption] at hdc
    | ok req' =>
      simp only [hsp, hpl, Except.toOption, Option.some.injEq] at hdc ⊢
      rw [hdc]

/-- One turn of the loop: the frame that is sent, and whether the loop goes on. -/
def serveFrame (bytes : Bytes) (turn : Turn) : Option Bytes × Bool :=
  match decodeRequest codecs bytes with
  | .error message => (sendErrorResponse codecs (parseErrorResponse message) turn.write, false)
  | .ok request =>
    if turn.isRateLimited then
      (sendErrorResponse codecs (rateLimitError request.id) turn.write, true)
    else
      match encodeBoundedResponse codecs (handlerResponse request turn.handler) request.id with
      | .error _ => (none, false)
      | .ok response => sendFrame response turn.write

inductive Incoming
  | cancelled
  | idle
  | closed
  | broken
  | frame (bytes : Bytes)

structure Exchange where
  received : Bytes
  turn : Turn
  sent : Option Bytes

/-- `handle_client_with_idle_timeout`, as the list of its exchanges. -/
def handleClient : List (Incoming × Turn) → List Exchange
  | (.frame bytes, turn) :: rest =>
    if maxRequestSize < bytes.length then []
    else
      ⟨bytes, turn, (serveFrame codecs bytes turn).1⟩ ::
        if (serveFrame codecs bytes turn).2 then handleClient rest else []
  | _ => []

/-! ### What is sent -/

variable {codecs}

lemma length_sendFrame {bs fr : Bytes} {write : Write} (h : (sendFrame bs write).1 = some fr) :
    fr = bs ∧ fr.length ≤ maxResponseSize := by
  unfold sendFrame at h
  by_cases hlen : maxResponseSize < bs.length
  · rw [if_pos hlen] at h
    cases h
  · rw [if_neg hlen] at h
    rcases write with _ | ⟨_ | _⟩
    · cases h
      exact ⟨rfl, not_lt.mp hlen⟩
    · cases h
    · cases h
      exact ⟨rfl, not_lt.mp hlen⟩

structure Carries (codecs : Codecs) (frame : Bytes) (response : Response) : Prop where
  length : frame.length ≤ maxResponseSize
  decoded : decodeFrame codecs.response frame = some response

lemma carries_of_encodeFrame {bs fr : Bytes} {write : Write} {resp : Response}
    (hen : encodeFrame codecs.response resp = .ok bs)
    (h : (sendFrame bs write).1 = some fr) : Carries codecs fr resp := by
  obtain ⟨rfl, hlen⟩ := length_sendFrame h
  exact ⟨hlen, decodeFrame_of_encodeFrame hen⟩

lemma carries_sendErrorResponse {resp : Response} {write : Write} {fr : Bytes}
    (h : sendErrorResponse codecs resp write = some fr) : Carries codecs fr resp := by
  unfold sendErrorResponse at h
  cases hen : encodeFrame codecs.response resp with
  | error error =>
    rw [hen] at h
    cases h
  | ok bs =>
    rw [hen] at h
    exact carries_of_encodeFrame hen h

lemma encodeBoundedResponse_cases {resp : Response} {requestId : ℕ} {bs : Bytes}
    (h : encodeBoundedResponse codecs resp requestId = .ok bs) :
    ∃ act, encodeFrame codecs.response act = .ok bs ∧
      (act = resp ∨ ∃ size, maxResponseSize < size ∧ act = tooLargeError requestId size) := by
  unfold encodeBoundedResponse at h
  cases hen : encodeFrame codecs.response resp with
  | error error =>
    rw [hen] at h
    cases h
  | ok complete =>
    rw [hen] at h
    dsimp only at h
    split_ifs at h with hlen
    · cases h
      exact ⟨resp, hen, .inl rfl⟩
    · exact ⟨_, h, .inr ⟨_, not_le.mp hlen, rfl⟩⟩

/-- The responses to a request: the rate limit, the handler, a timeout, or a response that is too
large. -/
inductive Answers (request : Request) (turn : Turn) : Response → Prop
  | rateLimited (h : turn.isRateLimited = true) : Answers request turn (rateLimitError request.id)
  | complete (backend : Backend) (hlimit : turn.isRateLimited = false)
      (h : turn.handler = some backend) : Answers request turn (handleRequest backend request)
  | timedOut (hlimit : turn.isRateLimited = false) (h : turn.handler = none) :
      Answers request turn (timeoutError request.id)
  | tooLarge (size : ℕ) (hlimit : turn.isRateLimited = false) (h : maxResponseSize < size) :
      Answers request turn (tooLargeError request.id size)

lemma Answers.id_eq {req : Request} {turn : Turn} {resp : Response}
    (h : Answers req turn resp) : resp.id = req.id := by
  cases h with
  | complete backend => exact id_handleRequest backend req
  | _ => rfl

lemma answers_handlerResponse {req : Request} {turn : Turn} (h : turn.isRateLimited = false) :
    Answers req turn (handlerResponse req turn.handler) := by
  cases hhan : turn.handler with
  | some backend => exact .complete backend h hhan
  | none => exact .timedOut h hhan

/-- What is sent for a frame: an answer to its request, with the id of the request, or a parse
error. -/
structure Correlated (codecs : Codecs) (e : Exchange) : Prop where
  answer : ∀ frame request, e.sent = some frame → decodeRequest codecs e.received = .ok request →
    ∃ response, Carries codecs frame response ∧ response.id = request.id ∧
      Answers request e.turn response
  refusal : ∀ frame message, e.sent = some frame →
    decodeRequest codecs e.received = .error message →
    Carries codecs frame (parseErrorResponse message)

lemma answers_serveFrame {bs fr : Bytes} {turn : Turn} {req : Request}
    (hdc : decodeRequest codecs bs = .ok req) (hse : (serveFrame codecs bs turn).1 = some fr) :
    ∃ resp, Carries codecs fr resp ∧ Answers req turn resp := by
  unfold serveFrame at hse
  rw [hdc] at hse
  dsimp only at hse
  cases hlimit : turn.isRateLimited with
  | true =>
    rw [hlimit] at hse
    exact ⟨_, carries_sendErrorResponse hse, .rateLimited hlimit⟩
  | false =>
    rw [hlimit] at hse
    cases hen : encodeBoundedResponse codecs (handlerResponse req turn.handler) req.id with
    | error error =>
      rw [hen] at hse
      cases hse
    | ok resp =>
      rw [hen] at hse
      obtain ⟨act, hact, hcas⟩ := encodeBoundedResponse_cases hen
      refine ⟨act, carries_of_encodeFrame hact hse, ?_⟩
      rcases hcas with rfl | ⟨size, hsz, rfl⟩
      · exact answers_handlerResponse hlimit
      · exact .tooLarge size hlimit hsz

lemma correlated_serveFrame (codecs : Codecs) (bs : Bytes) (turn : Turn) :
    Correlated codecs ⟨bs, turn, (serveFrame codecs bs turn).1⟩ := by
  refine ⟨fun fr req hse hdc => ?_, fun fr msg hse hdc => ?_⟩
  · obtain ⟨resp, hcar, hans⟩ := answers_serveFrame hdc hse
    exact ⟨resp, hcar, hans.id_eq, hans⟩
  · dsimp only at hse hdc
    rw [serveFrame, hdc] at hse
    exact carries_sendErrorResponse hse

lemma serveFrame_of_not_decoded {bs : Bytes} {msg : Text} (turn : Turn)
    (h : decodeRequest codecs bs = .error msg) : (serveFrame codecs bs turn).2 = false := by
  rw [serveFrame, h]

lemma correlated_of_mem_handleClient {inps : List (Incoming × Turn)} {e : Exchange}
    (h : e ∈ handleClient codecs inps) : Correlated codecs e := by
  induction inps with
  | nil => cases h
  | cons input rest ih =>
    obtain ⟨incoming, turn⟩ := input
    cases incoming with
    | frame bs =>
      unfold handleClient at h
      split_ifs at h
      · cases h
      · rcases mem_cons.mp h with rfl | h
        · exact correlated_serveFrame codecs bs turn
        · exact ih h
      · rcases mem_cons.mp h with rfl | h
        · exact correlated_serveFrame codecs bs turn
        · cases h
    | _ => cases h

def Incoming.frame? : Incoming → Option Bytes
  | frame bytes => some bytes
  | _ => none

lemma received_handleClient (codecs : Codecs) (inps : List (Incoming × Turn)) :
    (handleClient codecs inps).map Exchange.received <+:
      inps.filterMap fun input => input.1.frame? := by
  induction inps with
  | nil => exact nil_prefix
  | cons input rest ih =>
    obtain ⟨incoming, turn⟩ := input
    cases incoming with
    | frame bs =>
      unfold handleClient
      split_ifs
      · exact nil_prefix
      · exact cons_prefix_cons.mpr ⟨rfl, ih⟩
      · exact cons_prefix_cons.mpr ⟨rfl, nil_prefix⟩
    | _ => exact nil_prefix

lemma last_of_not_decoded {inps : List (Incoming × Turn)} {pre aft : List Exchange}
    {e : Exchange} {msg : Text} (hsp : handleClient codecs inps = pre ++ e :: aft)
    (h : decodeRequest codecs e.received = .error msg) : aft = [] := by
  induction inps generalizing pre with
  | nil => cases pre <;> cases hsp
  | cons input rest ih =>
    obtain ⟨incoming, turn⟩ := input
    cases incoming with
    | frame bs =>
      unfold handleClient at hsp
      split_ifs at hsp with hlen hcon
      · cases pre <;> cases hsp
      · cases pre with
        | nil =>
          cases hsp
          rw [serveFrame_of_not_decoded turn h] at hcon
          cases hcon
        | cons first pre => exact ih (List.cons.inj hsp).2
      · cases pre with
        | nil => exact (List.cons.inj hsp).2.symm
        | cons first pre =>
          have hta := (List.cons.inj hsp).2
          cases pre <;> cases hta
    | _ => cases pre <;> cases hsp

/-! ### Frames that are answered -/

/-- The response is serialised, within the budget. -/
def Fits (codecs : Codecs) (response : Response) : Prop :=
  ∃ frame, encodeFrame codecs.response response = .ok frame ∧ frame.length ≤ maxResponseSize

/-- The write of a turn works, and the response that is due is serialised: an error within the
budget, and the response of the handler, or else the error that takes its place. -/
structure Answerable (codecs : Codecs) (bytes : Bytes) (turn : Turn) : Prop where
  written : turn.write = .written
  refusal : ∀ message, decodeRequest codecs bytes = .error message →
    Fits codecs (parseErrorResponse message)
  limited : ∀ request, decodeRequest codecs bytes = .ok request → turn.isRateLimited = true →
    Fits codecs (rateLimitError request.id)
  complete : ∀ request, decodeRequest codecs bytes = .ok request → turn.isRateLimited = false →
    ∃ frame, encodeFrame codecs.response (handlerResponse request turn.handler) = .ok frame ∧
      (maxResponseSize < frame.length → Fits codecs (tooLargeError request.id frame.length))

lemma sendFrame_written {frame : Bytes} (h : frame.length ≤ maxResponseSize) :
    sendFrame frame .written = (some frame, true) := by
  rw [sendFrame, if_neg (not_lt.mpr h)]

lemma sendErrorResponse_isSome {response : Response} (h : Fits codecs response) :
    (sendErrorResponse codecs response .written).isSome = true := by
  obtain ⟨frame, hencode, hlength⟩ := h
  simp [sendErrorResponse, hencode, sendFrame_written hlength]

lemma serveFrame_answerable {bytes : Bytes} {turn : Turn} (h : Answerable codecs bytes turn) :
    (serveFrame codecs bytes turn).1.isSome = true ∧
      ∀ request, decodeRequest codecs bytes = .ok request →
        (serveFrame codecs bytes turn).2 = true := by
  cases hdecode : decodeRequest codecs bytes with
  | error message =>
    rw [serveFrame, hdecode]
    dsimp only
    rw [h.written]
    exact ⟨sendErrorResponse_isSome (h.refusal message hdecode), nofun⟩
  | ok request =>
    rw [serveFrame, hdecode]
    dsimp only
    rw [h.written]
    cases hlimit : turn.isRateLimited with
    | true => exact ⟨sendErrorResponse_isSome (h.limited request hdecode hlimit), fun _ _ => rfl⟩
    | false =>
      obtain ⟨frame, hencode, hlarge⟩ := h.complete request hdecode hlimit
      by_cases hlength : frame.length ≤ maxResponseSize
      · have hbounded : encodeBoundedResponse codecs (handlerResponse request turn.handler)
            request.id = .ok frame := by simp [encodeBoundedResponse, hencode, hlength]
        simp [hbounded, sendFrame_written hlength]
      · obtain ⟨short, hshort, hfits⟩ := hlarge (not_le.mp hlength)
        have hbounded : encodeBoundedResponse codecs (handlerResponse request turn.handler)
            request.id = .ok short := by simp [encodeBoundedResponse, hencode, hlength, hshort]
        simp [hbounded, sendFrame_written hfits]

lemma sent_of_answerable {inputs : List (Incoming × Turn)} {e : Exchange}
    (he : e ∈ handleClient codecs inputs) (h : Answerable codecs e.received e.turn) :
    e.sent.isSome = true := by
  induction inputs with
  | nil => cases he
  | cons input rest ih =>
    obtain ⟨incoming, turn⟩ := input
    cases incoming with
    | frame bytes =>
      unfold handleClient at he
      split_ifs at he
      · cases he
      · rcases mem_cons.mp he with rfl | he
        · exact (serveFrame_answerable h).1
        · exact ih he
      · obtain rfl := mem_singleton.mp he
        exact (serveFrame_answerable h).1
    | _ => cases he

/-- After frames that were decoded and answered, the next frame is taken. -/
lemma handleClient_reaches {served : List (Bytes × Turn)} {bytes : Bytes} {turn : Turn}
    {rest : List (Incoming × Turn)}
    (hserved : ∀ x ∈ served, x.1.length ≤ maxRequestSize ∧
      (∃ request, decodeRequest codecs x.1 = .ok request) ∧ Answerable codecs x.1 x.2)
    (hlength : bytes.length ≤ maxRequestSize) :
    ∃ before e after, handleClient codecs
        (served.map (fun x => (.frame x.1, x.2)) ++ (.frame bytes, turn) :: rest) =
      before ++ e :: after ∧ before.map (fun e => (e.received, e.turn)) = served ∧
      e.received = bytes ∧ e.turn = turn := by
  induction served with
  | nil =>
    refine ⟨[], ⟨bytes, turn, (serveFrame codecs bytes turn).1⟩,
      if (serveFrame codecs bytes turn).2 then handleClient codecs rest else [], ?_, rfl, rfl, rfl⟩
    rw [map_nil, nil_append, handleClient, if_neg (not_lt.mpr hlength), nil_append]
  | cons x served ih =>
    obtain ⟨⟨hshort, ⟨request, hdecode⟩, hanswer⟩, hserved⟩ := forall_mem_cons.mp hserved
    obtain ⟨before, e, after, hrun, hbefore, hbytes, hturn⟩ := ih hserved
    refine ⟨⟨x.1, x.2, (serveFrame codecs x.1 x.2).1⟩ :: before, e, after, ?_,
      congrArg (x :: ·) hbefore, hbytes, hturn⟩
    rw [map_cons, cons_append, handleClient, if_neg (not_lt.mpr hshort),
      if_pos ((serveFrame_answerable hanswer).2 request hdecode), hrun, cons_append]

end Omg.Daemon
