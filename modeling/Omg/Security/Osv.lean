import Omg.Text.Basic

/-!
# The OSV query

The findings for a package are fetched page by page. The server answers as it likes, depending on
the requests so far, and may never come to a last page. Findings go into a cache that is shared by
all scanners of the process; what was put there may be dropped at any time.

Source: `src/core/security/vulnerability.rs`.
-/

namespace Omg.Security

open List Text

structure OsvRequest where
  name : Text
  ecosystem : Text
  version : Text
  pageToken : Option Text

structure DetailedVulnerability where
  id : Text
  summary : Option Text
  severity : Option (List Text)

structure OsvResponse where
  vulns : Option (List DetailedVulnerability)
  nextPageToken : Option Text

structure VulnerabilityReport where
  id : Text
  summary : Text
  score : Option Text

inductive VulnerabilityError where
  | osvRequest
  | osvStatus
  | osvRead
  | osvParse
  | osvResponseBudget (reason : Text)
  | osvPagination (reason : Text)

def maxOsvTotalResponseBytes : ℕ := 16 * 1024 * 1024

def maxOsvFindings : ℕ := 10000

def maxOsvPages : ℕ := 100

/-- What the requests so far, the last one first, are answered with, how a body is decoded, and the
highest valid score of some severities. -/
structure OsvService where
  post : List OsvRequest → Except VulnerabilityError Text
  decode : Text → Except VulnerabilityError OsvResponse
  highestScore : List Text → Option Text

open OsvService

/-- The variables of the loop; `sent` holds the requests, the last one first. -/
structure OsvPages where
  sent : List OsvRequest
  vulnerabilities : List DetailedVulnerability
  responseBytes : ℕ
  seenTokens : List Text
  bytes_le : responseBytes ≤ maxOsvTotalResponseBytes
  findings_le : vulnerabilities.length ≤ maxOsvFindings

def OsvPages.empty : OsvPages := ⟨[], [], 0, [], Nat.zero_le _, Nat.zero_le _⟩

def OsvResponse.findings (response : OsvResponse) : List DetailedVulnerability :=
  response.vulns.getD []

def OsvResponse.continuation (response : OsvResponse) : Option Text :=
  response.nextPageToken.filter (· ≠ [])

/-- One page, within the budgets. -/
def OsvService.receive (service : OsvService) (request : OsvRequest) (s : OsvPages) :
    Except VulnerabilityError (OsvResponse × OsvPages) :=
  match service.post (request :: s.sent) with
  | .error e => .error e
  | .ok body =>
    if hbytes : byteLen body ≤ maxOsvTotalResponseBytes - s.responseBytes then
      match service.decode body with
      | .error e => .error e
      | .ok response =>
        if hfindings : response.findings.length ≤ maxOsvFindings - s.vulnerabilities.length then
          .ok (response, {
            sent := request :: s.sent
            vulnerabilities := s.vulnerabilities ++ response.findings
            responseBytes := s.responseBytes + byteLen body
            seenTokens := s.seenTokens
            bytes_le := by have := s.bytes_le; omega
            findings_le := by have := s.findings_le; rw [length_append]; omega })
        else .error (.osvResponseBudget "finding budget exceeded")
    else .error (.osvResponseBudget "byte budget exceeded")

def OsvPages.see (s : OsvPages) (token : Text) : OsvPages :=
  { s with seenTokens := token :: s.seenTokens }

/-- The loop with `left` pages to go: the findings or an error, and the requests that were sent. -/
def OsvService.fetchPages (service : OsvService) : ℕ → OsvRequest → OsvPages →
    Except VulnerabilityError (List DetailedVulnerability) × List OsvRequest
  | 0, _, s => (.ok s.vulnerabilities, s.sent)
  | left + 1, request, s =>
    match service.receive request s with
    | .error e => (.error e, request :: s.sent)
    | .ok (response, s') =>
      match response.continuation with
      | none => (.ok s'.vulnerabilities, s'.sent)
      | some token =>
        if token ∈ s'.seenTokens then
          (.error (.osvPagination "repeated continuation token"), s'.sent)
        else if left = 0 then (.error (.osvPagination "page budget exceeded"), s'.sent)
        else service.fetchPages left { request with pageToken := some token } (s'.see token)

def OsvService.report (service : OsvService) (vuln : DetailedVulnerability) :
    VulnerabilityReport where
  id := vuln.id
  summary := vuln.summary.getD "No summary provided"
  score := service.highestScore (vuln.severity.getD [])

structure OsvQuery where
  osvApiUrl : Text
  ecosystem : Text
  name : Text
  version : Text

def OsvQuery.cacheKey (q : OsvQuery) : Text :=
  q.osvApiUrl ++ '\x00' :: (q.ecosystem ++ '\x00' :: (q.name ++ '\x00' :: q.version))

def OsvQuery.request (q : OsvQuery) : OsvRequest := ⟨q.name, q.ecosystem, q.version, none⟩

/-- The cached reports by key, the last ones first. -/
abbrev VulnCache := List (Text × List VulnerabilityReport)

/-- The OSV path of `scan_package`: the result, the cache after it and the requests. -/
def OsvService.scanPackage (service : OsvService) (q : OsvQuery) (cache : VulnCache) :
    Except VulnerabilityError (List VulnerabilityReport) × VulnCache × List OsvRequest :=
  match cache.lookup q.cacheKey with
  | some cached => (.ok cached, cache, [])
  | none =>
    match service.fetchPages maxOsvPages q.request .empty with
    | (.error e, sent) => (.error e, cache, sent)
    | (.ok vulnerabilities, sent) =>
      (.ok (vulnerabilities.map service.report),
        (q.cacheKey, vulnerabilities.map service.report) :: cache, sent)

/-! ### The pages -/

variable {service : OsvService} {request : OsvRequest} {s s' : OsvPages}

/-- The request, sent after those of `sent`, is answered with `page`. -/
def Answers (service : OsvService) (sent : List OsvRequest) (request : OsvRequest)
    (page : OsvResponse) : Prop :=
  ∃ body, service.post (request :: sent) = .ok body ∧ service.decode body = .ok page

/-- The pages from a request on, up to the first without a token. Every further request carries the
token of the page before it. -/
def Pages (service : OsvService) : List OsvRequest → OsvRequest → List OsvResponse → Prop
  | _, _, [] => False
  | sent, request, page :: pages => Answers service sent request page ∧
      match page.continuation with
      | none => pages = []
      | some token => Pages service (request :: sent) { request with pageToken := some token } pages

lemma receive_eq_ok {page : OsvResponse} (h : service.receive request s = .ok (page, s')) :
    Answers service s.sent request page ∧ s'.sent = request :: s.sent ∧
      s'.vulnerabilities = s.vulnerabilities ++ page.findings ∧ s'.seenTokens = s.seenTokens := by
  unfold receive at h
  split at h
  · cases h
  next body hpo =>
  split at h
  · split at h
    · cases h
    next response hdc =>
    split at h
    · obtain ⟨rfl, rfl⟩ := Prod.mk.inj (Except.ok.inj h)
      exact ⟨⟨body, hpo, hdc⟩, rfl, rfl, rfl⟩
    · cases h
  · cases h

lemma length_fetchPages_le : ∀ (left : ℕ) (request : OsvRequest) (s : OsvPages),
    (service.fetchPages left request s).2.length ≤ s.sent.length + left
  | 0, _, s => le_rfl
  | left + 1, request, s => by
    unfold fetchPages
    split
    · simp
    next page s' hrec =>
    obtain ⟨-, hse, -⟩ := receive_eq_ok hrec
    have hlen : s'.sent.length = s.sent.length + 1 := by rw [hse, length_cons]
    have hle : s'.sent.length ≤ s.sent.length + (left + 1) := by omega
    split
    · exact hle
    next token _ =>
    split_ifs
    · exact hle
    · exact hle
    · have hr := length_fetchPages_le left { request with pageToken := some token } (s'.see token)
      simp only [OsvPages.see, hlen] at hr ⊢
      omega

lemma fetchPages_eq_ok {left : ℕ} {vulns : List DetailedVulnerability}
    (h : (service.fetchPages (left + 1) request s).1 = .ok vulns) :
    ∃ pages, Pages service s.sent request pages ∧
      vulns = s.vulnerabilities ++ pages.flatMap OsvResponse.findings ∧
      (pages.filterMap OsvResponse.continuation).Nodup ∧
      ∀ token ∈ pages.filterMap OsvResponse.continuation, token ∉ s.seenTokens := by
  induction left using Nat.strong_induction_on generalizing request s with
  | _ left ih =>
    unfold fetchPages at h
    split at h
    · cases h
    next page s' hrec =>
    obtain ⟨hans, hse, hvul, hsn⟩ := receive_eq_ok hrec
    split at h
    · next hla =>
      refine ⟨[page], ⟨hans, by simp [hla]⟩, ?_, by simp [hla], by simp [hla]⟩
      simpa [hvul] using (Except.ok.inj h).symm
    next token hnx =>
    -- Only a new token with pages to go leads on.
    split_ifs at h with hrep hlf
    obtain ⟨left, rfl⟩ := Nat.exists_eq_succ_of_ne_zero hlf
    obtain ⟨pages, hpag, hfindings, hnd, hfre⟩ := ih left (Nat.lt_succ_self left) h
    refine ⟨page :: pages, ⟨hans, ?_⟩, ?_, ?_, ?_⟩
    · rw [hnx]
      simpa [OsvPages.see, hse] using hpag
    · simp [hfindings, OsvPages.see, hvul]
    · rw [filterMap_cons_some hnx]
      exact nodup_cons.mpr ⟨fun hmem => hfre token hmem mem_cons_self, hnd⟩
    · rw [filterMap_cons_some hnx]
      refine forall_mem_cons.mpr ⟨hsn ▸ hrep, fun t ht hmem => hfre t ht ?_⟩
      exact mem_cons_of_mem _ (hsn ▸ hmem)

/-! ### The cache -/

/-- No part of the query contains the separator of the key. -/
def OsvQuery.NulFree (q : OsvQuery) : Prop :=
  '\x00' ∉ q.osvApiUrl ∧ '\x00' ∉ q.ecosystem ∧ '\x00' ∉ q.name

lemma cacheKey_inj {q q' : OsvQuery} (hq : q.NulFree) (hq' : q'.NulFree)
    (h : q.cacheKey = q'.cacheKey) : q = q' := by
  obtain ⟨hurl, h⟩ := append_cons_inj hq.1 hq'.1 h
  obtain ⟨heco, h⟩ := append_cons_inj hq.2.1 hq'.2.1 h
  obtain ⟨hn, hver⟩ := append_cons_inj hq.2.2 hq'.2.2 h
  cases q
  cases q'
  simp_all

/-- A cache that scans have filled, with what they found. Entries may expire. -/
inductive Filled : VulnCache → List (OsvQuery × List VulnerabilityReport) → Prop
  | nil : Filled [] []
  | scan {cache found} (service : OsvService) (q : OsvQuery) {reports} (h : Filled cache found)
      (hscan : (service.scanPackage q cache).1 = .ok reports) :
      Filled (service.scanPackage q cache).2.1 ((q, reports) :: found)
  | expire {cache cache' found} (h : Filled cache found) (hsub : cache'.Sublist cache) :
      Filled cache' found

lemma Filled.exists_query {cache : VulnCache} {found : List (OsvQuery × List VulnerabilityReport)}
    (h : Filled cache found) : ∀ p ∈ cache, ∃ q, (q, p.2) ∈ found ∧ p.1 = q.cacheKey := by
  induction h with
  | nil => simp
  | @scan cache found service q reports h hscan ih =>
    have hold : ∀ p ∈ cache, ∃ q', (q', p.2) ∈ (q, reports) :: found ∧ p.1 = q'.cacheKey := by
      intro p hp
      obtain ⟨q', hq', hkey⟩ := ih p hp
      exact ⟨q', mem_cons_of_mem _ hq', hkey⟩
    unfold scanPackage at hscan ⊢
    split at hscan
    · exact hold
    · split at hscan
      · cases hscan
      · obtain rfl := Except.ok.inj hscan
        exact forall_mem_cons.mpr ⟨⟨q, mem_cons_self, rfl⟩, hold⟩
  | expire h hsub ih => exact fun p hp => ih p (hsub.subset hp)

/-- **The OSV scan.** At most 100 requests; a result that is not cached is all the pages up to the
last one; otherwise an error, which is not cached; and a cached result is one for the same query. -/
theorem scanPackage_spec (service : OsvService) (q : OsvQuery) (cache : VulnCache) :
    (service.scanPackage q cache).2.2.length ≤ 100 ∧
    (cache.lookup q.cacheKey = none →
      (∃ pages, (service.scanPackage q cache).1 =
          .ok ((pages.flatMap OsvResponse.findings).map service.report) ∧
        Pages service [] q.request pages ∧ (pages.filterMap OsvResponse.continuation).Nodup) ∨
      (∃ e, (service.scanPackage q cache).1 = .error e) ∧
        (service.scanPackage q cache).2.1 = cache) ∧
    ∀ found, Filled cache found → (∀ p ∈ found, p.1.NulFree) → q.NulFree →
      ∀ cached, cache.lookup q.cacheKey = some cached →
        (service.scanPackage q cache).1 = .ok cached ∧ (q, cached) ∈ found := by
  have hlen : (service.fetchPages maxOsvPages q.request .empty).2.length ≤ 0 + maxOsvPages :=
    length_fetchPages_le _ _ _
  refine ⟨?_, fun hmi => ?_, fun found hfil hfe hq cached hhit => ⟨?_, ?_⟩⟩
  · unfold scanPackage
    split
    · exact Nat.zero_le _
    · split <;> next hfet => rw [hfet] at hlen; exact hlen
  · rw [scanPackage, hmi]
    cases hfet : service.fetchPages maxOsvPages q.request .empty with
    | mk result sent =>
    cases result with
    | error e => exact .inr ⟨⟨e, rfl⟩, rfl⟩
    | ok vulns =>
      obtain ⟨pages, hpag, rfl, hnd, -⟩ := fetchPages_eq_ok (congrArg Prod.fst hfet)
      exact .inl ⟨pages, rfl, hpag, hnd⟩
  · simp [scanPackage, hhit]
  · obtain ⟨before, after, rfl, -⟩ := lookup_eq_some_iff.mp hhit
    obtain ⟨q', hmem, hkey⟩ := hfil.exists_query (q.cacheKey, cached) (by simp)
    rwa [cacheKey_inj hq (hfe _ hmem) hkey]

end Omg.Security
