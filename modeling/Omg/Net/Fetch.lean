import Omg.Control.Except
import Omg.Net.Address
import Omg.Text.Basic

/-!
# Downloads from public addresses only

Downloads of URLs that metadata selects, and of package sources, resolve the host at every hop,
check all addresses and pin them for the request. The host names, what the resolver answers and what
the servers answer are all chosen by others and may differ at every hop.

Source: `src/core/http.rs`, `src/package_managers/aur_sources.rs`.
-/

namespace Omg.Net

open List Except Block

open Control (bind_eq_ok)
open Text (ensure bail required eqIgnoreAsciiCase toAsciiLowercase decimal)

namespace IpAddr

def isLoopback4 (a : BitVec 32) : Bool := octet a 0 == 127

def isPrivate4 (a : BitVec 32) : Bool :=
  octet a 0 == 10 || (octet a 0 == 172 && 16 ≤ octet a 1 && octet a 1 ≤ 31) ||
    (octet a 0 == 192 && octet a 1 == 168)

def isLinkLocal4 (a : BitVec 32) : Bool := octet a 0 == 169 && octet a 1 == 254

def isUnspecified4 (a : BitVec 32) : Bool := a == 0

def isBroadcast4 (a : BitVec 32) : Bool := a.toNat == 2 ^ 32 - 1

def isDocumentation4 (a : BitVec 32) : Bool :=
  (octet a 0 == 192 && octet a 1 == 0 && octet a 2 == 2) ||
    (octet a 0 == 198 && octet a 1 == 51 && octet a 2 == 100) ||
    (octet a 0 == 203 && octet a 1 == 0 && octet a 2 == 113)

def isLoopback6 (a : BitVec 128) : Bool := a == 1

def isUnspecified6 (a : BitVec 128) : Bool := a == 0

/-- `Ipv6Addr::to_ipv4_mapped`. -/
def toIpv4Mapped (a : BitVec 128) : Option (BitVec 32) :=
  if a.toNat / 2 ^ 32 = 0xffff then some (a.truncate 32) else none

def isLoopback : IpAddr → Bool
  | v4 a => isLoopback4 a
  | v6 a => isLoopback6 a

end IpAddr

open IpAddr

def isPublicAddress : IpAddr → Bool
  | .v4 ip =>
    !isPrivate4 ip && !isLoopback4 ip && !isLinkLocal4 ip && !isUnspecified4 ip &&
      !isDocumentation4 ip && !isBroadcast4 ip && octet ip 0 != 0 && octet ip 0 < 224 &&
      !(octet ip 0 == 100 && 64 ≤ octet ip 1 && octet ip 1 ≤ 127) &&
      !(octet ip 0 == 192 && octet ip 1 == 0 && octet ip 2 == 0) &&
      !(octet ip 0 == 198 && 18 ≤ octet ip 1 && octet ip 1 ≤ 19)
  | .v6 ip =>
    segment ip 0 &&& 0xe000 == 0x2000 && !(segment ip 0 == 0x2001 && segment ip 1 == 0x0db8) &&
      !(segment ip 0 == 0x2001 && segment ip 1 == 0) && segment ip 0 != 0x2002

def validateResolvedAddresses (addresses : List IpAddr) (loopbackFixture : Bool) : Result Unit :=
  ensure (addresses ≠ [] &&
      addresses.all fun address =>
        isPublicAddress address || (loopbackFixture && isLoopback address))
    "Download resolves to a non-public address"

/-! ### URLs -/

/-- The host of a URL, as the `url` crate has it. -/
inductive Host
  | domain (name : Text)
  | ipv4 (a : BitVec 32)
  | ipv6 (a : BitVec 128)
deriving DecidableEq

/-- The parts of a URL that are looked at. `text` is its serialisation, and `port` the port or the
default of the scheme. -/
structure Url where
  text : Text
  scheme : Text
  username : Text
  password : Option Text
  host : Option Host
  port : Option ℕ
deriving DecidableEq

/-- The functions of the `url` crate. -/
structure UrlParser where
  parse : Text → Except Text Url
  join : Url → Text → Except Text Url
  redacted : Url → Text

structure UrlParser.Stable (U : UrlParser) : Prop where
  parse : ∀ raw url, U.parse raw = .ok url → U.parse url.text = .ok url
  join : ∀ url location url', U.join url location = .ok url' → U.parse url'.text = .ok url'

def https : Text := "https"

def http : Text := "http"

def redactUrl (U : UrlParser) (raw : Text) : Text :=
  match U.parse raw with
  | .error _ => "<invalid URL>"
  | .ok url => U.redacted url

def isLocalhostName (name : Text) : Bool :=
  eqIgnoreAsciiCase name "localhost" ||
    ".localhost".toList.isSuffixOf (toAsciiLowercase name)

/-- `is_private_or_local_host`. -/
def isPrivateOrLocalHost : Option Host → Bool
  | none => true
  | some (.domain name) => isLocalhostName name
  | some (.ipv4 a) =>
    isLoopback4 a || isPrivate4 a || isLinkLocal4 a || isUnspecified4 a || isBroadcast4 a
  | some (.ipv6 a) =>
    match toIpv4Mapped a with
    | some mapped =>
      isLoopback4 mapped || isPrivate4 mapped || isLinkLocal4 mapped || isUnspecified4 mapped
    | none =>
      isLoopback6 a || isUnspecified6 a || segment a 0 &&& 0xfe00 == 0xfc00 ||
        segment a 0 &&& 0xffc0 == 0xfe80

def isLoopbackHost : Option Host → Bool
  | none => false
  | some (.domain name) => isLocalhostName name
  | some (.ipv4 a) => isLoopback4 a
  | some (.ipv6 a) => isLoopback6 a

section

variable (U : UrlParser) (testMode : Bool)

def loopbackFixture (url : Url) : Bool := url.scheme == http && isLoopbackHost url.host && testMode

/-- `validate_download_url`. -/
def validateDownloadUrl (raw : Text) : Result Unit :=
  match U.parse raw with
  | .error _ => bail "Invalid download URL"
  | .ok url =>
    if url.scheme ≠ https then
      if loopbackFixture testMode url then .ok ()
      else bail ("Download must use HTTPS, refusing " ++ redactUrl U raw)
    else if isPrivateOrLocalHost url.host then
      bail ("Download must not target a private or local address, refusing " ++
        redactUrl U raw)
    else .ok ()

/-! ### Requests -/

structure Request where
  url : Url
  addresses : List IpAddr
  headers : List (Text × Text)
  totalTimeout : Option ℕ
  automaticDecoding : Bool

/-- Where the connection of a request can go: an address in the URL is taken as it is, and a name
is looked up among the pinned addresses. -/
def Request.destinations (request : Request) : List IpAddr :=
  match request.url.host with
  | some (.ipv4 a) => [.v4 a]
  | some (.ipv6 a) => [.v6 a]
  | _ => request.addresses

/-- A response: the status, and the header `Location`, which may not be text. -/
structure Response where
  status : ℕ
  location : Option (Except Text Text)

def Response.isRedirection (response : Response) : Bool :=
  300 ≤ response.status && response.status < 400

structure Network where
  lookup : ℕ → Text → ℕ → Result (List IpAddr)
  acceptsBrackets : ℕ → Bool
  respond : ℕ → Request → Result Response

def lookupFailed : Text := "failed to lookup address information: Name or service not known"

/-- `tokio::net::lookup_host`, which asks nobody about an address. -/
def lookupHost (net : Network) (hop : ℕ) (host : Host) (port : ℕ) : Result (List IpAddr) :=
  match host with
  | .domain name => net.lookup hop name port
  | .ipv4 a => .ok [.v4 a]
  | .ipv6 a => if net.acceptsBrackets hop then .ok [.v6 a] else bail lookupFailed

/-- The header `Location` of a redirect. -/
def Response.locationText (response : Response) (missing : Text) : Result Text := do
  let header ← required response.location missing
  header.mapError fun message => [message]

def UrlParser.resolve (url : Url) (location : Text) : Result Url :=
  (U.join url location).mapError fun message => [message]

variable (net : Network) (userAgent : Text) (totalTimeout : Option ℕ)
  (range : Option (ℕ × Text)) (binaryTransfer : Bool)

def downloadHeaders : List (Text × Text) :=
  ("user-agent".toList, userAgent) ::
    ((if binaryTransfer then [("accept-encoding".toList, "identity".toList)] else []) ++
      match range with
      | some (offset, validator) =>
        [("range".toList, "bytes=".toList ++ decimal offset ++ "-".toList),
          ("if-range".toList, validator)]
      | none => [])

def prepareDownload (hop : ℕ) (url : Url) : Result Request := do
  validateDownloadUrl U testMode url.text
  ensure (url.username = [] && url.password.isNone)
    "Download URL must not contain credentials"
  let host ← required url.host "Download URL has no host"
  let port ← required url.port "Download URL has no port"
  let addresses ← lookupHost net hop host port
  validateResolvedAddresses addresses (loopbackFixture testMode url)
  pure ⟨url, addresses, downloadHeaders userAgent range binaryTransfer, totalTimeout,
    !binaryTransfer⟩

def maxRedirects : ℕ := 10

def nextDownload (hop : ℕ) (url : Url) (response : Response) : Result (Option Url) :=
  if !response.isRedirection then .ok none
  else do
    ensure (hop < maxRedirects) "Too many download redirects"
    let location ← response.locationText "Download redirect has no location"
    let next ← U.resolve url location
    ensure (url.scheme ≠ https || next.scheme = https)
      "Refusing HTTPS-to-HTTP download redirect"
    pure (some next)

def downloadClient : Client Url Request Response AnyhowError where
  prepare := prepareDownload U testMode net userAgent totalTimeout range binaryTransfer
  send := net.respond
  next := nextDownload U
  exhausted := ["bounded redirect loop returns or errors"]

def fetchPublicDownloadWithOptions (raw : Text) : List Request × Result Response :=
  match U.parse raw with
  | .error _ => ([], bail "Invalid download URL")
  | .ok url =>
    (downloadClient U testMode net userAgent totalTimeout range binaryTransfer).follow
      (maxRedirects + 1) 0 url

end

section

variable (U : UrlParser) (net : Network)

def prepareSource (hop : ℕ) (url : Url) : Result Request := do
  ensure (url.scheme = https && url.username = [] && url.password.isNone)
    "AUR sources require HTTPS without URL credentials"
  let host ← required url.host "Source URL has no host"
  let port ← required url.port "Source URL has no port"
  let addresses ← lookupHost net hop host port
  ensure (addresses ≠ [] && addresses.all isPublicAddress)
    "AUR source resolves to a non-public address"
  pure ⟨url, addresses, [], none, true⟩

def nextSource (_hop : ℕ) (url : Url) (response : Response) : Result (Option Url) :=
  if !response.isRedirection then .ok none
  else do
    let location ← response.locationText "Source redirect has no location"
    let next ← U.resolve url location
    pure (some next)

def sourceClient : Client Url Request Response AnyhowError where
  prepare := prepareSource net
  send := net.respond
  next := nextSource U
  exhausted := ["Too many AUR source redirects"]

def fetchPublicSource (value : Text) : List Request × Result Response :=
  match U.parse value with
  | .error message => ([], bail message)
  | .ok url => (sourceClient U net).follow 11 0 url

end

/-! ### Where requests can go -/

def specialPurpose4 : List (Block 32) :=
  [⟨0x00000000, 8, by decide, by decide, by decide⟩,    -- 0.0.0.0/8
    ⟨0x0a000000, 8, by decide, by decide, by decide⟩,   -- 10.0.0.0/8
    ⟨0x64400000, 10, by decide, by decide, by decide⟩,  -- 100.64.0.0/10
    ⟨0x7f000000, 8, by decide, by decide, by decide⟩,   -- 127.0.0.0/8
    ⟨0xa9fe0000, 16, by decide, by decide, by decide⟩,  -- 169.254.0.0/16
    ⟨0xac100000, 12, by decide, by decide, by decide⟩,  -- 172.16.0.0/12
    ⟨0xc0000000, 24, by decide, by decide, by decide⟩,  -- 192.0.0.0/24
    ⟨0xc0000200, 24, by decide, by decide, by decide⟩,  -- 192.0.2.0/24
    ⟨0xc0a80000, 16, by decide, by decide, by decide⟩,  -- 192.168.0.0/16
    ⟨0xc6120000, 15, by decide, by decide, by decide⟩,  -- 198.18.0.0/15
    ⟨0xc6336400, 24, by decide, by decide, by decide⟩,  -- 198.51.100.0/24
    ⟨0xcb007100, 24, by decide, by decide, by decide⟩,  -- 203.0.113.0/24
    ⟨0xf0000000, 4, by decide, by decide, by decide⟩]   -- 240.0.0.0/4

/-- The IPv6 blocks of the registry that `isPublicAddress` does not know. -/
def overlooked : List (Block 128) :=
  [⟨0x20010002 * 2 ^ 96, 48, by decide, by decide, by decide⟩,   -- 2001:2::/48
    ⟨0x20010010 * 2 ^ 96, 28, by decide, by decide, by decide⟩,  -- 2001:10::/28
    ⟨0x3fff * 2 ^ 112, 20, by decide, by decide, by decide⟩]     -- 3fff::/20

def specialPurpose6 : List (Block 128) :=
  [⟨1, 128, by decide, by decide, by decide⟩,                    -- ::1/128
    ⟨0, 128, by decide, by decide, by decide⟩,                   -- ::/128
    ⟨0xffff * 2 ^ 32, 96, by decide, by decide, by decide⟩,      -- ::ffff:0:0/96
    ⟨0x64ff9b0001 * 2 ^ 80, 48, by decide, by decide, by decide⟩, -- 64:ff9b:1::/48
    ⟨0x0100 * 2 ^ 112, 64, by decide, by decide, by decide⟩,     -- 100::/64
    ⟨0x20010db8 * 2 ^ 96, 32, by decide, by decide, by decide⟩,  -- 2001:db8::/32
    ⟨0x2002 * 2 ^ 112, 16, by decide, by decide, by decide⟩,     -- 2002::/16
    ⟨0x5f00 * 2 ^ 112, 16, by decide, by decide, by decide⟩,     -- 5f00::/16
    ⟨0xfc00 * 2 ^ 112, 7, by decide, by decide, by decide⟩,      -- fc00::/7
    ⟨0xfe80 * 2 ^ 112, 10, by decide, by decide, by decide⟩] ++  -- fe80::/10
    overlooked

def OutsideSpecialPurpose : IpAddr → Prop
  | .v4 a => ∀ b ∈ specialPurpose4, a ∉ b
  | .v6 a => ∀ b ∈ specialPurpose6, a ∉ b

/-- An address in one of the blocks that `isPublicAddress` does not know. -/
def Overlooked : IpAddr → Prop
  | .v4 _ => False
  | .v6 a => ∃ b ∈ overlooked, a ∈ b

/-- The first group of an accepted IPv6 address is that of `2000::/3`. -/
lemma segment_zero_of_isPublicAddress {a : BitVec 128} (h : isPublicAddress (.v6 a) = true) :
    0x2000 ≤ a.toNat / 2 ^ 112 ∧ a.toNat / 2 ^ 112 < 0x4000 := by
  simp only [isPublicAddress, Bool.and_eq_true, beq_iff_eq] at h
  have hma := div_mod_of_land_eq (k := 13) h.1.1.1
  have hmod : segment a 0 / 2 ^ 13 % 2 ^ 3 = 1 := by
    rw [← Nat.and_two_pow_sub_one_eq_mod]
    exact hma
  have hseg : segment a 0 = a.toNat / 2 ^ 112 % 2 ^ 16 := rfl
  omega

lemma outside_of_isPublicAddress_v4 {a : BitVec 32} (h : isPublicAddress (.v4 a) = true) :
    ∀ b ∈ specialPurpose4, a ∉ b := by
  simp only [isPublicAddress, isPrivate4, isLoopback4, isLinkLocal4, isDocumentation4,
    Bool.and_eq_true, Bool.not_eq_eq_eq_not, Bool.not_true, Bool.or_eq_false_iff,
    Bool.and_eq_false_imp, beq_iff_eq, bne_iff_ne, decide_eq_true_eq, decide_eq_false_iff_not,
    beq_eq_false_iff_ne] at h
  obtain ⟨⟨⟨⟨⟨⟨⟨⟨⟨⟨⟨⟨h10, h172⟩, h192⟩, h127⟩, h169⟩, -⟩, ⟨h2, h198⟩, h203⟩, -⟩, h0⟩, h224⟩, h100⟩,
    hpro⟩, hben⟩ := h
  -- Every block fixes the bytes that one of the tests looks at.
  simp only [specialPurpose4, forall_mem_cons]
  refine ⟨fun h => h0 (octet_zero_of_mem h (by decide)),
    fun h => h10 (octet_zero_of_mem h (by decide)), fun h => ?_,
    fun h => h127 (octet_zero_of_mem h (by decide)),
    fun h => h169 (octet_zero_of_mem h (by decide)) (octet_one_of_mem h (by decide)),
    fun h => ?_,
    fun h => hpro ⟨octet_zero_of_mem h (by decide), octet_one_of_mem h (by decide)⟩
      (octet_two_of_mem h (by decide)),
    fun h => h2 ⟨octet_zero_of_mem h (by decide), octet_one_of_mem h (by decide)⟩
      (octet_two_of_mem h (by decide)),
    fun h => h192 (octet_zero_of_mem h (by decide)) (octet_one_of_mem h (by decide)),
    fun h => ?_,
    fun h => h198 ⟨octet_zero_of_mem h (by decide), octet_one_of_mem h (by decide)⟩
      (octet_two_of_mem h (by decide)),
    fun h => h203 ⟨octet_zero_of_mem h (by decide), octet_one_of_mem h (by decide)⟩
      (octet_two_of_mem h (by decide)),
    fun h => ?_, by simp⟩
  · have hsec := octet_one_between (x := 100) (l := 64) (u := 127) (mem_iff.mp h).1
      (mem_iff.mp h).2 (by decide)
    exact h100 ⟨octet_zero_of_mem h (by decide), hsec.1⟩ hsec.2
  · have hsec := octet_one_between (x := 172) (l := 16) (u := 31) (mem_iff.mp h).1
      (mem_iff.mp h).2 (by decide)
    exact h172 ⟨octet_zero_of_mem h (by decide), hsec.1⟩ hsec.2
  · have hsec := octet_one_between (x := 198) (l := 18) (u := 19) (mem_iff.mp h).1
      (mem_iff.mp h).2 (by decide)
    exact hben ⟨octet_zero_of_mem h (by decide), hsec.1⟩ hsec.2
  · have hf : octet a 0 = a.toNat / 2 ^ 24 % 2 ^ 8 := rfl
    have hlo : 0xf0000000 ≤ a.toNat := (mem_iff.mp h).1
    omega

lemma mem_overlooked_of_isPublicAddress_v6 {a : BitVec 128}
    (h : isPublicAddress (.v6 a) = true) {b : Block 128} (hb : b ∈ specialPurpose6) (ha : a ∈ b) :
    b ∈ overlooked := by
  have hf := segment_zero_of_isPublicAddress h
  simp only [isPublicAddress, Bool.and_eq_true, Bool.not_eq_eq_eq_not, Bool.not_true,
    Bool.and_eq_false_imp, bne_iff_ne, beq_eq_false_iff_ne] at h
  obtain ⟨⟨⟨-, hdoc⟩, -⟩, h6to4⟩ := h
  simp only [specialPurpose6, mem_append, mem_cons, not_mem_nil, or_false] at hb
  rcases hb with (rfl | rfl | rfl | rfl | rfl | rfl | rfl | rfl | rfl | rfl) | hb
  case inr => exact hb
  -- The documentation block and the one of 6to4 are tested for, and the others are not in 2000::/3.
  case inl.inr.inr.inr.inr.inr.inl =>
    refine absurd ?_ (hdoc ?_)
    · rw [segment, div_eq_of_mem ha (by decide)]
      rfl
    · rw [segment, div_eq_of_mem ha (by decide)]
      rfl
  case inl.inr.inr.inr.inr.inr.inr.inl =>
    refine absurd ?_ h6to4
    rw [segment, div_eq_of_mem ha (by decide)]
    rfl
  all_goals
    rw [mem_iff] at ha
    simp only [Nat.reduceSub] at ha hf
    omega

lemma outside_specialPurpose_iff {address : IpAddr} (h : isPublicAddress address) :
    OutsideSpecialPurpose address ↔ ¬ Overlooked address := by
  cases address with
  | v4 a => exact ⟨fun _ h => h, fun _ => outside_of_isPublicAddress_v4 h⟩
  | v6 a =>
    constructor
    · rintro hout ⟨b, hb, ha⟩
      exact hout b (mem_append_right _ hb) ha
    · intro hove b hb ha
      exact hove ⟨b, mem_overlooked_of_isPublicAddress_v6 h hb ha, ha⟩

/-! ### Requests of both downloads -/

structure Request.Vetted (request : Request) : Prop where
  scheme : request.url.scheme = https
  destinations : ∀ address ∈ request.destinations, isPublicAddress address = true

variable {net : Network} {hop : ℕ} {request : Request} {url : Url}

lemma isPublicAddress_of_mem_destinations {port : ℕ} {host : Host}
    (hho : request.url.host = some host)
    (hlk : lookupHost net hop host port = .ok request.addresses)
    (hpub : request.addresses.all isPublicAddress) :
    ∀ address ∈ request.destinations, isPublicAddress address := by
  have hall := all_eq_true.mp hpub
  suffices hdes : request.destinations = request.addresses by rwa [hdes]
  rw [Request.destinations, hho]
  cases host with
  | domain name => rfl
  | ipv4 a => exact ok.inj hlk
  | ipv6 a =>
    simp only [lookupHost] at hlk
    split_ifs at hlk
    · exact ok.inj hlk
    · cases hlk

lemma vetted_of_prepareDownload {U : UrlParser} {userAgent : Text} {totalTimeout : Option ℕ}
    {range : Option (ℕ × Text)} {binaryTransfer : Bool} (hurl : U.parse url.text = .ok url)
    (h : prepareDownload U false net userAgent totalTimeout range binaryTransfer hop url = .ok
      request) : request.Vetted := by
  have hfix : loopbackFixture false url = false := by simp [loopbackFixture]
  obtain ⟨_, hv, h⟩ := bind_eq_ok.mp h
  obtain ⟨_, -, h⟩ := bind_eq_ok.mp h
  obtain ⟨host, hho, h⟩ := bind_eq_ok.mp h
  obtain ⟨port, -, h⟩ := bind_eq_ok.mp h
  obtain ⟨addresses, hlk, h⟩ := bind_eq_ok.mp h
  obtain ⟨_, hadd, h⟩ := bind_eq_ok.mp h
  cases h
  simp only [validateResolvedAddresses, hfix, Bool.false_and, Bool.or_false, Text.ensure_eq_ok,
    Bool.and_eq_true] at hadd
  refine ⟨?_, isPublicAddress_of_mem_destinations (Text.required_eq_ok.mp hho) hlk hadd.2⟩
  by_contra hsch
  simp [validateDownloadUrl, hurl, hsch, hfix, bail] at hv

lemma vetted_of_prepareSource (h : prepareSource net hop url = .ok request) : request.Vetted := by
  obtain ⟨_, hv, h⟩ := bind_eq_ok.mp h
  obtain ⟨host, hho, h⟩ := bind_eq_ok.mp h
  obtain ⟨port, -, h⟩ := bind_eq_ok.mp h
  obtain ⟨addresses, hlk, h⟩ := bind_eq_ok.mp h
  obtain ⟨_, hadd, h⟩ := bind_eq_ok.mp h
  cases h
  simp only [Text.ensure_eq_ok, Bool.and_eq_true, decide_eq_true_eq] at hv hadd
  exact ⟨hv.1.1, isPublicAddress_of_mem_destinations (Text.required_eq_ok.mp hho) hlk hadd.2⟩

lemma parse_of_nextDownload {U : UrlParser} (hU : U.Stable) {url' : Url} {resp : Response}
    (h : nextDownload U hop url resp = .ok (some url')) : U.parse url'.text = .ok url' := by
  unfold nextDownload at h
  split_ifs at h
  · cases h
  · obtain ⟨_, -, h⟩ := bind_eq_ok.mp h
    obtain ⟨location, -, h⟩ := bind_eq_ok.mp h
    obtain ⟨next, hnx, h⟩ := bind_eq_ok.mp h
    obtain ⟨_, -, h⟩ := bind_eq_ok.mp h
    cases h
    cases hj : U.join url location with
    | error msg => simp [UrlParser.resolve, hj, Except.mapError] at hnx
    | ok joined =>
      obtain rfl : joined = url' := by simpa [UrlParser.resolve, hj, Except.mapError] using hnx
      exact hU.join url location joined hj

structure Confined (requests : List Request) : Prop where
  length_le : requests.length ≤ 11
  scheme : ∀ request ∈ requests, request.url.scheme = https
  outside_iff : (∀ request ∈ requests, ∀ address ∈ request.destinations,
      OutsideSpecialPurpose address) ↔
    ∀ request ∈ requests, ∀ address ∈ request.destinations, ¬ Overlooked address

lemma confined_of_forall_vetted {reqs : List Request} (hlen : reqs.length ≤ 11)
    (h : ∀ request ∈ reqs, request.Vetted) : Confined reqs where
  length_le := hlen
  scheme request hreq := (h request hreq).scheme
  outside_iff := forall₄_congr fun request hreq address hadd =>
    outside_specialPurpose_iff ((h request hreq).destinations address hadd)

/-- Outside of tests, for every URL, every sequence of answers of the resolver and every sequence
of responses, both downloads send at most eleven requests, all of them over HTTPS, and the
connections go to globally reachable addresses exactly if none of the addresses lies in one of the
overlooked blocks. -/
theorem fetch_outside_iff (U : UrlParser) (hU : U.Stable) (net : Network) (raw : Text)
    (userAgent : Text) (totalTimeout : Option ℕ) (range : Option (ℕ × Text))
    (binaryTransfer : Bool) :
    Confined (fetchPublicDownloadWithOptions U false net userAgent totalTimeout range
      binaryTransfer raw).1 ∧ Confined (fetchPublicSource U net raw).1 := by
  constructor
  · unfold fetchPublicDownloadWithOptions
    split
    · exact confined_of_forall_vetted (by simp) (by simp)
    · rename_i url hurl
      refine confined_of_forall_vetted (Client.length_follow_le _ _ _ _) ?_
      exact Client.forall_mem_follow _ (I := fun url => U.parse url.text = .ok url)
        (fun _ _ _ _ _ hnx => parse_of_nextDownload hU hnx)
        (fun _ _ _ hurl hprp => vetted_of_prepareDownload hurl hprp) _ _ url
        (hU.parse raw url hurl)
  · unfold fetchPublicSource
    split
    · exact confined_of_forall_vetted (by simp) (by simp)
    · rename_i url hurl
      refine confined_of_forall_vetted (Client.length_follow_le _ _ _ _) ?_
      exact Client.forall_mem_follow _ (fun _ _ _ _ _ _ => trivial)
        (fun _ _ _ _ hprp => vetted_of_prepareSource hprp) _ _ url trivial

def mirrorUrl : Url := ⟨"https://mirror/", https, [], none, some (.domain "mirror"), some 443⟩

def mirrorParser : UrlParser where
  parse _ := .ok mirrorUrl
  join _ _ := .ok mirrorUrl
  redacted url := url.text

def mirrorNetwork (address : IpAddr) : Network where
  lookup _ _ _ := .ok [address]
  acceptsBrackets _ := false
  respond _ _ := .ok ⟨302, some (.ok "/")⟩

theorem fetch_outside_iff_mirror : Confined (fetchPublicDownloadWithOptions mirrorParser false
      (mirrorNetwork (.v4 (ofOctets 93 184 216 34))) [] none none true []).1 :=
  (fetch_outside_iff mirrorParser ⟨fun _ _ h => by cases h; rfl, fun _ _ _ h => by cases h; rfl⟩
    (mirrorNetwork (.v4 (ofOctets 93 184 216 34))) [] [] none none true).1

/-- A request is sent to `2001:2::1`, which belongs to the benchmarking block `2001:2::/48`. -/
theorem exists_request_to_overlooked : ((fetchPublicDownloadWithOptions mirrorParser false
        (mirrorNetwork (.v6 (ofSegments 0x2001 2 0 0 1))) [] none none true []).1.map
          Request.destinations).head? = some [.v6 (ofSegments 0x2001 2 0 0 1)] ∧
      ¬ OutsideSpecialPurpose (.v6 (ofSegments 0x2001 2 0 0 1)) := by
  refine ⟨by decide +kernel, fun h => ?_⟩
  exact h ⟨0x20010002 * 2 ^ 96, 48, by decide, by decide, by decide⟩
    (by simp [specialPurpose6, overlooked]) (by decide +kernel)

end Omg.Net
