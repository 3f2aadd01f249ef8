import Mathlib.Algebra.Ring.Nat

/-!
# IP addresses and blocks of addresses

Addresses are bit vectors. A block is given by the bits that its addresses start with.
-/

namespace Omg.Net

/-- The addresses that share their first `length` bits with `base`, whose other bits are zero. -/
structure Block (w : ℕ) where
  base : ℕ
  length : ℕ
  base_lt : base < 2 ^ w
  length_le : length ≤ w
  aligned : base % 2 ^ (w - length) = 0

namespace Block

variable {w : ℕ}

instance : Membership (BitVec w) (Block w) where
  mem b a := a.toNat / 2 ^ (w - b.length) = b.base / 2 ^ (w - b.length)

lemma mem_def {b : Block w} {a : BitVec w} :
    a ∈ b ↔ a.toNat / 2 ^ (w - b.length) = b.base / 2 ^ (w - b.length) := Iff.rfl

instance {b : Block w} {a : BitVec w} : Decidable (a ∈ b) := decidable_of_iff' _ mem_def

lemma mem_iff {b : Block w} {a : BitVec w} :
    a ∈ b ↔ b.base ≤ a.toNat ∧ a.toNat < b.base + 2 ^ (w - b.length) := by
  have hpos : 0 < 2 ^ (w - b.length) := Nat.two_pow_pos _
  obtain ⟨k, hk⟩ := Nat.dvd_of_mod_eq_zero b.aligned
  rw [mem_def, hk, Nat.mul_div_cancel_left _ hpos, Nat.div_eq_iff hpos]
  generalize 2 ^ (w - b.length) = size at hpos ⊢
  rw [Nat.mul_comm k size]
  constructor <;> intro h <;> exact ⟨by omega, by omega⟩

lemma div_eq_of_mem {b : Block w} {a : BitVec w} (h : a ∈ b) {k : ℕ} (hk : w - b.length ≤ k) :
    a.toNat / 2 ^ k = b.base / 2 ^ k := by
  obtain ⟨j, rfl⟩ := Nat.exists_eq_add_of_le hk
  rw [Nat.pow_add, ← Nat.div_div_eq_div_mul, ← Nat.div_div_eq_div_mul, mem_def.mp h]

end Block

def octet (a : BitVec 32) (i : ℕ) : ℕ := a.toNat / 2 ^ (24 - 8 * i) % 2 ^ 8

def segment (a : BitVec 128) (i : ℕ) : ℕ := a.toNat / 2 ^ (112 - 16 * i) % 2 ^ 16

def ofOctets (a b c d : ℕ) : BitVec 32 := BitVec.ofNat 32 (a * 2 ^ 24 + b * 2 ^ 16 + c * 2 ^ 8 + d)

/-- The IPv6 address whose first four groups are given and whose last one is `last`. -/
def ofSegments (a b c d last : ℕ) : BitVec 128 :=
  BitVec.ofNat 128 (a * 2 ^ 112 + b * 2 ^ 96 + c * 2 ^ 80 + d * 2 ^ 64 + last)

inductive IpAddr
  | v4 (a : BitVec 32)
  | v6 (a : BitVec 128)
deriving DecidableEq

section

variable {b : Block 32} {a : BitVec 32}

lemma octet_zero_of_mem (h : a ∈ b) (hlen : 8 ≤ b.length) : octet a 0 = b.base / 2 ^ 24 := by
  have hlt := b.base_lt
  rw [octet, Block.div_eq_of_mem h (by omega)]
  omega

lemma octet_one_of_mem (h : a ∈ b) (hlen : 16 ≤ b.length) :
    octet a 1 = b.base / 2 ^ 16 % 2 ^ 8 := by
  rw [octet, Block.div_eq_of_mem h (by omega)]

lemma octet_two_of_mem (h : a ∈ b) (hlen : 24 ≤ b.length) : octet a 2 = b.base / 2 ^ 8 % 2 ^ 8 := by
  rw [octet, Block.div_eq_of_mem h (by omega)]

lemma octet_one_between {x l u : ℕ} (hlo : x * 2 ^ 24 + l * 2 ^ 16 ≤ a.toNat)
    (hhi : a.toNat < x * 2 ^ 24 + (u + 1) * 2 ^ 16) (hu : u < 2 ^ 8) :
    l ≤ octet a 1 ∧ octet a 1 ≤ u := by
  have hoct : octet a 1 = a.toNat / 2 ^ 16 % 2 ^ 8 := rfl
  omega

end

lemma div_mod_of_land_eq {x mask val k : ℕ} (h : x &&& mask = val) :
    x / 2 ^ k &&& mask / 2 ^ k = val / 2 ^ k := by
  rw [← h, ← Nat.shiftRight_eq_div_pow, ← Nat.shiftRight_eq_div_pow, ← Nat.shiftRight_eq_div_pow,
    Nat.shiftRight_and_distrib]

/-!
### Following redirects

A client sends requests one after another, each prepared from the address that the response before
it named. The requests are recorded also when the chain ends in an error.
-/

structure Client (Url Request Response ε : Type) where
  prepare : ℕ → Url → Except ε Request
  send : ℕ → Request → Except ε Response
  /-- Where the response leads to, or nothing if it is the answer. -/
  next : ℕ → Url → Response → Except ε (Option Url)
  exhausted : ε

namespace Client

variable {Url Request Response ε : Type} (C : Client Url Request Response ε)

/-- At most `n` requests from the hop with number `hop` on, and the outcome. -/
def follow : ℕ → ℕ → Url → List Request × Except ε Response
  | 0, _, _ => ([], .error C.exhausted)
  | n + 1, hop, url =>
    match C.prepare hop url with
    | .error e => ([], .error e)
    | .ok request =>
      match C.send hop request with
      | .error e => ([request], .error e)
      | .ok response =>
        match C.next hop url response with
        | .error e => ([request], .error e)
        | .ok none => ([request], .ok response)
        | .ok (some url') => (request :: (follow n (hop + 1) url').1, (follow n (hop + 1) url').2)

lemma length_follow_le (n hop : ℕ) (url : Url) : (C.follow n hop url).1.length ≤ n := by
  induction n generalizing hop url with
  | zero => simp [follow]
  | succ n ih =>
    unfold follow
    split
    · simp
    · split
      · simp
      · split
        · simp
        · simp
        · exact Nat.succ_le_succ (ih _ _)

lemma forall_mem_follow {I : Url → Prop} {Q : Request → Prop}
    (hnx : ∀ hop url resp url', I url → C.next hop url resp = .ok (some url') → I url')
    (hprp : ∀ hop url req, I url → C.prepare hop url = .ok req → Q req)
    (n hop : ℕ) (url : Url) (hurl : I url) : ∀ req ∈ (C.follow n hop url).1, Q req := by
  induction n generalizing hop url with
  | zero => simp [follow]
  | succ n ih =>
    unfold follow
    split
    · simp
    · rename_i req hreq
      have hQ := hprp hop url req hurl hreq
      split
      · simpa using hQ
      · split
        · simpa using hQ
        · simpa using hQ
        · rename_i url' hurl'
          exact List.forall_mem_cons.mpr ⟨hQ, ih _ _ (hnx _ _ _ _ hurl hurl')⟩

end Client

end Omg.Net
