import Mathlib.Algebra.Ring.Nat
import Mathlib.Data.List.Basic
import Mathlib.Data.List.Forall2
import Mathlib.Data.List.Induction

/-!
# Framed byte strings

Numbers as byte strings of fixed length, most significant byte first, and byte strings with their
length in front. What follows a framed string can be told apart from it.
-/

namespace Omg.Codec

open List

/-- The lowest `k` bytes of a number, most significant first. -/
def bigEndian : ℕ → ℕ → List UInt8
  | 0, _ => []
  | k + 1, n => bigEndian k (n / 256) ++ [UInt8.ofNat (n % 256)]

def ofBigEndian (bytes : List UInt8) : ℕ := bytes.foldl (fun n byte => n * 256 + byte.toNat) 0

@[simp] lemma length_bigEndian (k n : ℕ) : (bigEndian k n).length = k := by
  induction k generalizing n with
  | zero => rfl
  | succ k ih => simp [bigEndian, ih]

lemma ofBigEndian_bigEndian (k n : ℕ) : ofBigEndian (bigEndian k n) = n % 256 ^ k := by
  induction k generalizing n with
  | zero => simp [bigEndian, ofBigEndian, Nat.mod_one]
  | succ k ih =>
    have hlow : (UInt8.ofNat (n % 256)).toNat = n % 256 := by simp
    calc ofBigEndian (bigEndian (k + 1) n)
        = ofBigEndian (bigEndian k (n / 256)) * 256 + (UInt8.ofNat (n % 256)).toNat := by
          simp [ofBigEndian, bigEndian]
      _ = n / 256 % 256 ^ k * 256 + n % 256 := by rw [ih, hlow]
      _ = n % 256 ^ (k + 1) := by rw [pow_succ', Nat.mod_mul, Nat.mul_comm, Nat.add_comm]

lemma ofBigEndian_lt (bs : List UInt8) : ofBigEndian bs < 256 ^ bs.length := by
  rw [← reverse_reverse bs]
  induction bs.reverse with
  | nil => simp [ofBigEndian]
  | cons b bs ih =>
    have hb := b.toNat_lt
    simp only [ofBigEndian, reverse_cons, foldl_append, foldl_cons, foldl_nil, length_append,
      length_singleton] at ih ⊢
    omega

lemma bigEndian_inj {k m n : ℕ} (hm : m < 256 ^ k) (hn : n < 256 ^ k)
    (h : bigEndian k m = bigEndian k n) : m = n := by
  have hval := congrArg ofBigEndian h
  rwa [ofBigEndian_bigEndian, ofBigEndian_bigEndian, Nat.mod_eq_of_lt hm, Nat.mod_eq_of_lt hn]
    at hval

def framed (bytes : List UInt8) : List UInt8 := bigEndian 8 bytes.length ++ bytes

lemma framed_append_inj {a b x y : List UInt8} (ha : a.length < 2 ^ 64) (hb : b.length < 2 ^ 64)
    (h : framed a ++ x = framed b ++ y) : a = b ∧ x = y := by
  simp only [framed, append_assoc] at h
  obtain ⟨hlen, hr⟩ := append_inj h (by simp)
  exact append_inj hr (bigEndian_inj ha hb hlen)

lemma flatMap_framed_inj {xs ys : List (List UInt8)} (hlen : xs.length = ys.length)
    (hxs : ∀ x ∈ xs, x.length < 2 ^ 64) (hys : ∀ y ∈ ys, y.length < 2 ^ 64)
    (h : xs.flatMap framed = ys.flatMap framed) : xs = ys := by
  induction xs generalizing ys with
  | nil => exact (eq_nil_of_length_eq_zero hlen.symm).symm
  | cons x xs ih =>
    cases ys with
    | nil => cases hlen
    | cons y ys =>
      rw [forall_mem_cons] at hxs hys
      obtain ⟨rfl, hr⟩ := framed_append_inj hxs.1 hys.1 h
      rw [ih (Nat.succ.inj hlen) hxs.2 hys.2 hr]

/-!
### Hash chains

A sequence of records in which each one carries the digest of the one before it, and the first one a
value that is no digest. If equal digests mean records that agree, the digest of the last record
determines the whole sequence up to agreement: two chains with the same tip have the same length
and agree record by record.
-/

variable {E H : Type*} (digest link : E → H)

def Linked : H → List E → Prop
  | _, [] => True
  | start, e :: es => link e = start ∧ Linked (digest e) es

def tip : H → List E → H
  | start, [] => start
  | _, e :: es => tip (digest e) es

lemma linked_concat (st : H) (es : List E) (e : E) : Linked digest link st (es ++ [e]) ↔
      Linked digest link st es ∧ link e = tip digest st es := by
  induction es generalizing st with
  | nil => simp [Linked, tip]
  | cons d es ih => simp [Linked, tip, ih, and_assoc]

@[simp] lemma tip_concat (st : H) (es : List E) (e : E) : tip digest st (es ++ [e]) = digest e := by
  induction es generalizing st with
  | nil => rfl
  | cons d es ih => exact ih (digest d)

lemma tip_of_mem_getLast? (st : H) {es : List E} {e : E} (h : e ∈ es.getLast?) :
    tip digest st es = digest e := by
  rcases eq_nil_or_concat' es with rfl | ⟨es, d, rfl⟩
  · cases h
  · rw [getLast?_concat, Option.mem_some_iff] at h
    rw [tip_concat, h]

variable {digest link} in
lemma forall₂_of_tip_eq {st : H} {P : E → Prop} {R : E → E → Prop}
    (hag : ∀ {a b}, P a → P b → digest a = digest b → R a b)
    (hli : ∀ {a b}, R a b → link a = link b) (hst : ∀ {e}, P e → digest e ≠ st)
    {xs ys : List E} (hxs : ∀ e ∈ xs, P e) (hys : ∀ e ∈ ys, P e)
    (hx : Linked digest link st xs) (hy : Linked digest link st ys)
    (htip : tip digest st xs = tip digest st ys) : List.Forall₂ R xs ys := by
  induction xs using List.reverseRecOn generalizing ys with
  | nil =>
    rcases eq_nil_or_concat' ys with rfl | ⟨ys, b, rfl⟩
    · exact .nil
    · rw [tip_concat] at htip
      exact absurd htip.symm (hst (hys b (by simp)))
  | append_singleton xs a ih =>
    have ha : P a := hxs a (by simp)
    rcases eq_nil_or_concat' ys with rfl | ⟨ys, b, rfl⟩
    · rw [tip_concat] at htip
      exact absurd htip (hst ha)
    rw [linked_concat] at hx hy
    rw [tip_concat, tip_concat] at htip
    have hab : R a b := hag ha (hys b (by simp)) htip
    have hbe : tip digest st xs = tip digest st ys := by rw [← hx.2, ← hy.2, hli hab]
    have hin := ih (fun e he => hxs e (by simp [he])) (fun e he => hys e (by simp [he])) hx.1 hy.1
      hbe
    exact rel_append hin (.cons hab .nil)

end Omg.Codec
