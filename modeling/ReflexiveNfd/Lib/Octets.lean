import Mathlib.Data.Nat.Basic
import Mathlib.Data.List.Basic
import Mathlib.Tactic.Ring

namespace Octets
open List Nat

-- Unsigned numbers of a fixed number of octets, most significant first.
def toBigEndian : Nat → Nat → List UInt8
  | 0,_ => []
  | width + 1,n => UInt8.ofNat (n / 256 ^ width) :: toBigEndian width (n % 256 ^ width)

def ofBigEndian (octets : List UInt8) : Nat := octets.foldl (fun number octet => number * 256 + octet.toNat) 0

-- Comparison of two memory regions over the length of the shorter one.
def memcmp : List UInt8 → List UInt8 → Ordering
  | a :: as,b :: bs => (compare a.toNat b.toNat).then (memcmp as bs)
  | _,_ => .eq

@[simp] theorem length_toBigEndian (width n : Nat) : (toBigEndian width n).length = width := by
  induction width generalizing n with
  | zero => rfl
  | succ width ih => simp [toBigEndian,ih]

theorem foldl_from (octets : List UInt8) (start : Nat) :
    octets.foldl (fun number octet => number * 256 + octet.toNat) start = start * 256 ^ octets.length + ofBigEndian octets := by
  induction octets generalizing start with
  | nil => simp [ofBigEndian]
  | cons octet rest ih =>
    rw [ofBigEndian,foldl_cons,foldl_cons,ih,ih (0 * 256 + octet.toNat),length_cons,pow_succ]
    ring

theorem ofBigEndian_cons (octet : UInt8) (rest : List UInt8) :
    ofBigEndian (octet :: rest) = octet.toNat * 256 ^ rest.length + ofBigEndian rest := by
  rw [ofBigEndian,foldl_cons,foldl_from,zero_mul,zero_add]

theorem ofBigEndian_lt (octets : List UInt8) : ofBigEndian octets < 256 ^ octets.length := by
  induction octets with
  | nil => simp [ofBigEndian]
  | cons octet rest ih =>
    have small : octet.toNat + 1 ≤ 256 := octet.toNat_lt
    calc ofBigEndian (octet :: rest)
      _ = octet.toNat * 256 ^ rest.length + ofBigEndian rest := ofBigEndian_cons ..
      _ < octet.toNat * 256 ^ rest.length + 256 ^ rest.length := Nat.add_lt_add_left ih _
      _ = (octet.toNat + 1) * 256 ^ rest.length := by ring
      _ ≤ 256 * 256 ^ rest.length := mul_le_mul_right _ small
      _ = 256 ^ (octet :: rest).length := by rw [length_cons,pow_succ]; ring

theorem ofBigEndian_toBigEndian (width n : Nat) (small : n < 256 ^ width) : ofBigEndian (toBigEndian width n) = n := by
  induction width generalizing n with
  | zero =>
    have : n = 0 := by simpa using small
    simp [this,toBigEndian,ofBigEndian]
  | succ width ih =>
    have positive : 0 < 256 ^ width := Nat.pow_pos (by decide)
    have digit : n / 256 ^ width < 256 := by
      rw [div_lt_iff_lt_mul positive,mul_comm,← pow_succ]
      exact small
    have value : (UInt8.ofNat (n / 256 ^ width)).toNat = n / 256 ^ width := by
      rw [UInt8.toNat_ofNat']
      exact mod_eq_of_lt digit
    rw [toBigEndian,ofBigEndian_cons,ih _ (mod_lt _ positive),length_toBigEndian,value,mul_comm]
    exact div_add_mod n (256 ^ width)

theorem memcmp_toBigEndian (width a b : Nat) (smallA : a < 256 ^ width) (smallB : b < 256 ^ width) (xs ys : List UInt8) :
    memcmp (toBigEndian width a ++ xs) (toBigEndian width b ++ ys) = (compare a b).then (memcmp xs ys) := by
  induction width generalizing a b with
  | zero =>
    obtain rfl : a = 0 := by simpa using smallA
    obtain rfl : b = 0 := by simpa using smallB
    simp [toBigEndian]
  | succ width ih =>
    have positive : 0 < 256 ^ width := Nat.pow_pos (by decide)
    have digit : ∀ n, n < 256 ^ (width + 1) → (UInt8.ofNat (n / 256 ^ width)).toNat = n / 256 ^ width := by
      intro n small
      rw [UInt8.toNat_ofNat']
      refine mod_eq_of_lt ?_
      rw [div_lt_iff_lt_mul positive,mul_comm,← pow_succ]
      exact small
    rw [toBigEndian,toBigEndian,cons_append,cons_append,memcmp,digit a smallA,digit b smallB,
      ih _ _ (mod_lt _ positive) (mod_lt _ positive),← Ordering.then_assoc]
    congr 1
    -- the first octets decide unless they are equal
    have splitA := div_add_mod a (256 ^ width)
    have splitB := div_add_mod b (256 ^ width)
    rcases lt_trichotomy (a / 256 ^ width) (b / 256 ^ width) with less | same | more
    · rw [Nat.compare_eq_lt.mpr less,Nat.compare_eq_lt.mpr (Nat.lt_of_div_lt_div less)]
      rfl
    · rw [same,Nat.compare_eq_eq.mpr rfl,Ordering.eq_then]
      rw [same] at splitA
      rcases lt_trichotomy (a % 256 ^ width) (b % 256 ^ width) with low | equal | high
      · rw [Nat.compare_eq_lt.mpr low,Nat.compare_eq_lt.mpr (by omega)]
      · rw [Nat.compare_eq_eq.mpr equal,Nat.compare_eq_eq.mpr (by omega)]
      · rw [Nat.compare_eq_gt.mpr high,Nat.compare_eq_gt.mpr (by omega)]
    · rw [Nat.compare_eq_gt.mpr more,Nat.compare_eq_gt.mpr (Nat.lt_of_div_lt_div more)]
      rfl

theorem memcmp_eq_iff (xs ys : List UInt8) : memcmp xs ys = .eq ↔ xs <+: ys ∨ ys <+: xs := by
  induction xs generalizing ys with
  | nil => simp [memcmp]
  | cons x xs ih =>
    cases ys with
    | nil => simp [memcmp]
    | cons y ys =>
      rw [memcmp,Ordering.then_eq_eq,Nat.compare_eq_eq,UInt8.toNat_inj,ih,cons_prefix_cons,cons_prefix_cons]
      constructor
      · rintro ⟨rfl,left | right⟩
        · exact .inl ⟨rfl,left⟩
        · exact .inr ⟨rfl,right⟩
      · rintro (⟨rfl,left⟩ | ⟨rfl,right⟩)
        · exact ⟨rfl,.inl left⟩
        · exact ⟨rfl,.inr right⟩

theorem memcmp_self (xs : List UInt8) : memcmp xs xs = .eq := (memcmp_eq_iff xs xs).mpr (.inl prefix_rfl)

end Octets
