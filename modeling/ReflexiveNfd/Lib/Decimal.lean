import Mathlib.Algebra.GroupWithZero.Nat
import Mathlib.Data.List.TakeWhile

-- Numbers in text, as the C library writes and reads them.
namespace Decimal
open List

def isDigit (c : UInt8) : Bool := 48 ≤ c && c ≤ 57

def isSpace (c : UInt8) : Bool := c == 32 || 9 ≤ c && c ≤ 13

def digit (n : Nat) : UInt8 := (48 + n).toUInt8

def digitsFrom : Nat → Nat → List UInt8
  | 0,_ => []
  | fuel + 1,n => (if n < 10 then [] else digitsFrom fuel (n / 10)) ++ [digit (n % 10)]

def decimal (n : Nat) : List UInt8 := digitsFrom (n + 1) n

def numberOf (digits : List UInt8) : Nat := digits.foldl (fun n c => 10 * n + (c.toNat - 48)) 0

-- Spaces and a sign are passed over, and reading ends at the first other character.
def scan (text : List UInt8) : Bool × List UInt8 :=
  let rest := text.dropWhile isSpace
  if rest.head? = some 43 then (false,rest.tail.takeWhile isDigit)
  else if rest.head? = some 45 then (true,rest.tail.takeWhile isDigit)
  else (false,rest.takeWhile isDigit)

def signed (negative : Bool) (n : Nat) : Nat := if negative then (2 ^ 64 - n) % 2 ^ 64 else n

def strtoul (text : List UInt8) : Nat :=
  let (negative,digits) := scan text
  if numberOf digits < 2 ^ 64 then signed negative (numberOf digits) else 2 ^ 64 - 1

inductive ConversionError where
  | invalidArgument
  | outOfRange
  deriving DecidableEq, Repr

def stoull (text : List UInt8) : Except ConversionError Nat :=
  let (negative,digits) := scan text
  if digits.isEmpty then .error .invalidArgument
  else if numberOf digits < 2 ^ 64 then .ok (signed negative (numberOf digits)) else .error .outOfRange

theorem digit_isDigit (small : n < 10) : isDigit (digit n) := by
  have all : ∀ k : Fin 10, isDigit (digit k) := by decide
  exact all ⟨n,small⟩

theorem digit_value (small : n < 10) : (digit n).toNat - 48 = n := by
  have all : ∀ k : Fin 10, (digit k).toNat - 48 = k := by decide
  exact all ⟨n,small⟩

theorem digitsFrom_enough (fuel other n : Nat) (enough : n < fuel) (also : n < other) : digitsFrom fuel n = digitsFrom other n := by
  induction fuel generalizing other n with
  | zero => cases enough
  | succ fuel ih =>
    cases other with
    | zero => cases also
    | succ other =>
      rw [digitsFrom,digitsFrom]
      split
      · rfl
      · rw [ih other (n / 10) (by omega) (by omega)]

theorem decimal_eq (n : Nat) : decimal n = (if n < 10 then [] else decimal (n / 10)) ++ [digit (n % 10)] := by
  rw [decimal,digitsFrom]
  split
  · rfl
  · rw [decimal,digitsFrom_enough n (n / 10 + 1) (n / 10) (by omega) (by omega)]

theorem decimal_nonempty (n : Nat) : decimal n ≠ [] := by
  rw [decimal_eq]
  simp

theorem decimal_isDigit (n : Nat) : ∀ c ∈ decimal n, isDigit c := by
  induction n using Nat.strongRecOn with
  | ind n ih =>
    intro c listed
    rw [decimal_eq] at listed
    rcases mem_append.mp listed with front | last
    · split at front
      · cases front
      · exact ih (n / 10) (by omega) c front
    · rw [mem_singleton.mp last]
      exact digit_isDigit (Nat.mod_lt _ (by decide))

theorem numberOf_decimal (n : Nat) : numberOf (decimal n) = n := by
  induction n using Nat.strongRecOn with
  | ind n ih =>
    have last := digit_value (Nat.mod_lt n (by decide : 10 > 0))
    rw [decimal_eq,numberOf,foldl_append,foldl_cons,foldl_nil,last]
    split
    · simp
      omega
    · change 10 * numberOf (decimal (n / 10)) + n % 10 = n
      rw [ih (n / 10) (by omega)]
      omega

theorem isDigit_plain (number : isDigit c) : isSpace c = false ∧ c ≠ 43 ∧ c ≠ 45 := by
  simp only [isDigit,Bool.and_eq_true,decide_eq_true_eq,UInt8.le_iff_toNat_le] at number
  simp only [isSpace,Bool.or_eq_false_iff,beq_eq_false_iff_ne,Bool.and_eq_false_iff,decide_eq_false_iff_not,UInt8.le_iff_toNat_le,
    ne_eq,← UInt8.toNat_inj]
  simp at number ⊢
  omega

theorem scan_decimal (n : Nat) : scan (decimal n) = (false,decimal n) := by
  have digits := decimal_isDigit n
  obtain ⟨c,rest,text⟩ := exists_cons_of_ne_nil (decimal_nonempty n)
  rw [text] at digits ⊢
  obtain ⟨space,plus,minus⟩ := isDigit_plain (digits c mem_cons_self)
  have kept : (c :: rest).dropWhile isSpace = c :: rest := by simp [space]
  simp only [scan,kept,List.head?_cons,Option.some.injEq,if_neg plus,if_neg minus]
  rw [takeWhile_eq_self_iff.mpr digits]

theorem strtoul_decimal (small : n < 2 ^ 64) : strtoul (decimal n) = n := by
  rw [strtoul,scan_decimal]
  simp only [numberOf_decimal,if_pos small]
  rfl

theorem stoull_decimal (small : n < 2 ^ 64) : stoull (decimal n) = .ok n := by
  rw [stoull,scan_decimal]
  simp only [numberOf_decimal,if_pos small,List.isEmpty_iff,if_neg (decimal_nonempty n)]
  rfl

end Decimal
