import Mathlib.Tactic.SplitIfs
import ReflexiveNfd.Lib.Octets

namespace ReflexiveNfd
open Octets List Option

namespace Tlv

def readNumber (size : Nat) (octets : List UInt8) : Option (Nat × List UInt8) :=
  if octets.length < size then none else some (ofBigEndian (octets.take size),octets.drop size)

-- A shorter form is not required: any of the four is read.
def readVarNumber : List UInt8 → Option (Nat × List UInt8)
  | [] => none
  | firstOctet :: rest =>
    if firstOctet < 253 then some (firstOctet.toNat,rest)
    else readNumber (if firstOctet = 253 then 2 else if firstOctet = 254 then 4 else 8) rest

def invalidType : Nat := 0
def maxUInt16 : Nat := 65535
def maxUInt32 : Nat := 4294967295

def readType (octets : List UInt8) : Option (Nat × List UInt8) := do
  let (number,rest) ← readVarNumber octets
  if number = invalidType ∨ number > maxUInt32 then none else some (number,rest)

def sizeOfVarNumber (number : Nat) : Nat :=
  if number < 253 then 1 else if number ≤ maxUInt16 then 3 else if number ≤ maxUInt32 then 5 else 9

def prependVarNumber (number : Nat) : List UInt8 :=
  if number < 253 then toBigEndian 1 number
  else if number ≤ maxUInt16 then 253 :: toBigEndian 2 number
  else if number ≤ maxUInt32 then 254 :: toBigEndian 4 number
  else 255 :: toBigEndian 8 number

end Tlv

open Tlv

def maxNdnPacketSize : Nat := 8800

structure Block where
  type : Nat
  wire : List UInt8
  value : List UInt8
  deriving DecidableEq, Repr

namespace Block

def size (b : Block) : Nat := b.wire.length

-- The element at the start of the buffer, with what follows it. A buffer that
-- ends too early and one that is malformed are not told apart.
def fromBuffer (buffer : List UInt8) : Option (Block × List UInt8) := do
  let (type,afterType) ← readType buffer
  let (length,pos) ← readVarNumber afterType
  if length > pos.length then none
  else some (⟨type,buffer.take (buffer.length - (pos.length - length)),pos.take length⟩,pos.drop length)

def encode (type : Nat) (value : List UInt8) : List UInt8 :=
  prependVarNumber type ++ prependVarNumber value.length ++ value

end Block

namespace Tlv
variable {p q r : List UInt8} {n : Nat}

theorem readNumber_append (read : readNumber size p = some (n,r)) : readNumber size (p ++ q) = some (n,r ++ q) := by
  unfold readNumber at read ⊢
  split at read
  · cases read
  · rename_i enough
    cases read
    rw [if_neg (by rw [length_append]; omega),take_append_of_le_length (by omega),drop_append_of_le_length (by omega)]

theorem readNumber_consumes (read : readNumber size p = some (n,r)) :
    ∃ front, p = front ++ r ∧ readNumber size front = some (n,[]) := by
  unfold readNumber at read
  split at read
  · cases read
  · rename_i enough
    cases read
    refine ⟨p.take size,(take_append_drop size p).symm,?_⟩
    have length : (p.take size).length = size := by
      rw [length_take]
      omega
    rw [readNumber,if_neg (by omega),take_of_length_le (by omega),drop_of_length_le (by omega)]

theorem readVarNumber_append (read : readVarNumber p = some (n,r)) : readVarNumber (p ++ q) = some (n,r ++ q) := by
  cases p with
  | nil => cases read
  | cons first rest =>
    rw [readVarNumber] at read
    rw [cons_append,readVarNumber]
    split
    · rename_i small
      rw [if_pos small] at read
      cases read
      rfl
    · rename_i large
      rw [if_neg large] at read
      exact readNumber_append read

theorem readVarNumber_consumes (read : readVarNumber p = some (n,r)) :
    ∃ front, front ≠ [] ∧ p = front ++ r ∧ readVarNumber front = some (n,[]) := by
  cases p with
  | nil => cases read
  | cons first rest =>
    rw [readVarNumber] at read
    split at read
    · rename_i small
      cases read
      exact ⟨[first],by simp,rfl,by rw [readVarNumber,if_pos small]⟩
    · rename_i large
      obtain ⟨front,rfl,alone⟩ := readNumber_consumes read
      exact ⟨first :: front,by simp,rfl,by rw [readVarNumber,if_neg large,alone]⟩

theorem readType_append (read : readType p = some (n,r)) : readType (p ++ q) = some (n,r ++ q) := by
  obtain ⟨⟨number,rest⟩,found,legal⟩ := bind_eq_some_iff.mp read
  obtain ⟨valid,⟨⟩⟩ := ite_none_left_eq_some.mp legal
  simp only [readType,readVarNumber_append found,bind_eq_bind,bind_some,if_neg valid]

theorem readType_consumes (read : readType p = some (n,r)) :
    (∃ front, front ≠ [] ∧ p = front ++ r ∧ readType front = some (n,[])) ∧ n ≠ invalidType ∧ n ≤ maxUInt32 := by
  obtain ⟨⟨number,rest⟩,found,legal⟩ := bind_eq_some_iff.mp read
  obtain ⟨valid,⟨⟩⟩ := ite_none_left_eq_some.mp legal
  obtain ⟨front,nonempty,split,alone⟩ := readVarNumber_consumes found
  refine ⟨⟨front,nonempty,split,?_⟩,by omega,by omega⟩
  simp only [readType,alone,bind_eq_bind,bind_some,if_neg valid]

theorem length_prependVarNumber (n : Nat) : (prependVarNumber n).length = sizeOfVarNumber n := by
  unfold prependVarNumber sizeOfVarNumber
  split
  · simp
  · split
    · simp
    · split <;> simp

theorem readNumber_toBigEndian (width : Nat) (small : n < 256 ^ width) (rest : List UInt8) :
    readNumber width (toBigEndian width n ++ rest) = some (n,rest) := by
  rw [readNumber,if_neg (by simp)]
  have taken : (toBigEndian width n ++ rest).take width = toBigEndian width n := take_left' (length_toBigEndian width n)
  have left : (toBigEndian width n ++ rest).drop width = rest := drop_left' (length_toBigEndian width n)
  rw [taken,left,ofBigEndian_toBigEndian width n small]

theorem readVarNumber_prepend (small : n < 2 ^ 64) (rest : List UInt8) : readVarNumber (prependVarNumber n ++ rest) = some (n,rest) := by
  unfold prependVarNumber
  split
  · rename_i tiny
    have digit : toBigEndian 1 n = [UInt8.ofNat n] := by simp [toBigEndian]
    have value : (UInt8.ofNat n).toNat = n := by
      rw [UInt8.toNat_ofNat']
      omega
    have low : UInt8.ofNat n < 253 := by
      rw [UInt8.lt_iff_toNat_lt,value]
      exact tiny
    rw [digit,cons_append,readVarNumber,if_pos low,value]
    rfl
  · split
    · exact readNumber_toBigEndian 2 (by simp only [maxUInt16] at *; omega) rest
    · split
      · exact readNumber_toBigEndian 4 (by simp only [maxUInt32] at *; omega) rest
      · exact readNumber_toBigEndian 8 (by omega) rest

def lead (n : Nat) : Nat := if n < 253 then n else if n ≤ maxUInt16 then 253 else if n ≤ maxUInt32 then 254 else 255

theorem lead_lt (less : lead a < lead b) : a < b := by
  unfold lead maxUInt16 maxUInt32 at less
  split_ifs at less <;> omega

theorem prependVarNumber_lead (same : lead a = lead b) (smallA : a < 2 ^ 64) (smallB : b < 2 ^ 64) :
    ∃ tailA tailB, prependVarNumber a = UInt8.ofNat (lead a) :: tailA ∧ prependVarNumber b = UInt8.ofNat (lead b) :: tailB ∧
      ∀ xs ys, memcmp (tailA ++ xs) (tailB ++ ys) = (compare a b).then (memcmp xs ys) := by
  unfold lead maxUInt16 maxUInt32 at same
  unfold prependVarNumber lead maxUInt16 maxUInt32
  split_ifs at same ⊢ <;> try omega
  · subst same
    exact ⟨[],[],by simp [toBigEndian],by simp [toBigEndian],by simp⟩
  · exact ⟨_,_,rfl,rfl,memcmp_toBigEndian 2 a b (by omega) (by omega)⟩
  · exact ⟨_,_,rfl,rfl,memcmp_toBigEndian 4 a b (by omega) (by omega)⟩
  · exact ⟨_,_,rfl,rfl,memcmp_toBigEndian 8 a b (by omega) (by omega)⟩

theorem prependVarNumber_head (n : Nat) (small : n < 2 ^ 64) : ∃ tail, prependVarNumber n = UInt8.ofNat (lead n) :: tail := by
  obtain ⟨tail,_,form,_⟩ := prependVarNumber_lead (rfl : lead n = lead n) small small
  exact ⟨tail,form⟩

theorem lead_octet (n : Nat) : (UInt8.ofNat (lead n)).toNat = lead n := by
  rw [UInt8.toNat_ofNat']
  unfold lead
  split_ifs <;> omega

theorem memcmp_prependVarNumber (smallA : a < 2 ^ 64) (smallB : b < 2 ^ 64) (xs ys : List UInt8) :
    memcmp (prependVarNumber a ++ xs) (prependVarNumber b ++ ys) = (compare a b).then (memcmp xs ys) := by
  rcases Nat.lt_trichotomy (lead a) (lead b) with less | same | more
  · obtain ⟨tailA,formA⟩ := prependVarNumber_head a smallA
    obtain ⟨tailB,formB⟩ := prependVarNumber_head b smallB
    rw [formA,formB,cons_append,cons_append,memcmp,lead_octet,lead_octet,Nat.compare_eq_lt.mpr less,
      Nat.compare_eq_lt.mpr (lead_lt less)]
    rfl
  · obtain ⟨tailA,tailB,formA,formB,tails⟩ := prependVarNumber_lead same smallA smallB
    rw [formA,formB,cons_append,cons_append,memcmp,same,Nat.compare_eq_eq.mpr rfl,Ordering.eq_then,tails]
  · obtain ⟨tailA,formA⟩ := prependVarNumber_head a smallA
    obtain ⟨tailB,formB⟩ := prependVarNumber_head b smallB
    rw [formA,formB,cons_append,cons_append,memcmp,lead_octet,lead_octet,Nat.compare_eq_gt.mpr more,
      Nat.compare_eq_gt.mpr (lead_lt more)]
    rfl

end Tlv

namespace Block
variable {p q r : List UInt8} {b : Block}

theorem fromBuffer_parts (read : fromBuffer p = some (b,r)) : ∃ afterType length pos, readType p = some (b.type,afterType) ∧
    readVarNumber afterType = some (length,pos) ∧ length ≤ pos.length ∧ b.value = pos.take length ∧ r = pos.drop length ∧
    b.wire = p.take (p.length - (pos.length - length)) := by
  obtain ⟨⟨type,afterType⟩,typed,rest⟩ := bind_eq_some_iff.mp read
  obtain ⟨⟨length,pos⟩,sized,found⟩ := bind_eq_some_iff.mp rest
  obtain ⟨enough,⟨⟩⟩ := ite_none_left_eq_some.mp found
  exact ⟨afterType,length,pos,typed,sized,by omega,rfl,rfl,rfl⟩

theorem fromBuffer_intro {front middle value : List UInt8} {type : Nat} (typed : readType front = some (type,[]))
    (sized : readVarNumber middle = some (value.length,[])) (r : List UInt8) :
    fromBuffer (front ++ middle ++ value ++ r) = some (⟨type,front ++ middle ++ value,value⟩,r) := by
  have first : readType (front ++ middle ++ value ++ r) = some (type,middle ++ value ++ r) := by
    simpa using readType_append (q := middle ++ value ++ r) typed
  have second : readVarNumber (middle ++ value ++ r) = some (value.length,value ++ r) := by
    simpa using readVarNumber_append (q := value ++ r) sized
  have enough : ¬ value.length > (value ++ r).length := by simp
  simp only [fromBuffer,first,second,bind_eq_bind,bind_some,if_neg enough,take_left,drop_left]
  congr 3
  have length : (front ++ middle ++ value ++ r).length - ((value ++ r).length - value.length) = (front ++ middle ++ value).length := by
    simp only [length_append]
    omega
  rw [length,take_left]

theorem fromBuffer_consumes (read : fromBuffer p = some (b,r)) :
    p = b.wire ++ r ∧ 2 ≤ b.size ∧ (b.type ≠ invalidType ∧ b.type ≤ maxUInt32) ∧ ∀ q, fromBuffer (b.wire ++ q) = some (b,q) := by
  obtain ⟨type,wire,value⟩ := b
  obtain ⟨afterType,length,pos,typed,sized,enough,rfl,rfl,whole⟩ := fromBuffer_parts read
  obtain ⟨⟨front,nonempty,rfl,alone⟩,legal⟩ := readType_consumes typed
  obtain ⟨middle,filled,rfl,numbered⟩ := readVarNumber_consumes sized
  have first := length_pos_iff.mpr nonempty
  have second := length_pos_iff.mpr filled
  have exactly : (pos.take length).length = length := by
    rw [length_take]
    omega
  have again := fromBuffer_intro alone (exactly.symm ▸ numbered : readVarNumber middle = some ((pos.take length).length,[]))
  have same : wire = front ++ middle ++ pos.take length := by
    have twice := again (pos.drop length)
    rw [append_assoc,take_append_drop,append_assoc] at twice
    have equal := congrArg Block.wire (Prod.mk.inj (some.inj (read.symm.trans twice))).1
    exact equal
  subst same
  refine ⟨by simp,?_,legal,again⟩
  simp only [size,length_append]
  omega

theorem fromBuffer_append (read : fromBuffer p = some (b,r)) : fromBuffer (p ++ q) = some (b,r ++ q) := by
  obtain ⟨rfl,_,_,again⟩ := fromBuffer_consumes read
  rw [append_assoc]
  exact again (r ++ q)

theorem fromBuffer_encode {type : Nat} (value : List UInt8) (legal : type ≠ invalidType ∧ type ≤ maxUInt32) (small : value.length < 2 ^ 64)
    (r : List UInt8) : fromBuffer (encode type value ++ r) = some (⟨type,encode type value,value⟩,r) := by
  have typed : readType (prependVarNumber type) = some (type,[]) := by
    have read := readVarNumber_prepend (n := type) (by have := legal.2; simp only [maxUInt32] at this; omega) []
    rw [append_nil] at read
    have valid : ¬ (type = invalidType ∨ type > maxUInt32) := by omega
    simp only [readType,read,bind_eq_bind,bind_some,if_neg valid]
  have sized : readVarNumber (prependVarNumber value.length) = some (value.length,[]) := by
    have read := readVarNumber_prepend small []
    rwa [append_nil] at read
  exact fromBuffer_intro typed sized r

end Block
end ReflexiveNfd
