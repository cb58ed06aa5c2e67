import Mathlib.Data.List.Basic

-- Text is the octets of a std::string.
namespace ReflexiveNfd
open List
namespace Uri

def octets (text : List Char) : List UInt8 := text.map fun c => c.toNat.toUInt8

def slash : UInt8 := 47
def colon : UInt8 := 58
def equals : UInt8 := 61
def percent : UInt8 := 37
def period : UInt8 := 46

def isAlphanumeric (c : UInt8) : Bool := 97 ≤ c && c ≤ 122 || 65 ≤ c && c ≤ 90 || 48 ≤ c && c ≤ 57

def isUnreserved (c : UInt8) : Bool := isAlphanumeric c || c == 45 || c == period || c == 95 || c == 126

def toHexChar (n : Nat) (wantUpperCase : Bool) : UInt8 := (if n < 10 then 48 + n else if wantUpperCase then 55 + n else 87 + n).toUInt8

def fromHexChar (c : UInt8) : Option Nat :=
  if 48 ≤ c ∧ c ≤ 57 then some (c.toNat - 48)
  else if 65 ≤ c ∧ c ≤ 70 then some (c.toNat - 55)
  else if 97 ≤ c ∧ c ≤ 102 then some (c.toNat - 87)
  else none

def hexPair (wantUpperCase : Bool) (c : UInt8) : List UInt8 := [toHexChar (c.toNat / 16) wantUpperCase,toHexChar (c.toNat % 16) wantUpperCase]

def escapeOctet (c : UInt8) : List UInt8 := if isUnreserved c then [c] else percent :: hexPair true c

def escape (text : List UInt8) : List UInt8 := text.flatMap escapeOctet

def joinHex (hi lo : Nat) : UInt8 := (16 * hi + lo).toUInt8

-- A percent sign that is not followed by two hex characters is copied, and so are
-- two characters behind it if there are two.
def unescape : List UInt8 → List UInt8
  | [] => []
  | [a] => [a]
  | [a,b] => [a,b]
  | a :: b :: c :: rest =>
    if a = percent then
      match fromHexChar b,fromHexChar c with
      | some hi,some lo => joinHex hi lo :: unescape rest
      | _,_ => a :: b :: c :: unescape rest
    else a :: unescape (b :: c :: rest)

def printHex (value : List UInt8) (wantUpperCase : Bool) : List UInt8 := value.flatMap (hexPair wantUpperCase)

-- hexDecode: "Wrong input byte" and "Incomplete input" are both reported as none.
def fromHex : List UInt8 → Option (List UInt8)
  | [] => some []
  | [_] => none
  | a :: b :: rest => do
      let hi ← fromHexChar a
      let lo ← fromHexChar b
      let value ← fromHex rest
      return joinHex hi lo :: value

theorem hexChar_exact (small : n < 16) (wantUpperCase : Bool) :
    fromHexChar (toHexChar n wantUpperCase) = some n ∧ isUnreserved (toHexChar n wantUpperCase) := by
  have all : ∀ (k : Fin 16) (upper : Bool), fromHexChar (toHexChar k upper) = some k.val ∧ isUnreserved (toHexChar k upper) := by decide
  exact all ⟨n,small⟩ wantUpperCase

theorem halves (c : UInt8) : c.toNat / 16 < 16 ∧ c.toNat % 16 < 16 ∧ joinHex (c.toNat / 16) (c.toNat % 16) = c := by
  have := c.toNat_lt
  refine ⟨by omega,Nat.mod_lt _ (by decide),?_⟩
  rw [joinHex,Nat.div_add_mod]
  exact UInt8.ofNat_toNat

theorem unescape_plain (plain : c ≠ percent) (rest : List UInt8) : unescape (c :: rest) = c :: unescape rest := by
  rcases rest with _ | ⟨a,_ | ⟨b,rest⟩⟩
  · rfl
  · rfl
  · rw [unescape,if_neg plain]

theorem unescape_hexPair (c : UInt8) (wantUpperCase : Bool) (rest : List UInt8) :
    unescape (percent :: hexPair wantUpperCase c ++ rest) = c :: unescape rest := by
  obtain ⟨hi,lo,joined⟩ := halves c
  simp only [hexPair,cons_append,nil_append,unescape,if_true,(hexChar_exact hi wantUpperCase).1,(hexChar_exact lo wantUpperCase).1,joined]

theorem unreserved_plain (unreserved : isUnreserved c) : c ≠ percent := by
  rintro rfl
  cases unreserved

theorem unescape_escape (text rest : List UInt8) : unescape (escape text ++ rest) = text ++ unescape rest := by
  induction text with
  | nil => rfl
  | cons c text ih =>
    rw [escape,flatMap_cons,append_assoc,cons_append,← ih,escapeOctet]
    split
    · rename_i unreserved
      exact unescape_plain (unreserved_plain unreserved) _
    · exact unescape_hexPair c true _

section
variable (c : UInt8) (value : List UInt8) (wantUpperCase : Bool)

def isSafe : Bool := isUnreserved c || c == percent

theorem safe_hexPair : ∀ x ∈ hexPair wantUpperCase c, isUnreserved x := by
  obtain ⟨hi,lo,_⟩ := halves c
  simp [hexPair,(hexChar_exact hi wantUpperCase).2,(hexChar_exact lo wantUpperCase).2]

theorem safe_escape (text : List UInt8) : ∀ x ∈ escape text, isSafe x := by
  intro x listed
  obtain ⟨c,_,inside⟩ := mem_flatMap.mp listed
  rw [escapeOctet] at inside
  split at inside
  · rename_i unreserved
    rw [mem_singleton.mp inside,isSafe,unreserved]
    rfl
  · rcases mem_cons.mp inside with rfl | pair
    · rfl
    · rw [isSafe,safe_hexPair c true x pair]
      rfl

theorem safe_printHex : ∀ x ∈ printHex value wantUpperCase, isSafe x := by
  intro x listed
  obtain ⟨c,_,inside⟩ := mem_flatMap.mp listed
  rw [isSafe,safe_hexPair c wantUpperCase x inside]
  rfl

theorem fromHex_printHex : fromHex (printHex value wantUpperCase) = some value := by
  induction value with
  | nil => rfl
  | cons c value ih =>
    obtain ⟨hi,lo,joined⟩ := halves c
    rw [printHex,flatMap_cons,hexPair,cons_append,cons_append,nil_append,fromHex,
      (hexChar_exact hi wantUpperCase).1,(hexChar_exact lo wantUpperCase).1]
    change (fromHex (printHex value wantUpperCase)).bind _ = _
    rw [ih,Option.bind_some,joined]
    rfl

end

end Uri
end ReflexiveNfd
