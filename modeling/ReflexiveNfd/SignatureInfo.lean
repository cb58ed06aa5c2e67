import ReflexiveNfd.Elements
import ReflexiveNfd.Lib.Results

namespace ReflexiveNfd
open Octets Tlv Block

def tlvSignatureInfo : Nat := 22
def tlvSignatureValue : Nat := 23
def tlvSignatureType : Nat := 27
def tlvKeyLocator : Nat := 28
def tlvKeyDigest : Nat := 29
def tlvSignatureNonce : Nat := 38
def tlvSignatureTime : Nat := 40
def tlvSignatureSeqNum : Nat := 42
def tlvInterestSignatureInfo : Nat := 44
def tlvInterestSignatureValue : Nat := 46
def tlvValidityPeriod : Nat := 253

-- What may be thrown while a SignatureInfo is encoded or decoded; malformed is
-- what the readers of elements and integers throw.
inductive SignatureInfoError where
  | malformed
  | unexpectedType (type : Nat)
  | invalid
  | unsupportedKeyLocator (type : Nat)
  | repeated (type : Nat)
  | emptyNonce
  | unrecognizedCritical (type : Nat)
  | typeMissing
  | tooLong
  deriving DecidableEq, Repr

inductive KeyLocator where
  | none
  | name (name : Name)
  | digest (b : Block)
  | other (type : Nat)
  deriving DecidableEq, Repr

namespace Block

def content (b : Block) : Nat × List UInt8 := (b.type,b.value)

end Block

namespace KeyLocator

def wireEncode : KeyLocator → Except SignatureInfoError Block
  | none => .ok (make tlvKeyLocator [])
  | name n => .ok (make tlvKeyLocator n.wireEncode.wire)
  | digest b => .ok (make tlvKeyLocator b.encoded.wire)
  | other type => .error (.unsupportedKeyLocator type)

def wireDecode (wire : Block) : Except SignatureInfoError KeyLocator :=
  if wire.type ≠ tlvKeyLocator then .error (.unexpectedType wire.type)
  else
    match wire.parse with
    | Option.none => .error .malformed
    | some [] => .ok none
    | some (element :: _) =>
      if element.type = tlvName then
        match Name.ofBlock element with
        | Option.none => .error .malformed
        | some n => .ok (name n)
      else if element.type = tlvKeyDigest then .ok (digest element)
      else .ok (other element.type)

def equals : KeyLocator → KeyLocator → Bool
  | none,none => true
  | name n,name m => n == m
  | digest b,digest c => b.content == c.content
  | other t,other u => t == u
  | _,_ => false

def Legal : KeyLocator → Prop
  | name n => n.Legal
  | digest b => b.type = tlvKeyDigest ∧ (b.wire = [] ∨ b.Reads)
  | _ => True

end KeyLocator

-- type is none while the SignatureInfo is invalid. wire is the encoding if it was
-- made or read and nothing has been changed since.
structure SignatureInfo where
  type : Option Nat := none
  keyLocator : Option KeyLocator := none
  otherTlvs : List Block := []
  wire : Option Block := none
  deriving DecidableEq, Repr

namespace SignatureInfo

section
variable (kind : Nat) (info : SignatureInfo)

def encodeElements : Except SignatureInfoError (List Block) := do
  let type ← info.type.elim (.error .invalid) .ok
  let locator ← info.keyLocator.elim (.ok []) (fun k => k.wireEncode.map ([·]))
  .ok (make tlvSignatureType (encodeNonNegativeInteger type) :: locator ++ info.otherTlvs.map Block.encoded)

-- Written into the encoding of a packet: the cached encoding is not used.
def encodeFields : Except SignatureInfoError Block :=
  info.encodeElements.map (fun elements => make kind (wires elements))

-- The cached encoding is used whatever kind it is of.
def wireEncode : Except SignatureInfoError Block :=
  match info.wire with
  | some b => .ok b
  | none => do
      let b ← info.encodeFields kind
      if b.size > maxBufferSize then .error .tooLong else .ok b

def readSignatureType (b : Block) : Except SignatureInfoError Nat :=
  match readNonNegativeInteger b.value with
  | some n => if n ≤ maxUInt16 then .ok n else .error .malformed
  | none => .error .malformed

def decodeElement (lastCriticalElement : Nat) (b : Block) : Except SignatureInfoError (SignatureInfo × Nat) :=
  if b.type = tlvSignatureType then
    if lastCriticalElement > 0 then .error (.repeated b.type)
    else (readSignatureType b).map (fun n => ({ info with type := some n },1))
  else if b.type = tlvKeyLocator then
    if lastCriticalElement > 1 then .error (.repeated b.type)
    else (KeyLocator.wireDecode b).map (fun k => ({ info with keyLocator := some k },2))
  else if b.type = tlvSignatureNonce then
    if b.value = [] then .error .emptyNonce else .ok ({ info with otherTlvs := info.otherTlvs ++ [b] },lastCriticalElement)
  else if b.type = tlvValidityPeriod then .ok ({ info with otherTlvs := info.otherTlvs ++ [b] },lastCriticalElement)
  else if isCriticalType b.type then .error (.unrecognizedCritical b.type)
  else .ok ({ info with otherTlvs := info.otherTlvs ++ [b] },lastCriticalElement)

def decodeElements (info : SignatureInfo) (lastCriticalElement : Nat) : List Block → Except SignatureInfoError SignatureInfo
  | [] => .ok info
  | b :: rest => do
      let (next,last) ← decodeElement info lastCriticalElement b
      decodeElements next last rest

def wireDecode (wire : Block) : Except SignatureInfoError SignatureInfo :=
  match wire.parse with
  | none => .error .malformed
  | some elements =>
    if wire.type ≠ kind then .error (.unexpectedType wire.type)
    else do
      let info ← decodeElements { wire := some wire } 0 elements
      if info.type = none then .error .typeMissing else .ok info

end

def equals (info other : SignatureInfo) : Bool :=
  info.type == other.type &&
    (match info.keyLocator,other.keyLocator with
      | some k,some l => k.equals l
      | none,none => true
      | _,_ => false) &&
    info.otherTlvs.map content == other.otherTlvs.map content

-- Not the infos that a wireDecode left behind when it raised: those can hold a
-- wire of another type.
structure Legal (info : SignatureInfo) : Prop where
  type : ∀ n ∈ info.type, n ≤ maxUInt16
  keyLocator : ∀ k ∈ info.keyLocator, k.Legal
  otherTlvs : ∀ b ∈ info.otherTlvs, b.Reads ∨ (b.wire = [] ∧ b.type ≤ maxUInt32)
  wire : ∀ b ∈ info.wire, b.Reads ∧ (b.type = tlvSignatureInfo ∨ b.type = tlvInterestSignatureInfo)

variable {info : SignatureInfo} {b : Block} {kind : Nat}

theorem wireEncode_reads (legal : info.Legal) (kinds : kind = tlvSignatureInfo ∨ kind = tlvInterestSignatureInfo)
    (encoded : info.wireEncode kind = .ok b) : b.Reads ∧ (b.type = tlvSignatureInfo ∨ b.type = tlvInterestSignatureInfo) := by
  unfold wireEncode at encoded
  split at encoded
  · rename_i cached present
    cases encoded
    exact legal.wire b present
  · obtain ⟨made,fields,checked⟩ := Results.bind_parts encoded
    obtain ⟨elements,_,rfl⟩ := Results.map_parts fields
    split at checked
    · cases checked
    · rename_i bounded
      cases checked
      have small := length_value_make_le kind (wires elements)
      have range : kind ≠ invalidType ∧ kind ≤ maxUInt32 := by
        rcases kinds with rfl | rfl <;> decide
      refine ⟨reads_make range ?_,kinds⟩
      unfold maxBufferSize at bounded
      omega

end SignatureInfo
end ReflexiveNfd
