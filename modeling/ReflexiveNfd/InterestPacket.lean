import ReflexiveNfd.SignatureInfo
import ReflexiveNfd.Packet

namespace ReflexiveNfd
open Octets Tlv

def tlvInterest : Nat := 5
def tlvNonce : Nat := 10
def tlvInterestLifetime : Nat := 12
def tlvMustBeFresh : Nat := 18
def tlvForwardingHint : Nat := 30
def tlvDelegation : Nat := 31
def tlvCanBePrefix : Nat := 33
def tlvHopLimit : Nat := 34
def tlvApplicationParameters : Nat := 36

-- SHA-256 is any function with digests of its size.
structure Sha256 where
  digest : List UInt8 → List UInt8
  size : ∀ octets, (digest octets).length = sha256DigestSize

inductive InterestError where
  | unexpectedType (type : Nat)
  | malformed
  | nameMissing
  | nameEmpty
  | severalDigests
  | outOfOrder (type : Nat)
  | nonZeroLength (type : Nat)
  | invalidNameInForwardingHint
  | invalidNameInDelegation
  | unexpectedInForwardingHint (type : Nat)
  | malformedElement (type : Nat)
  | unrecognizedCritical (type : Nat)
  | digestMismatch
  | parametersWithoutDigest
  | digestWithoutParameters
  | tooLong
  | negativeLifetime
  | invalidBlock
  | nullBuffer
  | signatureInfo (error : SignatureInfoError)
  | signatureInfoMissing
  | nameWithoutFinalDigest
  deriving DecidableEq, Repr

-- Where a name has its parameters digest: nowhere (-1), at one index, or at
-- more than one (-2).
inductive DigestIndex where
  | none
  | one (index : Nat)
  | several
  deriving DecidableEq, Repr

def defaultInterestLifetime : Int64 := 4000

-- The components and the parameter elements are blocks with a place in a buffer:
-- that of the wire once the Interest is decoded, otherwise one of their own.
structure InterestPacket where
  name : List Element := []
  canBePrefix : Bool := false
  mustBeFresh : Bool := false
  forwardingHint : List Name := []
  nonce : Option Nonce := none
  interestLifetime : Int64 := defaultInterestLifetime
  hopLimit : Option UInt8 := none
  parameters : List Element := []
  wire : Option Block := none

def Component.isParametersSha256Digest (c : Component) : Bool :=
  c.type == tlvParametersSha256DigestComponent && c.value.length == sha256DigestSize

def findParametersDigestComponent (name : Name) : DigestIndex := loop 0 .none name
where
  loop (i : Nat) (pos : DigestIndex) : Name → DigestIndex
    | [] => pos
    | c :: rest =>
      if c.isParametersSha256Digest then if pos ≠ .none then .several else loop (i + 1) (.one i) rest
      else loop (i + 1) pos rest

namespace InterestPacket

section
variable (sha : Sha256) (i : InterestPacket)

def getName : Name := i.name.map Element.toComponent

def parameterBlocks : List Block := i.parameters.map Element.block

def hasApplicationParameters : Bool := !i.parameters.isEmpty

def computeParametersDigest : List UInt8 := sha.digest (Block.wires i.parameterBlocks)

-- More than one digest in the name is asserted not to happen.
def isParametersDigestValid : Bool :=
  match findParametersDigestComponent i.getName with
  | .none => !i.hasApplicationParameters
  | .one index => i.hasApplicationParameters && i.getName[index]?.any (fun c => c.value == i.computeParametersDigest sha)
  | .several => false

end

end InterestPacket

-- One sub-element of a forwarding hint: a name, a delegation of the old format,
-- or something to be skipped.
def decodeDelegation (del : Block) : Except InterestError (Option Name) :=
  if del.type = tlvName then
    match Name.ofBlock del with
    | none => .error .invalidNameInForwardingHint
    | some name => .ok (some name)
  else if del.type = tlvDelegation then
    match del.parse.bind (fun elements => (elements.find? (fun b => b.type == tlvName)).bind Name.ofBlock) with
    | none => .error .invalidNameInDelegation
    | some name => .ok (some name)
  else if isCriticalType del.type then .error (.unexpectedInForwardingHint del.type)
  else .ok none

def decodeForwardingHint : List Block → Except InterestError (List Name)
  | [] => .ok []
  | del :: rest => do
      let first ← decodeDelegation del
      let later ← decodeForwardingHint rest
      .ok (first.toList ++ later)

def encodeNonce (nonce : Nonce) : List UInt8 := toBigEndian 4 nonce.toNat

def readNonce (octets : List UInt8) : Nonce := UInt32.ofNat (ofBigEndian octets)

def millisecondsOf (n : Nat) : Int64 := (UInt64.ofNat n).toInt64

namespace InterestPacket

-- One element behind the name. lastElement is the index of the last recognized
-- one in the order of the format.
def decodeElement (i : InterestPacket) (lastElement : Nat) (e : Element) : Except InterestError (InterestPacket × Nat) :=
  let b := e.block
  if b.type = tlvCanBePrefix then
    if lastElement ≥ 2 then .error (.outOfOrder b.type)
    else if b.value ≠ [] then .error (.nonZeroLength b.type)
    else .ok ({ i with canBePrefix := true },2)
  else if b.type = tlvMustBeFresh then
    if lastElement ≥ 3 then .error (.outOfOrder b.type)
    else if b.value ≠ [] then .error (.nonZeroLength b.type)
    else .ok ({ i with mustBeFresh := true },3)
  else if b.type = tlvForwardingHint then
    if lastElement ≥ 4 then .error (.outOfOrder b.type)
    else
      match b.parse with
      | none => .error .malformed
      | some delegations => (decodeForwardingHint delegations).map (fun names => ({ i with forwardingHint := names },4))
  else if b.type = tlvNonce then
    if lastElement ≥ 5 then .error (.outOfOrder b.type)
    else if b.value.length ≠ 4 then .error (.malformedElement b.type)
    else .ok ({ i with nonce := some (readNonce b.value) },5)
  else if b.type = tlvInterestLifetime then
    if lastElement ≥ 6 then .error (.outOfOrder b.type)
    else
      match readNonNegativeInteger b.value with
      | none => .error .malformed
      | some n => .ok ({ i with interestLifetime := millisecondsOf n },6)
  else if b.type = tlvHopLimit then
    -- Not critical: where it is out of order it is ignored.
    if lastElement ≥ 7 then .ok (i,lastElement)
    else
      match b.value with
      | [limit] => .ok ({ i with hopLimit := some limit },7)
      | _ => .error (.malformedElement b.type)
  else if b.type = tlvApplicationParameters then
    if lastElement ≥ 8 then .ok (i,lastElement) else .ok ({ i with parameters := i.parameters ++ [e] },8)
  else if isCriticalType b.type then .error (.unrecognizedCritical b.type)
  else if i.hasApplicationParameters then .ok ({ i with parameters := i.parameters ++ [e] },lastElement)
  else .ok (i,lastElement)

def decodeElements (i : InterestPacket) (lastElement start : Nat) : List Block → Except InterestError InterestPacket
  | [] => .ok i
  | b :: rest => do
      let (next,last) ← decodeElement i lastElement ⟨start,b⟩
      decodeElements next last (start + b.size) rest

-- The check can be turned off for the whole program.
def checkDigest (sha : Sha256) (autoCheck : Bool) (i : InterestPacket) : Except InterestError InterestPacket :=
  if autoCheck && !i.isParametersDigestValid sha then .error .digestMismatch else .ok i

def wireDecode (sha : Sha256) (autoCheck : Bool) (wire : Block) : Except InterestError InterestPacket :=
  if wire.type ≠ tlvInterest then .error (.unexpectedType wire.type)
  else
    match wire.parse with
    | none => .error .malformed
    | some [] => .error .nameMissing
    | some (first :: rest) =>
      let start := Element.valueStart ⟨0,wire⟩
      if first.type ≠ tlvName then .error .nameMissing
      else
        match Element.parse ⟨start,first⟩ with
        | none => .error .malformed
        | some name =>
          if name = [] then .error .nameEmpty
          else if findParametersDigestComponent (name.map Element.toComponent) = .several then .error .severalDigests
          else decodeElements { name := name,wire := some wire } 1 (start + first.size) rest >>= checkDigest sha autoCheck

section
variable (i : InterestPacket)

def canBePrefixField : Option Block := if i.canBePrefix then some (Block.make tlvCanBePrefix []) else none

def mustBeFreshField : Option Block := if i.mustBeFresh then some (Block.make tlvMustBeFresh []) else none

def forwardingHintField : Option Block :=
  if i.forwardingHint = [] then none
  else some (Block.make tlvForwardingHint (Block.wires (i.forwardingHint.map Name.wireEncode)))

def lifetimeField : Option Block :=
  if i.interestLifetime = defaultInterestLifetime then none
  else some (Block.make tlvInterestLifetime (encodeNonNegativeInteger i.interestLifetime.toUInt64.toNat))

def hopLimitField : Option Block := i.hopLimit.map (fun limit => Block.make tlvHopLimit [limit])

end

section
variable (generated : Nonce) (i : InterestPacket)

-- The encoder writes these from the last to the first. generated is the nonce
-- that is made up if none was set.
def headers : List Block :=
  i.canBePrefixField.toList ++ i.mustBeFreshField.toList ++ i.forwardingHintField.toList ++
    [Block.make tlvNonce (encodeNonce (i.nonce.getD generated))] ++ i.lifetimeField.toList ++ i.hopLimitField.toList

def encodeElements : List Block :=
  i.getName.wireEncode :: (i.headers generated ++ i.parameterBlocks.map Block.encoded)

def encoding : Block := Block.make tlvInterest (Block.wires (i.encodeElements generated))

end

-- The wire, and the Interest as it is when it has been encoded: it reads its own
-- encoding.
def wireEncode (sha : Sha256) (autoCheck : Bool) (generated : Nonce) (i : InterestPacket) : Except InterestError (Block × InterestPacket) :=
  match i.wire with
  | some wire => .ok (wire,i)
  | none =>
    if findParametersDigestComponent i.getName = .none ∧ i.hasApplicationParameters then .error .parametersWithoutDigest
    else if findParametersDigestComponent i.getName ≠ .none ∧ ¬ i.hasApplicationParameters then .error .digestWithoutParameters
    else if (i.encoding generated).size > maxBufferSize then .error .tooLong
    else (wireDecode sha autoCheck (i.encoding generated)).map (fun after => (i.encoding generated,after))

end InterestPacket
end ReflexiveNfd
