import ReflexiveNfd.InterestPacket
import ReflexiveNfd.Lib.Transition

namespace ReflexiveNfd
open Octets Tlv

structure InterestCall where
  raised : Option InterestError
  after : InterestPacket

inductive BlockArgument where
  | block (b : Block)
  | octets (value : List UInt8)
  | null
  deriving DecidableEq, Repr

namespace InterestPacket

def isOfType (type : Nat) (e : Element) : Bool := e.block.type == type

section
variable (sha : Sha256) (i : InterestPacket)

def digestComponent : Element :=
  ⟨0,⟨tlvParametersSha256DigestComponent,[],i.computeParametersDigest sha⟩⟩

def addOrReplaceParametersDigestComponent : InterestPacket :=
  match findParametersDigestComponent i.getName with
  | .none => { i with name := i.name ++ [i.digestComponent sha] }
  | .one index => { i with name := i.name.set index (i.digestComponent sha) }
  | .several => i

def resetWire : InterestPacket := { i with wire := none }

def setName (name : List Element) : InterestCall :=
  if findParametersDigestComponent (name.map Element.toComponent) = .several then ⟨some .severalDigests,i⟩
  else if name.map Element.toComponent = i.getName then ⟨none,i⟩
  else
    let named := { i with name := name }
    ⟨none,(if named.hasApplicationParameters then named.addOrReplaceParametersDigestComponent sha else named).resetWire⟩

def setApplicationParametersInternal (parameters : Block) : InterestPacket :=
  let changed := { i with parameters := ⟨0,parameters.encoded⟩ :: i.parameters.tail }
  (changed.addOrReplaceParametersDigestComponent sha).resetWire

def setApplicationParameters : BlockArgument → InterestCall
  | .block b =>
    if b.type = invalidType then ⟨some .invalidBlock,i⟩
    else if b.type = tlvApplicationParameters then ⟨none,i.setApplicationParametersInternal sha b⟩
    else if b.wire = [] then ⟨some .malformed,i⟩
    else ⟨none,i.setApplicationParametersInternal sha ⟨tlvApplicationParameters,[],b.wire⟩⟩
  | .octets value => ⟨none,i.setApplicationParametersInternal sha (Block.make tlvApplicationParameters value)⟩
  | .null => ⟨some .nullBuffer,i⟩

def unsetApplicationParameters : InterestPacket :=
  let emptied := { i with parameters := [] }
  match findParametersDigestComponent i.getName with
  | .one index => { emptied with name := i.name.eraseIdx index }.resetWire
  | _ => emptied.resetWire

def withParameters : InterestPacket :=
  if i.parameters = [] then { i with parameters := [⟨0,Block.make tlvApplicationParameters []⟩] } else i

def setSignatureInfo (info : SignatureInfo) : InterestCall :=
  let started := i.withParameters
  match info.wireEncode tlvInterestSignatureInfo with
  | .error fault => ⟨some (.signatureInfo fault),started⟩
  | .ok encodedInfo =>
    match started.parameters.findIdx? (isOfType tlvInterestSignatureInfo) with
    | some index =>
      if (started.parameters[index]?).any (fun e => e.block.equals encodedInfo) then ⟨none,started⟩
      else
        let changed := { started with parameters := started.parameters.set index ⟨0,encodedInfo⟩ }
        ⟨none,(changed.addOrReplaceParametersDigestComponent sha).resetWire⟩
    | none =>
      let place := started.parameters.findIdx (isOfType tlvInterestSignatureValue)
      let changed := { started with parameters := started.parameters.insertIdx place ⟨0,encodedInfo⟩ }
      ⟨none,(changed.addOrReplaceParametersDigestComponent sha).resetWire⟩

def setSignatureValueInternal (sigValue : Block) : InterestCall :=
  match i.parameters.findIdx? (isOfType tlvInterestSignatureInfo) with
  | none => ⟨some .signatureInfoMissing,i⟩
  | some info =>
    match i.parameters.findIdx? (isOfType tlvInterestSignatureValue) with
    | some index =>
      if (i.parameters[index]?).any (fun e => e.block.equals sigValue) then ⟨none,i⟩
      else
        let changed := { i with parameters := i.parameters.set index ⟨0,sigValue.encoded⟩ }
        ⟨none,(changed.addOrReplaceParametersDigestComponent sha).resetWire⟩
    | none =>
      let changed := { i with parameters := i.parameters.insertIdx (info + 1) ⟨0,sigValue.encoded⟩ }
      ⟨none,(changed.addOrReplaceParametersDigestComponent sha).resetWire⟩

def setSignatureValue : Option (List UInt8) → InterestCall
  | some value => i.setSignatureValueInternal sha (Block.make tlvInterestSignatureValue value)
  | none => ⟨some .nullBuffer,i⟩

end

end InterestPacket

-- The calls that change an Interest. What refreshNonce draws differs from the
-- nonce there was.
inductive InterestSetter where
  | setName (name : List Element)
  | setCanBePrefix (canBePrefix : Bool)
  | setMustBeFresh (mustBeFresh : Bool)
  | setForwardingHint (value : List Name)
  | setNonce (nonce : Option Nonce)
  | refreshNonce (generated : Nonce)
  | setInterestLifetime (lifetime : Int64)
  | setHopLimit (hopLimit : Option UInt8)
  | setApplicationParameters (parameters : BlockArgument)
  | unsetApplicationParameters
  | setSignatureInfo (info : SignatureInfo)
  | setSignatureValue (value : Option (List UInt8))

namespace InterestPacket

def call (sha : Sha256) (i : InterestPacket) : InterestSetter → InterestCall
  | .setName name => i.setName sha name
  | .setCanBePrefix canBePrefix => ⟨none,if canBePrefix = i.canBePrefix then i else { i with canBePrefix := canBePrefix,wire := none }⟩
  | .setMustBeFresh mustBeFresh => ⟨none,if mustBeFresh = i.mustBeFresh then i else { i with mustBeFresh := mustBeFresh,wire := none }⟩
  | .setForwardingHint value => ⟨none,{ i with forwardingHint := value,wire := none }⟩
  | .setNonce nonce => ⟨none,if nonce = i.nonce then i else { i with nonce := nonce,wire := none }⟩
  | .refreshNonce generated => ⟨none,if i.nonce = none then i else { i with nonce := some generated,wire := none }⟩
  | .setInterestLifetime lifetime =>
    if lifetime < 0 then ⟨some .negativeLifetime,i⟩
    else ⟨none,if lifetime = i.interestLifetime then i else { i with interestLifetime := lifetime,wire := none }⟩
  | .setHopLimit hopLimit => ⟨none,if hopLimit = i.hopLimit then i else { i with hopLimit := hopLimit,wire := none }⟩
  | .setApplicationParameters parameters => i.setApplicationParameters sha parameters
  | .unsetApplicationParameters => ⟨none,i.unsetApplicationParameters⟩
  | .setSignatureInfo info => i.setSignatureInfo sha info
  | .setSignatureValue value => i.setSignatureValue sha value

def step (sha : Sha256) (i : InterestPacket) (setter : InterestSetter) : Option InterestPacket := some (i.call sha setter).after

end InterestPacket
end ReflexiveNfd
