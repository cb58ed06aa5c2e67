import ReflexiveNfd.DataPacket
import ReflexiveNfd.SignedInterest
import ReflexiveNfd.Validator

namespace ReflexiveNfd.Validation
open Octets Tlv

inductive SignedInterestFormat where
  | v02
  | v03
  deriving DecidableEq, Repr

-- The format and the SignatureInfo of a signed Interest. An InterestSignatureInfo
-- that cannot be read has been found before the policy is asked. In the old
-- format the SignatureInfo is in the last but one component of the name.
def signatureInfoOf (i : InterestPacket) : Except ValidationError (SignedInterestFormat × SignatureInfo) :=
  match i.getSignatureInfo with
  | .error _ => .error .malformedSignature
  | .ok (some info) => .ok (.v03,info)
  | .ok none =>
    if i.name.length < 2 then .error .malformedSignature
    else
      match i.name[i.name.length - 2]?.bind (fun e => e.block.blockFromValue) with
      | none => .error .malformedSignature
      | some b =>
        match SignatureInfo.wireDecode tlvSignatureInfo b with
        | .error _ => .error .malformedSignature
        | .ok info => .ok (.v02,info)

def signatureDigestSha256 : Nat := 0

def getKeyLocatorName (info : SignatureInfo) : Except ValidationError Name :=
  if info.type = some signatureDigestSha256 then .ok digestSha256Identity
  else
    match info.keyLocator with
    | some (.name name) => .ok name
    | _ => .error .invalidKeyLocator

end ReflexiveNfd.Validation
