import ReflexiveNfd.Lib.Decimal
import ReflexiveNfd.LpPacket
import ReflexiveNfd.UriText
import ReflexiveNfd.NameWires

namespace ReflexiveNfd

def tlvKeywordNameComponent : Nat := 32
def tlvSegmentNameComponent : Nat := 50
def tlvByteOffsetNameComponent : Nat := 52
def tlvVersionNameComponent : Nat := 54
def tlvTimestampNameComponent : Nat := 56
def tlvSequenceNumNameComponent : Nat := 58

namespace Uri
open Decimal

-- What is thrown, by the TLV-TYPE concerned, and the branch that must not be reached.
inductive UriError where
  | notNameComponent (type : Nat)
  | digestLength (type : Nat)
  | periods
  | unknownType (typePrefix : List UInt8)
  | invalidHex (type : Nat)
  | invalidFormat (type : Nat)
  | outOfRange (type : Nat)
  | unreachable
  deriving DecidableEq, Repr

inductive ComponentType where
  | base
  | generic
  | reflexive (uriPrefix : List UInt8)
  | sha256 (type : Nat) (uriPrefix : List UInt8)
  | decimal (type : Nat) (uriPrefix : List UInt8)
  deriving DecidableEq, Repr

def table : List (Nat × ComponentType) :=
  [(tlvImplicitSha256DigestComponent,.sha256 tlvImplicitSha256DigestComponent (octets ['s','h','a','2','5','6','d','i','g','e','s','t'])),
    (tlvParametersSha256DigestComponent,.sha256 tlvParametersSha256DigestComponent (octets ['p','a','r','a','m','s','-','s','h','a','2','5','6'])),
    (tlvGenericNameComponent,.generic),
    (tlvKeywordNameComponent,.base),
    (tlvSegmentNameComponent,.decimal tlvSegmentNameComponent (octets ['s','e','g'])),
    (tlvByteOffsetNameComponent,.decimal tlvByteOffsetNameComponent (octets ['o','f','f'])),
    (tlvVersionNameComponent,.decimal tlvVersionNameComponent (octets ['v'])),
    (tlvTimestampNameComponent,.decimal tlvTimestampNameComponent (octets ['t'])),
    (tlvSequenceNumNameComponent,.decimal tlvSequenceNumNameComponent (octets ['s','e','q'])),
    (tlvReflexiveNameComponent,.reflexive (octets ['R','N']))]

def getComponentType (type : Nat) : ComponentType := (table.find? (fun entry => entry.1 = type)).elim .base Prod.snd

namespace ComponentType

def getAltUriPrefix : ComponentType → List UInt8
  | .base | .generic => []
  | .reflexive uriPrefix | .sha256 _ uriPrefix | .decimal _ uriPrefix => uriPrefix

def check : ComponentType → List UInt8 → Except UriError Unit
  | .sha256 type _,value => if value.length ≠ sha256DigestSize then .error (.digestLength type) else .ok ()
  | _,_ => .ok ()

end ComponentType

def findByUriPrefix (uriPrefix : List UInt8) : Option ComponentType :=
  (table.find? (fun entry => entry.2.getAltUriPrefix ≠ [] ∧ entry.2.getAltUriPrefix = uriPrefix)).map Prod.snd

section
variable (c : Component) (type : Nat) (value input : List UInt8)

def ensureValid : Except UriError Unit :=
  if c.type < 1 ∨ c.type > 65535 then .error (.notNameComponent c.type) else (getComponentType c.type).check c.value

def component : Except UriError Component := (ensureValid ⟨type,value⟩).map fun _ => ⟨type,value⟩

def isAllPeriods : Bool := value.all (· == period)

def writeUriEscapedValue : List UInt8 :=
  (if isAllPeriods value then [period,period,period] else []) ++ escape value

def writeCanonical : List UInt8 := decimal c.type ++ equals :: writeUriEscapedValue c.value

def ComponentType.writeUri : ComponentType → List UInt8
  | .base => writeCanonical c
  | .generic => writeUriEscapedValue c.value
  | .reflexive uriPrefix => uriPrefix ++ equals :: writeUriEscapedValue c.value
  | .sha256 _ uriPrefix => uriPrefix ++ equals :: printHex c.value false
  | .decimal _ uriPrefix =>
    if c.isNumber then uriPrefix ++ equals :: Decimal.decimal (Component.readNonNegativeInteger c.value) else writeCanonical c

-- Only two of the classes override this. The base class has the unreachable branch.
def ComponentType.parseAltUriValue : ComponentType → Except UriError Component
  | .sha256 type _ =>
    match fromHex input with
    | none => .error (.invalidHex type)
    | some value => component type value
  | .decimal type _ =>
    match stoull input with
    | .error .invalidArgument => .error (.invalidFormat type)
    | .error .outOfRange => .error (.outOfRange type)
    | .ok n => if Decimal.decimal n ≠ input then .error (.invalidFormat type) else component type (encodeNonNegativeInteger n)
  | .base | .generic | .reflexive _ => .error .unreachable

def parseUriEscapedValue : Except UriError Component :=
  let value := unescape input
  if isAllPeriods value then
    if value.length < 3 then .error .periods else component type (value.take (value.length - 3))
  else component type value

def fromEscapedString : Except UriError Component :=
  if equals ∈ input then
    let typePrefix := input.takeWhile (· ≠ equals)
    let value := input.drop (typePrefix.length + 1)
    let type := strtoul typePrefix
    if 1 ≤ type ∧ type ≤ 65535 ∧ decimal type = typePrefix then parseUriEscapedValue type value
    else match findByUriPrefix typePrefix with
      | none => .error (.unknownType typePrefix)
      | some ct => ct.parseAltUriValue value
  else parseUriEscapedValue tlvGenericNameComponent input

-- What stands behind the unreachable branch is not reached either.
def RNfromEscapedString : Except UriError Component :=
  if equals ∈ input then .error .unreachable else parseUriEscapedValue tlvReflexiveNameComponent input

end

inductive UriFormat where
  | canonical
  | alternate
  deriving DecidableEq, Repr

def componentToUri (format : UriFormat) (c : Component) : List UInt8 :=
  match format with
  | .alternate => (getComponentType c.type).writeUri c
  | .canonical => writeCanonical c

def toUri (format : UriFormat) (name : Name) : List UInt8 :=
  if name.isEmpty then [slash] else name.flatMap fun c => slash :: componentToUri format c

def stripScheme (uri : List UInt8) : List UInt8 :=
  if uri.idxOf colon < uri.idxOf slash then uri.drop (uri.idxOf colon + 1) else uri

def stripAuthority (uri : List UInt8) : Option (List UInt8) :=
  if uri.head? = some slash then
    if uri.tail.head? = some slash then
      let rest := uri.tail.tail
      if slash ∈ rest then some (rest.drop (rest.idxOf slash + 1)) else none
    else some uri.tail
  else some uri

-- The loop of both constructors. They differ in what the last component is read with.
def readComponents (readLast : List UInt8 → Except UriError Component) : Nat → List UInt8 → Except UriError Name
  | 0,_ => .ok []
  | fuel + 1,uri =>
    if uri.isEmpty then .ok []
    else
      let text := uri.takeWhile (· ≠ slash)
      if text.length + 1 ≥ uri.length then (readLast text).map ([·])
      else do
        let c ← fromEscapedString text
        let rest ← readComponents readLast fuel (uri.drop (text.length + 1))
        return c :: rest

def fromUriWith (readLast : List UInt8 → Except UriError Component) (uri : List UInt8) : Except UriError Name :=
  if uri.isEmpty then .ok []
  else (stripAuthority (stripScheme uri)).elim (.ok []) fun path => readComponents readLast path.length path

def fromUri : List UInt8 → Except UriError Name := fromUriWith fromEscapedString
def fromUriRN : List UInt8 → Except UriError Name := fromUriWith RNfromEscapedString

end Uri
end ReflexiveNfd
