import ReflexiveNfd.Tlv

namespace ReflexiveNfd
open Tlv

-- TLV-TYPE numbers of the name components the forwarder tells apart.
def tlvImplicitSha256DigestComponent : Nat := 1
def tlvGenericNameComponent : Nat := 8
def tlvReflexiveNameComponent : Nat := 59

def sha256DigestSize : Nat := 32

-- A component as the tables know it, which is by its octets: its type and value if
-- these are the shortest encoding, and otherwise the octets themselves as the value,
-- under the type that no element has.
structure Component where
  type : Nat
  value : List UInt8
  deriving DecidableEq, Repr, Inhabited

abbrev Name := List Component

instance : LawfulBEq Name := inferInstance

inductive Convention where
  | marker
  | typed
  | either
  deriving DecidableEq, Repr

def canDecodeMarkerConvention : Convention → Bool
  | .marker | .either => true
  | .typed => false

def canDecodeTypedConvention : Convention → Bool
  | .typed | .either => true
  | .marker => false

def segmentMarker : UInt8 := 0x00

inductive ComponentError where
  | notNonNegativeInteger
  deriving DecidableEq, Repr

namespace Component

def octets (c : Component) : List UInt8 := if c.type = invalidType then c.value else Block.encode c.type c.value

def decoded (c : Component) : Component :=
  if c.type = invalidType then
    match Block.fromBuffer c.value with
    | some (b,_) => ⟨b.type,b.value⟩
    | none => c
  else c

section
variable (convention : Convention) (c : Component)

def isImplicitSha256Digest : Bool :=
  c.type == tlvImplicitSha256DigestComponent && c.value.length == sha256DigestSize

def isNumber : Bool :=
  c.value.length == 1 || c.value.length == 2 || c.value.length == 4 || c.value.length == 8

def isNumberWithMarker (marker : UInt8) : Bool :=
  (c.value.length == 2 || c.value.length == 3 || c.value.length == 5 || c.value.length == 9) &&
    c.value.head? == some marker

def readNonNegativeInteger (octets : List UInt8) : Nat :=
  octets.foldl (fun number octet => number * 256 + octet.toNat) 0

-- The one place where classifying a received name can raise.
def toNumber : Except ComponentError Nat :=
  if c.isNumber then .ok (readNonNegativeInteger c.value) else .error .notNonNegativeInteger

def isReflexive : Bool :=
  (canDecodeMarkerConvention convention && c.type == tlvReflexiveNameComponent && c.isNumberWithMarker segmentMarker) ||
    (canDecodeTypedConvention convention && c.type == tlvReflexiveNameComponent && c.isNumber)

-- 960051513 is the text 9999 read as a big-endian number. The marker branch
-- admits sizes that toNumber does not, hence the error.
def isRN9999 : Except ComponentError Bool :=
  if (canDecodeMarkerConvention convention && c.type == tlvReflexiveNameComponent && c.isNumberWithMarker segmentMarker) ||
      (canDecodeTypedConvention convention && c.type == tlvReflexiveNameComponent && c.isNumber) then
    match c.toNumber with
    | .error raised => .error raised
    | .ok number => .ok (number == 960051513)
  else .ok false

end

end Component

namespace Name

def decoded (name : Name) : Name := name.map Component.decoded

def Shortest (name : Name) : Prop := ∀ c ∈ name, c.type ≠ invalidType

instance (name : Name) : Decidable (Shortest name) := inferInstanceAs (Decidable (∀ c ∈ name, c.type ≠ invalidType))

theorem decoded_shortest (shortest : Shortest name) : decoded name = name := by
  have same : name.map Component.decoded = name.map id := List.map_congr_left (fun c present => if_neg (shortest c present))
  rw [decoded,same,List.map_id]

def isPrefixOfDecoded (name other : Name) : Bool := name.decoded.isPrefixOf other.decoded

def isReflexiveName (convention : Convention) (name : Name) : Bool :=
  name.any (Component.isReflexive convention)

def hasRN9999 (convention : Convention) : Name → Except ComponentError Bool
  | [] => .ok false
  | c :: rest =>
    match c.isRN9999 convention with
    | .error raised => .error raised
    | .ok true => .ok true
    | .ok false => hasRN9999 convention rest

def endsWithDigest (name : Name) : Bool :=
  match name.getLast? with
  | some last => last.isImplicitSha256Digest
  | none => false

end Name

-- scope_prefix: /localhost and /localhop as generic components.
def localhost : Name := [⟨tlvGenericNameComponent,[108,111,99,97,108,104,111,115,116]⟩]
def localhop : Name := [⟨tlvGenericNameComponent,[108,111,99,97,108,104,111,112]⟩]

-- Name::compare: components by their octets; a proper prefix is smaller.
def compareOctets : List UInt8 → List UInt8 → Ordering
  | a :: as,b :: bs => (compare a.toNat b.toNat).then (compareOctets as bs)
  | [],[] => .eq
  | [],_ :: _ => .lt
  | _ :: _,[] => .gt

-- What follows the octets tells only components apart that no name has.
def Component.compare (a b : Component) : Ordering :=
  (compareOctets a.octets b.octets).then ((Ord.compare a.type b.type).then (compareOctets a.value b.value))

def Name.compare : Name → Name → Ordering
  | a :: as,b :: bs => (Component.compare a b).then (Name.compare as bs)
  | [],[] => .eq
  | [],_ :: _ => .lt
  | _ :: _,[] => .gt

end ReflexiveNfd
