import ReflexiveNfd.InterestSetters

namespace ReflexiveNfd
open Octets Tlv Block

def tlvData : Nat := 6
def tlvMetaInfo : Nat := 20
def tlvContent : Nat := 21
def tlvContentType : Nat := 24
def tlvFreshnessPeriod : Nat := 25
def tlvFinalBlockId : Nat := 26
def contentTypeBlob : Nat := 0

inductive DataError where
  | unexpectedType (type : Nat)
  | malformed
  | nameMissing
  | outOfOrder (type : Nat)
  | unrecognizedCritical (type : Nat)
  | invalidComponent (type : Nat)
  | signatureInfo (error : SignatureInfoError)
  | signatureInfoMissing
  | signatureValueMissing
  | notSigned
  | noWire
  | tooLong
  | invalidContent
  | nullContent
  | nullSignatureValue
  | negativeFreshness
  deriving DecidableEq, Repr

structure MetaInfo where
  type : Nat := contentTypeBlob
  freshnessPeriod : Int64 := 0
  finalBlockId : Option Block := none
  appMetaInfo : List Block := []
  deriving DecidableEq, Repr

instance (c : WireComponent) : Decidable c.ensureValid := by unfold WireComponent.ensureValid; infer_instance

namespace Block

def isComponent (b : Block) : Bool := WireComponent.ensureValid ⟨b.type,b.value,some b.wire⟩

def blockFromValue (b : Block) : Option Block := (fromBuffer b.value).bind (fun found => if found.2 = [] then some found.1 else none)

end Block

namespace MetaInfo

section
variable (m : MetaInfo)

def setType (type : Nat) : MetaInfo := { m with type := type }

def setFreshnessPeriod (freshnessPeriod : Int64) : Except DataError MetaInfo :=
  if freshnessPeriod < 0 then .error .negativeFreshness else .ok { m with freshnessPeriod := freshnessPeriod }

def setFinalBlock (finalBlockId : Option Block) : MetaInfo := { m with finalBlockId := finalBlockId }

def contentTypeField : Option Block :=
  if m.type = contentTypeBlob then none else some (make tlvContentType (encodeNonNegativeInteger m.type))

def freshnessField : Option Block :=
  if m.freshnessPeriod = 0 then none
  else some (make tlvFreshnessPeriod (encodeNonNegativeInteger m.freshnessPeriod.toUInt64.toNat))

def finalBlockField : Option Block := m.finalBlockId.map (fun c => make tlvFinalBlockId c.encoded.wire)

def encodeElements : List Block :=
  m.contentTypeField.toList ++ (m.freshnessField.toList ++ (m.finalBlockField.toList ++ m.appMetaInfo.map encoded))

def wireEncode : Block := make tlvMetaInfo (wires m.encodeElements)

end

-- A field that stands where it is expected is read; otherwise it takes its
-- default. With an error goes what has been changed before it.
def readField (type : Nat) (read : MetaInfo → Block → Except (DataError × MetaInfo) MetaInfo) (absent : MetaInfo → MetaInfo)
    (m : MetaInfo) : List Block → Except (DataError × MetaInfo) (MetaInfo × List Block)
  | [] => .ok (absent m,[])
  | b :: rest => if b.type = type then (read m b).map (fun after => (after,rest)) else .ok (absent m,b :: rest)

section
variable (m : MetaInfo) (b : Block)

def readContentType : Except (DataError × MetaInfo) MetaInfo :=
  match readNonNegativeInteger b.value with
  | none => .error (.malformed,m)
  | some n => if n ≤ maxUInt32 then .ok { m with type := n } else .error (.malformed,m)

def readFreshnessPeriod : Except (DataError × MetaInfo) MetaInfo :=
  match readNonNegativeInteger b.value with
  | none => .error (.malformed,m)
  | some n => .ok { m with freshnessPeriod := millisecondsOf n }

def readFinalBlockId : Except (DataError × MetaInfo) MetaInfo :=
  match b.blockFromValue with
  | none => .error (.malformed,m)
  | some c => if c.isComponent then .ok { m with finalBlockId := some c } else .error (.invalidComponent c.type,{ m with finalBlockId := none })

-- What is left behind the known fields is stored whatever it is, behind what was
-- stored before.
def decodeElements (elements : List Block) : Except (DataError × MetaInfo) MetaInfo := do
  let (typed,afterType) ← readField tlvContentType readContentType ({ · with type := contentTypeBlob }) m elements
  let (fresh,afterFreshness) ← readField tlvFreshnessPeriod readFreshnessPeriod ({ · with freshnessPeriod := 0 }) typed afterType
  let (final,rest) ← readField tlvFinalBlockId readFinalBlockId ({ · with finalBlockId := none }) fresh afterFreshness
  .ok { final with appMetaInfo := final.appMetaInfo ++ rest }

def wireDecode (wire : Block) : Except (DataError × MetaInfo) MetaInfo :=
  match wire.parse with
  | none => .error (.malformed,m)
  | some elements => m.decodeElements elements

end

def equalFinal : Option Block → Option Block → Bool
  | some b,some c => b.equals c
  | none,none => true
  | _,_ => false

end MetaInfo

namespace SignatureInfo

-- What the elements before the one that is refused have set.
def decodedBefore (info : SignatureInfo) (lastCriticalElement : Nat) : List Block → SignatureInfo
  | [] => info
  | b :: rest =>
    match decodeElement info lastCriticalElement b with
    | .error _ => info
    | .ok (next,last) => decodedBefore next last rest

def leftBy (wire : Block) : SignatureInfo := decodedBefore { wire := some wire } 0 (wire.parse.getD [])

end SignatureInfo

-- A content or signature value that is none is the invalid block. The wire and
-- the full name are caches.
structure DataPacket where
  name : Name := []
  metaInfo : MetaInfo := {}
  content : Option Block := none
  signatureInfo : SignatureInfo := {}
  signatureValue : Option Block := none
  wire : Option Block := none
  fullName : Name := []
  deriving DecidableEq, Repr

structure DataCall where
  raised : Option DataError
  after : DataPacket
  deriving DecidableEq, Repr

namespace DataPacket

def decodeElement (d : DataPacket) (lastElement : Nat) (b : Block) : Except (DataError × DataPacket) (DataPacket × Nat) :=
  if b.type = tlvMetaInfo then
    if lastElement ≥ 2 then .error (.outOfOrder b.type,d)
    else
      match d.metaInfo.wireDecode b with
      | .error (fault,left) => .error (fault,{ d with metaInfo := left })
      | .ok m => .ok ({ d with metaInfo := m },2)
  else if b.type = tlvContent then
    if lastElement ≥ 3 then .error (.outOfOrder b.type,d) else .ok ({ d with content := some b },3)
  else if b.type = tlvSignatureInfo then
    if lastElement ≥ 4 then .error (.outOfOrder b.type,d)
    else
      match SignatureInfo.wireDecode tlvSignatureInfo b with
      | .error fault => .error (.signatureInfo fault,{ d with signatureInfo := .leftBy b })
      | .ok info => .ok ({ d with signatureInfo := info },4)
  else if b.type = tlvSignatureValue then
    if lastElement ≥ 5 then .error (.outOfOrder b.type,d) else .ok ({ d with signatureValue := some b },5)
  else if isCriticalType b.type then .error (.unrecognizedCritical b.type,d)
  else .ok (d,lastElement)

def decodeElements (d : DataPacket) (lastElement : Nat) : List Block → Except (DataError × DataPacket) DataPacket
  | [] => .ok d
  | b :: rest => do
      let (next,last) ← decodeElement d lastElement b
      decodeElements next last rest

def checkSigned (d : DataPacket) : Except (DataError × DataPacket) DataPacket :=
  if d.signatureInfo.type = none then .error (.signatureInfoMissing,d)
  else if d.signatureValue = none then .error (.signatureValueMissing,d)
  else .ok d

def outcome : Except (DataError × DataPacket) DataPacket → DataCall
  | .error (fault,left) => ⟨some fault,left⟩
  | .ok d => ⟨none,d⟩

section
variable (d : DataPacket)

-- The wire is kept before it is looked at. Of a name that cannot be parsed no
-- components are followed.
def wireDecode (wire : Block) : DataCall :=
  if wire.type ≠ tlvData then ⟨some (.unexpectedType wire.type),d⟩
  else
    match wire.parse with
    | none => ⟨some .malformed,{ d with wire := some wire }⟩
    | some [] => ⟨some .nameMissing,{ d with wire := some wire }⟩
    | some (first :: rest) =>
      if first.type ≠ tlvName then ⟨some .nameMissing,{ d with wire := some wire }⟩
      else
        match Name.ofBlock first with
        | none => ⟨some .malformed,{ d with wire := some wire,name := [] }⟩
        | some name => outcome (decodeElements { name := name,wire := some wire } 1 rest >>= checkSigned)

def contentField : Option Block := d.content.map encoded

def unsignedElements : Except DataError (List Block) :=
  match d.signatureInfo.encodeFields tlvSignatureInfo with
  | .error fault => .error (.signatureInfo fault)
  | .ok info => .ok (d.name.wireEncode :: d.metaInfo.wireEncode :: (d.contentField.toList ++ [info]))

def encoding (value : Block) : Except DataError Block :=
  d.unsignedElements.map (fun elements => make tlvData (wires (elements ++ [value.encoded])))

def reread (value : Block) : DataCall :=
  match d.encoding value with
  | .error fault => ⟨some fault,d⟩
  | .ok b => if b.size > maxBufferSize then ⟨some .tooLong,d⟩ else d.wireDecode b

-- An invalid block is written with the type zero.
def wireEncode : DataCall :=
  if d.wire ≠ none then ⟨none,d⟩
  else if d.signatureInfo.type = none then ⟨some .notSigned,d⟩
  else d.reread (d.signatureValue.getD ⟨invalidType,[],[]⟩)

def wireEncodeSigned (signature : List UInt8) : DataCall := d.reread (make tlvSignatureValue signature)

end

def getFullName (sha : Sha256) (d : DataPacket) : DataCall :=
  if d.fullName ≠ [] then ⟨none,d⟩
  else
    match d.wire with
    | none => ⟨some .noWire,d⟩
    | some wire => ⟨none,{ d with fullName := d.name ++ [⟨tlvImplicitSha256DigestComponent,sha.digest wire.wire⟩] }⟩

-- The range of a wire from its value to the element before the first signature
-- value, as offsets in its buffer.
def signedRange (wire : Block) : Option (Nat × Nat) := do
  let elements ← Element.parse ⟨0,wire⟩
  let lastSigned ← (elements.takeWhile (fun e => !InterestPacket.isOfType tlvSignatureValue e)).getLast?
  some (Element.valueStart ⟨0,wire⟩,lastSigned.stop)

section
variable (d : DataPacket)

def extractSignedRanges : Except DataError (Option (Nat × Nat)) :=
  match d.wireEncode.raised with
  | some fault => .error fault
  | none => .ok (d.wireEncode.after.wire.bind signedRange)

def resetWire : DataPacket := { d with wire := none,fullName := [] }

def setContentBlock (b : Block) : DataCall :=
  if b.type = invalidType then ⟨some .invalidContent,d⟩
  else if b.type = tlvContent then ⟨none,{ d with content := some b.encoded }.resetWire⟩
  else if b.wire = [] then ⟨some .malformed,d⟩
  else ⟨none,{ d with content := some (encoded ⟨tlvContent,[],b.wire⟩) }.resetWire⟩

def setContentBuffer : Option (List UInt8) → DataCall
  | none => ⟨some .nullContent,d⟩
  | some value => ⟨none,{ d with content := some ⟨tlvContent,[],value⟩ }.resetWire⟩

def setSignatureValueBuffer : Option (List UInt8) → DataCall
  | none => ⟨some .nullSignatureValue,d⟩
  | some value => ⟨none,{ d with signatureValue := some ⟨tlvSignatureValue,[],value⟩ }.resetWire⟩

def setFreshnessPeriod (freshnessPeriod : Int64) : DataCall :=
  if freshnessPeriod = d.metaInfo.freshnessPeriod then ⟨none,d⟩
  else
    match d.metaInfo.setFreshnessPeriod freshnessPeriod with
    | .error fault => ⟨some fault,d⟩
    | .ok m => ⟨none,{ d with metaInfo := m }.resetWire⟩

end

end DataPacket

-- The calls on a Data, each overload under a name of its own. A content given as
-- octets or as a string is encoded at once, one given as a buffer is not.
inductive DataMethod where
  | setName (name : Name)
  | setMetaInfo (metaInfo : MetaInfo)
  | setContentBlock (b : Block)
  | setContent (value : List UInt8)
  | setContentBuffer (value : Option (List UInt8))
  | unsetContent
  | setSignatureInfo (info : SignatureInfo)
  | setSignatureValue (value : List UInt8)
  | setSignatureValueBuffer (value : Option (List UInt8))
  | setContentType (type : UInt32)
  | setFreshnessPeriod (freshnessPeriod : Int64)
  | setFinalBlock (finalBlockId : Option Block)
  | wireEncode
  | wireEncodeSigned (signature : List UInt8)
  | getFullName
  | extractSignedRanges

namespace DataPacket

def call (sha : Sha256) (d : DataPacket) : DataMethod → DataCall
  | .setName name => ⟨none,if name = d.name then d else { d with name := name }.resetWire⟩
  | .setMetaInfo metaInfo => ⟨none,{ d with metaInfo := metaInfo }.resetWire⟩
  | .setContentBlock b => d.setContentBlock b
  | .setContent value => ⟨none,{ d with content := some (make tlvContent value) }.resetWire⟩
  | .setContentBuffer value => d.setContentBuffer value
  | .unsetContent => ⟨none,if d.content = none then d else { d with content := none }.resetWire⟩
  | .setSignatureInfo info => ⟨none,{ d with signatureInfo := info }.resetWire⟩
  | .setSignatureValue value => ⟨none,{ d with signatureValue := some (make tlvSignatureValue value) }.resetWire⟩
  | .setSignatureValueBuffer value => d.setSignatureValueBuffer value
  | .setContentType type => ⟨none,if type.toNat = d.metaInfo.type then d else { d with metaInfo := d.metaInfo.setType type.toNat }.resetWire⟩
  | .setFreshnessPeriod freshnessPeriod => d.setFreshnessPeriod freshnessPeriod
  | .setFinalBlock finalBlockId =>
    ⟨none,if MetaInfo.equalFinal finalBlockId d.metaInfo.finalBlockId then d
      else { d with metaInfo := d.metaInfo.setFinalBlock finalBlockId }.resetWire⟩
  | .wireEncode => d.wireEncode
  | .wireEncodeSigned signature => d.wireEncodeSigned signature
  | .getFullName => d.getFullName sha
  | .extractSignedRanges => d.wireEncode

def step (sha : Sha256) (d : DataPacket) (method : DataMethod) : Option DataPacket := some (d.call sha method).after

end DataPacket
end ReflexiveNfd
