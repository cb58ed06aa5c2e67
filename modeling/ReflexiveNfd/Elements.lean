import ReflexiveNfd.NameWires
import ReflexiveNfd.LpPacket

namespace ReflexiveNfd
open Octets Tlv List Block

-- The size of the largest std::vector of octets; an encoding buffer beyond it
-- cannot be made.
def maxBufferSize : Nat := 2 ^ 63 - 1

def isCriticalType (type : Nat) : Bool := type ≤ 31 || type % 2 == 1

namespace Block

def make (type : Nat) (value : List UInt8) : Block := ⟨type,encode type value,value⟩

def encoded (b : Block) : Block := if b.wire = [] then make b.type b.value else b

def equals (b other : Block) : Bool := b.type == other.type && b.value == other.value

def Reads (b : Block) : Prop := fromBuffer b.wire = some (b,[])

def wires (elements : List Block) : List UInt8 := (elements.map wire).flatten

def parseOctets : Nat → List UInt8 → Option (List Block)
  | _,[] => some []
  | 0,_ => none
  | steps + 1,octets => do
      let (b,rest) ← fromBuffer octets
      let later ← parseOctets steps rest
      some (b :: later)

-- The sub-elements; an element is at least two octets, so that there are no more
-- than the value has.
def parse (b : Block) : Option (List Block) := parseOctets b.value.length b.value

end Block

structure Element where
  start : Nat
  block : Block
  deriving DecidableEq, Repr

namespace Element

def stop (e : Element) : Nat := e.start + e.block.size

def valueStart (e : Element) : Nat := e.start + (e.block.size - e.block.value.length)

def toComponent (e : Element) : Component := ⟨e.block.type,e.block.value⟩

def place : Nat → List Block → List Element
  | _,[] => []
  | start,b :: rest => ⟨start,b⟩ :: place (start + b.size) rest

def parse (e : Element) : Option (List Element) := e.block.parse.map (place e.valueStart)

end Element

namespace Name

def encodeValue (name : Name) : List Block := name.map (fun c => Block.make c.type c.value)

def wireEncode (name : Name) : Block := Block.make tlvName (Block.wires name.encodeValue)

def ofBlock (b : Block) : Option Name := b.parse.map (fun elements => elements.map (fun c => ⟨c.type,c.value⟩))

def Legal (name : Name) : Prop := ∀ c ∈ name, c.type ≠ invalidType ∧ c.type ≤ maxUInt32

instance (name : Name) : Decidable name.Legal := by unfold Legal; infer_instance

end Name

namespace Block
variable {b : Block} {octets q r : List UInt8} {elements : List Block}

theorem Reads.followed (reads : b.Reads) (q : List UInt8) : fromBuffer (b.wire ++ q) = some (b,q) :=
  (fromBuffer_consumes reads).2.2.2 q

theorem reads_of_fromBuffer (read : fromBuffer octets = some (b,r)) : b.Reads := by
  have again := (fromBuffer_consumes read).2.2.2 []
  rwa [append_nil] at again

theorem Reads.wire_ne_nil (reads : b.Reads) : b.wire ≠ [] := by
  intro bare
  have long : 2 ≤ b.wire.length := (fromBuffer_consumes reads).2.1
  rw [bare] at long
  cases long

theorem Reads.type_legal (reads : b.Reads) : b.type ≠ invalidType ∧ b.type ≤ maxUInt32 := (fromBuffer_consumes reads).2.2.1

theorem Reads.length_value_le (reads : b.Reads) : b.value.length ≤ b.size := by
  obtain ⟨afterType,length,pos,typed,sized,_,value,_,_⟩ := fromBuffer_parts reads
  obtain ⟨⟨front,_,whole,_⟩,_⟩ := readType_consumes typed
  obtain ⟨middle,_,rest,_⟩ := readVarNumber_consumes sized
  rw [value,size,whole,rest,length_take,length_append,length_append]
  omega

theorem reads_make {type : Nat} {value : List UInt8} (legal : type ≠ invalidType ∧ type ≤ maxUInt32) (small : value.length < 2 ^ 64) :
    (make type value).Reads := by
  have read := fromBuffer_encode value legal small []
  rwa [append_nil] at read

theorem length_value_make_le (type : Nat) (value : List UInt8) : value.length ≤ (make type value).size := by
  simp only [make,size,encode,length_append]
  omega

theorem wires_append (front back : List Block) : wires (front ++ back) = wires front ++ wires back := by simp [wires]

theorem length_wire_le (present : b ∈ elements) : b.size ≤ (wires elements).length := by
  obtain ⟨front,back,rfl⟩ := append_of_mem present
  simp only [wires,map_append,map_cons,flatten_append,flatten_cons,length_append,size]
  omega

theorem parseOctets_step (nonempty : octets ≠ []) (read : fromBuffer octets = some (b,r)) :
    parseOctets (steps + 1) octets = (parseOctets steps r).map (b :: ·) := by
  cases octets with
  | nil => exact (nonempty rfl).elim
  | cons first rest =>
    cases later : parseOctets steps r with
    | none => simp [parseOctets,read,later]
    | some elements => simp [parseOctets,read,later]

theorem parseOctets_wires (reads : ∀ b ∈ elements, b.Reads) (enough : (wires elements).length ≤ steps) :
    parseOctets steps (wires elements) = some elements := by
  induction elements generalizing steps with
  | nil => cases steps <;> rfl
  | cons b rest ih =>
    obtain ⟨first,later⟩ := forall_mem_cons.mp reads
    have size : 2 ≤ b.wire.length := (fromBuffer_consumes first).2.1
    have whole : wires (b :: rest) = b.wire ++ wires rest := rfl
    rw [whole,length_append] at enough
    cases steps with
    | zero => omega
    | succ steps =>
      rw [whole,parseOctets_step (by simp [first.wire_ne_nil]) (first.followed _),ih later (by omega)]
      rfl

theorem parseOctets_parts (parsed : parseOctets steps octets = some elements) :
    wires elements = octets ∧ ∀ b ∈ elements, b.Reads := by
  induction steps generalizing octets elements with
  | zero =>
    cases octets with
    | nil =>
      cases parsed
      simp [wires]
    | cons => cases parsed
  | succ steps ih =>
    cases octets with
    | nil =>
      cases parsed
      simp [wires]
    | cons first rest =>
      obtain ⟨⟨b,left⟩,read,others⟩ := Option.bind_eq_some_iff.mp parsed
      obtain ⟨later,parsedLater,⟨⟩⟩ := Option.bind_eq_some_iff.mp others
      obtain ⟨same,reads⟩ := ih parsedLater
      refine ⟨?_,forall_mem_cons.mpr ⟨reads_of_fromBuffer read,reads⟩⟩
      rw [(fromBuffer_consumes read).1,← same]
      rfl

theorem parse_make (type : Nat) (reads : ∀ b ∈ elements, b.Reads) : (make type (wires elements)).parse = some elements :=
  parseOctets_wires reads (Nat.le_refl _)

theorem Reads.encoded (reads : b.Reads) : b.encoded = b := if_neg reads.wire_ne_nil

end Block

namespace Element
variable {start : Nat} {elements : List Block}

@[simp] theorem map_block_place : (place start elements).map Element.block = elements := by
  induction elements generalizing start with
  | nil => rfl
  | cons b rest ih => rw [place,map_cons,ih]

@[simp] theorem map_toComponent_place : (place start elements).map toComponent = elements.map (fun b => ⟨b.type,b.value⟩) := by
  induction elements generalizing start with
  | nil => rfl
  | cons b rest ih => rw [place,map_cons,ih,map_cons,toComponent]

end Element

namespace Name
variable {name : Name}

theorem encodeValue_reads (legal : name.Legal) (small : (Block.wires name.encodeValue).length < 2 ^ 64) :
    ∀ b ∈ name.encodeValue, b.Reads := by
  intro b present
  have bound := length_wire_le present
  obtain ⟨c,listed,rfl⟩ := mem_map.mp present
  have value := length_value_make_le c.type c.value
  exact reads_make (legal c listed) (by omega)

theorem ofBlock_wireEncode (legal : name.Legal) (small : name.wireEncode.size < 2 ^ 64) : ofBlock name.wireEncode = some name := by
  have inner := length_value_make_le tlvName (Block.wires name.encodeValue)
  have parsed : name.wireEncode.parse = some name.encodeValue :=
    parse_make _ (encodeValue_reads legal (Nat.lt_of_le_of_lt inner small))
  rw [ofBlock,parsed,Option.map_some,encodeValue,map_map]
  exact congrArg some (map_id' name)

theorem ofBlock_legal (read : ofBlock b = some name) : name.Legal := by
  obtain ⟨elements,parsed,rfl⟩ := Option.map_eq_some_iff.mp read
  intro c listed
  obtain ⟨component,present,rfl⟩ := mem_map.mp listed
  exact ((parseOctets_parts parsed).2 component present).type_legal

end Name
end ReflexiveNfd
