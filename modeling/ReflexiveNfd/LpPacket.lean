import ReflexiveNfd.Tlv

namespace ReflexiveNfd
open Octets Tlv List Block

def lpFragment : Nat := 80
def lpSequence : Nat := 81
def lpFragIndex : Nat := 82
def lpFragCount : Nat := 83
def lpLpPacket : Nat := 100
def lpCongestionMark : Nat := 832
def lpAck : Nat := 836
def lpTxSequence : Nat := 840

def encodeNonNegativeInteger (n : Nat) : List UInt8 :=
  toBigEndian (if n ≤ 255 then 1 else if n ≤ maxUInt16 then 2 else if n ≤ maxUInt32 then 4 else 8) n

def readNonNegativeInteger (octets : List UInt8) : Option Nat :=
  if octets.length = 1 ∨ octets.length = 2 ∨ octets.length = 4 ∨ octets.length = 8 then some (ofBigEndian octets) else none

def encodeSequence (n : UInt64) : List UInt8 := toBigEndian 8 n.toNat

def readSequence (octets : List UInt8) : Option UInt64 :=
  if octets.length = 8 then some (UInt64.ofNat (ofBigEndian octets)) else none

-- The fields in their order, and the encoding if nothing has been changed since
-- it was made or read.
structure LpPacket where
  wire : Option (List UInt8)
  elements : List Block
  deriving DecidableEq, Repr

namespace LpPacket

def blank : LpPacket := ⟨none,[]⟩

section
variable (elements : List Block) (p : LpPacket) (type : Nat) (value : List UInt8)

def has : Bool := p.elements.any (fun b => b.type == type)

def get : Option (List UInt8) := (p.elements.find? (fun b => b.type == type)).map Block.value

-- The fragment stands behind the headers, which are in the order of their types.
def locationSortOrder : Nat := if type = lpFragment then 2 else 1

def comparePos (first second : Nat) : Bool :=
  locationSortOrder first < locationSortOrder second ||
    (locationSortOrder first == locationSortOrder second && first < second)

def insert : List Block :=
  elements.takeWhile (fun b => !comparePos type b.type) ++
    ⟨type,encode type value,value⟩ :: elements.dropWhile (fun b => !comparePos type b.type)

-- A second field of a type that is not repeatable raises.
def add : Option LpPacket :=
  if type ≠ lpAck ∧ p.has type then none else some ⟨none,insert p.elements type value⟩

def set : LpPacket :=
  ⟨none,insert (p.elements.filter (fun b => b.type ≠ type)) type value⟩

-- An element is written again in its shortest form when the packet is encoded.
def encodeValue : List UInt8 := (elements.map (fun b => encode b.type b.value)).flatten

-- What is in the fragment alone is sent bare: the first element of the fragment.
-- That raises if there is none.
def wireEncode : Option Block :=
  match p.elements with
  | [b] => if b.type = lpFragment then (fromBuffer b.value).map Prod.fst else some (encoded p)
  | _ => some (encoded p)
where
  encoded (p : LpPacket) : Block :=
    match p.wire with
    | some octets => ⟨lpLpPacket,octets,(p.elements.map Block.wire).flatten⟩
    | none => ⟨lpLpPacket,encode lpLpPacket (encodeValue p.elements),encodeValue p.elements⟩

def elementSize (b : Block) : Nat := if p.wire.isSome then b.size else (encode b.type b.value).length

def getFragment : Option (List UInt8) := do
  let payload ← p.get lpFragment
  if payload = [] then none else some payload

def getSequence : Option UInt64 := (p.get lpSequence).bind readSequence

def getNonNegativeInteger : Option Nat := (p.get type).bind readNonNegativeInteger

end

end LpPacket

theorem readNonNegativeInteger_encode (small : n < 2 ^ 64) : readNonNegativeInteger (encodeNonNegativeInteger n) = some n := by
  unfold encodeNonNegativeInteger maxUInt16 maxUInt32
  have sizes : ∀ width, n < 256 ^ width → width = 1 ∨ width = 2 ∨ width = 4 ∨ width = 8 →
      readNonNegativeInteger (toBigEndian width n) = some n := by
    intro width fits legal
    rw [readNonNegativeInteger,length_toBigEndian,if_pos legal,ofBigEndian_toBigEndian width n fits]
  split
  · exact sizes 1 (by omega) (by decide)
  · split
    · exact sizes 2 (by omega) (by decide)
    · split
      · exact sizes 4 (by omega) (by decide)
      · exact sizes 8 (by omega) (by decide)

theorem length_encodeNonNegativeInteger_le (n : Nat) : (encodeNonNegativeInteger n).length ≤ 8 := by
  rw [encodeNonNegativeInteger,length_toBigEndian]
  split_ifs <;> decide

theorem readSequence_encode (n : UInt64) : readSequence (encodeSequence n) = some n := by
  rw [readSequence,encodeSequence,length_toBigEndian,if_pos rfl,ofBigEndian_toBigEndian 8 _ n.toNat_lt,UInt64.ofNat_toNat]

namespace LpPacket
variable {p q : LpPacket} {type other : Nat} {value : List UInt8}

section
variable (elements : List Block) (p : LpPacket) (type : Nat) (value : List UInt8)

theorem insert_split : ∃ front back, elements = front ++ back ∧
    insert elements type value = front ++ ⟨type,encode type value,value⟩ :: back :=
  ⟨_,_,(takeWhile_append_dropWhile ..).symm,rfl⟩

theorem filter_insert (keep : Block → Bool)
    (others : keep ⟨type,encode type value,value⟩ = false) : (insert elements type value).filter keep = elements.filter keep := by
  obtain ⟨front,back,rfl,result⟩ := insert_split elements type value
  rw [result,filter_append,filter_cons_of_neg (by simp [others]),filter_append]

theorem get_eq_head : p.get type = ((p.elements.filter (fun b => b.type == type)).head?).map Block.value := by
  rw [get,List.head?_filter]

theorem has_eq_get : p.has type = (p.get type).isSome := by
  rw [has,get,Option.isSome_map,isSome_find?]

end

theorem get_insert_self {elements : List Block} (absent : elements.filter (fun b => b.type == type) = []) :
    get ⟨none,insert elements type value⟩ type = some value := by
  obtain ⟨front,back,rfl,result⟩ := insert_split elements type value
  rw [filter_append,append_eq_nil_iff] at absent
  rw [get_eq_head,result,filter_append,absent.1,filter_cons_of_pos (by simp)]
  rfl

theorem get_insert_ne {elements : List Block} (ne : other ≠ type) :
    get ⟨none,insert elements type value⟩ other = get ⟨none,elements⟩ other := by
  rw [get_eq_head,get_eq_head,filter_insert _ _ _ _ (by simpa using ne.symm)]

@[simp] theorem get_set_self : (p.set type value).get type = some value := by
  refine get_insert_self ?_
  rw [filter_filter]
  simp

theorem get_set_ne (ne : other ≠ type) : (p.set type value).get other = p.get other := by
  rw [set,get_insert_ne ne,get_eq_head,get_eq_head,filter_filter]
  congr 2
  refine filter_congr (fun b _ => ?_)
  by_cases same : b.type = other <;> simp [same,ne]

theorem add_exact (absent : p.get type = none) : p.add type value = some ⟨none,insert p.elements type value⟩ := by
  rw [add,if_neg]
  rintro ⟨_,present⟩
  rw [has_eq_get,absent] at present
  cases present

theorem get_add_self (absent : p.get type = none) : get ⟨none,insert p.elements type value⟩ type = some value := by
  refine get_insert_self ?_
  rw [get_eq_head,Option.map_eq_none_iff,List.head?_eq_none_iff] at absent
  exact absent

theorem get_add_ne (ne : other ≠ type) : get ⟨none,insert p.elements type value⟩ other = p.get other := get_insert_ne ne

def fieldsOtherThan (types : List Nat) (p : LpPacket) : List Block := p.elements.filter (fun b => !types.contains b.type)

theorem fieldsOtherThan_insert {elements : List Block} (among : type ∈ types) :
    fieldsOtherThan types ⟨none,insert elements type value⟩ = fieldsOtherThan types ⟨none,elements⟩ :=
  filter_insert _ _ _ _ (by simpa using among)

theorem fieldsOtherThan_set {types : List Nat} (among : type ∈ types) : fieldsOtherThan types (p.set type value) = fieldsOtherThan types p := by
  rw [set,fieldsOtherThan_insert among,fieldsOtherThan,fieldsOtherThan,filter_filter]
  refine filter_congr (fun b _ => ?_)
  by_cases same : b.type = type
  · simp [same,among]
  · simp [same]

theorem fieldsOtherThan_more (subset : fewer ⊆ types) (same : p.fieldsOtherThan fewer = q.fieldsOtherThan fewer) :
    p.fieldsOtherThan types = q.fieldsOtherThan types := by
  have again : ∀ p : LpPacket, p.fieldsOtherThan types = (p.fieldsOtherThan fewer).filter (fun b => !types.contains b.type) := by
    intro p
    rw [fieldsOtherThan,fieldsOtherThan,filter_filter]
    refine filter_congr (fun b _ => ?_)
    by_cases listed : b.type ∈ fewer
    · simp [subset listed]
    · simp [listed]
  rw [again p,again q,same]

section
variable (elements : List Block) (p : LpPacket) (type : Nat) (value : List UInt8) (keep : Block → Bool)

theorem length_encode :
    (encode type value).length = sizeOfVarNumber type + sizeOfVarNumber value.length + value.length := by
  rw [encode,length_append,length_append,length_prependVarNumber,length_prependVarNumber]

def contentSize : Nat := (encodeValue elements).length

theorem contentSize_append (front back : List Block) : contentSize (front ++ back) = contentSize front + contentSize back := by
  rw [contentSize,encodeValue,map_append,flatten_append,length_append]
  rfl

theorem contentSize_cons (b : Block) (back : List Block) :
    contentSize (b :: back) = (encode b.type b.value).length + contentSize back := by
  rw [contentSize,encodeValue,map_cons,flatten_cons,length_append]
  rfl

theorem contentSize_insert :
    contentSize (insert elements type value) = contentSize elements + (encode type value).length := by
  obtain ⟨front,back,rfl,result⟩ := insert_split elements type value
  rw [result,contentSize_append,contentSize_append,contentSize_cons,Nat.add_assoc,Nat.add_comm (contentSize back)]

theorem contentSize_filter_insert
    (kept : keep ⟨type,encode type value,value⟩) :
    contentSize ((insert elements type value).filter keep) = contentSize (elements.filter keep) + (encode type value).length := by
  obtain ⟨front,back,rfl,result⟩ := insert_split elements type value
  rw [result,filter_append,filter_cons_of_pos kept,filter_append,contentSize_append,contentSize_cons,contentSize_append]
  dsimp only
  omega

theorem contentSize_filter_le : contentSize (elements.filter keep) ≤ contentSize elements := by
  induction elements with
  | nil => exact Nat.le_refl _
  | cons b back ih =>
    rw [contentSize_cons]
    cases kept : keep b with
    | true =>
      rw [filter_cons_of_pos kept,contentSize_cons]
      omega
    | false =>
      rw [filter_cons_of_neg (by simp [kept])]
      omega

theorem contentSize_set_le :
    contentSize (p.set type value).elements ≤ contentSize p.elements + (encode type value).length := by
  rw [set,contentSize_insert]
  exact Nat.add_le_add_right (contentSize_filter_le ..) _

def Wrapped : Prop := p.wire = none ∧ ∀ b, p.elements = [b] → b.type ≠ lpFragment

end

def lpSize (content : Nat) : Nat := 1 + sizeOfVarNumber content + content

def headerOctets (content : Nat) : Nat :=
  if content < 253 then 2 else if content < 65536 then 4 else if content < 4294967296 then 6 else 10

theorem lpSize_header (content : Nat) : lpSize content = headerOctets content + content := by
  unfold lpSize headerOctets sizeOfVarNumber maxUInt16 maxUInt32
  split_ifs <;> omega

theorem Wrapped.wireEncode (wrapped : p.Wrapped) :
    ∃ block, p.wireEncode = some block ∧ block.type = lpLpPacket ∧ block.size = lpSize (contentSize p.elements) := by
  have size : (wireEncode.encoded p).size = lpSize (contentSize p.elements) := by
    rw [Block.size,wireEncode.encoded,wrapped.1]
    exact length_encode lpLpPacket (encodeValue p.elements)
  refine ⟨wireEncode.encoded p,?_,by rw [wireEncode.encoded,wrapped.1],size⟩
  rw [LpPacket.wireEncode]
  split
  · rename_i only same
    rw [if_neg (wrapped.2 only same)]
  · rfl

theorem wrapped_insert {elements : List Block} (header : type ≠ lpFragment) : Wrapped ⟨none,insert elements type value⟩ := by
  refine ⟨rfl,fun b only => ?_⟩
  obtain ⟨front,back,_,result⟩ := insert_split elements type value
  have present : (⟨type,encode type value,value⟩ : Block) ∈ [b] := only ▸ result ▸ mem_append_right front mem_cons_self
  rw [← mem_singleton.mp present]
  exact header

theorem sizeOfVarNumber_le (n : Nat) : 1 ≤ sizeOfVarNumber n ∧ sizeOfVarNumber n ≤ 9 := by
  unfold sizeOfVarNumber
  split
  · decide
  · split
    · decide
    · split <;> decide

theorem wrapped_of_get (fresh : p.wire = none) (found : p.get type = some value) (header : type ≠ lpFragment) : p.Wrapped := by
  refine ⟨fresh,fun b only fragment => ?_⟩
  rw [get_eq_head,only] at found
  have other : (b.type == type) = false := by
    rw [fragment]
    simpa using header.symm
  rw [filter_cons_of_neg (by simp [other])] at found
  cases found

theorem sizeOfVarNumber_mono (le : a ≤ b) : sizeOfVarNumber a ≤ sizeOfVarNumber b := by
  unfold sizeOfVarNumber maxUInt16 maxUInt32
  split_ifs <;> omega

theorem lpSize_mono (le : a ≤ b) : lpSize a ≤ lpSize b := by
  have := sizeOfVarNumber_mono le
  unfold lpSize
  omega

theorem lpSize_add_le (content : Nat) : lpSize (content + 5) ≤ lpSize content + 9 := by
  unfold lpSize sizeOfVarNumber maxUInt16 maxUInt32
  split_ifs <;> omega

theorem contentSize_eq_sum (elements : List Block) :
    contentSize elements = (elements.map (fun b => (encode b.type b.value).length)).sum := by
  induction elements with
  | nil => rfl
  | cons b back ih => rw [contentSize_cons,map_cons,sum_cons,ih]

theorem lpSize_le (content : Nat) : content + 2 ≤ lpSize content ∧ lpSize content ≤ content + 10 := by
  have := sizeOfVarNumber_le content
  unfold lpSize
  omega

end LpPacket
end ReflexiveNfd
