import ReflexiveNfd.Order

namespace ReflexiveNfd
open Octets Tlv Std List Option Block

def tlvName : Nat := 7
def nameComponentMin : Nat := 1
def nameComponentMax : Nat := 65535
def tlvParametersSha256DigestComponent : Nat := 2

-- A component is a block; one that no buffer backs has no wire.
structure WireComponent where
  type : Nat
  value : List UInt8
  wire : Option (List UInt8)
  deriving DecidableEq, Repr

-- hasWire tells whether the name itself still has the buffer of its components.
structure WireName where
  hasWire : Bool
  components : List WireComponent
  deriving DecidableEq, Repr

-- The difference of two unsigned numbers as an int: its low 32 bits, signed.
def intDifference (a b : Nat) : Int := ((a : Int) - b).bmod (2 ^ 32)

def sign (n : Int) : Ordering := compare n 0

namespace WireComponent

def ensureValid (c : WireComponent) : Prop :=
  nameComponentMin ≤ c.type ∧ c.type ≤ nameComponentMax ∧
    (c.type = tlvImplicitSha256DigestComponent ∨ c.type = tlvParametersSha256DigestComponent → c.value.length = sha256DigestSize)

-- What a component can be: read as an element of a buffer, made by a constructor
-- that encodes, or made by one that keeps the value only. Only the constructors
-- look at the type and the length.
inductive Accepted : WireComponent → Prop
  | decoded {buffer rest : List UInt8} {b : Block} (read : fromBuffer buffer = some (b,rest)) : Accepted ⟨b.type,b.value,some b.wire⟩
  | encoded {type : Nat} {value : List UInt8} (valid : ensureValid ⟨type,value,some (encode type value)⟩)
      (small : value.length < 2 ^ 64) : Accepted ⟨type,value,some (encode type value)⟩
  | unencoded {type : Nat} {value : List UInt8} (valid : ensureValid ⟨type,value,none⟩) : Accepted ⟨type,value,none⟩

def toComponent (c : WireComponent) : Component := ⟨c.type,c.value⟩

def equals (c other : WireComponent) : Bool :=
  c.type == other.type && c.value.length == other.value.length && (c.value.isEmpty || c.value == other.value)

def compareFields (c other : WireComponent) : Ordering :=
  (sign (intDifference c.type other.type)).then
    ((sign (intDifference c.value.length other.value.length)).then
      (if c.value.isEmpty then .eq else memcmp c.value other.value))

def compare (c other : WireComponent) : Ordering :=
  match c.wire,other.wire with
  | some data,some otherData => memcmp data otherData
  | _,_ => c.compareFields other

end WireComponent

namespace WireName

def toName (n : WireName) : Name := n.components.map WireComponent.toComponent

structure Accepted (n : WireName) : Prop where
  components : ∀ c ∈ n.components, c.Accepted
  wired : n.hasWire → ∀ c ∈ n.components, c.wire.isSome

def equals (n other : WireName) : Bool :=
  n.components.length == other.components.length &&
    (n.components.zip other.components).all (fun pair => pair.1.equals pair.2)

def compareFrom : List WireComponent → List WireComponent → Ordering
  | c :: rest,other :: others => (c.compare other).then (compareFrom rest others)
  | [],others => sign (intDifference 0 others.length)
  | c :: rest,[] => sign (intDifference (c :: rest).length 0)

def compare (n other : WireName) : Ordering := compareFrom n.components other.components

-- The octets of the components once the name has a wire: those it was decoded
-- from, or those it is encoded to.
def wireEncode (n : WireName) : List (List UInt8) :=
  if n.hasWire then n.components.map (fun c => c.wire.getD []) else n.components.map (fun c => encode c.type c.value)

def computeHash (compute : List UInt8 → UInt64) (n : WireName) (prefixLen : Nat) : UInt64 :=
  (n.wireEncode.take prefixLen).foldl (fun h octets => h ^^^ compute octets) 0

def parse : Nat → List UInt8 → Option (List WireComponent)
  | _,[] => some []
  | 0,_ => none
  | steps + 1,octets => do
      let (b,rest) ← fromBuffer octets
      let later ← parse steps rest
      some (⟨b.type,b.value,some b.wire⟩ :: later)

def octetsOf (n : WireName) (c : WireComponent) : List UInt8 := if n.hasWire then c.wire.getD [] else encode c.type c.value

def keyOf (n : WireName) (c : WireComponent) : Component :=
  if n.octetsOf c = encode c.type c.value then c.toComponent else ⟨invalidType,n.octetsOf c⟩

def key (n : WireName) : Name := n.components.map n.keyOf

-- An element is at least two octets, so that there are no more than the value has.
def wireDecode (octets : List UInt8) : Option WireName := do
  let (b,rest) ← fromBuffer octets
  if b.type ≠ tlvName ∨ rest ≠ [] then none
  else
    let components ← parse b.value.length b.value
    some ⟨true,components⟩

end WireName

structure WireComponent.Plain (c : WireComponent) : Prop where
  short : c.value.length < 2 ^ 31
  type : c.type ≤ 2 ^ 31
  minimal : ∀ data, c.wire = some data → data = encode c.type c.value

structure WireName.Fits (n : WireName) : Prop where
  count : n.components.length < 2 ^ 31
  sizes : ∀ c ∈ n.components, c.value.length < 2 ^ 31

structure WireName.Plain (n : WireName) : Prop where
  fits : n.Fits
  components : ∀ c ∈ n.components, c.Plain

structure Ordered (compute : List UInt8 → UInt64) (S : WireName → Prop) : Prop where
  swap : ∀ a b, S a → S b → b.compare a = (a.compare b).swap
  trans : ∀ a b c, S a → S b → S c → (a.compare b).isLE → (b.compare c).isLE → (a.compare c).isLE
  level : ∀ a b, S a → S b → (a.compare b = .eq ↔ a.equals b)
  hash : ∀ a b, S a → S b → a.equals b → ∀ prefixLen, a.computeHash compute prefixLen = b.computeHash compute prefixLen
  paths : ∀ a b, S a → S b → ∀ c ∈ a.components, ∀ other ∈ b.components, ∀ data otherData,
    c.wire = some data → other.wire = some otherData → memcmp data otherData = c.compareFields other

theorem sign_intDifference {a b : Nat} (above : -(2 ^ 31 : Int) ≤ (a : Int) - b) (below : (a : Int) - b < 2 ^ 31) :
    sign (intDifference a b) = compare a b := by
  have kept : intDifference a b = (a : Int) - b := Int.bmod_eq_of_le (by omega) (by omega)
  rw [sign,kept]
  rcases Nat.lt_trichotomy a b with less | same | more
  · rw [Nat.compare_eq_lt.mpr less]
    exact compare_lt_iff_lt.mpr (by omega)
  · rw [Nat.compare_eq_eq.mpr same]
    exact Std.compare_eq_iff_eq.mpr (by omega)
  · rw [Nat.compare_eq_gt.mpr more]
    exact compare_gt_iff_gt.mpr (by omega)

theorem compareOctets_of_memcmp (apart : memcmp left right ≠ .eq) : compareOctets left right = memcmp left right := by
  induction left generalizing right with
  | nil => cases right <;> exact absurd rfl apart
  | cons a rest ih =>
    cases right with
    | nil => exact absurd rfl apart
    | cons b others =>
      rw [memcmp] at apart ⊢
      rw [compareOctets]
      cases order : compare a.toNat b.toNat with
      | eq => exact ih (by rwa [order] at apart)
      | lt => rfl
      | gt => rfl

theorem compare_values (order : Ordering) (agrees : left.length = right.length → order = memcmp left right) :
    (compare left.length right.length).then order = (compare left.length right.length).then (memcmp left right) := by
  by_cases same : left.length = right.length
  · rw [agrees same]
  · have decided : compare left.length right.length ≠ .eq := fun level => same (Nat.compare_eq_eq.mp level)
    cases first : compare left.length right.length with
    | eq => exact absurd first decided
    | lt => rfl
    | gt => rfl

namespace WireComponent
variable {c other : WireComponent}

theorem Accepted.type_pos (accepted : c.Accepted) : 1 ≤ c.type ∧ c.type ≤ maxUInt32 := by
  cases accepted with
  | decoded read =>
    have legal := (fromBuffer_consumes read).2.2.1
    exact ⟨Nat.pos_of_ne_zero legal.1,legal.2⟩
  | encoded valid =>
    have range := valid.2.1
    exact ⟨valid.1,by simp only [nameComponentMax,maxUInt32] at *; omega⟩
  | unencoded valid =>
    have range := valid.2.1
    exact ⟨valid.1,by simp only [nameComponentMax,maxUInt32] at *; omega⟩

theorem Accepted.reads (accepted : c.Accepted) (wire : c.wire = some data) (rest : List UInt8) :
    fromBuffer (data ++ rest) = some (⟨c.type,data,c.value⟩,rest) := by
  have range := accepted.type_pos
  cases accepted with
  | decoded read =>
    cases wire
    exact (fromBuffer_consumes read).2.2.2 rest
  | encoded valid small =>
    cases wire
    exact fromBuffer_encode _ ⟨Nat.ne_of_gt range.1,range.2⟩ small rest
  | unencoded valid => cases wire

theorem Accepted.eq_of_level (accepted : c.Accepted) (acceptedOther : other.Accepted) (wire : c.wire = some data) (wireOther : other.wire = some otherData)
    (level : memcmp data otherData = .eq) : data = otherData := by
  have read := accepted.reads wire
  have readOther := acceptedOther.reads wireOther
  rcases (memcmp_eq_iff _ _).mp level with ⟨rest,whole⟩ | ⟨rest,whole⟩
  · have twice := readOther []
    rw [append_nil,← whole,read rest,whole] at twice
    exact congrArg Block.wire (Prod.mk.inj (some.inj twice)).1
  · have twice := read []
    rw [append_nil,← whole,readOther rest,whole] at twice
    exact (congrArg Block.wire (Prod.mk.inj (some.inj twice)).1).symm

theorem Accepted.unique (accepted : c.Accepted) (acceptedOther : other.Accepted) (wire : c.wire = some data) (wireOther : other.wire = some data) :
    c.toComponent = other.toComponent := by
  have twice := (accepted.reads wire []).symm.trans (acceptedOther.reads wireOther [])
  obtain ⟨type,_,value⟩ := Block.mk.inj (Prod.mk.inj (some.inj twice)).1
  exact congrArg₂ Component.mk type value

theorem decoded_encode (type : Nat) (value : List UInt8) (range : 1 ≤ type ∧ type ≤ maxUInt32) (small : value.length < 2 ^ 64) :
    Accepted ⟨type,value,some (encode type value)⟩ :=
  .decoded (fromBuffer_encode _ ⟨Nat.ne_of_gt range.1,range.2⟩ small [])

-- Octets that differ are told apart before either ends: the components are ordered
-- by them, and equal octets are of one component.
theorem compare_octets (accepted : c.Accepted) (acceptedOther : other.Accepted) (wire : c.wire = some data) (wireOther : other.wire = some otherData)
    (octets : k.octets = data) (octetsOther : k'.octets = otherData) (same : data = otherData → k = k') : Component.compare k k' = memcmp data otherData := by
  by_cases level : memcmp data otherData = .eq
  · obtain rfl := same (accepted.eq_of_level acceptedOther wire wireOther level)
    rw [level]
    exact ReflCmp.compare_self
  · rw [Component.compare,octets,octetsOther,compareOctets_of_memcmp level]
    generalize memcmp data otherData = order at level
    cases order with
    | eq => exact absurd rfl level
    | lt => rfl
    | gt => rfl

theorem Accepted.octets_toComponent (accepted : c.Accepted) : c.toComponent.octets = encode c.type c.value := if_neg (Nat.ne_of_gt accepted.type_pos.1)

section
variable (left : c.Accepted) (right : other.Accepted) (plain : c.Plain) (plainOther : other.Plain)
include left right plain plainOther

theorem compare_encode :
    memcmp (encode c.type c.value) (encode other.type other.value) = Component.compare c.toComponent other.toComponent := by
  have short := plain.short
  have shortOther := plainOther.short
  have read := decoded_encode c.type c.value left.type_pos (by omega)
  have readOther := decoded_encode other.type other.value right.type_pos (by omega)
  refine (compare_octets read readOther rfl rfl left.octets_toComponent right.octets_toComponent (fun same => ?_)).symm
  have one := read.unique readOther rfl (congrArg some same.symm)
  exact one

theorem compareFields_plain :
    c.compareFields other = Component.compare c.toComponent other.toComponent := by
  have low := left.type_pos
  have lowOther := right.type_pos
  have high := plain.type
  have highOther := plainOther.type
  have short := plain.short
  have shortOther := plainOther.short
  simp only [maxUInt32] at low lowOther
  rw [← compare_encode left right plain plainOther,encode,encode,append_assoc,append_assoc,memcmp_prependVarNumber (by omega) (by omega),
    memcmp_prependVarNumber (by omega) (by omega),compareFields,sign_intDifference (by omega) (by omega),sign_intDifference (by omega) (by omega)]
  refine congrArg _ (compare_values _ (fun same => ?_))
  split
  · rename_i empty
    rw [List.isEmpty_iff] at empty
    rw [empty,length_nil] at same
    rw [empty,length_eq_zero_iff.mp same.symm]
    rfl
  · rfl

theorem compare_plain :
    c.compare other = Component.compare c.toComponent other.toComponent := by
  rw [compare]
  split
  · rename_i data otherData wire otherWire
    rw [plain.minimal data wire,plainOther.minimal otherData otherWire]
    exact compare_encode left right plain plainOther
  · exact compareFields_plain left right plain plainOther

end

theorem equals_iff : c.equals other ↔ c.toComponent = other.toComponent := by
  simp only [equals,toComponent,Component.mk.injEq,Bool.and_eq_true,Bool.or_eq_true,beq_iff_eq,List.isEmpty_iff]
  constructor
  · rintro ⟨⟨type,size⟩,empty | value⟩
    · rw [empty,List.length_nil] at size
      exact ⟨type,by rw [empty,length_eq_zero_iff.mp size.symm]⟩
    · exact ⟨type,value⟩
  · rintro ⟨type,value⟩
    exact ⟨⟨type,by rw [value]⟩,.inr value⟩

end WireComponent

namespace WireName
variable {a b : WireName} {compute : List UInt8 → UInt64}

theorem equals_iff : a.equals b ↔ a.toName = b.toName := by
  obtain ⟨_,left⟩ := a
  obtain ⟨_,right⟩ := b
  simp only [equals,toName]
  induction left generalizing right with
  | nil => cases right <;> simp
  | cons c rest ih =>
    cases right with
    | nil => simp
    | cons other others =>
      simp only [length_cons,zip_cons_cons,all_cons,Bool.and_eq_true,beq_iff_eq,Nat.add_right_cancel_iff,
        map_cons,List.cons.injEq,WireComponent.equals_iff] at ih ⊢
      rw [← ih,and_left_comm]

theorem compareFrom_map {left right : List WireComponent} (agree : ∀ c ∈ left, ∀ other ∈ right, c.compare other = Component.compare (f c) (g other))
    (short : left.length < 2 ^ 31) (shortRight : right.length < 2 ^ 31) : compareFrom left right = Name.compare (left.map f) (right.map g) := by
  induction left generalizing right with
  | nil =>
    rw [compareFrom,sign_intDifference (by omega) (by omega)]
    cases right with
    | nil => rfl
    | cons other others => exact Nat.compare_eq_lt.mpr (by simp)
  | cons c rest ih =>
    cases right with
    | nil =>
      rw [compareFrom,sign_intDifference (by omega) (by omega)]
      exact Nat.compare_eq_gt.mpr (by simp)
    | cons other others =>
      rw [length_cons] at short shortRight
      rw [compareFrom,map_cons,map_cons,Name.compare,agree c mem_cons_self other mem_cons_self,
        ih (fun c' later other' among => agree c' (mem_cons_of_mem _ later) other' (mem_cons_of_mem _ among)) (by omega) (by omega)]

theorem compare_plain (left : a.Accepted) (right : b.Accepted) (plain : a.Plain) (plainRight : b.Plain) :
    a.compare b = Name.compare a.toName b.toName :=
  compareFrom_map (fun c present other among => WireComponent.compare_plain (left.components c present) (right.components other among)
    (plain.components c present) (plainRight.components other among)) plain.fits.count plainRight.fits.count

theorem wireEncode_plain (accepted : a.Accepted) (plain : a.Plain) :
    a.wireEncode = a.toName.map (fun c => encode c.type c.value) := by
  rw [wireEncode,toName,List.map_map]
  split
  · rename_i wired
    refine map_congr_left (fun c present => ?_)
    obtain ⟨data,wire⟩ := isSome_iff_exists.mp (accepted.wired wired c present)
    rw [wire,getD_some,(plain.components c present).minimal data wire]
    rfl
  · rfl

section
variable (accepted : a.Accepted) (present : c ∈ a.components)
include accepted present

theorem keyOf_octets : (a.keyOf c).octets = a.octetsOf c := by
  rw [keyOf]
  split
  · rename_i shortest
    rw [(accepted.components c present).octets_toComponent,shortest]
  · rfl

theorem octetsOf_reads (longer : a.octetsOf c ≠ encode c.type c.value) :
    a.hasWire ∧ c.wire = some (a.octetsOf c) := by
  by_cases wired : a.hasWire
  · obtain ⟨data,wire⟩ := isSome_iff_exists.mp (accepted.wired wired c present)
    refine ⟨wired,?_⟩
    rw [octetsOf,if_pos wired,wire,getD_some]
  · exact absurd (if_neg wired) longer

theorem keyOf_decoded : (a.keyOf c).decoded = c.toComponent := by
  rw [keyOf]
  split
  · exact if_neg (Nat.ne_of_gt (accepted.components c present).type_pos.1)
  · rename_i longer
    have read := (accepted.components c present).reads (octetsOf_reads accepted present longer).2 []
    rw [append_nil] at read
    rw [Component.decoded,if_pos rfl,read]
    rfl

end

-- The key of a name has its octets, its types and values, and its place in the order.
theorem key_octets (accepted : a.Accepted) : a.key.map Component.octets = a.wireEncode := by
  rw [key,List.map_map,wireEncode]
  split
  · rename_i wired
    exact map_congr_left (fun c present => (keyOf_octets accepted present).trans (if_pos wired))
  · rename_i bare
    exact map_congr_left (fun c present => (keyOf_octets accepted present).trans (if_neg bare))

theorem key_decoded (accepted : a.Accepted) : a.key.decoded = a.toName := by
  rw [key,Name.decoded,List.map_map]
  exact map_congr_left (fun c present => keyOf_decoded accepted present)

theorem key_shortest (accepted : a.Accepted) : a.key.Shortest ↔ ∀ c ∈ a.components, a.octetsOf c = encode c.type c.value := by
  refine forall_mem_map.trans (forall₂_congr (fun c present => ?_))
  rw [keyOf]
  split
  · rename_i shortest
    exact iff_of_true (Nat.ne_of_gt (accepted.components c present).type_pos.1) shortest
  · rename_i longer
    exact iff_of_false (fun apart => apart rfl) longer

theorem compare_key (left : a.Accepted) (right : b.Accepted) (wired : a.hasWire) (wiredRight : b.hasWire) (short : a.components.length < 2 ^ 31)
    (shortRight : b.components.length < 2 ^ 31) : a.compare b = Name.compare a.key b.key := by
  refine compareFrom_map (fun c present other among => ?_) short shortRight
  obtain ⟨data,wire⟩ := isSome_iff_exists.mp (left.wired wired c present)
  obtain ⟨otherData,otherWire⟩ := isSome_iff_exists.mp (right.wired wiredRight other among)
  have octets : a.octetsOf c = data := by rw [octetsOf,if_pos wired,wire,getD_some]
  have otherOctets : b.octetsOf other = otherData := by rw [octetsOf,if_pos wiredRight,otherWire,getD_some]
  have read := left.components c present
  have readOther := right.components other among
  rw [WireComponent.compare,wire,otherWire]
  refine (WireComponent.compare_octets read readOther wire otherWire ((keyOf_octets left present).trans octets)
    ((keyOf_octets right among).trans otherOctets) (fun same => ?_)).symm
  subst same
  have one := read.unique readOther wire otherWire
  obtain ⟨type,value⟩ := Component.mk.inj one
  rw [keyOf,keyOf,octets,otherOctets,one,type,value]

end WireName

theorem ordered_plain (compute : List UInt8 → UInt64) : Ordered compute (fun n => n.Accepted ∧ n.Plain) where
  swap a b left right := by
    rw [WireName.compare_plain left.1 right.1 left.2 right.2,WireName.compare_plain right.1 left.1 right.2 left.2]
    exact OrientedCmp.eq_swap
  trans a b c left middle right := by
    rw [WireName.compare_plain left.1 middle.1 left.2 middle.2,WireName.compare_plain middle.1 right.1 middle.2 right.2,
      WireName.compare_plain left.1 right.1 left.2 right.2]
    exact TransCmp.isLE_trans
  level a b left right := by
    rw [WireName.compare_plain left.1 right.1 left.2 right.2,WireName.equals_iff]
    exact LawfulEqCmp.compare_eq_iff_eq
  hash a b left right same prefixLen := by
    rw [WireName.computeHash,WireName.computeHash,WireName.wireEncode_plain left.1 left.2,WireName.wireEncode_plain right.1 right.2,
      WireName.equals_iff.mp same]
  paths a b left right c present other presentOther data otherData wire otherWire := by
    have accepted := left.1.components c present
    have acceptedOther := right.1.components other presentOther
    have plain := left.2.components c present
    have plainOther := right.2.components other presentOther
    rw [plain.minimal data wire,plainOther.minimal otherData otherWire,
      WireComponent.compare_encode accepted acceptedOther plain plainOther,
      WireComponent.compareFields_plain accepted acceptedOther plain plainOther]

namespace WireComponent
variable {c other : WireComponent} {data : List UInt8}

theorem compareFields_same (type : c.type = other.type) (value : c.value = other.value) : c.compareFields other = .eq := by
  have level : ∀ n, sign (intDifference n n) = .eq := by
    intro n
    rw [intDifference,Int.sub_self]
    rfl
  rw [compareFields,type,value,level,level]
  split
  · rfl
  · rw [memcmp_self]
    rfl

theorem Accepted.first_octet (accepted : c.Accepted) (wire : c.wire = some data) (large : 253 ≤ c.type) (rest : List UInt8) :
    memcmp data (1 :: rest) = .gt := by
  have read := accepted.reads wire []
  rw [append_nil] at read
  obtain ⟨_,_,_,typed,_⟩ := fromBuffer_parts read
  obtain ⟨⟨number,left⟩,found,legal⟩ := bind_eq_some_iff.mp typed
  obtain ⟨_,⟨⟩⟩ := ite_none_left_eq_some.mp legal
  cases data with
  | nil => cases found
  | cons first tail =>
    have high : ¬ first < 253 := by
      intro low
      rw [readVarNumber,if_pos low] at found
      have same : first.toNat = c.type := (Prod.mk.inj (some.inj found)).1
      exact absurd (UInt8.lt_iff_toNat_lt.mp low) (Nat.not_lt.mpr (same ▸ large))
    have above : (1 : UInt8).toNat < first.toNat := by
      rw [UInt8.lt_iff_toNat_lt] at high
      simp only [UInt8.reduceToNat] at high ⊢
      omega
    rw [memcmp,Nat.compare_eq_gt.mpr above]
    rfl

end WireComponent

theorem single_plain (accepted : c.Accepted) (plain : c.Plain) :
    WireName.Accepted ⟨false,[c]⟩ ∧ WireName.Plain ⟨false,[c]⟩ := by
  refine ⟨⟨by simpa using accepted,by simp⟩,⟨⟨by simp,?_⟩,by simpa using plain⟩⟩
  simpa using plain.short

theorem parse_accepted
    (parsed : WireName.parse steps octets = some components) : ∀ c ∈ components, c.Accepted ∧ c.wire.isSome := by
  induction steps generalizing octets components with
  | zero =>
    cases octets with
    | nil =>
      cases parsed
      simp
    | cons => cases parsed
  | succ steps ih =>
    cases octets with
    | nil =>
      cases parsed
      simp
    | cons first rest =>
      obtain ⟨⟨b,left⟩,read,others⟩ := bind_eq_some_iff.mp parsed
      obtain ⟨later,parsedLater,⟨⟩⟩ := bind_eq_some_iff.mp others
      exact forall_mem_cons.mpr ⟨⟨.decoded read,rfl⟩,ih parsedLater⟩

theorem wireDecode_accepted (decoded : WireName.wireDecode octets = some a) : a.Accepted := by
  obtain ⟨⟨b,rest⟩,_,others⟩ := bind_eq_some_iff.mp decoded
  obtain ⟨_,parsing⟩ := ite_none_left_eq_some.mp others
  obtain ⟨components,parsed,⟨⟩⟩ := bind_eq_some_iff.mp parsing
  exact ⟨fun c present => (parse_accepted parsed c present).1,fun _ c present => (parse_accepted parsed c present).2⟩

-- Among the plain names a name keeps all the laws exactly when it is plain too.
theorem canonical_order (compute : List UInt8 → UInt64) (a : WireName) (accepted : a.Accepted) (fits : a.Fits) :
    Ordered compute (fun n => n = a ∨ n.Accepted ∧ n.Plain) ↔ a.Plain := by
  constructor
  · intro ordered
    refine ⟨fits,fun c present => ?_⟩
    have acceptedC := accepted.components c present
    have range := acceptedC.type_pos
    have short := fits.sizes c present
    have type : c.type ≤ 2 ^ 31 := by
      by_contra large
      cases wired : c.wire with
      | none =>
        cases acceptedC with
        | decoded => cases wired
        | encoded => cases wired
        | unencoded valid =>
          have small := valid.2.1
          simp only [nameComponentMax] at small large
          omega
      | some data =>
        -- one octet of type against a type that makes the difference negative
        have acceptedD := WireComponent.decoded_encode 1 [] (by decide) (by decide)
        have both := single_plain acceptedD ⟨by decide,by decide,fun _ wire => (some.inj wire).symm⟩
        have agree := ordered.paths a _ (.inl rfl) (.inr both) c present _ (mem_singleton.mpr rfl) data _ wired rfl
        have difference : intDifference c.type 1 < 0 := by
          have high := range.2
          simp only [maxUInt32] at high
          rw [intDifference,Int.bmod_def]
          omega
        rw [WireComponent.compareFields,sign,compare_lt_iff_lt.mpr difference] at agree
        have above := acceptedC.first_octet wired (by omega) [0]
        rw [show encode 1 [] = [1,0] by decide,above] at agree
        cases agree
    refine ⟨short,type,fun data wire => ?_⟩
    have acceptedD := WireComponent.decoded_encode c.type c.value range (by omega)
    have both := single_plain acceptedD ⟨short,type,fun _ wire => (some.inj wire).symm⟩
    have agree := ordered.paths a _ (.inl rfl) (.inr both) c present _ (mem_singleton.mpr rfl) data _ wire rfl
    exact acceptedC.eq_of_level acceptedD wire rfl (agree.trans (WireComponent.compareFields_same rfl rfl))
  · intro plain
    have ordered := ordered_plain compute
    have among : ∀ n : WireName, n = a ∨ n.Accepted ∧ n.Plain → n.Accepted ∧ n.Plain := by
      rintro n (rfl | both)
      · exact ⟨accepted,plain⟩
      · exact both
    exact ⟨fun a b left right => ordered.swap a b (among a left) (among b right),
      fun a b c left middle right => ordered.trans a b c (among a left) (among b middle) (among c right),
      fun a b left right => ordered.level a b (among a left) (among b right),
      fun a b left right => ordered.hash a b (among a left) (among b right),
      fun a b left right => ordered.paths a b (among a left) (among b right)⟩

theorem canonical_order_generic : ∃ a : WireName, WireName.wireDecode [7,3,8,1,65] = some a ∧
    (Ordered (fun _ => 0) (fun n => n = a ∨ n.Accepted ∧ n.Plain) ↔ a.Plain) ∧ a.Plain :=
  have decoded : WireName.wireDecode [7,3,8,1,65] = some ⟨true,[⟨8,[65],some [8,1,65]⟩]⟩ := by decide
  ⟨_,decoded,canonical_order _ _ (wireDecode_accepted decoded) ⟨by decide,by simp⟩,⟨⟨by decide,by simp⟩,by
    simp only [forall_mem_singleton]
    exact ⟨by simp,by decide,fun data wire => by cases wire; decide⟩⟩⟩

-- The type of the second component is written in three octets: the names are
-- equal, but one comes before the other, and the two ways of comparing disagree.
theorem long_type_equal_not_level : ∃ a b : WireName, WireName.wireDecode [7,3,8,1,65] = some a ∧
    WireName.wireDecode [7,5,253,0,8,1,65] = some b ∧ a.equals b ∧ a.compare b = .lt ∧
    (∀ compute : List UInt8 → UInt64, compute [8,1,65] ≠ compute [253,0,8,1,65] → a.computeHash compute 1 ≠ b.computeHash compute 1) ∧
    ∃ c ∈ a.components, ∃ other ∈ b.components, c.wire = some [8,1,65] ∧ other.wire = some [253,0,8,1,65] ∧
      memcmp [8,1,65] [253,0,8,1,65] = .lt ∧ c.compareFields other = .eq := by
  refine ⟨⟨true,[⟨8,[65],some [8,1,65]⟩]⟩,⟨true,[⟨8,[65],some [253,0,8,1,65]⟩]⟩,by decide,by decide,by decide,by decide,?_,
    _,mem_singleton.mpr rfl,_,mem_singleton.mpr rfl,rfl,rfl,by decide,by decide⟩
  intro compute different same
  simp [WireName.computeHash,WireName.wireEncode] at same
  exact different same

end ReflexiveNfd
