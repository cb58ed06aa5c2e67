import ReflexiveNfd.DataPacket

namespace ReflexiveNfd
open Octets Tlv List Option Function Results

namespace Block
variable {b c : Block} {n : Nat}

def Storable (b : Block) : Prop := b.Reads ∨ b.wire = [] ∧ b.type ≠ invalidType ∧ b.type ≤ maxUInt32

@[simp] theorem encoded_type : b.encoded.type = b.type := by
  unfold encoded
  split <;> rfl

@[simp] theorem encoded_value : b.encoded.value = b.value := by
  unfold encoded
  split <;> rfl

@[simp] theorem encoded_content : b.encoded.content = b.content := by rw [content,encoded_type,encoded_value,content]

theorem Storable.reads (storable : b.Storable) (small : b.encoded.size < 2 ^ 64) : b.encoded.Reads := by
  rcases storable with reads | ⟨bare,legal⟩
  · rwa [reads.encoded]
  · rw [encoded,if_pos bare] at small ⊢
    exact reads_make legal (Nat.lt_of_le_of_lt (length_value_make_le _ _) small)

theorem reads_made (legal : n ≠ invalidType ∧ n ≤ maxUInt32) {value : List UInt8} (small : (make n value).size < 2 ^ 64) :
    (make n value).Reads := reads_make legal (Nat.lt_of_le_of_lt (length_value_make_le _ _) small)

theorem Reads.value_suffix (reads : b.Reads) : b.wire.drop (b.size - b.value.length) = b.value := by
  obtain ⟨afterType,length,pos,typed,sized,enough,value,rest,_⟩ := fromBuffer_parts reads
  obtain ⟨⟨front,_,whole,_⟩,_⟩ := readType_consumes typed
  obtain ⟨middle,_,split,_⟩ := readVarNumber_consumes sized
  have all : b.value = pos := by
    rw [value]
    exact take_of_length_le (drop_eq_nil_iff.mp rest.symm)
  have wire : b.wire = (front ++ middle) ++ b.value := by rw [whole,split,all,append_assoc]
  have header : b.size - b.value.length = (front ++ middle).length := by
    rw [size,wire,length_append]
    omega
  rw [header]
  exact wire.symm ▸ drop_left

theorem blockFromValue_make (reads : c.Reads) : (make n c.wire).blockFromValue = some c := by
  rw [blockFromValue,show (make n c.wire).value = c.wire from rfl,reads,bind_some,if_pos rfl]

theorem blockFromValue_reads (read : b.blockFromValue = some c) : c.Reads := by
  obtain ⟨⟨found,rest⟩,whole,taken⟩ := bind_eq_some_iff.mp read
  obtain ⟨_,⟨⟩⟩ := ite_none_right_eq_some.mp taken
  exact reads_of_fromBuffer whole

end Block

namespace MetaInfo
variable {m after : MetaInfo} {b : Block} {rest : List Block}

structure Legal (m : MetaInfo) : Prop where
  type : m.type ≤ maxUInt32
  finalBlockId : ∀ c ∈ m.finalBlockId, c.Storable
  appMetaInfo : ∀ b ∈ m.appMetaInfo, b.Storable

-- What was stored as application data is not one of the fields, and what names
-- the final block is a component.
structure Ordered (m : MetaInfo) : Prop where
  finalBlockId : ∀ c ∈ m.finalBlockId, c.isComponent
  appMetaInfo : ∀ b ∈ m.appMetaInfo, b.type ≠ tlvContentType ∧ b.type ≠ tlvFreshnessPeriod ∧ b.type ≠ tlvFinalBlockId

structure Same (m other : MetaInfo) : Prop where
  type : m.type = other.type
  freshnessPeriod : m.freshnessPeriod = other.freshnessPeriod
  finalBlockId : m.finalBlockId.map Block.content = other.finalBlockId.map Block.content
  appMetaInfo : m.appMetaInfo.map Block.content = other.appMetaInfo.map Block.content

def normal (m : MetaInfo) : MetaInfo :=
  { m with finalBlockId := m.finalBlockId.map Block.encoded,appMetaInfo := m.appMetaInfo.map Block.encoded }

theorem normal_same : m.normal.Same m := by
  refine ⟨rfl,rfl,?_,?_⟩
  · simp [normal,comp_def]
  · simp [normal,comp_def]

theorem isComponent_encoded : b.encoded.isComponent = b.isComponent := by
  simp only [Block.isComponent,WireComponent.ensureValid,Block.encoded_type,Block.encoded_value]

theorem Ordered.normal (ordered : m.Ordered) : m.normal.Ordered := by
  refine ⟨fun c present => ?_,fun b listed => ?_⟩
  · obtain ⟨old,there,rfl⟩ := map_eq_some_iff.mp present
    rw [isComponent_encoded]
    exact ordered.finalBlockId old there
  · obtain ⟨old,there,rfl⟩ := mem_map.mp listed
    rw [Block.encoded_type]
    exact ordered.appMetaInfo old there

theorem readField_optional (m : MetaInfo) (absent : MetaInfo → MetaInfo) (rest : List Block) {type : Nat}
    {read : MetaInfo → Block → Except (DataError × MetaInfo) MetaInfo} (found : ∀ b ∈ field, b.type = type ∧ read m b = .ok after) (missing : field = none → absent m = after)
    (others : ∀ b ∈ rest, b.type ≠ type) : readField type read absent m (field.toList ++ rest) = .ok (after,rest) := by
  cases field with
  | some b =>
    obtain ⟨typed,same⟩ := found b rfl
    simp [readField,typed,same,Except.map]
  | none =>
    have kept := missing rfl
    cases rest with
    | nil => simp [readField,kept]
    | cons b rest => simp [readField,kept,others b mem_cons_self]

theorem contentTypeField_typed (present : b ∈ m.contentTypeField) : b.type = tlvContentType := by
  obtain ⟨_,⟨⟩⟩ := ite_none_left_eq_some.mp present
  rfl

theorem freshnessField_typed (present : b ∈ m.freshnessField) : b.type = tlvFreshnessPeriod := by
  obtain ⟨_,⟨⟩⟩ := ite_none_left_eq_some.mp present
  rfl

theorem finalBlockField_typed (present : b ∈ m.finalBlockField) : b.type = tlvFinalBlockId := by
  obtain ⟨c,_,rfl⟩ := map_eq_some_iff.mp present
  rfl

theorem encodeElements_reads (legal : m.Legal) (small : (Block.wires m.encodeElements).length < 2 ^ 64) :
    ∀ b ∈ m.encodeElements, b.Reads := by
  intro b present
  have bound := Nat.lt_of_le_of_lt (Block.length_wire_le present) small
  simp only [encodeElements,mem_append,mem_toList] at present
  rcases present with type | freshness | final | app
  · obtain ⟨_,⟨⟩⟩ := ite_none_left_eq_some.mp type
    exact Block.reads_made (by decide) bound
  · obtain ⟨_,⟨⟩⟩ := ite_none_left_eq_some.mp freshness
    exact Block.reads_made (by decide) bound
  · obtain ⟨c,_,rfl⟩ := map_eq_some_iff.mp final
    exact Block.reads_made (by decide) bound
  · obtain ⟨old,listed,rfl⟩ := mem_map.mp app
    exact (legal.appMetaInfo old listed).reads bound

theorem readContentType_field (legal : m.type ≤ maxUInt32) (present : b ∈ m.contentTypeField) :
    readContentType after b = .ok { after with type := m.type } := by
  obtain ⟨_,⟨⟩⟩ := ite_none_left_eq_some.mp present
  have small : m.type < 2 ^ 64 := Nat.lt_of_le_of_lt legal (by decide)
  simp [readContentType,Block.make,readNonNegativeInteger_encode small,legal]

theorem readFreshnessPeriod_field (present : b ∈ m.freshnessField) :
    readFreshnessPeriod after b = .ok { after with freshnessPeriod := m.freshnessPeriod } := by
  obtain ⟨_,⟨⟩⟩ := ite_none_left_eq_some.mp present
  have back : millisecondsOf m.freshnessPeriod.toUInt64.toNat = m.freshnessPeriod := by
    rw [millisecondsOf,UInt64.ofNat_toNat]
    rfl
  simp [readFreshnessPeriod,Block.make,readNonNegativeInteger_encode m.freshnessPeriod.toUInt64.toNat_lt,back]

section
variable (legal : m.Legal) (ordered : m.Ordered)
include legal ordered

theorem readFinalBlockId_field (present : b ∈ m.finalBlockField) (small : b.size < 2 ^ 64) :
    readFinalBlockId after b = .ok { after with finalBlockId := m.finalBlockId.map Block.encoded } := by
  obtain ⟨c,there,rfl⟩ := map_eq_some_iff.mp present
  have inner := Block.length_value_make_le tlvFinalBlockId c.encoded.wire
  have reads := (legal.finalBlockId c there).reads (Nat.lt_of_le_of_lt inner small)
  have valid : c.encoded.isComponent := isComponent_encoded.trans (ordered.finalBlockId c there)
  simp [readFinalBlockId,Block.blockFromValue_make reads,valid,there]

theorem decodeElements_encode (small : (Block.wires m.encodeElements).length < 2 ^ 64) :
    ({} : MetaInfo).decodeElements m.encodeElements = .ok m.normal := by
  have final : ∀ b ∈ m.finalBlockField, b.size < 2 ^ 64 := by
    intro b present
    refine Nat.lt_of_le_of_lt (Block.length_wire_le ?_) small
    simp [encodeElements,mem_def.mp present]
  have apps : ∀ b ∈ m.appMetaInfo.map Block.encoded, b.type ≠ tlvContentType ∧ b.type ≠ tlvFreshnessPeriod ∧ b.type ≠ tlvFinalBlockId := by
    intro b listed
    obtain ⟨old,there,rfl⟩ := mem_map.mp listed
    rw [Block.encoded_type]
    exact ordered.appMetaInfo old there
  have third := readField_optional { type := m.type,freshnessPeriod := m.freshnessPeriod } ({ · with finalBlockId := none })
    (m.appMetaInfo.map Block.encoded)
    (fun b present => ⟨finalBlockField_typed present,readFinalBlockId_field legal ordered present (final b present)⟩)
    (fun missing => by rw [map_eq_none_iff.mp missing]; rfl) (fun b listed => (apps b listed).2.2)
  have second := readField_optional { type := m.type } ({ · with freshnessPeriod := 0 }) (m.finalBlockField.toList ++ m.appMetaInfo.map Block.encoded)
    (fun b present => ⟨freshnessField_typed present,readFreshnessPeriod_field present⟩)
    (fun missing => by rw [show m.freshnessPeriod = 0 by simpa [freshnessField] using missing]) (fun b listed => ?_)
  have first := readField_optional {} ({ · with type := contentTypeBlob })
    (m.freshnessField.toList ++ (m.finalBlockField.toList ++ m.appMetaInfo.map Block.encoded))
    (fun b present => ⟨contentTypeField_typed present,readContentType_field legal.type present⟩)
    (fun missing => by rw [show m.type = contentTypeBlob by simpa [contentTypeField] using missing]) (fun b listed => ?_)
  · rw [decodeElements,encodeElements,first,ok_bind]
    simp only
    rw [second,ok_bind]
    rw [third]
    rfl
  · simp only [mem_append,mem_toList] at listed
    rcases listed with fresh | last | app
    · rw [freshnessField_typed fresh]
      decide
    · rw [finalBlockField_typed last]
      decide
    · exact (apps b app).1
  · rcases mem_append.mp listed with last | app
    · rw [finalBlockField_typed (mem_toList.mp last)]
      decide
    · exact (apps b app).2.1

theorem wireDecode_wireEncode (small : m.wireEncode.size < 2 ^ 64) :
    ({} : MetaInfo).wireDecode m.wireEncode = .ok m.normal := by
  have fits := Nat.lt_of_le_of_lt (Block.length_value_make_le tlvMetaInfo (Block.wires m.encodeElements)) small
  rw [wireDecode,wireEncode,Block.parse_make tlvMetaInfo (encodeElements_reads legal fits)]
  exact decodeElements_encode legal ordered fits

end

end MetaInfo

namespace KeyLocator
variable {k : KeyLocator} {b : Block}

def normal : KeyLocator → KeyLocator
  | digest b => digest b.encoded
  | k => k

theorem normal_equals : k.normal.equals k := by
  cases k <;> simp [normal,equals]

theorem wireEncode_typed (encoded : k.wireEncode = .ok b) : ∃ value, b = Block.make tlvKeyLocator value := by
  cases k <;> cases encoded
  all_goals exact ⟨_,rfl⟩

theorem parse_single (reads : element.Reads) : (Block.make tlvKeyLocator element.wire).parse = some [element] := by
  simpa [Block.wires] using Block.parse_make tlvKeyLocator (show ∀ b ∈ [element], b.Reads by simpa using reads)

theorem wireDecode_name (reads : b.Reads) (typed : b.type = tlvName) (named : Name.ofBlock b = some n) :
    wireDecode (Block.make tlvKeyLocator b.wire) = .ok (name n) := by
  rw [wireDecode,parse_single reads]
  simp [Block.make,typed,named]

theorem wireDecode_digest (reads : b.Reads) (typed : b.type = tlvKeyDigest) :
    wireDecode (Block.make tlvKeyLocator b.wire) = .ok (digest b) := by
  rw [wireDecode,parse_single reads]
  simp [Block.make,typed,tlvName,tlvKeyDigest]

theorem wireDecode_wireEncode (legal : k.Legal) (encoded : k.wireEncode = .ok b) (small : b.size < 2 ^ 64) : wireDecode b = .ok k.normal := by
  cases k with
  | none =>
    cases encoded
    rfl
  | other => cases encoded
  | name n =>
    cases encoded
    have inner := Nat.lt_of_le_of_lt (Block.length_value_make_le _ _) small
    have reads : n.wireEncode.Reads := Block.reads_made (by decide) inner
    exact wireDecode_name reads rfl (Name.ofBlock_wireEncode legal inner)
  | digest d =>
    cases encoded
    obtain ⟨typed,stored⟩ := legal
    have inner := Nat.lt_of_le_of_lt (Block.length_value_make_le _ _) small
    have storable : d.Storable := stored.symm.imp_right (fun bare => ⟨bare,by rw [typed]; decide,by rw [typed]; decide⟩)
    exact wireDecode_digest (storable.reads inner) (Block.encoded_type.trans typed)

end KeyLocator

namespace SignatureInfo
variable {info acc after : SignatureInfo} {b : Block} {n : Nat}

def Readable (info : SignatureInfo) : Prop :=
  ∀ b ∈ info.otherTlvs, (isCriticalType b.type → b.type = tlvValidityPeriod) ∧ (b.type = tlvSignatureNonce → b.value ≠ [])

def normal (info : SignatureInfo) (wire : Block) : SignatureInfo :=
  { info with keyLocator := info.keyLocator.map KeyLocator.normal,otherTlvs := info.otherTlvs.map Block.encoded,wire := some wire }

theorem normal_equals (wire : Block) : (info.normal wire).equals info := by
  cases located : info.keyLocator with
  | none => simp [equals,normal,located,comp_def]
  | some k => simp [equals,normal,located,comp_def,KeyLocator.normal_equals]

theorem storable_other (legal : info.Legal) (readable : info.Readable) (present : b ∈ info.otherTlvs) : b.Storable := by
  refine (legal.otherTlvs b present).imp_right (fun ⟨bare,bound⟩ => ⟨bare,?_,bound⟩)
  intro zero
  have period := (readable b present).1 (by rw [zero]; decide)
  rw [zero] at period
  cases period

theorem decodeElement_other (critical : isCriticalType b.type → b.type = tlvValidityPeriod)
    (filled : b.type = tlvSignatureNonce → b.value ≠ []) :
    decodeElement acc last b = .ok ({ acc with otherTlvs := acc.otherTlvs ++ [b] },last) := by
  have notType : b.type ≠ tlvSignatureType := fun typed => absurd (critical (by rw [typed]; decide)) (by rw [typed]; decide)
  have notLocator : b.type ≠ tlvKeyLocator := fun typed => absurd (critical (by rw [typed]; decide)) (by rw [typed]; decide)
  rw [decodeElement,if_neg notType,if_neg notLocator]
  by_cases nonce : b.type = tlvSignatureNonce
  · rw [if_pos nonce,if_neg (filled nonce)]
  rw [if_neg nonce]
  by_cases period : b.type = tlvValidityPeriod
  · rw [if_pos period]
  · rw [if_neg period,if_neg (fun is => period (critical is))]

theorem decodeElements_cons (decoded : decodeElement acc last b = .ok (after,n)) :
    decodeElements acc last (b :: elements) = decodeElements after n elements := by
  rw [decodeElements,decoded,ok_bind]

theorem decodeElements_others (critical : ∀ b ∈ elements, isCriticalType b.type → b.type = tlvValidityPeriod)
    (filled : ∀ b ∈ elements, b.type = tlvSignatureNonce → b.value ≠ []) :
    decodeElements acc last elements = .ok { acc with otherTlvs := acc.otherTlvs ++ elements } := by
  induction elements generalizing acc with
  | nil => simp [decodeElements]
  | cons b rest ih =>
    obtain ⟨first,later⟩ := forall_mem_cons.mp critical
    obtain ⟨filledFirst,filledLater⟩ := forall_mem_cons.mp filled
    rw [decodeElements_cons (decodeElement_other first filledFirst),ih later filledLater]
    simp

theorem encodeElements_parts (encoded : info.encodeElements = .ok elements) : ∃ type locator, info.type = some type ∧
    info.keyLocator.elim (.ok []) (fun k => k.wireEncode.map ([·])) = .ok locator ∧
    elements = Block.make tlvSignatureType (encodeNonNegativeInteger type) :: (locator ++ info.otherTlvs.map Block.encoded) := by
  obtain ⟨type,typed,others⟩ := bind_parts encoded
  obtain ⟨locator,located,whole⟩ := bind_parts others
  cases whole
  cases valid : info.type with
  | none =>
    rw [valid] at typed
    cases typed
  | some found =>
    rw [valid] at typed
    cases typed
    exact ⟨_,locator,rfl,located,rfl⟩

theorem decodeElements_locator (acc : SignatureInfo) (elements : List Block) (legal : info.Legal)
    (located : info.keyLocator.elim (.ok []) (fun k => k.wireEncode.map ([·])) = Except.ok (ε := SignatureInfoError) locator)
    (small : ∀ b ∈ locator, b.size < 2 ^ 64) (absent : acc.keyLocator = none) :
    ∃ last, decodeElements acc 1 (locator ++ elements) =
      decodeElements { acc with keyLocator := info.keyLocator.map KeyLocator.normal } last elements := by
  cases present : info.keyLocator with
  | none =>
    rw [present] at located
    cases located
    exact ⟨1,by rw [map_none,← absent,nil_append]⟩
  | some k =>
    rw [present] at located
    obtain ⟨b,encoded,rfl⟩ := map_parts located
    obtain ⟨value,rfl⟩ := KeyLocator.wireEncode_typed encoded
    have read := KeyLocator.wireDecode_wireEncode (legal.keyLocator k present) encoded (small _ (mem_singleton.mpr rfl))
    have other : ¬ (Block.make tlvKeyLocator value).type = tlvSignatureType := (by decide : tlvKeyLocator ≠ tlvSignatureType)
    refine ⟨2,decodeElements_cons ?_⟩
    rw [decodeElement,if_neg other,if_pos (show (Block.make tlvKeyLocator value).type = tlvKeyLocator from rfl),if_neg (by decide),read]
    rfl

section
variable (legal : info.Legal) (readable : info.Readable)
include legal readable

section
variable (encoded : info.encodeElements = .ok elements) (small : ∀ b ∈ elements, b.size < 2 ^ 64)
include encoded small

theorem decodeElements_encode (wire : Block) : decodeElements { wire := some wire } 0 elements = .ok (info.normal wire) := by
  obtain ⟨type,locator,typed,located,rfl⟩ := encodeElements_parts encoded
  have limit : type ≤ maxUInt16 := legal.type type typed
  have back := readNonNegativeInteger_encode (n := type) (Nat.lt_of_le_of_lt limit (by decide))
  have started : decodeElement { wire := some wire } 0 (Block.make tlvSignatureType (encodeNonNegativeInteger type)) =
      .ok ({ type := some type,wire := some wire },1) := by
    simp [decodeElement,readSignatureType,Block.make,back,limit,Except.map]
  obtain ⟨last,continued⟩ := decodeElements_locator { type := some type,wire := some wire } (info.otherTlvs.map Block.encoded) legal located
    (fun b present => small b (mem_cons_of_mem _ (mem_append_left _ present))) rfl
  have others : ∀ b ∈ info.otherTlvs.map Block.encoded, (isCriticalType b.type → b.type = tlvValidityPeriod) ∧
      (b.type = tlvSignatureNonce → b.value ≠ []) := by
    intro b listed
    obtain ⟨old,there,rfl⟩ := mem_map.mp listed
    rw [Block.encoded_type,Block.encoded_value]
    exact readable old there
  rw [decodeElements_cons started,continued,decodeElements_others (fun b listed => (others b listed).1) (fun b listed => (others b listed).2)]
  simp [normal,typed]

theorem encodeElements_reads : ∀ b ∈ elements, b.Reads := by
  obtain ⟨type,locator,_,located,rfl⟩ := encodeElements_parts encoded
  intro b present
  have bound := small b present
  rcases mem_cons.mp present with rfl | later
  · exact Block.reads_made (by decide) bound
  rcases mem_append.mp later with here | other
  · cases found : info.keyLocator with
    | none =>
      rw [found] at located
      cases located
      cases here
    | some k =>
      rw [found] at located
      obtain ⟨c,written,rfl⟩ := map_parts located
      cases mem_singleton.mp here
      obtain ⟨value,rfl⟩ := KeyLocator.wireEncode_typed written
      exact Block.reads_made (by decide) bound
  · obtain ⟨old,listed,rfl⟩ := mem_map.mp other
    exact (storable_other legal readable listed).reads bound

end

theorem wireDecode_encodeFields (encoded : info.encodeFields kind = .ok b)
    (small : b.size < 2 ^ 64) : wireDecode kind b = .ok (info.normal b) := by
  obtain ⟨elements,written,rfl⟩ := map_parts encoded
  have fits := Nat.lt_of_le_of_lt (Block.length_value_make_le _ _) small
  have bound : ∀ b ∈ elements, b.size < 2 ^ 64 := fun b present => Nat.lt_of_le_of_lt (Block.length_wire_le present) fits
  obtain ⟨type,locator,typed,_,_⟩ := encodeElements_parts written
  have valid : (info.normal (Block.make kind (Block.wires elements))).type ≠ none := by simp [normal,typed]
  rw [wireDecode,Block.parse_make kind (encodeElements_reads legal readable written bound)]
  simp only
  rw [if_neg (not_not_intro (show (Block.make kind (Block.wires elements)).type = kind from rfl)),
    decodeElements_encode legal readable written bound,ok_bind,if_neg valid]

end

inductive Effect (info : SignatureInfo) (b : Block) : SignatureInfo → Prop where
  | type {n : Nat} (limit : n ≤ maxUInt16) : Effect info b { info with type := some n }
  | keyLocator {k : KeyLocator} (decoded : KeyLocator.wireDecode b = .ok k) : Effect info b { info with keyLocator := some k }
  | stored (critical : isCriticalType b.type → b.type = tlvValidityPeriod) (filled : b.type = tlvSignatureNonce → b.value ≠ []) :
      Effect info b { info with otherTlvs := info.otherTlvs ++ [b] }

theorem decodeElement_effect (decoded : decodeElement info last b = .ok (after,n)) : Effect info b after := by
  unfold decodeElement at decoded
  split at decoded
  · split at decoded
    · cases decoded
    · obtain ⟨type,read,same⟩ := map_parts decoded
      cases same
      unfold readSignatureType at read
      split at read
      · split at read
        · rename_i limit
          cases read
          exact .type limit
        · cases read
      · cases read
  split at decoded
  · split at decoded
    · cases decoded
    · obtain ⟨k,read,same⟩ := map_parts decoded
      cases same
      exact .keyLocator read
  split at decoded
  · rename_i nonce
    split at decoded
    · cases decoded
    · rename_i filled
      cases decoded
      exact .stored (by rw [nonce]; decide) (fun _ => filled)
  rename_i other
  split at decoded
  · rename_i period
    cases decoded
    exact .stored (fun _ => period) (fun nonce => absurd nonce other)
  split at decoded
  · cases decoded
  · rename_i ignorable
    cases decoded
    exact .stored (fun critical => absurd critical ignorable) (fun nonce => absurd nonce other)

end SignatureInfo

namespace KeyLocator

theorem wireDecode_legal (decoded : wireDecode wire = .ok k) : k.Legal := by
  unfold wireDecode at decoded
  split at decoded
  · cases decoded
  split at decoded
  · cases decoded
  · cases decoded
    exact True.intro
  · rename_i element rest parsed
    split at decoded
    · split at decoded
      · cases decoded
      · rename_i n named
        cases decoded
        exact Name.ofBlock_legal named
    split at decoded
    · rename_i typed
      cases decoded
      exact ⟨typed,.inr ((Block.parseOctets_parts parsed).2 element mem_cons_self)⟩
    · cases decoded
      exact True.intro

end KeyLocator

namespace SignatureInfo
variable {info after : SignatureInfo} {b : Block}

theorem Effect.kept (effect : Effect info b after) (reads : b.Reads) (legal : info.Legal) (readable : info.Readable) :
    after.Legal ∧ after.Readable := by
  cases effect with
  | type limit => exact ⟨{ legal with type := by rintro _ ⟨⟩; exact limit },readable⟩
  | keyLocator decoded =>
    refine ⟨{ legal with keyLocator := ?_ },readable⟩
    rintro _ ⟨⟩
    exact KeyLocator.wireDecode_legal decoded
  | stored critical filled =>
    refine ⟨{ legal with otherTlvs := fun c listed => ?_ },fun c listed => ?_⟩
    · rcases mem_append.mp listed with old | new
      · exact legal.otherTlvs c old
      · cases mem_singleton.mp new
        exact .inl reads
    · rcases mem_append.mp listed with old | new
      · exact readable c old
      · cases mem_singleton.mp new
        exact ⟨critical,filled⟩

theorem decodeElements_kept (reads : ∀ b ∈ elements, b.Reads) (legal : info.Legal) (readable : info.Readable)
    (decoded : decodeElements info last elements = .ok after) : after.Legal ∧ after.Readable := by
  induction elements generalizing info last with
  | nil =>
    cases decoded
    exact ⟨legal,readable⟩
  | cons b rest ih =>
    obtain ⟨first,later⟩ := forall_mem_cons.mp reads
    obtain ⟨⟨next,bound⟩,step,others⟩ := bind_parts decoded
    obtain ⟨keptLegal,keptReadable⟩ := (decodeElement_effect step).kept first legal readable
    exact ih later keptLegal keptReadable others

theorem wireDecode_kept (reads : b.Reads) (kinds : kind = tlvSignatureInfo ∨ kind = tlvInterestSignatureInfo)
    (decoded : wireDecode kind b = .ok info) : info.Legal ∧ info.Readable := by
  unfold wireDecode at decoded
  split at decoded
  · cases decoded
  rename_i elements parsed
  split at decoded
  · cases decoded
  rename_i typed
  obtain ⟨found,read,checked⟩ := bind_parts decoded
  split at checked
  · cases checked
  · cases checked
    refine decodeElements_kept (Block.parseOctets_parts parsed).2 ⟨by simp,by simp,by simp,?_⟩ (by simp [Readable]) read
    rintro _ ⟨⟩
    exact ⟨reads,(not_not.mp typed) ▸ kinds⟩

end SignatureInfo

namespace MetaInfo
variable {m after : MetaInfo} {b : Block} {rest : List Block}

section
variable {type : Nat} {read : MetaInfo → Block → Except (DataError × MetaInfo) MetaInfo}

theorem readField_parts (decoded : readField type read absent m elements = .ok (after,rest)) :
    (∃ b, elements = b :: rest ∧ b.type = type ∧ read m b = .ok after) ∨
      ((∀ b ∈ elements.head?, b.type ≠ type) ∧ after = absent m ∧ rest = elements) := by
  cases elements with
  | nil =>
    cases decoded
    exact .inr ⟨nofun,rfl,rfl⟩
  | cons b others =>
    rw [readField] at decoded
    split at decoded
    · rename_i typed
      obtain ⟨next,set,made⟩ := map_parts decoded
      cases made
      exact .inl ⟨b,rfl,typed,set⟩
    · rename_i other
      cases decoded
      refine .inr ⟨?_,rfl,rfl⟩
      rintro _ ⟨⟩
      exact other

theorem readField_kept {P : MetaInfo → Prop} (found : ∀ b next, read m b = .ok next → P next) (missing : P (absent m))
    (decoded : readField type read absent m elements = .ok (after,rest)) : P after ∧ rest ⊆ elements := by
  rcases readField_parts decoded with ⟨b,rfl,_,taken⟩ | ⟨_,rfl,rfl⟩
  · exact ⟨found b _ taken,subset_cons_self _ _⟩
  · exact ⟨missing,List.Subset.refl _⟩

end

section
variable (legal : m.Legal)
include legal

theorem readContentType_legal (read : readContentType m b = .ok after) : after.Legal := by
  unfold readContentType at read
  split at read
  · cases read
  split at read
  · rename_i limit
    cases read
    exact ⟨limit,legal.finalBlockId,legal.appMetaInfo⟩
  · cases read

theorem readFreshnessPeriod_legal (read : readFreshnessPeriod m b = .ok after) : after.Legal := by
  unfold readFreshnessPeriod at read
  split at read
  · cases read
  · cases read
    exact { legal with }

theorem readFinalBlockId_legal (read : readFinalBlockId m b = .ok after) :
    after.Legal ∧ ∀ c ∈ after.finalBlockId, c.isComponent := by
  unfold readFinalBlockId at read
  split at read
  · cases read
  rename_i c found
  split at read
  · rename_i valid
    cases read
    refine ⟨⟨legal.type,?_,legal.appMetaInfo⟩,?_⟩
    · rintro _ ⟨⟩
      exact .inl (Block.blockFromValue_reads found)
    · rintro _ ⟨⟩
      exact valid
  · cases read

theorem decodeElements_legal (reads : ∀ b ∈ elements, b.Reads) (decoded : m.decodeElements elements = .ok after) :
    after.Legal ∧ ∀ c ∈ after.finalBlockId, c.isComponent := by
  obtain ⟨⟨typed,afterType⟩,first,decoded⟩ := bind_parts decoded
  obtain ⟨⟨fresh,afterFreshness⟩,second,decoded⟩ := bind_parts decoded
  obtain ⟨⟨final,rest⟩,third,same⟩ := bind_parts decoded
  cases same
  obtain ⟨typedLegal,fromType⟩ := readField_kept (P := Legal) (fun b next => readContentType_legal legal)
    ⟨Nat.zero_le _,legal.finalBlockId,legal.appMetaInfo⟩ first
  obtain ⟨freshLegal,fromFreshness⟩ := readField_kept (P := Legal) (fun b next => readFreshnessPeriod_legal typedLegal)
    { typedLegal with } second
  obtain ⟨⟨finalLegal,component⟩,fromFinal⟩ := readField_kept
    (P := fun next => next.Legal ∧ ∀ c ∈ next.finalBlockId, c.isComponent) (fun b next => readFinalBlockId_legal freshLegal)
    ⟨⟨freshLegal.type,by simp,freshLegal.appMetaInfo⟩,by simp⟩ third
  refine ⟨⟨finalLegal.type,finalLegal.finalBlockId,fun b listed => ?_⟩,component⟩
  rcases mem_append.mp listed with old | new
  · exact finalLegal.appMetaInfo b old
  · exact .inl (reads b (fromType (fromFreshness (fromFinal new))))

theorem wireDecode_legal (decoded : m.wireDecode b = .ok after) :
    after.Legal ∧ ∀ c ∈ after.finalBlockId, c.isComponent := by
  unfold wireDecode at decoded
  split at decoded
  · cases decoded
  · rename_i elements parsed
    exact decodeElements_legal legal (Block.parseOctets_parts parsed).2 decoded

end

end MetaInfo
end ReflexiveNfd
