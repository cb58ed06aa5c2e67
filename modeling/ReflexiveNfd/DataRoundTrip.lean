import ReflexiveNfd.DataCodec
import ReflexiveNfd.InterestRoundTrip

namespace ReflexiveNfd
open Octets Tlv List Option Transition Results Element DataMethod

namespace Block
variable {tail : List UInt8}

theorem parseOctets_none (reads : ∀ b ∈ elements, b.Reads) (filled : tail ≠ []) (fault : fromBuffer tail = none) (steps : Nat) :
    parseOctets steps (wires elements ++ tail) = none := by
  induction elements generalizing steps with
  | nil =>
    obtain ⟨first,rest,rfl⟩ := exists_cons_of_ne_nil filled
    cases steps with
    | zero => rfl
    | succ steps => exact bind_eq_none_iff.mpr (fun found read => absurd (read.symm.trans fault) nofun)
  | cons b rest ih =>
    obtain ⟨first,later⟩ := forall_mem_cons.mp reads
    have whole : wires (b :: rest) ++ tail = b.wire ++ (wires rest ++ tail) := append_assoc _ _ _
    rw [whole]
    cases steps with
    | zero =>
      obtain ⟨octet,octets,split⟩ := exists_cons_of_ne_nil first.wire_ne_nil
      rw [split]
      rfl
    | succ steps => rw [parseOctets_step (by simp [first.wire_ne_nil]) (first.followed _),ih later,map_none]

end Block

namespace DataPacket
variable {d e next : DataPacket} {b w value info : Block} {m : MetaInfo}

structure SameFields (d e : DataPacket) : Prop where
  name : d.name = e.name
  metaInfo : d.metaInfo.Same e.metaInfo
  content : d.content.map Block.content = e.content.map Block.content
  signatureInfo : d.signatureInfo.equals e.signatureInfo
  signatureValue : d.signatureValue.map Block.content = e.signatureValue.map Block.content

structure Read (d : DataPacket) : Prop where
  name : d.name.Legal
  metaInfo : d.metaInfo.Legal
  component : ∀ c ∈ d.metaInfo.finalBlockId, c.isComponent
  content : ∀ b ∈ d.content, b.type = tlvContent ∧ b.Storable
  signatureInfo : d.signatureInfo.Legal
  readable : d.signatureInfo.Readable
  signatureValue : ∀ b ∈ d.signatureValue, b.type = tlvSignatureValue ∧ b.Storable

structure Codable (d : DataPacket) : Prop where
  read : d.Read
  ordered : d.metaInfo.Ordered

inductive Effect (d : DataPacket) (last : Nat) (b : Block) : DataPacket → Nat → Prop where
  | metaInfo {m : MetaInfo} (typed : b.type = tlvMetaInfo) (order : last < 2) (decoded : d.metaInfo.wireDecode b = .ok m) :
      Effect d last b { d with metaInfo := m } 2
  | content (typed : b.type = tlvContent) (order : last < 3) : Effect d last b { d with content := some b } 3
  | signatureInfo {info : SignatureInfo} (typed : b.type = tlvSignatureInfo) (order : last < 4)
      (decoded : SignatureInfo.wireDecode tlvSignatureInfo b = .ok info) : Effect d last b { d with signatureInfo := info } 4
  | signatureValue (typed : b.type = tlvSignatureValue) (order : last < 5) : Effect d last b { d with signatureValue := some b } 5
  | ignored (other : b.type ≠ tlvSignatureValue) : Effect d last b d last

theorem decodeElement_effect (decoded : decodeElement d last b = .ok (next,k)) : Effect d last b next k := by
  unfold decodeElement at decoded
  split at decoded
  · rename_i typed
    split at decoded
    · cases decoded
    · rename_i order
      split at decoded
      · cases decoded
      · rename_i read
        cases decoded
        exact .metaInfo typed (by omega) read
  split at decoded
  · rename_i typed
    split at decoded
    · cases decoded
    · rename_i order
      cases decoded
      exact .content typed (by omega)
  split at decoded
  · rename_i typed
    split at decoded
    · cases decoded
    · rename_i order
      split at decoded
      · cases decoded
      · rename_i read
        cases decoded
        exact .signatureInfo typed (by omega) read
  split at decoded
  · rename_i typed
    split at decoded
    · cases decoded
    · rename_i order
      cases decoded
      exact .signatureValue typed (by omega)
  rename_i other
  split at decoded
  · cases decoded
  · cases decoded
    exact .ignored other

theorem Effect.read (effect : Effect d last b next k) (reads : b.Reads) (read : d.Read) : next.Read := by
  obtain ⟨name,metaLegal,component,content,signatureInfo,readable,signatureValue⟩ := read
  cases effect with
  | metaInfo _ _ decoded =>
    obtain ⟨legal,valid⟩ := MetaInfo.wireDecode_legal metaLegal decoded
    exact ⟨name,legal,valid,content,signatureInfo,readable,signatureValue⟩
  | content typed =>
    refine ⟨name,metaLegal,component,?_,signatureInfo,readable,signatureValue⟩
    rintro _ ⟨⟩
    exact ⟨typed,.inl reads⟩
  | signatureInfo _ _ decoded =>
    obtain ⟨legal,stored⟩ := SignatureInfo.wireDecode_kept reads (.inl rfl) decoded
    exact ⟨name,metaLegal,component,content,legal,stored,signatureValue⟩
  | signatureValue typed =>
    refine ⟨name,metaLegal,component,content,signatureInfo,readable,?_⟩
    rintro _ ⟨⟩
    exact ⟨typed,.inl reads⟩
  | ignored => exact ⟨name,metaLegal,component,content,signatureInfo,readable,signatureValue⟩

theorem decodeElements_read (reads : ∀ b ∈ elements, b.Reads) (read : d.Read) (decoded : decodeElements d last elements = .ok e) : e.Read := by
  induction elements generalizing d last with
  | nil =>
    cases decoded
    exact read
  | cons b rest ih =>
    obtain ⟨first,later⟩ := forall_mem_cons.mp reads
    obtain ⟨⟨next,bound⟩,step,others⟩ := bind_parts decoded
    exact ih later ((decodeElement_effect step).read first read) others

theorem decodeElements_after_value (decoded : decodeElements d 5 elements = .ok e) :
    e.signatureValue = d.signatureValue ∧ ∀ b ∈ elements, b.type ≠ tlvSignatureValue := by
  induction elements generalizing d with
  | nil =>
    cases decoded
    exact ⟨rfl,by simp⟩
  | cons b rest ih =>
    obtain ⟨⟨next,bound⟩,step,others⟩ := bind_parts decoded
    cases decodeElement_effect step with
    | ignored other =>
      obtain ⟨same,apart⟩ := ih others
      exact ⟨same,forall_mem_cons.mpr ⟨other,apart⟩⟩
    | metaInfo _ order | content _ order | signatureInfo _ order | signatureValue _ order => omega

theorem decodeElements_value (decoded : decodeElements d last elements = .ok e) (early : last < 5) (unset : d.signatureValue = none)
    (set : e.signatureValue = some sv) : ∃ front back, elements = front ++ sv :: back ∧ sv.type = tlvSignatureValue ∧
      (∀ b ∈ front, b.type ≠ tlvSignatureValue) ∧ ∀ b ∈ back, b.type ≠ tlvSignatureValue := by
  induction elements generalizing d last with
  | nil =>
    cases decoded
    cases unset.symm.trans set
  | cons b rest ih =>
    obtain ⟨⟨next,bound⟩,step,others⟩ := bind_parts decoded
    have cases : b.type ≠ tlvSignatureValue ∧ bound < 5 ∧ next.signatureValue = none ∨
        b.type = tlvSignatureValue ∧ bound = 5 ∧ next.signatureValue = some b := by
      cases decodeElement_effect step with
      | metaInfo typed | content typed | signatureInfo typed => exact .inl ⟨by rw [typed]; decide,by decide,unset⟩
      | ignored other => exact .inl ⟨other,early,unset⟩
      | signatureValue typed => exact .inr ⟨typed,rfl,rfl⟩
    rcases cases with ⟨other,still,none⟩ | ⟨typed,rfl,found⟩
    · obtain ⟨front,back,rfl,typed,before,behind⟩ := ih others still none
      exact ⟨b :: front,back,rfl,typed,forall_mem_cons.mpr ⟨other,before⟩,behind⟩
    · obtain ⟨same,behind⟩ := decodeElements_after_value others
      cases found.symm.trans (same.symm.trans set)
      exact ⟨[],rest,rfl,typed,by simp,behind⟩

structure Accepted (w : Block) (d : DataPacket) (first : Block) (rest : List Block) : Prop where
  typed : w.type = tlvData
  parsed : w.parse = some (first :: rest)
  nameTyped : first.type = tlvName
  named : Name.ofBlock first = some d.name
  decoded : decodeElements { name := d.name,wire := some w } 1 rest = .ok d
  info : d.signatureInfo.type ≠ none
  value : d.signatureValue ≠ none
  wired : d.wire = some w
  unnamed : d.fullName = []

theorem decodeElements_frame (decoded : decodeElements d last elements = .ok e) :
    e.name = d.name ∧ e.wire = d.wire ∧ e.fullName = d.fullName := by
  induction elements generalizing d last with
  | nil =>
    cases decoded
    exact ⟨rfl,rfl,rfl⟩
  | cons b rest ih =>
    obtain ⟨⟨next,bound⟩,step,others⟩ := bind_parts decoded
    have kept : next.name = d.name ∧ next.wire = d.wire ∧ next.fullName = d.fullName := by
      cases decodeElement_effect step <;> exact ⟨rfl,rfl,rfl⟩
    obtain ⟨name,wire,fullName⟩ := ih others
    exact ⟨name.trans kept.1,wire.trans kept.2.1,fullName.trans kept.2.2⟩

theorem outcome_parts (fine : outcome result = ⟨none,d⟩) : result = .ok d := by
  cases result with
  | error fault => cases fine
  | ok found =>
    cases fine
    rfl

theorem checkSigned_parts (checked : checkSigned e = .ok d) : e = d ∧ d.signatureInfo.type ≠ none ∧ d.signatureValue ≠ none := by
  unfold checkSigned at checked
  split at checked
  · cases checked
  split at checked
  · cases checked
  · rename_i info value
    cases checked
    exact ⟨rfl,info,value⟩

theorem wireDecode_accepted (decoded : e.wireDecode w = ⟨none,d⟩) : ∃ first rest, Accepted w d first rest := by
  unfold wireDecode at decoded
  split at decoded
  · cases decoded
  rename_i typed
  split at decoded
  · cases decoded
  · cases decoded
  rename_i first rest parsed
  split at decoded
  · cases decoded
  rename_i nameTyped
  split at decoded
  · cases decoded
  rename_i name named
  obtain ⟨found,read,checked⟩ := bind_parts (outcome_parts decoded)
  obtain ⟨rfl,info,value⟩ := checkSigned_parts checked
  obtain ⟨same,wired,unnamed⟩ := decodeElements_frame read
  subst same
  exact ⟨first,rest,not_not.mp typed,parsed,not_not.mp nameTyped,named,read,info,value,wired,unnamed⟩

theorem Accepted.decodes (accepted : Accepted w d first rest) (e : DataPacket) : e.wireDecode w = ⟨none,d⟩ := by
  rw [wireDecode,if_neg (not_not_intro accepted.typed),accepted.parsed]
  simp only
  rw [if_neg (not_not_intro accepted.nameTyped),accepted.named]
  simp only
  rw [accepted.decoded,ok_bind,checkSigned,if_neg accepted.info,if_neg accepted.value]
  rfl

theorem read_named {name : Name} (legal : name.Legal) : Read { name := name,wire := cached } :=
  ⟨legal,⟨Nat.zero_le _,by simp,by simp⟩,by simp,by simp,⟨by simp,by simp,by simp,by simp⟩,by simp [SignatureInfo.Readable],by simp⟩

theorem Accepted.read (accepted : Accepted w d first rest) : d.Read := by
  have reads := (Block.parseOctets_parts accepted.parsed).2
  exact decodeElements_read (fun b present => reads b (mem_cons_of_mem _ present)) (read_named (Name.ofBlock_legal accepted.named)) accepted.decoded

def unsignedWith (d : DataPacket) (info : Block) : List Block :=
  d.name.wireEncode :: d.metaInfo.wireEncode :: (d.contentField.toList ++ [info])

structure Encoded (d : DataPacket) (value b info : Block) : Prop where
  written : d.signatureInfo.encodeFields tlvSignatureInfo = .ok info
  whole : b = Block.make tlvData (Block.wires (d.unsignedWith info ++ [value.encoded]))

theorem encoding_parts (encoded : d.encoding value = .ok b) : ∃ info, Encoded d value b info := by
  obtain ⟨elements,unsigned,rfl⟩ := map_parts encoded
  unfold unsignedElements at unsigned
  split at unsigned
  · cases unsigned
  · rename_i info written
    cases unsigned
    exact ⟨info,written,rfl⟩

theorem encodeFields_make {info : SignatureInfo} (encoded : info.encodeFields kind = .ok b) : ∃ octets, b = Block.make kind octets := by
  obtain ⟨elements,_,rfl⟩ := map_parts encoded
  exact ⟨_,rfl⟩

theorem Encoded.small (encoded : Encoded d value b info) (fits : b.size ≤ maxBufferSize) :
    ∀ c ∈ d.unsignedWith info ++ [value.encoded], c.size < 2 ^ 64 := by
  obtain ⟨_,rfl⟩ := encoded
  intro c present
  have inner := Block.length_value_make_le tlvData (Block.wires (d.unsignedWith info ++ [value.encoded]))
  have own := Block.length_wire_le present
  unfold maxBufferSize at fits
  omega

theorem Encoded.unsigned_reads (encoded : Encoded d value b info) (codable : d.Codable) (fits : b.size ≤ maxBufferSize) :
    ∀ c ∈ d.unsignedWith info, c.Reads := by
  intro c present
  have bound := encoded.small fits c (mem_append_left _ present)
  rcases mem_cons.mp present with rfl | later
  · exact Block.reads_made (by decide) bound
  rcases mem_cons.mp later with rfl | later
  · exact Block.reads_made (by decide) bound
  rcases mem_append.mp later with content | last
  · obtain ⟨old,there,rfl⟩ := map_eq_some_iff.mp (mem_toList.mp content)
    exact (codable.read.content old there).2.reads bound
  · cases mem_singleton.mp last
    obtain ⟨octets,rfl⟩ := encodeFields_make encoded.written
    exact Block.reads_made (by decide) bound

def rereadAs (d : DataPacket) (value b info : Block) : DataPacket :=
  { name := d.name,metaInfo := d.metaInfo.normal,content := d.contentField,signatureInfo := d.signatureInfo.normal info,
    signatureValue := some value.encoded,wire := some b }

theorem decodeElements_cons (decoded : decodeElement d last b = .ok (next,k)) : decodeElements d last (b :: elements) = decodeElements next k elements := by
  rw [decodeElements,decoded,ok_bind]

theorem decodeElement_metaInfo (typed : b.type = tlvMetaInfo) (decoded : d.metaInfo.wireDecode b = .ok m) :
    decodeElement d 1 b = .ok ({ d with metaInfo := m },2) := by
  rw [decodeElement,if_pos typed,if_neg (by decide),decoded]

theorem decodeElement_content (typed : b.type = tlvContent) : decodeElement d 2 b = .ok ({ d with content := some b },3) := by
  simp [decodeElement,typed,tlvMetaInfo,tlvContent]

theorem decodeElement_signatureInfo {read : SignatureInfo} (typed : b.type = tlvSignatureInfo) (order : last ≤ 3)
    (decoded : SignatureInfo.wireDecode tlvSignatureInfo b = .ok read) : decodeElement d last b = .ok ({ d with signatureInfo := read },4) := by
  rw [decodeElement,if_neg (by rw [typed]; decide),if_neg (by rw [typed]; decide),if_pos typed,if_neg (by omega),decoded]

theorem decodeElement_signatureValue (typed : b.type = tlvSignatureValue) : decodeElement d 4 b = .ok ({ d with signatureValue := some b },5) := by
  simp [decodeElement,typed,tlvMetaInfo,tlvContent,tlvSignatureInfo,tlvSignatureValue]

theorem decodeElements_content (typed : ∀ b ∈ field, b.type = tlvContent) (absent : d.content = none) :
    ∃ last ≤ 3, decodeElements d 2 (field.toList ++ elements) = decodeElements { d with content := field } last elements := by
  cases field with
  | none => exact ⟨2,by decide,congrArg (decodeElements · 2 elements) (by rw [← absent])⟩
  | some b => exact ⟨3,by decide,decodeElements_cons (decodeElement_content (typed b rfl))⟩

section
variable (encoded : Encoded d value b info) (codable : d.Codable) (fits : b.size ≤ maxBufferSize) (typed : value.type = tlvSignatureValue)
include encoded codable fits typed

theorem Encoded.decodeElements :
    DataPacket.decodeElements { name := d.name,wire := some b } 1 (d.metaInfo.wireEncode :: (d.contentField.toList ++ [info,value.encoded])) =
      .ok (d.rereadAs value b info) := by
  have small := encoded.small fits
  have first := MetaInfo.wireDecode_wireEncode codable.read.metaInfo codable.ordered (small _ (by simp [unsignedWith]))
  have second : ∀ b ∈ d.contentField, b.type = tlvContent := by
    intro b present
    obtain ⟨old,there,rfl⟩ := map_eq_some_iff.mp present
    exact Block.encoded_type.trans (codable.read.content old there).1
  have third := SignatureInfo.wireDecode_encodeFields codable.read.signatureInfo codable.read.readable encoded.written
    (small info (by simp [unsignedWith]))
  have infoTyped : info.type = tlvSignatureInfo := by
    obtain ⟨octets,rfl⟩ := encodeFields_make encoded.written
    rfl
  rw [decodeElements_cons (decodeElement_metaInfo (show d.metaInfo.wireEncode.type = tlvMetaInfo from rfl) first)]
  obtain ⟨last,order,continued⟩ := decodeElements_content
    (d := { name := d.name,metaInfo := d.metaInfo.normal,wire := some b }) second rfl
  rw [continued,decodeElements_cons (decodeElement_signatureInfo infoTyped order third),
    decodeElements_cons (decodeElement_signatureValue (Block.encoded_type.trans typed))]
  rfl

theorem Encoded.accepted (storable : value.Storable) :
    Accepted b (d.rereadAs value b info) d.name.wireEncode (d.metaInfo.wireEncode :: (d.contentField.toList ++ [info,value.encoded])) := by
  have small := encoded.small fits
  have reads : ∀ c ∈ d.unsignedWith info ++ [value.encoded], c.Reads := by
    intro c present
    rcases mem_append.mp present with early | final
    · exact encoded.unsigned_reads codable fits c early
    · cases mem_singleton.mp final
      exact storable.reads (small _ present)
  have parsed : b.parse = some (d.unsignedWith info ++ [value.encoded]) := by
    rw [encoded.whole]
    exact Block.parse_make tlvData reads
  have valid : d.signatureInfo.type ≠ none := by
    obtain ⟨_,fields,_⟩ := map_parts encoded.written
    obtain ⟨_,_,set,_⟩ := SignatureInfo.encodeElements_parts fields
    simp [set]
  refine ⟨by rw [encoded.whole]; rfl,?_,rfl,Name.ofBlock_wireEncode codable.read.name (small _ (by simp [unsignedWith])),
    encoded.decodeElements codable fits typed,valid,nofun,rfl,rfl⟩
  rw [parsed,unsignedWith]
  simp

end

theorem rereadAs_same (set : d.signatureValue.map Block.content = some value.content) :
    (d.rereadAs value b info).SameFields d := by
  refine ⟨rfl,MetaInfo.normal_same,?_,SignatureInfo.normal_equals info,?_⟩
  · simp [rereadAs,contentField,Function.comp_def]
  · rw [set]
    simp [rereadAs]

end DataPacket

def DataMethod.Legal : DataMethod → Prop
  | setName name => name.Legal
  | setMetaInfo metaInfo => metaInfo.Legal
  | setContentBlock b => b.Legal
  | setContent value | setContentBuffer (some value) | setSignatureValue value | setSignatureValueBuffer (some value) =>
    value.length ≤ maxBufferSize
  | setSignatureInfo info => info.Legal
  | setFinalBlock finalBlockId => ∀ c ∈ finalBlockId, c.Storable
  | wireEncodeSigned signature => signature.length ≤ maxBufferSize
  | _ => True

-- The arguments are ones that a decoder reads back as they are, and a Data that
-- has a SignatureInfo is encoded only if it has a SignatureValue too.
def DataMethod.Admitted (d : DataPacket) : DataMethod → Prop
  | setMetaInfo metaInfo => metaInfo.Ordered
  | setSignatureInfo info => info.Readable
  | setFinalBlock finalBlockId => ∀ c ∈ finalBlockId, c.isComponent
  | wireEncode | extractSignedRanges => d.signatureInfo.type ≠ none → d.signatureValue ≠ none
  | _ => True

namespace DataPacket
variable {d e : DataPacket} {b w value info : Block} {sha : Sha256} {method : DataMethod} {m : MetaInfo}

def Start (d : DataPacket) : Prop :=
  (∃ name : Name, name.Legal ∧ d = { name := name }) ∨
    ∃ wire : Block, wire.Reads ∧ ({} : DataPacket).wireDecode wire = ⟨none,d⟩ ∧ d.metaInfo.Ordered

structure Consistent (sha : Sha256) (d : DataPacket) : Prop where
  codable : d.Codable
  wire : ∀ w ∈ d.wire, w.Reads ∧ ({} : DataPacket).wireDecode w = ⟨none,{ d with fullName := [] }⟩
  fullName : d.fullName ≠ [] → ∃ w ∈ d.wire, d.fullName = d.name ++ [⟨tlvImplicitSha256DigestComponent,sha.digest w.wire⟩]

section
variable (codable : d.Codable)
include codable

theorem Codable.withCaches (wire : Option Block) (fullName : Name) :
    Codable { d with wire := wire,fullName := fullName } :=
  ⟨{ codable.read with },codable.ordered⟩

theorem Consistent.reset : d.resetWire.Consistent sha :=
  ⟨codable.withCaches none [],nofun,fun filled => absurd rfl filled⟩

theorem Codable.withMetaInfo (legal : m.Legal) (ordered : m.Ordered) : Codable { d with metaInfo := m } :=
  ⟨{ codable.read with metaInfo := legal,component := ordered.finalBlockId },ordered⟩

theorem Codable.withContent {content : Option Block} (stored : ∀ b ∈ content, b.type = tlvContent ∧ b.Storable) :
    Codable { d with content := content } :=
  ⟨{ codable.read with content := stored },codable.ordered⟩

theorem Codable.withValue (typed : b.type = tlvSignatureValue) (storable : b.Storable) :
    Codable { d with signatureValue := some b } := by
  refine ⟨{ codable.read with signatureValue := ?_ },codable.ordered⟩
  rintro _ ⟨⟩
  exact ⟨typed,storable⟩

end

theorem storable_make (legal : type ≠ invalidType ∧ type ≤ maxUInt32) (small : octets.length ≤ maxBufferSize) :
    (Block.make type octets).Storable := .inl (Block.reads_make legal (Nat.lt_of_le_of_lt small (by decide)))

theorem Encoded.consistent (encoded : Encoded d value b info) (codable : d.Codable) (fits : b.size ≤ maxBufferSize)
    (typed : value.type = tlvSignatureValue) (storable : value.Storable) : (d.rereadAs value b info).Consistent sha := by
  have accepted := encoded.accepted codable fits typed storable
  refine ⟨⟨accepted.read,codable.ordered.normal⟩,?_,fun filled => absurd rfl filled⟩
  rintro _ ⟨⟩
  refine ⟨?_,accepted.decodes {}⟩
  rw [encoded.whole] at fits ⊢
  exact Block.reads_made (by decide) (Nat.lt_of_le_of_lt fits (by decide))

theorem reread_parts (codable : d.Codable) (typed : value.type = tlvSignatureValue) (storable : value.Storable) :
    (∃ fault, d.reread value = ⟨some fault,d⟩) ∨
      ∃ b info, Encoded d value b info ∧ b.size ≤ maxBufferSize ∧ d.reread value = ⟨none,d.rereadAs value b info⟩ := by
  rw [reread]
  cases written : d.encoding value with
  | error fault => exact .inl ⟨fault,rfl⟩
  | ok b =>
    simp only
    split
    · exact .inl ⟨_,rfl⟩
    · rename_i fits
      obtain ⟨info,encoded⟩ := encoding_parts written
      have bound := Nat.not_lt.mp fits
      exact .inr ⟨b,info,encoded,bound,(encoded.accepted codable bound typed storable).decodes d⟩

section
variable (consistent : d.Consistent sha)
include consistent

theorem reread_consistent (typed : value.type = tlvSignatureValue) (storable : value.Storable) :
    (d.reread value).after.Consistent sha := by
  rcases reread_parts consistent.codable typed storable with ⟨fault,same⟩ | ⟨b,info,encoded,fits,same⟩
  · rw [same]
    exact consistent
  · rw [same]
    exact encoded.consistent consistent.codable fits typed storable

theorem wireEncode_consistent (signed : d.signatureInfo.type ≠ none → d.signatureValue ≠ none) :
    d.wireEncode.after.Consistent sha := by
  unfold wireEncode
  split
  · exact consistent
  split
  · exact consistent
  · rename_i valid
    obtain ⟨value,set⟩ := ne_none_iff_exists'.mp (signed valid)
    obtain ⟨typed,storable⟩ := consistent.codable.read.signatureValue value set
    rw [set]
    exact reread_consistent consistent typed storable

theorem getFullName_consistent : (d.getFullName sha).after.Consistent sha := by
  unfold getFullName
  split
  · exact consistent
  split
  · exact consistent
  · rename_i w wired
    exact ⟨consistent.codable.withCaches _ _,consistent.wire,fun _ => ⟨w,wired,rfl⟩⟩

theorem setContentBlock_consistent (legal : b.Legal) : (d.setContentBlock b).after.Consistent sha := by
  have made : ∀ octets : List UInt8, octets.length ≤ maxBufferSize → (Block.make tlvContent octets).Storable := fun octets small =>
    storable_make (by decide) small
  unfold setContentBlock
  split
  · exact consistent
  split
  · rename_i typed
    refine .reset (consistent.codable.withContent ?_)
    rintro _ ⟨⟩
    refine ⟨Block.encoded_type.trans typed,?_⟩
    rcases legal with ⟨reads,_⟩ | ⟨bare,small⟩
    · rw [reads.encoded]
      exact .inl reads
    · rw [Block.encoded,if_pos bare,typed]
      exact made b.value small
  split
  · exact consistent
  · rename_i wired
    refine .reset (consistent.codable.withContent ?_)
    rintro _ ⟨⟩
    refine ⟨Block.encoded_type,?_⟩
    rcases legal with ⟨_,small⟩ | ⟨bare,_⟩
    · exact made b.wire small
    · exact absurd bare wired

theorem call_consistent (legal : method.Legal) (admitted : method.Admitted d) :
    (d.call sha method).after.Consistent sha := by
  have codable := consistent.codable
  have contentBare : ∀ octets : List UInt8, Block.Storable ⟨tlvContent,[],octets⟩ := fun octets =>
    .inr ⟨rfl,(by decide : tlvContent ≠ invalidType ∧ tlvContent ≤ maxUInt32)⟩
  have valueBare : ∀ octets : List UInt8, Block.Storable ⟨tlvSignatureValue,[],octets⟩ := fun octets =>
    .inr ⟨rfl,(by decide : tlvSignatureValue ≠ invalidType ∧ tlvSignatureValue ≤ maxUInt32)⟩
  cases method with
  | setName name =>
    simp only [call]
    split
    · exact consistent
    · exact .reset ⟨{ codable.read with name := legal },codable.ordered⟩
  | setMetaInfo m => exact .reset (codable.withMetaInfo legal admitted)
  | setContentBlock b => exact setContentBlock_consistent consistent legal
  | setContent octets =>
    refine .reset (codable.withContent ?_)
    rintro _ ⟨⟩
    exact ⟨rfl,storable_make (by decide) legal⟩
  | setContentBuffer octets =>
    cases octets with
    | none => exact consistent
    | some octets =>
      refine .reset (codable.withContent ?_)
      rintro _ ⟨⟩
      exact ⟨rfl,contentBare octets⟩
  | unsetContent =>
    simp only [call]
    split
    · exact consistent
    · exact .reset (codable.withContent nofun)
  | setSignatureInfo info =>
    exact .reset ⟨{ codable.read with signatureInfo := legal,readable := admitted },codable.ordered⟩
  | setSignatureValue octets => exact .reset (codable.withValue rfl (storable_make (by decide) legal))
  | setSignatureValueBuffer octets =>
    cases octets with
    | none => exact consistent
    | some octets => exact .reset (codable.withValue rfl (valueBare octets))
  | setContentType type =>
    simp only [call]
    split
    · exact consistent
    · have limit : type.toNat ≤ maxUInt32 := Nat.le_of_lt_succ type.toNat_lt
      exact .reset (codable.withMetaInfo { codable.read.metaInfo with type := limit } { codable.ordered with })
  | setFreshnessPeriod freshnessPeriod =>
    simp only [call,setFreshnessPeriod,MetaInfo.setFreshnessPeriod]
    split
    · exact consistent
    split
    · exact consistent
    · rename_i m set
      obtain ⟨_,rfl⟩ : ¬ freshnessPeriod < 0 ∧ { d.metaInfo with freshnessPeriod := freshnessPeriod } = m := by
        split at set
        · cases set
        · rename_i positive
          exact ⟨positive,Except.ok.inj set⟩
      exact .reset (codable.withMetaInfo { codable.read.metaInfo with } { codable.ordered with })
  | setFinalBlock finalBlockId =>
    simp only [call]
    split
    · exact consistent
    · exact .reset (codable.withMetaInfo { codable.read.metaInfo with finalBlockId := legal } { codable.ordered with finalBlockId := admitted })
  | wireEncode => exact wireEncode_consistent consistent admitted
  | wireEncodeSigned signature => exact reread_consistent consistent rfl (storable_make (by decide) legal)
  | getFullName => exact getFullName_consistent consistent
  | extractSignedRanges => exact wireEncode_consistent consistent admitted

end

theorem start_consistent (start : d.Start) : d.Consistent sha := by
  rcases start with ⟨name,legal,rfl⟩ | ⟨w,reads,decoded,ordered⟩
  · exact ⟨⟨read_named legal,⟨by simp,by simp⟩⟩,nofun,fun filled => absurd rfl filled⟩
  · obtain ⟨first,rest,accepted⟩ := wireDecode_accepted decoded
    refine ⟨⟨accepted.read,ordered⟩,?_,fun filled => absurd accepted.unnamed filled⟩
    intro w' wired
    cases accepted.wired.symm.trans wired
    refine ⟨reads,?_⟩
    rw [decoded,← accepted.unnamed]

theorem guarded_consistent (path : Guarded (step sha) Start (fun d method => method.Legal ∧ method.Admitted d) d) :
    d.Consistent sha := by
  refine path.invariant (fun d start => start_consistent start) ?_
  intro d method e _ consistent meets taken
  cases taken
  exact call_consistent consistent meets.1 meets.2

end DataPacket

namespace Element
variable {start : Nat}

theorem place_append : place start (front ++ back) = place start front ++ place (start + (Block.wires front).length) back := by
  induction front generalizing start with
  | nil => rfl
  | cons b rest ih =>
    have whole : (Block.wires (b :: rest)).length = b.size + (Block.wires rest).length := by simp [Block.wires,Block.size]
    rw [cons_append,place,ih,place,whole,cons_append,Nat.add_assoc]

theorem getLast_place (start : Nat) (filled : front ≠ []) : ∃ e, (place start front).getLast? = some e ∧ e.stop = start + (Block.wires front).length := by
  obtain ⟨early,last,rfl⟩ : ∃ early last, front = early ++ [last] := ⟨_,_,(dropLast_append_getLast filled).symm⟩
  refine ⟨⟨start + (Block.wires early).length,last⟩,?_,?_⟩
  · rw [place_append]
    simp [place]
  · simp only [stop,Block.wires_append,length_append]
    simp [Block.wires,Block.size,Nat.add_assoc]

end Element

namespace DataPacket
variable {d e : DataPacket} {b w value info : Block} {sha : Sha256}

theorem SameFields.refl (d : DataPacket) : SameFields d d := by
  refine ⟨rfl,⟨rfl,rfl,rfl,rfl⟩,rfl,?_,rfl⟩
  cases located : d.signatureInfo.keyLocator with
  | none => simp [SignatureInfo.equals,located]
  | some k => cases k <;> simp [SignatureInfo.equals,located,KeyLocator.equals]

theorem reread_invalid (codable : d.Codable) : (d.reread ⟨invalidType,[],[]⟩).raised ≠ none := by
  rw [reread]
  cases written : d.encoding ⟨invalidType,[],[]⟩ with
  | error fault => nofun
  | ok b =>
    simp only
    split
    · nofun
    · rename_i fits
      obtain ⟨info,encoded⟩ := encoding_parts written
      have reads := encoded.unsigned_reads codable (Nat.not_lt.mp fits)
      have broken : b.parse = none := by
        rw [encoded.whole,Block.wires_append]
        exact Block.parseOctets_none reads (by decide) (by decide) _
      have typed : b.type = tlvData := by
        rw [encoded.whole]
        rfl
      rw [wireDecode,if_neg (not_not_intro typed),broken]
      nofun

theorem wireEncode_fine (consistent : d.Consistent sha) (fine : d.wireEncode.raised = none) :
    d.wireEncode.after.Consistent sha ∧ d.wireEncode.after.SameFields d ∧ ∃ w, d.wireEncode.after.wire = some w := by
  unfold wireEncode at fine ⊢
  split at fine
  · rename_i wired
    rw [if_pos wired]
    exact ⟨consistent,.refl d,ne_none_iff_exists'.mp wired⟩
  rename_i unwired
  rw [if_neg unwired]
  split at fine
  · cases fine
  rename_i valid
  rw [if_neg valid]
  cases set : d.signatureValue with
  | none =>
    rw [set] at fine
    exact absurd fine (reread_invalid consistent.codable)
  | some value =>
    obtain ⟨typed,storable⟩ := consistent.codable.read.signatureValue value set
    rw [set] at fine
    simp only [getD_some] at fine ⊢
    rcases reread_parts consistent.codable typed storable with ⟨fault,same⟩ | ⟨b,info,encoded,fits,same⟩
    · rw [same] at fine
      cases fine
    · rw [same]
      exact ⟨encoded.consistent consistent.codable fits typed storable,rereadAs_same (by rw [set]; rfl),b,rfl⟩

theorem signedRange_exact (parsed : w.parse = some (front ++ sv :: back)) (filled : front ≠ [])
    (typed : sv.type = tlvSignatureValue) (before : ∀ b ∈ front, b.type ≠ tlvSignatureValue) :
    signedRange w = some (valueStart ⟨0,w⟩,valueStart ⟨0,w⟩ + (Block.wires front).length) := by
  have placed : parse ⟨0,w⟩ = some (Element.place (valueStart ⟨0,w⟩) (front ++ sv :: back)) := congrArg (Option.map _) parsed
  have early : ∀ e ∈ Element.place (valueStart ⟨0,w⟩) front, (!InterestPacket.isOfType tlvSignatureValue e) := by
    intro e present
    have listed := mem_map_of_mem (f := block) present
    rw [map_block_place] at listed
    simpa [InterestPacket.isOfType] using before _ listed
  have cut : (Element.place (valueStart ⟨0,w⟩) (front ++ sv :: back)).takeWhile (fun e => !InterestPacket.isOfType tlvSignatureValue e) =
      Element.place (valueStart ⟨0,w⟩) front := by
    rw [place_append,takeWhile_append_of_pos early]
    simp [Element.place,InterestPacket.isOfType,typed]
  obtain ⟨lastSigned,ends,stops⟩ := getLast_place (valueStart ⟨0,w⟩) filled
  simp [signedRange,placed,cut,ends,stops]

theorem Consistent.signed (consistent : d.Consistent sha) (wired : d.wire = some w) :
    ∃ front sv back, w.parse = some (front ++ sv :: back) ∧ d.signatureValue = some sv ∧ sv.type = tlvSignatureValue ∧
      (∀ b ∈ front, b.type ≠ tlvSignatureValue) ∧ signedRange w = some (valueStart ⟨0,w⟩,valueStart ⟨0,w⟩ + (Block.wires front).length) ∧
      (w.wire.drop (valueStart ⟨0,w⟩)).take (Block.wires front).length = Block.wires front := by
  obtain ⟨reads,decoded⟩ := consistent.wire w wired
  obtain ⟨first,rest,accepted⟩ := wireDecode_accepted decoded
  obtain ⟨sv,set⟩ := ne_none_iff_exists'.mp accepted.value
  obtain ⟨front,back,rfl,typed,before,_⟩ := decodeElements_value accepted.decoded (by decide) rfl set
  have apart := forall_mem_cons.mpr ⟨by rw [accepted.nameTyped]; decide,before⟩
  have parsed : w.parse = some ((first :: front) ++ sv :: back) := accepted.parsed
  refine ⟨first :: front,sv,back,parsed,set,typed,apart,signedRange_exact parsed nofun typed apart,?_⟩
  have value : w.wire.drop (valueStart ⟨0,w⟩) = w.value := by
    simpa [valueStart] using reads.value_suffix
  rw [value,← (Block.parseOctets_parts parsed).1,Block.wires_append,take_left]

-- As long as every argument can be read back and a Data is encoded only when it
-- is signed, the caches are what the fields encode to.
theorem caches_follow_fields (sha : Sha256) (d : DataPacket)
    (path : Guarded (step sha) Start (fun d method => method.Legal ∧ method.Admitted d) d) :
    (d.wireEncode.raised = none →
      ∃ w e, d.wireEncode.after.wire = some w ∧ ({} : DataPacket).wireDecode w = ⟨none,e⟩ ∧ e.SameFields d) ∧
    (∀ w ∈ d.wire, ∃ e, ({} : DataPacket).wireDecode w = ⟨none,e⟩ ∧ e.SameFields d) ∧
    (d.fullName ≠ [] → ∃ w ∈ d.wire, d.fullName = d.name ++ [⟨tlvImplicitSha256DigestComponent,sha.digest w.wire⟩]) ∧
    ∀ range, d.extractSignedRanges = .ok range →
      ∃ w front sv back, d.wireEncode.after.wire = some w ∧ w.parse = some (front ++ sv :: back) ∧ d.wireEncode.after.signatureValue = some sv ∧
        sv.type = tlvSignatureValue ∧ (∀ b ∈ front, b.type ≠ tlvSignatureValue) ∧
        range = some (valueStart ⟨0,w⟩,valueStart ⟨0,w⟩ + (Block.wires front).length) ∧
        (w.wire.drop (valueStart ⟨0,w⟩)).take (Block.wires front).length = Block.wires front := by
  have consistent := guarded_consistent path
  refine ⟨fun fine => ?_,fun w wired => ?_,consistent.fullName,fun range extracted => ?_⟩
  · obtain ⟨after,same,w,wired⟩ := wireEncode_fine consistent fine
    exact ⟨w,_,wired,(after.wire w wired).2,{ same with }⟩
  · exact ⟨_,(consistent.wire w wired).2,{ SameFields.refl d with }⟩
  · unfold extractSignedRanges at extracted
    split at extracted
    · cases extracted
    rename_i fine
    cases extracted
    obtain ⟨after,_,w,wired⟩ := wireEncode_fine consistent fine
    obtain ⟨front,sv,back,parsed,set,typed,before,signed,covered⟩ := after.signed wired
    exact ⟨w,front,sv,back,wired,parsed,set,typed,before,by rw [wired]; exact signed,covered⟩

def sampleData : DataPacket := { name := [⟨tlvGenericNameComponent,[65]⟩] }

def sampleMethods (info : SignatureInfo) : List DataMethod :=
  [.setContent [1,2],.setSignatureInfo info,.setSignatureValue [9],.wireEncode,.getFullName]

def afterMethods (d : DataPacket) (methods : List DataMethod) : DataPacket :=
  methods.foldl (fun d method => (d.call sampleSha method).after) d

theorem sample_start : sampleData.Start := .inl ⟨_,by decide,rfl⟩

theorem caches_follow_fields_sample :
    ∃ w e, (afterMethods sampleData (sampleMethods { type := some 0 })).wire = some w ∧ ({} : DataPacket).wireDecode w = ⟨none,e⟩ ∧
      e.SameFields (afterMethods sampleData (sampleMethods { type := some 0 })) ∧
      (afterMethods sampleData (sampleMethods { type := some 0 })).fullName =
        sampleData.name ++ [⟨tlvImplicitSha256DigestComponent,sampleSha.digest w.wire⟩] ∧
      (afterMethods sampleData (sampleMethods { type := some 0 })).extractSignedRanges = .ok (some (2,18)) := by
  have content : (setContent [1,2]).Legal := (by decide : [(1 : UInt8),2].length ≤ maxBufferSize)
  have info : (setSignatureInfo { type := some 0 }).Legal := ⟨by simp,by simp,by simp,by simp⟩
  have readable : SignatureInfo.Readable { type := some 0 } := by simp [SignatureInfo.Readable]
  have value : (setSignatureValue [9]).Legal := (by decide : [(9 : UInt8)].length ≤ maxBufferSize)
  have encode : DataMethod.wireEncode.Legal := True.intro
  have name : DataMethod.getFullName.Legal := True.intro
  have signed : DataMethod.wireEncode.Admitted
      (afterMethods sampleData [.setContent [1,2],.setSignatureInfo { type := some 0 },.setSignatureValue [9]]) := by
    intro _ never
    cases never
  have path : Guarded (step sampleSha) Start (fun d method => method.Legal ∧ method.Admitted d)
      (afterMethods sampleData (sampleMethods { type := some 0 })) :=
    .next (.next (.next (.next (.next (.start sample_start) ⟨content,True.intro⟩ rfl) ⟨info,readable⟩ rfl) ⟨value,True.intro⟩ rfl)
      ⟨encode,signed⟩ rfl) ⟨name,True.intro⟩ rfl
  obtain ⟨_,cached,named,_⟩ := caches_follow_fields sampleSha _ path
  obtain ⟨w,wired,full⟩ := named (by decide)
  obtain ⟨e,decoded,same⟩ := cached w wired
  exact ⟨w,e,wired,decoded,same,full,by decide⟩

-- A SignatureInfo with an empty nonce can be made and is written, but is not read.
def emptyNonceInfo : SignatureInfo := { type := some 0,otherTlvs := [Block.make tlvSignatureNonce []] }

-- The encoding that was refused stays, and the next call returns it.
theorem refused_encoding_kept : ∃ d w, Guarded (step sampleSha) Start (fun _ method => method.Legal) d ∧ d.wire = some w ∧
    d.wireEncode = ⟨none,d⟩ ∧ (({} : DataPacket).wireDecode w).raised = some (.signatureInfo .emptyNonce) := by
  have content : (setContent [1,2]).Legal := (by decide : [(1 : UInt8),2].length ≤ maxBufferSize)
  have info : (setSignatureInfo emptyNonceInfo).Legal := by
    refine ⟨?_,by simp [emptyNonceInfo],?_,by simp [emptyNonceInfo]⟩
    · rintro _ ⟨⟩
      decide
    · intro b listed
      cases mem_singleton.mp listed
      exact .inl (Block.reads_make (by decide) (by decide))
  have value : (setSignatureValue [9]).Legal := (by decide : [(9 : UInt8)].length ≤ maxBufferSize)
  have encode : DataMethod.wireEncode.Legal := True.intro
  have name : DataMethod.getFullName.Legal := True.intro
  have path : Guarded (step sampleSha) Start (fun _ method => method.Legal)
      (afterMethods sampleData (sampleMethods emptyNonceInfo)) :=
    .next (.next (.next (.next (.next (.start sample_start) content rfl) info rfl) value rfl) encode rfl) name rfl
  obtain ⟨w,wired⟩ := isSome_iff_exists.mp (by decide : (afterMethods sampleData (sampleMethods emptyNonceInfo)).wire.isSome)
  refine ⟨_,w,path,wired,by decide,?_⟩
  have refused : (afterMethods sampleData (sampleMethods emptyNonceInfo)).wire.map (fun w => (({} : DataPacket).wireDecode w).raised) =
      some (some (.signatureInfo .emptyNonce)) := by decide
  rw [wired] at refused
  exact some.inj refused

end DataPacket
end ReflexiveNfd
