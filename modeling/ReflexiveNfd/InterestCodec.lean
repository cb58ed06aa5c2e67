import ReflexiveNfd.InterestSetters

namespace ReflexiveNfd
open Octets Tlv List Option Results Block Element Name Nat

namespace InterestPacket

def Stored (type : Nat) : Prop := isCriticalType type = false ∧ type ≠ tlvHopLimit ∧ type ≠ tlvApplicationParameters

structure SameFields (i j : InterestPacket) : Prop where
  name : i.getName = j.getName
  canBePrefix : i.canBePrefix = j.canBePrefix
  mustBeFresh : i.mustBeFresh = j.mustBeFresh
  forwardingHint : i.forwardingHint = j.forwardingHint
  nonce : i.nonce = j.nonce
  interestLifetime : i.interestLifetime = j.interestLifetime
  hopLimit : i.hopLimit = j.hopLimit
  parameters : i.parameterBlocks = j.parameterBlocks

-- A SignatureInfo of a Data can get among the parameters of an Interest; what is
-- encoded then cannot be decoded.
structure Parameters (blocks : List Block) : Prop where
  first : ∀ b ∈ blocks.head?, b.type = tlvApplicationParameters
  later : ∀ b ∈ blocks.tail, Stored b.type ∨ b.type = tlvSignatureInfo
  reads : ∀ b ∈ blocks, b.Reads

structure Encodable (i : InterestPacket) : Prop where
  name : i.getName.Legal
  forwardingHint : ∀ n ∈ i.forwardingHint, n.Legal
  parameters : Parameters i.parameterBlocks

variable {i j acc set : InterestPacket} {k start : Nat} {b : Block} {rest blocks : List Block}

theorem decodeElements_cons (decoded : decodeElement i last ⟨start,b⟩ = .ok (set,k)) :
    decodeElements i last start (b :: rest) = decodeElements set k (start + b.size) rest := by
  rw [decodeElements,decoded,ok_bind]

-- Blocks that take the decoder from one set of fields to another, wherever they
-- stand; limit and bound are for the index of the last recognized element.
def Passes (acc : InterestPacket) (limit : Nat) (blocks : List Block) (set : InterestPacket) (bound : Nat) : Prop :=
  ∀ last ≤ limit, ∀ start rest, ∃ next place, next ≤ bound ∧
    decodeElements acc last start (blocks ++ rest) = decodeElements set next place rest

theorem Passes.append (first : Passes acc limit front mid bound)
    (second : Passes mid bound back set k) : Passes acc limit (front ++ back) set k := by
  intro last within start rest
  obtain ⟨next,place,reached,read⟩ := first last within start (back ++ rest)
  rw [append_assoc,read]
  exact second next reached place rest

theorem Passes.optional
    (found : ∀ b ∈ field, ∀ last ≤ limit, ∀ start, decodeElement acc last ⟨start,b⟩ = .ok (set,k))
    (absent : field = none → set = acc) (order : limit ≤ k) : Passes acc limit field.toList set k := by
  intro last within start rest
  cases field with
  | none => exact ⟨last,start,by omega,by rw [absent rfl]; rfl⟩
  | some b => exact ⟨k,start + b.size,le_refl _,decodeElements_cons (found b rfl last within start)⟩

theorem passes_canBePrefix (default : acc.canBePrefix = false) :
    Passes acc 1 i.canBePrefixField.toList { acc with canBePrefix := i.canBePrefix } 2 := by
  refine .optional ?_ (fun absent => ?_) (by omega)
  · intro b present last within start
    obtain ⟨flag,⟨⟩⟩ := ite_none_right_eq_some.mp present
    simp [decodeElement,make,flag,lt_succ_of_le within]
  · rw [show i.canBePrefix = acc.canBePrefix by simpa [canBePrefixField,default] using absent]

theorem passes_mustBeFresh (default : acc.mustBeFresh = false) :
    Passes acc 2 i.mustBeFreshField.toList { acc with mustBeFresh := i.mustBeFresh } 3 := by
  refine .optional ?_ (fun absent => ?_) (by omega)
  · intro b present last within start
    obtain ⟨flag,⟨⟩⟩ := ite_none_right_eq_some.mp present
    simp [decodeElement,make,flag,lt_succ_of_le within,tlvCanBePrefix,tlvMustBeFresh]
  · rw [show i.mustBeFresh = acc.mustBeFresh by simpa [mustBeFreshField,default] using absent]

theorem decodeForwardingHint_encode (legal : ∀ n ∈ names, n.Legal)
    (small : (wires (names.map Name.wireEncode)).length < 2 ^ 64) :
    decodeForwardingHint (names.map Name.wireEncode) = .ok names := by
  induction names with
  | nil => rfl
  | cons n rest ih =>
    obtain ⟨first,later⟩ := forall_mem_cons.mp legal
    have whole : (wires ((n :: rest).map Name.wireEncode)).length =
        n.wireEncode.size + (wires (rest.map Name.wireEncode)).length := by
      simp [wires,Block.size]
    have read : decodeDelegation n.wireEncode = .ok (some n) := by
      rw [decodeDelegation,if_pos (show n.wireEncode.type = tlvName from rfl),ofBlock_wireEncode first (by omega)]
    rw [map_cons,decodeForwardingHint,read,ih later (by omega)]
    rfl

theorem wireEncode_reads {names : List Name} (small : (wires (names.map Name.wireEncode)).length < 2 ^ 64) :
    ∀ b ∈ names.map Name.wireEncode, b.Reads := by
  intro b present
  have bound := length_wire_le present
  obtain ⟨n,_,rfl⟩ := mem_map.mp present
  have inner := length_value_make_le tlvName (wires n.encodeValue)
  exact reads_make (by decide) (lt_of_le_of_lt inner (lt_of_le_of_lt bound small))

theorem decodeElement_forwardingHint (before : last < 4) (typed : b.type = tlvForwardingHint)
    (parsed : b.parse = some delegations) (decoded : decodeForwardingHint delegations = .ok names) :
    decodeElement acc last ⟨start,b⟩ = .ok ({ acc with forwardingHint := names },4) := by
  simp [decodeElement,typed,parsed,decoded,before,Except.map,tlvCanBePrefix,tlvMustBeFresh,tlvForwardingHint]

theorem passes_forwardingHint (default : acc.forwardingHint = []) (legal : ∀ n ∈ i.forwardingHint, n.Legal)
    (small : ∀ b ∈ i.forwardingHintField, b.size < 2 ^ 64) :
    Passes acc 3 i.forwardingHintField.toList { acc with forwardingHint := i.forwardingHint } 4 := by
  refine .optional ?_ (fun absent => ?_) (by omega)
  · intro b present last within start
    have bound := small b present
    obtain ⟨_,⟨⟩⟩ := ite_none_left_eq_some.mp present
    have inner := length_value_make_le tlvForwardingHint (wires (i.forwardingHint.map Name.wireEncode))
    have fits := lt_of_le_of_lt inner bound
    exact decodeElement_forwardingHint (by omega) rfl (parse_make _ (wireEncode_reads fits)) (decodeForwardingHint_encode legal fits)
  · rw [show i.forwardingHint = acc.forwardingHint by simpa [forwardingHintField,default] using absent]

theorem readNonce_encode (nonce : Nonce) : readNonce (encodeNonce nonce) = nonce := by
  rw [readNonce,encodeNonce,ofBigEndian_toBigEndian 4 _ nonce.toNat_lt,UInt32.ofNat_toNat]

theorem passes_nonce (nonce : Nonce) : Passes acc 4 [make tlvNonce (encodeNonce nonce)] { acc with nonce := some nonce } 5 := by
  show Passes acc 4 (some (make tlvNonce (encodeNonce nonce))).toList _ 5
  refine .optional ?_ nofun (by omega)
  rintro _ ⟨⟩ last within start
  have four : (encodeNonce nonce).length = 4 := by rw [encodeNonce,length_toBigEndian]
  simp [decodeElement,make,lt_succ_of_le within,four,readNonce_encode,tlvCanBePrefix,tlvMustBeFresh,tlvForwardingHint,tlvNonce]

theorem millisecondsOf_toUInt64 (lifetime : Int64) : millisecondsOf lifetime.toUInt64.toNat = lifetime := by
  rw [millisecondsOf,UInt64.ofNat_toNat]
  rfl

theorem passes_lifetime (default : acc.interestLifetime = defaultInterestLifetime) :
    Passes acc 5 i.lifetimeField.toList { acc with interestLifetime := i.interestLifetime } 6 := by
  refine .optional ?_ (fun absent => ?_) (by omega)
  · intro b present last within start
    obtain ⟨_,⟨⟩⟩ := ite_none_left_eq_some.mp present
    have read := readNonNegativeInteger_encode i.interestLifetime.toUInt64.toNat_lt
    simp [decodeElement,make,lt_succ_of_le within,read,millisecondsOf_toUInt64,tlvCanBePrefix,tlvMustBeFresh,tlvForwardingHint,
      tlvNonce,tlvInterestLifetime]
  · rw [show i.interestLifetime = acc.interestLifetime by simpa [lifetimeField,default] using absent]

theorem passes_hopLimit (default : acc.hopLimit = none) :
    Passes acc 6 i.hopLimitField.toList { acc with hopLimit := i.hopLimit } 7 := by
  refine .optional ?_ (fun absent => ?_) (by omega)
  · intro b present last within start
    obtain ⟨limit,set,rfl⟩ := map_eq_some_iff.mp present
    simp [decodeElement,make,lt_succ_of_le within,set,tlvCanBePrefix,tlvMustBeFresh,tlvForwardingHint,tlvNonce,
      tlvInterestLifetime,tlvHopLimit]
  · rw [show i.hopLimit = acc.hopLimit by simpa [hopLimitField,default] using absent]

def headed (generated : Nonce) (name : List Element) (wire : Block) (i : InterestPacket) : InterestPacket :=
  { i with name := name,nonce := some (i.nonce.getD generated),parameters := [],wire := some wire }

theorem passes_headers (legal : i.Encodable) (small : (wires (i.encodeElements generated)).length < 2 ^ 64)
    (name : List Element) (wire : Block) :
    Passes { name := name,wire := some wire } 1 (i.headers generated) (i.headed generated name wire) 7 := by
  have hinted : ∀ b ∈ i.forwardingHintField, b.size < 2 ^ 64 := by
    intro b present
    refine lt_of_le_of_lt (length_wire_le ?_) small
    simp [encodeElements,headers,mem_def.mp present]
  exact (((((passes_canBePrefix rfl).append (passes_mustBeFresh rfl)).append (passes_forwardingHint rfl legal.forwardingHint hinted)).append
    (passes_nonce _)).append (passes_lifetime rfl)).append (passes_hopLimit rfl)

theorem decodeElement_stored (stored : Stored b.type) (has : acc.parameters ≠ []) :
    decodeElement acc last ⟨start,b⟩ = .ok ({ acc with parameters := acc.parameters ++ [⟨start,b⟩] },last) := by
  obtain ⟨ignorable,hopLimit,parameters⟩ := stored
  have range : ¬ b.type ≤ 31 ∧ ¬ b.type % 2 = 1 := by simpa [isCriticalType] using ignorable
  have others : b.type ≠ tlvCanBePrefix ∧ b.type ≠ tlvMustBeFresh ∧ b.type ≠ tlvForwardingHint ∧ b.type ≠ tlvNonce ∧
      b.type ≠ tlvInterestLifetime := by
    simp only [tlvCanBePrefix,tlvMustBeFresh,tlvForwardingHint,tlvNonce,tlvInterestLifetime]
    omega
  simp [decodeElement,others,hopLimit,parameters,ignorable,hasApplicationParameters,has]

theorem decodeElements_stored (stored : ∀ b ∈ blocks, Stored b.type) (has : acc.parameters ≠ []) :
    decodeElements acc last start blocks = .ok { acc with parameters := acc.parameters ++ Element.place start blocks } := by
  induction blocks generalizing acc start with
  | nil => simp [decodeElements,Element.place]
  | cons b rest ih =>
    obtain ⟨first,later⟩ := forall_mem_cons.mp stored
    rw [decodeElements_cons (decodeElement_stored first has),ih later (by simp)]
    simp [Element.place]

theorem decodeElements_parameters (legal : Parameters blocks) (apart : ∀ b ∈ blocks, b.type ≠ tlvSignatureInfo) (within : last ≤ 7)
    (default : acc.parameters = []) :
    decodeElements acc last start blocks = .ok { acc with parameters := Element.place start blocks } := by
  cases blocks with
  | nil =>
    rw [decodeElements,Element.place,← default]
  | cons b rest =>
    have typed := legal.first b rfl
    have read : decodeElement acc last ⟨start,b⟩ = .ok ({ acc with parameters := [⟨start,b⟩] },8) := by
      simp [decodeElement,typed,default,lt_succ_of_le within,tlvCanBePrefix,tlvMustBeFresh,tlvForwardingHint,tlvNonce,
        tlvInterestLifetime,tlvHopLimit,tlvApplicationParameters]
    have stored : ∀ b ∈ rest, Stored b.type := fun b present =>
      (legal.later b present).resolve_right (apart b (mem_cons_of_mem _ present))
    rw [decodeElements_cons read,decodeElements_stored stored (by simp)]
    rfl

theorem decodeElements_apart (decoded : decodeElements acc last start blocks = .ok j) : ∀ b ∈ blocks, b.type ≠ tlvSignatureInfo := by
  induction blocks generalizing acc last start with
  | nil => simp
  | cons b rest ih =>
    obtain ⟨⟨next,bound⟩,read,others⟩ := bind_parts decoded
    refine forall_mem_cons.mpr ⟨fun typed => ?_,ih others⟩
    simp [decodeElement,typed,tlvSignatureInfo,isCriticalType,tlvCanBePrefix,tlvMustBeFresh,tlvForwardingHint,tlvNonce,
      tlvInterestLifetime,tlvHopLimit,tlvApplicationParameters] at read

theorem headers_made (generated : Nonce) (i : InterestPacket) (present : b ∈ i.headers generated) :
    ∃ type value, b = make type value ∧ type ≠ invalidType ∧ type ≤ maxUInt32 := by
  simp only [headers,mem_append,mem_singleton,mem_toList,canBePrefixField,mustBeFreshField,forwardingHintField,
    lifetimeField,hopLimitField,ite_none_right_eq_some,ite_none_left_eq_some,map_eq_some_iff,Option.some.injEq] at present
  rcases present with ((((⟨_,rfl⟩ | ⟨_,rfl⟩) | ⟨_,rfl⟩) | rfl) | ⟨_,rfl⟩) | ⟨_,_,rfl⟩
  all_goals exact ⟨_,_,rfl,by decide,by decide⟩

theorem encodeElements_reads (legal : i.Encodable) (small : (wires (i.encodeElements generated)).length < 2 ^ 64) :
    ∀ b ∈ i.encodeElements generated, b.Reads := by
  intro b present
  have bound := lt_of_le_of_lt (length_wire_le present) small
  have made : ∀ type value, type ≠ invalidType ∧ type ≤ maxUInt32 → b = make type value → b.Reads := by
    rintro type value range rfl
    exact reads_make range (lt_of_le_of_lt (length_value_make_le type value) bound)
  rcases mem_cons.mp present with rfl | later
  · exact made _ _ (by decide) rfl
  · rcases mem_append.mp later with header | parameter
    · obtain ⟨type,value,same,range⟩ := headers_made generated i header
      exact made type value range same
    · obtain ⟨block,listed,rfl⟩ := mem_map.mp parameter
      rw [(legal.parameters.reads block listed).encoded]
      exact legal.parameters.reads block listed

theorem isParametersDigestValid_congr (name : i.getName = j.getName) (parameters : i.parameterBlocks = j.parameterBlocks) :
    i.isParametersDigestValid sha = j.isParametersDigestValid sha := by
  have has : i.hasApplicationParameters = j.hasApplicationParameters := by
    have lengths := congrArg List.isEmpty parameters
    simpa [parameterBlocks,hasApplicationParameters] using lengths
  simp only [isParametersDigestValid,computeParametersDigest,name,parameters,has]

theorem wireDecode_encoding (sha : Sha256) (autoCheck : Bool) (legal : i.Encodable) (named : i.getName ≠ []) (fits : (i.encoding generated).size ≤ maxBufferSize) :
    ∃ name last place, name.map toComponent = i.getName ∧ last ≤ 7 ∧
      wireDecode sha autoCheck (i.encoding generated) =
        if findParametersDigestComponent i.getName = .several then .error .severalDigests
        else decodeElements (i.headed generated name (i.encoding generated)) last place i.parameterBlocks >>= checkDigest sha autoCheck := by
  have inner := length_value_make_le tlvInterest (wires (i.encodeElements generated))
  have small : (wires (i.encodeElements generated)).length < 2 ^ 64 := by
    exact lt_of_le_of_lt (le_trans inner fits) (by decide)
  have parsed : (i.encoding generated).parse = some (i.encodeElements generated) := parse_make _ (encodeElements_reads legal small)
  have bound := lt_of_le_of_lt (length_wire_le mem_cons_self) small
  have components : (encodeValue i.getName).map (fun c => (⟨c.type,c.value⟩ : Component)) = i.getName := by
    rw [encodeValue,List.map_map]
    exact map_id' _
  have read := parse_make tlvName (encodeValue_reads legal.name
    (lt_of_le_of_lt (length_value_make_le _ _) bound))
  let start := valueStart ⟨0,i.encoding generated⟩
  let name := Element.place (valueStart ⟨start,i.getName.wireEncode⟩) (encodeValue i.getName)
  have same : name.map toComponent = i.getName := by
    rw [map_toComponent_place,components]
  have nonempty : name ≠ [] := by
    intro bare
    rw [bare] at same
    exact named same.symm
  have parsedName : Element.parse ⟨start,i.getName.wireEncode⟩ = some name := by
    rw [Element.parse]
    exact congrArg (Option.map _) read
  obtain ⟨last,place,within,headed⟩ := passes_headers legal small name (i.encoding generated) 1 (le_refl _)
    (start + i.getName.wireEncode.size) (i.parameterBlocks.map encoded)
  have unchanged := (map_congr_left (fun b present => (legal.parameters.reads b present).encoded)).trans (map_id _)
  rw [unchanged] at headed
  refine ⟨name,last,place,same,within,?_⟩
  rw [wireDecode,if_neg (not_not_intro (show (i.encoding generated).type = tlvInterest from rfl)),parsed]
  simp only [encodeElements]
  rw [if_neg (not_not_intro (show i.getName.wireEncode.type = tlvName from rfl)),parsedName]
  simp only [if_neg nonempty,same,unchanged]
  exact if_congr Iff.rfl rfl (congrArg (· >>= checkDigest sha autoCheck) headed)

section
variable (legal : i.Encodable) (named : i.getName ≠ []) (fits : (i.encoding generated).size ≤ maxBufferSize)
include legal named fits

theorem wireDecode_encoding_same (decoded : wireDecode sha autoCheck (i.encoding generated) = .ok j) :
    SameFields j { i with nonce := some (i.nonce.getD generated) } := by
  obtain ⟨name,last,place,same,within,comes⟩ := wireDecode_encoding sha autoCheck legal named fits
  rw [comes] at decoded
  split at decoded
  · cases decoded
  · obtain ⟨k,read,checked⟩ := bind_parts decoded
    have kept : j = k := by
      unfold checkDigest at checked
      split at checked
      · cases checked
      · exact (Except.ok.inj checked).symm
    rw [decodeElements_parameters legal.parameters (decodeElements_apart read) within rfl] at read
    rw [kept,← Except.ok.inj read]
    exact ⟨same,rfl,rfl,rfl,rfl,rfl,rfl,map_block_place⟩

theorem wireDecode_encoding_ok (single : findParametersDigestComponent i.getName ≠ .several) (apart : ∀ b ∈ i.parameterBlocks, b.type ≠ tlvSignatureInfo)
    (valid : autoCheck = true → i.isParametersDigestValid sha) :
    ∃ j, wireDecode sha autoCheck (i.encoding generated) = .ok j := by
  obtain ⟨name,last,place,same,within,comes⟩ := wireDecode_encoding sha autoCheck legal named fits
  rw [comes,if_neg single,decodeElements_parameters legal.parameters apart within rfl,ok_bind]
  have digest : ∀ k : InterestPacket, k.getName = i.getName → k.parameterBlocks = i.parameterBlocks →
      checkDigest sha autoCheck k = .ok k := by
    intro k names parameters
    rw [checkDigest,isParametersDigestValid_congr names parameters,if_neg]
    cases autoCheck <;> simp_all
  exact ⟨_,digest _ same map_block_place⟩

end

structure Read (i : InterestPacket) : Prop where
  encodable : i.Encodable
  apart : ∀ b ∈ i.parameterBlocks, b.type ≠ tlvSignatureInfo

theorem decodeDelegation_legal (decoded : decodeDelegation b = .ok names) : ∀ n ∈ names, n.Legal := by
  rintro n ⟨⟩
  unfold decodeDelegation at decoded
  split at decoded
  · split at decoded
    · cases decoded
    · rename_i read
      cases decoded
      exact ofBlock_legal read
  · split at decoded
    · split at decoded
      · cases decoded
      · rename_i read
        cases decoded
        obtain ⟨_,_,found⟩ := bind_eq_some_iff.mp read
        obtain ⟨_,_,inner⟩ := bind_eq_some_iff.mp found
        exact ofBlock_legal inner
    · split at decoded <;> cases decoded

theorem decodeForwardingHint_legal (decoded : decodeForwardingHint blocks = .ok names) : ∀ n ∈ names, n.Legal := by
  induction blocks generalizing names with
  | nil =>
    cases decoded
    simp
  | cons b rest ih =>
    obtain ⟨first,read,others⟩ := bind_parts decoded
    obtain ⟨later,readLater,⟨⟩⟩ := bind_parts others
    intro n listed
    rcases mem_append.mp listed with here | there
    · exact decodeDelegation_legal read n (mem_toList.mp here)
    · exact ih readLater n there

theorem Parameters.snoc (legal : Parameters blocks) (reads : b.Reads)
    (typed : if blocks = [] then b.type = tlvApplicationParameters else Stored b.type ∨ b.type = tlvSignatureInfo) :
    Parameters (blocks ++ [b]) := by
  cases blocks with
  | nil => exact ⟨by simpa using typed,by simp,by simpa using reads⟩
  | cons first rest =>
    refine ⟨legal.first,fun c listed => ?_,fun c listed => ?_⟩
    · rcases mem_append.mp listed with old | new
      · exact legal.later c old
      · cases mem_singleton.mp new
        simpa using typed
    · rcases mem_append.mp listed with old | new
      · exact legal.reads c old
      · cases mem_singleton.mp new
        exact reads

inductive Effect (i : InterestPacket) (last : Nat) (e : Element) : InterestPacket → Nat → Prop where
  | field {after : InterestPacket} {bound : Nat} (name : after.name = i.name) (wire : after.wire = i.wire)
      (parameters : after.parameters = i.parameters)
      (hint : after.forwardingHint = i.forwardingHint ∨ ∃ delegations, decodeForwardingHint delegations = .ok after.forwardingHint)
      (order : last < bound ∧ bound ≤ 7) : Effect i last e after bound
  | ignored : Effect i last e i last
  | parameters (typed : e.block.type = tlvApplicationParameters) (order : last < 8) :
      Effect i last e { i with parameters := i.parameters ++ [e] } 8
  | stored (typed : Stored e.block.type) (has : i.parameters ≠ []) : Effect i last e { i with parameters := i.parameters ++ [e] } last

theorem decodeElement_effect (decoded : decodeElement i last e = .ok (j,k)) : Effect i last e j k := by
  unfold decodeElement at decoded
  simp only at decoded
  split at decoded
  · split at decoded
    · cases decoded
    · split at decoded
      · cases decoded
      · cases decoded
        exact .field rfl rfl rfl (.inl rfl) (by omega)
  split at decoded
  · split at decoded
    · cases decoded
    · split at decoded
      · cases decoded
      · cases decoded
        exact .field rfl rfl rfl (.inl rfl) (by omega)
  split at decoded
  · split at decoded
    · cases decoded
    · split at decoded
      · cases decoded
      · rename_i delegations _
        obtain ⟨names,hint,same⟩ := map_parts decoded
        cases same
        exact .field rfl rfl rfl (.inr ⟨delegations,hint⟩) (by omega)
  split at decoded
  · split at decoded
    · cases decoded
    · split at decoded
      · cases decoded
      · cases decoded
        exact .field rfl rfl rfl (.inl rfl) (by omega)
  split at decoded
  · split at decoded
    · cases decoded
    · split at decoded
      · cases decoded
      · cases decoded
        exact .field rfl rfl rfl (.inl rfl) (by omega)
  split at decoded
  · split at decoded
    · cases decoded
      exact .ignored
    · split at decoded
      · cases decoded
        exact .field rfl rfl rfl (.inl rfl) (by omega)
      · cases decoded
  rename_i hopLimit
  split at decoded
  · rename_i typed
    split at decoded
    · cases decoded
      exact .ignored
    · cases decoded
      exact .parameters typed (by omega)
  rename_i applicationParameters
  split at decoded
  · cases decoded
  rename_i ignorable
  split at decoded
  · rename_i has
    cases decoded
    exact .stored ⟨by simpa using ignorable,hopLimit,applicationParameters⟩ (by simpa [hasApplicationParameters] using has)
  · cases decoded
    exact .ignored

theorem Effect.read (effect : Effect i last e j k) (reads : e.block.Reads) (read : i.Read)
    (early : last < 8 → i.parameters = []) : j.Read ∧ (k < 8 → j.parameters = []) := by
  obtain ⟨⟨named,hinted,parameters⟩,apart⟩ := read
  have push : (if i.parameterBlocks = [] then e.block.type = tlvApplicationParameters else Stored e.block.type ∨ e.block.type = tlvSignatureInfo) →
      e.block.type ≠ tlvSignatureInfo → Read { i with parameters := i.parameters ++ [e] } := by
    intro typed other
    have blocks : ({ i with parameters := i.parameters ++ [e] } : InterestPacket).parameterBlocks = i.parameterBlocks ++ [e.block] := by
      simp [parameterBlocks]
    refine ⟨⟨named,hinted,blocks ▸ parameters.snoc reads typed⟩,fun c listed => ?_⟩
    rw [blocks] at listed
    rcases mem_append.mp listed with old | new
    · exact apart c old
    · cases mem_singleton.mp new
      exact other
  cases effect with
  | field name wire same hint order =>
    have blocks : j.parameterBlocks = i.parameterBlocks := congrArg (List.map Element.block) same
    refine ⟨⟨⟨?_,?_,blocks ▸ parameters⟩,blocks ▸ apart⟩,fun _ => same.trans (early (by omega))⟩
    · rw [getName,name]
      exact named
    · rcases hint with unchanged | ⟨_,decoded⟩
      · exact unchanged ▸ hinted
      · exact decodeForwardingHint_legal decoded
  | ignored => exact ⟨⟨⟨named,hinted,parameters⟩,apart⟩,early⟩
  | parameters typed order =>
    refine ⟨push ?_ (by rw [typed]; decide),fun less => absurd less (by omega)⟩
    rw [if_pos (by simp [parameterBlocks,early order])]
    exact typed
  | stored typed has =>
    refine ⟨push ?_ ?_,fun less => absurd (early less) has⟩
    · rw [if_neg (by simpa [parameterBlocks] using has)]
      exact .inl typed
    · intro wrong
      have critical := typed.1
      rw [wrong] at critical
      cases critical

theorem decodeElements_read (reads : ∀ b ∈ blocks, b.Reads) (read : i.Read) (early : last < 8 → i.parameters = [])
    (decoded : decodeElements i last start blocks = .ok j) : j.Read := by
  induction blocks generalizing i last start with
  | nil =>
    cases decoded
    exact read
  | cons b rest ih =>
    obtain ⟨first,later⟩ := forall_mem_cons.mp reads
    obtain ⟨⟨next,bound⟩,step,others⟩ := bind_parts decoded
    obtain ⟨kept,order⟩ := (decodeElement_effect step).read first read early
    exact ih later kept order others

theorem decodeElements_frame (decoded : decodeElements i last start blocks = .ok j) : j.name = i.name ∧ j.wire = i.wire := by
  induction blocks generalizing i last start with
  | nil =>
    cases decoded
    exact ⟨rfl,rfl⟩
  | cons b rest ih =>
    obtain ⟨⟨next,bound⟩,step,others⟩ := bind_parts decoded
    have kept : next.name = i.name ∧ next.wire = i.wire := by
      cases decodeElement_effect step with
      | field name wire => exact ⟨name,wire⟩
      | ignored | parameters | stored => exact ⟨rfl,rfl⟩
    exact ⟨(ih others).1.trans kept.1,(ih others).2.trans kept.2⟩

structure Accepted (sha : Sha256) (autoCheck : Bool) (wire : Block) (i : InterestPacket) (first : Block) (rest : List Block) : Prop where
  parsed : wire.parse = some (first :: rest)
  named : Element.parse ⟨valueStart ⟨0,wire⟩,first⟩ = some i.name
  nonempty : i.getName ≠ []
  single : findParametersDigestComponent i.getName ≠ .several
  decoded : decodeElements { name := i.name,wire := some wire } 1 (valueStart ⟨0,wire⟩ + first.size) rest = .ok i
  valid : autoCheck = true → i.isParametersDigestValid sha
  wired : i.wire = some wire

theorem wireDecode_accepted {wire : Block} (decoded : wireDecode sha autoCheck wire = .ok i) :
    ∃ first rest, Accepted sha autoCheck wire i first rest := by
  unfold wireDecode at decoded
  split at decoded
  · cases decoded
  split at decoded
  · cases decoded
  · cases decoded
  · rename_i first rest parsed
    simp only at decoded
    split at decoded
    · cases decoded
    split at decoded
    · cases decoded
    · rename_i name named
      split at decoded
      · cases decoded
      rename_i nonempty
      split at decoded
      · cases decoded
      rename_i single
      obtain ⟨j,read,checked⟩ := bind_parts decoded
      unfold checkDigest at checked
      split at checked
      · cases checked
      · rename_i passed
        cases checked
        obtain ⟨same,wired⟩ := decodeElements_frame read
        subst same
        refine ⟨first,rest,parsed,named,by simpa [getName] using nonempty,single,read,?_,wired⟩
        rintro rfl
        simpa using passed

theorem Accepted.read {wire first : Block} (accepted : Accepted sha autoCheck wire i first rest) : i.Read := by
  have reads := (parseOctets_parts accepted.parsed).2
  refine decodeElements_read (fun b present => reads b (mem_cons_of_mem _ present)) ?_ (fun _ => rfl) accepted.decoded
  obtain ⟨elements,parsed,placed⟩ := map_eq_some_iff.mp accepted.named
  refine ⟨⟨?_,by simp,⟨by simp [parameterBlocks],by simp [parameterBlocks],by simp [parameterBlocks]⟩⟩,by simp [parameterBlocks]⟩
  refine ofBlock_legal (b := first) ?_
  rw [ofBlock,parsed,getName,← placed,map_toComponent_place]
  rfl

end InterestPacket
end ReflexiveNfd
