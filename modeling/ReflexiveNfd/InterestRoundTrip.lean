import Mathlib.Data.List.InsertIdx
import ReflexiveNfd.InterestCodec

namespace ReflexiveNfd
open Octets Tlv List

def Block.Legal (b : Block) : Prop := b.Reads ∧ b.size ≤ maxBufferSize ∨ b.wire = [] ∧ b.value.length ≤ maxBufferSize

def InterestSetter.Legal : InterestSetter → Prop
  | setName name => Name.Legal (name.map Element.toComponent)
  | setForwardingHint value => ∀ n ∈ value, n.Legal
  | setApplicationParameters (.block b) => b.Legal
  | setApplicationParameters (.octets value) => value.length ≤ maxBufferSize
  | setSignatureInfo info => info.Legal
  | setSignatureValue (some value) => value.length ≤ maxBufferSize
  | _ => True

namespace InterestPacket
variable {i j : InterestPacket} {b : Block} {setter : InterestSetter} {elements : List Element}

structure Built (i : InterestPacket) : Prop where
  encodable : i.Encodable
  unwired : i.wire = none

def Later (b : Block) : Prop := b.Reads ∧ (Stored b.type ∨ b.type = tlvSignatureInfo)

theorem parameters_cons : Parameters ((first :: rest).map Element.block) ↔
    (first.block.type = tlvApplicationParameters ∧ first.block.Reads) ∧ ∀ e ∈ rest, Later e.block := by
  constructor
  · intro legal
    refine ⟨⟨legal.first _ rfl,legal.reads _ mem_cons_self⟩,fun e present => ⟨?_,?_⟩⟩
    · exact legal.reads _ (mem_cons_of_mem _ (mem_map_of_mem present))
    · exact legal.later _ (mem_map_of_mem present)
  · rintro ⟨⟨typed,reads⟩,later⟩
    refine ⟨by simpa using typed,?_,?_⟩
    · simpa using fun e present => (later e present).2
    · simpa using ⟨reads,fun e present => (later e present).1⟩

section
variable (legal : Parameters (elements.map Element.block))
include legal

section
variable (other : type ≠ tlvApplicationParameters) (found : elements.findIdx? (isOfType type) = some index)
include other found

theorem findIdx_later : ∃ first rest place, elements = first :: rest ∧ index = place + 1 := by
  cases elements with
  | nil => cases found
  | cons first rest =>
    have typed : isOfType type first = false := by
      simpa [isOfType,(parameters_cons.mp legal).1.1] using other.symm
    rw [List.findIdx?_cons,typed] at found
    obtain ⟨place,_,rfl⟩ := Option.map_eq_some_iff.mp (by simpa using found)
    exact ⟨first,rest,place,rfl,rfl⟩

theorem parameters_set (later : Later b) :
    Parameters ((elements.set index ⟨0,b⟩).map Element.block) := by
  obtain ⟨first,rest,place,rfl,rfl⟩ := findIdx_later legal other found
  obtain ⟨head,old⟩ := parameters_cons.mp legal
  refine parameters_cons.mpr ⟨head,fun e present => ?_⟩
  rcases mem_or_eq_of_mem_set present with kept | rfl
  · exact old e kept
  · exact later

end

theorem parameters_insert (nonempty : elements ≠ []) (later : Later b) :
    Parameters ((elements.insertIdx (place + 1) ⟨0,b⟩).map Element.block) := by
  obtain ⟨first,rest,rfl⟩ := exists_cons_of_ne_nil nonempty
  obtain ⟨head,old⟩ := parameters_cons.mp legal
  refine parameters_cons.mpr ⟨head,fun e present => ?_⟩
  rcases eq_or_mem_of_mem_insertIdx present with rfl | kept
  · exact later
  · exact old e kept

end

theorem legal_set {name : Name} (legal : name.Legal) (range : c.type ≠ invalidType ∧ c.type ≤ maxUInt32) :
    Name.Legal (name.set index c) := by
  intro d present
  rcases mem_or_eq_of_mem_set present with kept | rfl
  · exact legal d kept
  · exact range

theorem digestComponent_range : (i.digestComponent sha).toComponent.type ≠ invalidType ∧ (i.digestComponent sha).toComponent.type ≤ maxUInt32 :=
  ⟨(by decide : tlvParametersSha256DigestComponent ≠ invalidType),(by decide : tlvParametersSha256DigestComponent ≤ maxUInt32)⟩

theorem addOrReplace_frame (sha : Sha256) (i : InterestPacket) : (i.addOrReplaceParametersDigestComponent sha).parameters = i.parameters ∧
    (i.addOrReplaceParametersDigestComponent sha).forwardingHint = i.forwardingHint := by
  unfold addOrReplaceParametersDigestComponent
  split <;> exact ⟨rfl,rfl⟩

theorem addOrReplace_legal (legal : i.getName.Legal) : (i.addOrReplaceParametersDigestComponent sha).getName.Legal := by
  unfold addOrReplaceParametersDigestComponent
  split
  · intro c present
    rw [getName,map_append,mem_append] at present
    rcases present with old | new
    · exact legal c old
    · cases mem_singleton.mp new
      exact digestComponent_range
  · rw [getName,map_set]
    exact legal_set legal digestComponent_range
  · exact legal

theorem Built.renewed (named : i.getName.Legal) (hinted : ∀ n ∈ i.forwardingHint, n.Legal) (legal : Parameters i.parameterBlocks) :
    (i.addOrReplaceParametersDigestComponent sha).resetWire.Built := by
  obtain ⟨parameters,hint⟩ := addOrReplace_frame sha i
  refine ⟨⟨addOrReplace_legal named,?_,?_⟩,rfl⟩
  · exact fun n present => hinted n (hint ▸ present)
  · have blocks : (i.addOrReplaceParametersDigestComponent sha).resetWire.parameterBlocks = i.parameterBlocks :=
      congrArg (List.map Element.block) parameters
    rwa [blocks]

theorem later_signatureInfo {info : SignatureInfo} (legal : info.Legal) (encoded : info.wireEncode tlvInterestSignatureInfo = .ok b) :
    Later b := by
  obtain ⟨reads,typed⟩ := SignatureInfo.wireEncode_reads legal (.inr rfl) encoded
  refine ⟨reads,typed.symm.imp_left ?_⟩
  intro own
  rw [own]
  exact ⟨by decide,by decide,by decide⟩

theorem later_signatureValue (small : value.length ≤ maxBufferSize) :
    Later (Block.make tlvInterestSignatureValue value).encoded := by
  have reads : (Block.make tlvInterestSignatureValue value).Reads :=
    Block.reads_make (by decide) (Nat.lt_of_le_of_lt small (by decide))
  rw [reads.encoded]
  have stored : Stored tlvInterestSignatureValue := ⟨by decide,by decide,by decide⟩
  exact ⟨reads,.inl stored⟩

section
variable (built : i.Built)
include built

theorem Built.withParameters : i.withParameters.Built ∧ i.withParameters.parameters ≠ [] := by
  unfold InterestPacket.withParameters
  split
  · refine ⟨⟨⟨built.encodable.name,built.encodable.forwardingHint,?_⟩,built.unwired⟩,by simp⟩
    exact parameters_cons.mpr ⟨⟨rfl,Block.reads_make (by decide) (by decide)⟩,by simp⟩
  · rename_i has
    exact ⟨built,has⟩

theorem setName_built (legal : Name.Legal (elements.map Element.toComponent)) : (i.setName sha elements).after.Built := by
  unfold setName
  split
  · exact built
  split
  · exact built
  simp only
  split
  · exact .renewed legal built.encodable.forwardingHint built.encodable.parameters
  · exact ⟨{ built.encodable with name := legal },rfl⟩

theorem setApplicationParametersInternal_built (typed : b.type = tlvApplicationParameters) (reads : b.encoded.Reads) :
    (i.setApplicationParametersInternal sha b).Built := by
  have kept : b.encoded.type = tlvApplicationParameters := by
    unfold Block.encoded
    split
    · exact typed
    · exact typed
  refine .renewed built.encodable.name built.encodable.forwardingHint (parameters_cons.mpr ⟨⟨kept,reads⟩,fun e present => ?_⟩)
  obtain ⟨first,rest,split⟩ := exists_cons_of_ne_nil (ne_nil_of_mem (mem_of_mem_tail present))
  have old := built.encodable.parameters
  rw [parameterBlocks,split] at old
  rw [split] at present
  exact (parameters_cons.mp old).2 e present

theorem setApplicationParameters_built (legal : (InterestSetter.setApplicationParameters argument).Legal) : (i.setApplicationParameters sha argument).after.Built := by
  have made : ∀ value : List UInt8, value.length ≤ maxBufferSize → (Block.make tlvApplicationParameters value).Reads := fun value small =>
    Block.reads_make (by decide) (Nat.lt_of_le_of_lt small (by decide))
  cases argument with
  | null => exact built
  | octets value =>
    refine setApplicationParametersInternal_built built rfl ?_
    rw [(made value legal).encoded]
    exact made value legal
  | block b =>
    rw [setApplicationParameters]
    split
    · exact built
    split
    · rename_i typed
      refine setApplicationParametersInternal_built built typed ?_
      rcases legal with ⟨reads,_⟩ | ⟨bare,small⟩
      · rwa [reads.encoded]
      · rw [Block.encoded,if_pos bare,typed]
        exact made b.value small
    split
    · exact built
    · rename_i wired
      refine setApplicationParametersInternal_built built rfl ?_
      rcases legal with ⟨_,small⟩ | ⟨bare,_⟩
      · rw [Block.encoded,if_pos rfl]
        exact made b.wire small
      · exact absurd bare wired

theorem unsetApplicationParameters_built : i.unsetApplicationParameters.Built := by
  have none : Parameters [] := ⟨by simp,by simp,by simp⟩
  unfold unsetApplicationParameters
  split
  · refine ⟨⟨fun c present => ?_,built.encodable.forwardingHint,none⟩,rfl⟩
    obtain ⟨e,listed,rfl⟩ := mem_map.mp present
    exact built.encodable.name _ (mem_map_of_mem (mem_of_mem_eraseIdx listed))
  · exact ⟨⟨built.encodable.name,built.encodable.forwardingHint,none⟩,rfl⟩

end

theorem findIdx_value (legal : Parameters (elements.map Element.block)) (nonempty : elements ≠ []) :
    ∃ place, elements.findIdx (isOfType tlvInterestSignatureValue) = place + 1 := by
  obtain ⟨first,rest,rfl⟩ := exists_cons_of_ne_nil nonempty
  have typed : isOfType tlvInterestSignatureValue first = false := by
    simp [isOfType,(parameters_cons.mp legal).1.1,tlvApplicationParameters,tlvInterestSignatureValue]
  exact ⟨_,by rw [findIdx_cons,typed]; rfl⟩

theorem setSignatureInfo_built (built : i.Built) {info : SignatureInfo} (legal : info.Legal) : (i.setSignatureInfo sha info).after.Built := by
  obtain ⟨started,nonempty⟩ := built.withParameters
  unfold setSignatureInfo
  simp only
  split
  · exact started
  rename_i encodedInfo encoded
  have later := later_signatureInfo legal encoded
  split
  · rename_i index found
    split
    · exact started
    · exact .renewed started.encodable.name started.encodable.forwardingHint
        (parameters_set started.encodable.parameters (by decide) found later)
  · obtain ⟨place,behind⟩ := findIdx_value started.encodable.parameters nonempty
    rw [behind]
    exact .renewed started.encodable.name started.encodable.forwardingHint (parameters_insert started.encodable.parameters nonempty later)

theorem setSignatureValue_built (built : i.Built) (legal : (InterestSetter.setSignatureValue value).Legal) :
    (i.setSignatureValue sha value).after.Built := by
  cases value with
  | none => exact built
  | some value =>
    have later := later_signatureValue legal
    rw [setSignatureValue]
    unfold setSignatureValueInternal
    split
    · exact built
    rename_i info first
    split
    · rename_i index found
      split
      · exact built
      · exact .renewed built.encodable.name built.encodable.forwardingHint
          (parameters_set built.encodable.parameters (by decide) found later)
    · obtain ⟨_,_,_,split,_⟩ := findIdx_later built.encodable.parameters (by decide) first
      exact .renewed built.encodable.name built.encodable.forwardingHint
        (parameters_insert built.encodable.parameters (by simp [split]) later)

theorem call_built (built : i.Built) (legal : setter.Legal) : (i.call sha setter).after.Built := by
  have encodable := built.encodable
  cases setter with
  | setName name => exact setName_built built legal
  | setForwardingHint value => exact ⟨⟨encodable.name,legal,encodable.parameters⟩,rfl⟩
  | setApplicationParameters parameters => exact setApplicationParameters_built built legal
  | unsetApplicationParameters => exact unsetApplicationParameters_built built
  | setSignatureInfo info => exact setSignatureInfo_built built legal
  | setSignatureValue value => exact setSignatureValue_built built legal
  | setInterestLifetime lifetime =>
    rw [call]
    split
    · exact built
    · simp only
      split
      · exact built
      · exact ⟨{ encodable with },rfl⟩
  | setCanBePrefix | setMustBeFresh | setNonce | refreshNonce | setHopLimit =>
    simp only [call]
    split
    · exact built
    · exact ⟨{ encodable with },rfl⟩

theorem blank_built : Built {} := ⟨⟨by simp [getName,Name.Legal],by simp,⟨by simp [parameterBlocks],by simp [parameterBlocks],
  by simp [parameterBlocks]⟩⟩,rfl⟩

theorem guarded_built (path : Transition.Guarded (step sha) (· = {}) (fun _ setter => setter.Legal) i) : i.Built := by
  refine path.invariant ?_ ?_
  · rintro _ rfl
    exact blank_built
  · intro s setter t _ built legal taken
    cases taken
    exact call_built built legal

def Matched (i : InterestPacket) : Prop := findParametersDigestComponent i.getName ≠ .none ↔ i.hasApplicationParameters

instance (i : InterestPacket) : Decidable i.Matched := by unfold Matched; infer_instance

theorem valid_matched (valid : i.isParametersDigestValid sha) : i.Matched := by
  unfold isParametersDigestValid at valid
  unfold Matched
  split at valid
  · rename_i none
    simp_all
  · rename_i index one
    rw [Bool.and_eq_true] at valid
    simp [one,valid.1]
  · cases valid

theorem wireEncode_matched (unwired : i.wire = none) (matched : i.Matched) (fits : (i.encoding generated).size ≤ maxBufferSize) :
    i.wireEncode sha autoCheck generated =
      (wireDecode sha autoCheck (i.encoding generated)).map (fun after => (i.encoding generated,after)) := by
  have first : ¬ (findParametersDigestComponent i.getName = .none ∧ i.hasApplicationParameters) :=
    fun both => absurd both.1 (matched.mpr both.2)
  have second : ¬ (findParametersDigestComponent i.getName ≠ .none ∧ ¬ i.hasApplicationParameters) :=
    fun both => both.2 (matched.mp both.1)
  rw [wireEncode,unwired]
  simp only [if_neg first,if_neg second,if_neg (Nat.not_lt.mpr fits)]

theorem wireEncode_unmatched (unwired : i.wire = none) (unmatched : ¬ i.Matched) :
    i.wireEncode sha autoCheck generated = .error .parametersWithoutDigest ∨
      i.wireEncode sha autoCheck generated = .error .digestWithoutParameters := by
  rw [wireEncode,unwired]
  by_cases digest : findParametersDigestComponent i.getName = .none
  · left
    have has : i.hasApplicationParameters := by
      by_contra absent
      exact unmatched (by simp [Matched,digest,absent])
    simp only [if_pos (And.intro digest has)]
  · right
    have absent : ¬ i.hasApplicationParameters := fun has => unmatched (by simp [Matched,digest,has])
    simp only [if_neg (fun both : _ ∧ _ => digest both.1),if_pos (And.intro digest absent)]

theorem wireEncode_parts {wire : Block} {after : InterestPacket} (unwired : i.wire = none)
    (encoded : i.wireEncode sha autoCheck generated = .ok (wire,after)) : wire = i.encoding generated ∧
      (i.encoding generated).size ≤ maxBufferSize ∧ wireDecode sha autoCheck wire = .ok after := by
  rw [wireEncode,unwired] at encoded
  simp only at encoded
  split at encoded
  · cases encoded
  split at encoded
  · cases encoded
  split at encoded
  · cases encoded
  · rename_i fits
    obtain ⟨j,decoded,same⟩ := Results.map_parts encoded
    cases same
    exact ⟨rfl,Nat.not_lt.mp fits,decoded⟩

-- What setters have made is read back as it is, and what was read is read back
-- when it is encoded anew. An Interest that has parameters but no digest, or a
-- digest but no parameters, passes where the digest is not checked, but is not
-- encoded.
theorem encoded_fields (sha : Sha256) (autoCheck : Bool) (generated : Nonce) :
    (∀ i, Transition.Guarded (step sha) (· = {}) (fun _ setter => setter.Legal) i → i.getName ≠ [] →
      ∀ wire after, i.wireEncode sha autoCheck generated = .ok (wire,after) →
        ∃ j, wireDecode sha autoCheck wire = .ok j ∧ j.SameFields { i with nonce := some (i.nonce.getD generated) }) ∧
    ∀ wire i, wireDecode sha autoCheck wire = .ok i → (i.encoding generated).size ≤ maxBufferSize →
      (autoCheck = true → i.Matched) ∧
      (i.Matched → ∃ again after j, i.resetWire.wireEncode sha autoCheck generated = .ok (again,after) ∧
        wireDecode sha autoCheck again = .ok j ∧ j.SameFields { i with nonce := some (i.nonce.getD generated) }) ∧
      (¬ i.Matched → i.resetWire.wireEncode sha autoCheck generated = .error .parametersWithoutDigest ∨
        i.resetWire.wireEncode sha autoCheck generated = .error .digestWithoutParameters) := by
  refine ⟨?_,?_⟩
  · intro i path named wire after encoded
    have built := guarded_built path
    obtain ⟨rfl,fits,decoded⟩ := wireEncode_parts built.unwired encoded
    exact ⟨after,decoded,wireDecode_encoding_same built.encodable named fits decoded⟩
  · intro wire i decoded fits
    obtain ⟨first,rest,accepted⟩ := wireDecode_accepted decoded
    have read := accepted.read
    refine ⟨fun check => valid_matched (accepted.valid check),fun matched => ?_,fun unmatched => ?_⟩
    · obtain ⟨j,again⟩ := wireDecode_encoding_ok read.encodable accepted.nonempty fits accepted.single read.apart accepted.valid
      refine ⟨i.encoding generated,j,j,?_,again,wireDecode_encoding_same read.encodable accepted.nonempty fits again⟩
      exact (wireEncode_matched (i := i.resetWire) rfl matched fits).trans (congrArg (Except.map _) again)
    · exact wireEncode_unmatched (i := i.resetWire) rfl unmatched

end InterestPacket

def sampleSha : Sha256 := ⟨fun octets => (octets ++ List.replicate 32 0).take 32,fun octets => by simp [sha256DigestSize]⟩

def sampleComponent : Element := ⟨0,Block.make tlvGenericNameComponent [65]⟩

namespace InterestPacket

def sampleSetters : List InterestSetter := [.setName [sampleComponent],.setHopLimit (some 3),.setApplicationParameters (.octets [1])]

def sample : InterestPacket := sampleSetters.foldl (fun i setter => (i.call sampleSha setter).after) {}

theorem sample_guarded : Transition.Guarded (step sampleSha) (· = {}) (fun _ setter => setter.Legal) sample := by
  have named : (InterestSetter.setName [sampleComponent]).Legal := by
    intro c present
    cases mem_singleton.mp present
    exact ⟨by decide,by decide⟩
  have limited : (InterestSetter.setHopLimit (some 3)).Legal := True.intro
  have given : (InterestSetter.setApplicationParameters (.octets [1])).Legal := (by decide : [(1 : UInt8)].length ≤ maxBufferSize)
  exact .next (.next (.next (.start rfl) named rfl) limited rfl) given rfl

theorem encoded_fields_sample : ∃ j, wireDecode sampleSha true (sample.encoding 7) = .ok j ∧ j.SameFields { sample with nonce := some 7 } ∧
    ∃ again after k, j.resetWire.wireEncode sampleSha true 7 = .ok (again,after) ∧ wireDecode sampleSha true again = .ok k ∧
      k.SameFields { j with nonce := some (j.nonce.getD 7) } := by
  obtain ⟨⟨wire,after⟩,encoded,_⟩ := Results.ok_of_mem (by decide : ∃ x ∈ (sample.wireEncode sampleSha true 7).toOption, True)
  obtain ⟨rfl,_,_⟩ := wireEncode_parts rfl encoded
  obtain ⟨built,decoded⟩ := encoded_fields sampleSha true 7
  obtain ⟨j,read,fits⟩ := Results.ok_of_mem (by decide :
    ∃ j ∈ (wireDecode sampleSha true (sample.encoding 7)).toOption, (j.encoding 7).size ≤ maxBufferSize)
  obtain ⟨k,same,fields⟩ := built sample sample_guarded (by decide) _ after encoded
  cases read.symm.trans same
  obtain ⟨matched,again,_⟩ := decoded _ j read fits
  exact ⟨j,read,fields,again (matched rfl)⟩

def unmatchedWire : Block := ⟨tlvInterest,[5,7,7,3,8,1,65,36,0],[7,3,8,1,65,36,0]⟩

theorem unchecked_not_encoded : ∃ i, wireDecode sampleSha false unmatchedWire = .ok i ∧
    i.resetWire.wireEncode sampleSha false 7 = .error .parametersWithoutDigest := by
  obtain ⟨i,decoded,bare⟩ := Results.ok_of_mem (by decide : ∃ i ∈ (wireDecode sampleSha false unmatchedWire).toOption,
    findParametersDigestComponent i.getName = .none ∧ i.hasApplicationParameters)
  exact ⟨i,decoded,if_pos bare⟩

end InterestPacket
end ReflexiveNfd
