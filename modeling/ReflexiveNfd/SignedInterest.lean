import ReflexiveNfd.InterestDigest

namespace ReflexiveNfd
open Octets Tlv List Option Results

namespace Element

def InOrder (elements : List Element) : Prop := elements.Pairwise (fun a b => a.stop ≤ b.start)

def Covered (range : Nat × Nat) (e : Element) : Prop := range.1 ≤ e.start ∧ e.stop ≤ range.2

instance (range : Nat × Nat) (e : Element) : Decidable (Covered range e) := by unfold Covered; infer_instance

variable {e first : Element} {start : Nat} {elements : List Element}

theorem start_le_stop (e : Element) : e.start ≤ e.stop := Nat.le_add_right _ _

theorem place_within (present : e ∈ place start blocks) : start ≤ e.start ∧ e.stop ≤ start + (Block.wires blocks).length := by
  induction blocks generalizing start with
  | nil => cases present
  | cons b rest ih =>
    have whole : (Block.wires (b :: rest)).length = b.size + (Block.wires rest).length := by simp [Block.wires,Block.size]
    rcases mem_cons.mp present with rfl | later
    · simp only [stop,whole]
      omega
    · have bounds := ih later
      omega

theorem place_inOrder : InOrder (place start blocks) := by
  induction blocks generalizing start with
  | nil => exact .nil
  | cons b rest ih => exact .cons (fun e present => (place_within present).1) ih

section
variable (order : InOrder (first :: elements))
include order

theorem start_le_of_mem (present : e ∈ first :: elements) : first.start ≤ e.start := by
  rcases mem_cons.mp present with rfl | later
  · exact Nat.le_refl _
  · exact Nat.le_trans first.start_le_stop (rel_of_pairwise_cons order later)

theorem covered_dropLast (ends : (first :: elements).getLast? = some last)
    (present : e ∈ (first :: elements).dropLast) : Covered (first.start,last.start) e := by
  refine ⟨start_le_of_mem order ((dropLast_sublist _).subset present),?_⟩
  obtain ⟨front,split⟩ := List.getLast?_eq_some_iff.mp ends
  rw [split,dropLast_concat] at present
  rw [split] at order
  exact (pairwise_append.mp order).2.2 e present last (mem_singleton.mpr rfl)

theorem covered_of_mem (ends : (first :: elements).getLast? = some last)
    (present : e ∈ first :: elements) : Covered (first.start,last.stop) e := by
  refine ⟨start_le_of_mem order present,?_⟩
  obtain ⟨front,split⟩ := List.getLast?_eq_some_iff.mp ends
  by_cases here : e = last
  · rw [here]
  · have before : e ∈ (first :: elements).dropLast := by
      rw [split] at present ⊢
      rw [dropLast_concat]
      exact (mem_append.mp present).resolve_right (fun final => here (mem_singleton.mp final))
    exact Nat.le_trans (covered_dropLast order ends before).2 last.start_le_stop

end

end Element

namespace InterestPacket
variable {i j : InterestPacket} {last : Nat} {wire : Block}

section
variable (i : InterestPacket)

def findFirstParameter (type : Nat) : Option Element := i.parameters.find? (isOfType type)

def getSignatureInfo : Except SignatureInfoError (Option SignatureInfo) :=
  match i.findFirstParameter tlvInterestSignatureInfo with
  | some e => (SignatureInfo.wireDecode tlvInterestSignatureInfo e.block).map some
  | none => .ok none

-- The function is declared not to throw: where getSignatureInfo does, the program
-- is ended.
def isSigned : Except SignatureInfoError Bool :=
  if i.parameters.length < 3 then .ok false
  else do
    let info ← i.getSignatureInfo
    .ok (info.isSome && (i.findFirstParameter tlvInterestSignatureValue).isSome &&
      i.name.getLast?.any (isOfType tlvParametersSha256DigestComponent))

def beforeValue : List Element := i.parameters.takeWhile (fun e => !isOfType tlvInterestSignatureValue e)

-- The ranges of an Interest that has its wire. That there are a name and
-- parameters is asserted.
def signedRanges : Except InterestError (List (Nat × Nat)) :=
  match i.name.head?,i.name.getLast? with
  | some first,some last =>
    if last.block.type ≠ tlvParametersSha256DigestComponent then .error .nameWithoutFinalDigest
    else if i.findFirstParameter tlvInterestSignatureInfo = none then .error .signatureInfoMissing
    else
      match i.parameters.head?,i.beforeValue.getLast? with
      | some parameters,some lastSigned => .ok [(first.start,last.start),(parameters.start,lastSigned.stop)]
      | _,_ => .error .malformed
  | _,_ => .error .nameEmpty

end

def extractSignedRanges (sha : Sha256) (autoCheck : Bool) (generated : Nonce) (i : InterestPacket) :
    Except InterestError (List (Nat × Nat)) := do
  let (_,after) ← i.wireEncode sha autoCheck generated
  after.signedRanges

structure Placed (i : InterestPacket) (base start : Nat) : Prop where
  order : Element.InOrder i.parameters
  within : ∀ e ∈ i.parameters, base ≤ e.start ∧ e.stop ≤ start ∧ e.block.Reads

theorem Placed.snoc (placed : i.Placed base start) (from_ : base ≤ start) (reads : b.Reads) :
    Placed { i with parameters := i.parameters ++ [⟨start,b⟩] } base (start + b.size) := by
  refine ⟨pairwise_append.mpr ⟨placed.order,pairwise_singleton _ _,?_⟩,?_⟩
  · intro e present f new
    cases mem_singleton.mp new
    exact (placed.within e present).2.1
  · intro e present
    rcases mem_append.mp present with old | new
    · obtain ⟨low,high,fine⟩ := placed.within e old
      exact ⟨low,by omega,fine⟩
    · cases mem_singleton.mp new
      exact ⟨from_,Nat.le_refl _,reads⟩

theorem decodeElements_placed (i : InterestPacket) (reads : ∀ b ∈ blocks, b.Reads) (placed : i.Placed base start) (from_ : base ≤ start)
    (decoded : decodeElements i last start blocks = .ok j) : ∃ finish, j.Placed base finish := by
  induction blocks generalizing i last start with
  | nil =>
    cases decoded
    exact ⟨start,placed⟩
  | cons b rest ih =>
    obtain ⟨first,later⟩ := forall_mem_cons.mp reads
    obtain ⟨⟨next,bound⟩,step,others⟩ := bind_parts decoded
    have moved : ∀ same : next.parameters = i.parameters, next.Placed base (start + b.size) := by
      intro same
      refine ⟨same ▸ placed.order,fun e present => ?_⟩
      obtain ⟨low,high,fine⟩ := placed.within e (same ▸ present)
      exact ⟨low,by omega,fine⟩
    have kept : next.Placed base (start + b.size) := by
      cases decodeElement_effect step with
      | field _ _ same => exact moved same
      | ignored => exact moved rfl
      | parameters => exact placed.snoc from_ first
      | stored => exact placed.snoc from_ first
    exact ih next later kept (by omega) others

theorem decoded_placed (decoded : wireDecode sha autoCheck wire = .ok i) : ∃ base finish, i.Placed base finish ∧
    Element.InOrder i.name ∧ ∀ e ∈ i.name, e.stop ≤ base := by
  obtain ⟨first,rest,accepted⟩ := wireDecode_accepted decoded
  obtain ⟨_,reads⟩ := Block.parseOctets_parts accepted.parsed
  obtain ⟨named,later⟩ := forall_mem_cons.mp reads
  obtain ⟨finish,placed⟩ := decodeElements_placed { name := i.name,wire := some wire } later ⟨Pairwise.nil,by simp⟩ (Nat.le_refl _) accepted.decoded
  obtain ⟨components,parsed,located⟩ := map_eq_some_iff.mp accepted.named
  refine ⟨_,finish,placed,located ▸ Element.place_inOrder,fun e present => ?_⟩
  rw [← located] at present
  have bounds := (Element.place_within present).2
  rw [(Block.parseOctets_parts parsed).1] at bounds
  have inner := named.length_value_le
  simp only [Element.valueStart] at bounds ⊢
  omega

theorem isSigned_parts (signed : i.isSigned = .ok true) : ∃ info last, i.findFirstParameter tlvInterestSignatureInfo = some info ∧
    i.name.getLast? = some last ∧ last.block.type = tlvParametersSha256DigestComponent := by
  unfold isSigned at signed
  split at signed
  · cases signed
  obtain ⟨info,read,all⟩ := bind_parts signed
  simp only [Except.ok.injEq,Bool.and_eq_true] at all
  obtain ⟨⟨present,_⟩,ends⟩ := all
  cases final : i.name.getLast? with
  | none =>
    rw [final] at ends
    cases ends
  | some last =>
    rw [final] at ends
    cases found : i.findFirstParameter tlvInterestSignatureInfo with
    | none =>
      rw [getSignatureInfo,found] at read
      cases read
      cases present
    | some e => exact ⟨e,last,rfl,rfl,by simpa [isOfType] using ends⟩

def InfoFirst (i : InterestPacket) : Prop := i.beforeValue.any (isOfType tlvInterestSignatureInfo)

instance (i : InterestPacket) : Decidable i.InfoFirst := by unfold InfoFirst; infer_instance

theorem find_infoFirst (found : i.findFirstParameter tlvInterestSignatureInfo = some info) :
    (i.InfoFirst ∧ info ∈ i.beforeValue) ∨ (¬ i.InfoFirst ∧ ∃ later, i.parameters = i.beforeValue ++ later ∧ info ∈ later) := by
  have split : i.parameters = i.beforeValue ++ i.parameters.dropWhile (fun e => !isOfType tlvInterestSignatureValue e) :=
    (takeWhile_append_dropWhile ..).symm
  rw [findFirstParameter,split,List.find?_append] at found
  by_cases first : i.InfoFirst
  · left
    have some_ : (i.beforeValue.find? (isOfType tlvInterestSignatureInfo)).isSome := by rwa [isSome_find?]
    obtain ⟨e,here⟩ := isSome_iff_exists.mp some_
    rw [here,some_or,Option.some.injEq] at found
    exact ⟨first,found ▸ mem_of_find?_eq_some here⟩
  · right
    have none_ : i.beforeValue.find? (isOfType tlvInterestSignatureInfo) = none := by
      rw [← not_isSome_iff_eq_none,isSome_find?]
      exact first
    rw [none_,none_or] at found
    exact ⟨first,_,split,mem_of_find?_eq_some found⟩

theorem extractSignedRanges_exact (generated : Nonce) (decoded : wireDecode sha autoCheck wire = .ok i) (signed : i.isSigned = .ok true) :
    ∃ firstComponent components last parameters more lastSigned, i.name = firstComponent :: components ∧ i.name.getLast? = some last ∧
      i.parameters.head? = some parameters ∧ i.beforeValue = parameters :: more ∧ i.beforeValue.getLast? = some lastSigned ∧
      i.extractSignedRanges sha autoCheck generated = .ok [(firstComponent.start,last.start),(parameters.start,lastSigned.stop)] := by
  obtain ⟨first,rest,accepted⟩ := wireDecode_accepted decoded
  obtain ⟨info,last,found,ends,typed⟩ := isSigned_parts signed
  obtain ⟨parameters,others,whole⟩ := exists_cons_of_ne_nil (ne_nil_of_mem (mem_of_find?_eq_some found))
  -- The application parameters come first, so that there is something to sign.
  have kind : isOfType tlvInterestSignatureValue parameters = false := by
    have legal := accepted.read.encodable.parameters
    rw [parameterBlocks,whole] at legal
    simp [isOfType,(parameters_cons.mp legal).1.1,tlvApplicationParameters,tlvInterestSignatureValue]
  obtain ⟨more,before⟩ : ∃ more, i.beforeValue = parameters :: more := by
    rw [beforeValue,whole,takeWhile_cons,kind]
    exact ⟨_,rfl⟩
  obtain ⟨lastSigned,final⟩ : ∃ e, i.beforeValue.getLast? = some e := by
    rw [before]
    exact ⟨_,List.getLast?_cons⟩
  have nonempty : i.name ≠ [] := fun bare => accepted.nonempty (by rw [getName,bare]; rfl)
  obtain ⟨firstComponent,components,named⟩ := exists_cons_of_ne_nil nonempty
  refine ⟨firstComponent,components,last,parameters,more,lastSigned,named,ends,by rw [whole]; rfl,before,final,?_⟩
  have fine : ¬ i.findFirstParameter tlvInterestSignatureInfo = none := by simp [found]
  have encoded : i.wireEncode sha autoCheck generated = .ok (wire,i) := by rw [wireEncode,accepted.wired]
  rw [extractSignedRanges,encoded,ok_bind]
  simp only [signedRanges,ends,final,if_neg fine]
  simp [named,whole,typed]

-- The name without its digest and the parameters are always signed. The info is
-- signed exactly if it is before the signature value.
theorem signed_info_exact (sha : Sha256) (autoCheck : Bool) (generated : Nonce) (wire : Block) (i : InterestPacket)
    (decoded : wireDecode sha autoCheck wire = .ok i) (signed : i.isSigned = .ok true) :
    ∃ ranges parameters info, i.extractSignedRanges sha autoCheck generated = .ok ranges ∧
      i.parameters.head? = some parameters ∧ i.findFirstParameter tlvInterestSignatureInfo = some info ∧
      (((∀ e ∈ i.name.dropLast, ∃ range ∈ ranges, Element.Covered range e) ∧
        (∃ range ∈ ranges, Element.Covered range parameters) ∧ (∃ range ∈ ranges, Element.Covered range info)) ↔ i.InfoFirst) := by
  obtain ⟨base,finish,placed,nameOrder,nameBefore⟩ := decoded_placed decoded
  obtain ⟨info,_,found,_,_⟩ := isSigned_parts signed
  obtain ⟨firstComponent,components,last,parameters,more,lastSigned,named,ends,head,before,final,ranges⟩ :=
    extractSignedRanges_exact generated decoded signed
  have listed : info ∈ i.parameters := mem_of_find?_eq_some found
  have covered : ∀ e ∈ i.beforeValue, Element.Covered (parameters.start,lastSigned.stop) e := fun e present => by
    have ordered : Element.InOrder i.beforeValue := placed.order.sublist (takeWhile_sublist _)
    rw [before] at ordered final present
    exact Element.covered_of_mem ordered final present
  refine ⟨_,parameters,info,ranges,head,found,?_,fun first => ?_⟩
  · rintro ⟨_,_,range,among,low,high⟩
    rcases find_infoFirst found with ⟨first,_⟩ | ⟨_,later,split,behind⟩
    · exact first
    -- Both ranges end before the info begins.
    · exfalso
      obtain ⟨after,_,reads⟩ := placed.within info listed
      have long : 2 ≤ info.block.size := (Block.fromBuffer_consumes reads).2.1
      have order := placed.order
      rw [split] at order
      have past := (pairwise_append.mp order).2.2 lastSigned (mem_of_getLast? final) info behind
      have limit := nameBefore last (mem_of_getLast? ends)
      have middle := last.start_le_stop
      simp only [mem_cons,not_mem_nil,or_false] at among
      rcases among with rfl | rfl
      · simp only [Element.stop] at high
        omega
      · simp only [Element.stop] at high past
        omega
  · rcases find_infoFirst found with ⟨_,present⟩ | ⟨not,_⟩
    · refine ⟨fun e present => ⟨_,mem_cons_self,?_⟩,⟨_,mem_cons_of_mem _ mem_cons_self,?_⟩,
        ⟨_,mem_cons_of_mem _ mem_cons_self,covered info present⟩⟩
      · rw [named] at nameOrder ends present
        exact Element.covered_dropLast nameOrder ends present
      · exact covered parameters (by rw [before]; exact mem_cons_self)
    · exact absurd first not

-- The name is /A with a digest that is not checked; parameters, info and value
-- are in the right order in one wire and in the wrong one in the other.
def sampleName : List UInt8 := [7,37,8,1,65,2,32] ++ List.replicate 32 0

def orderedWire : Block := Block.make tlvInterest (sampleName ++ [36,0,44,3,27,1,0,46,0])

def reversedWire : Block := Block.make tlvInterest (sampleName ++ [36,0,46,0,44,3,27,1,0])

theorem signed_info_exact_ordered : ∃ i ranges info, wireDecode sampleSha false orderedWire = .ok i ∧ i.isSigned = .ok true ∧
    i.extractSignedRanges sampleSha false 7 = .ok ranges ∧ i.findFirstParameter tlvInterestSignatureInfo = some info ∧
    ∃ range ∈ ranges, Element.Covered range info := by
  obtain ⟨i,decoded,signed,first⟩ := ok_of_mem (by decide : ∃ i ∈ (wireDecode sampleSha false orderedWire).toOption,
    i.isSigned.toOption = some true ∧ i.InfoFirst)
  obtain ⟨ranges,_,info,computed,_,found,exactly⟩ :=
    signed_info_exact sampleSha false 7 orderedWire i decoded (toOption_parts signed)
  exact ⟨i,ranges,info,decoded,toOption_parts signed,computed,found,(exactly.mpr first).2.2⟩

theorem reversed_info_unsigned : ∃ i info, wireDecode sampleSha false reversedWire = .ok i ∧ i.isSigned = .ok true ∧
    i.extractSignedRanges sampleSha false 7 = .ok [(4,7),(41,43)] ∧ i.findFirstParameter tlvInterestSignatureInfo = some info ∧
    ¬ Element.Covered (4,7) info ∧ ¬ Element.Covered (41,43) info := by
  obtain ⟨i,decoded,signed,ranges,info,found,outside⟩ := ok_of_mem (by decide : ∃ i ∈ (wireDecode sampleSha false reversedWire).toOption,
    i.isSigned.toOption = some true ∧ (i.extractSignedRanges sampleSha false 7).toOption = some [(4,7),(41,43)] ∧
    ∃ info ∈ i.findFirstParameter tlvInterestSignatureInfo, ¬ Element.Covered (4,7) info ∧ ¬ Element.Covered (41,43) info)
  exact ⟨i,info,decoded,toOption_parts signed,toOption_parts ranges,found,outside⟩

end InterestPacket
end ReflexiveNfd
