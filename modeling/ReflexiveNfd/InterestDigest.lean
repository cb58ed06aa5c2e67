import ReflexiveNfd.InterestRoundTrip

namespace ReflexiveNfd
open Octets Tlv List Transition

def Name.Plain (name : Name) : Prop := ∀ c ∈ name, c.isParametersSha256Digest = false

section
variable {name front back : Name} {c : Component} {i : Nat}
open findParametersDigestComponent

theorem loop_append (plain : front.Plain) : loop i pos (front ++ back) = loop (i + front.length) pos back := by
  induction front generalizing i with
  | nil => rfl
  | cons c rest ih =>
    obtain ⟨other,later⟩ := forall_mem_cons.mp plain
    rw [cons_append,loop,if_neg (by simp [other]),ih later,length_cons]
    congr 1
    omega

theorem loop_plain (plain : name.Plain) : loop i pos name = pos := by
  rw [← append_nil name,loop_append plain,loop]

theorem loop_second (first : pos ≠ .none) (second : ¬ name.Plain) : loop i pos name = .several := by
  induction name generalizing i with
  | nil => exact (second (by simp [Name.Plain])).elim
  | cons c rest ih =>
    rw [loop]
    by_cases digest : c.isParametersSha256Digest
    · rw [if_pos digest,if_pos first]
    · rw [if_neg digest]
      refine ih (fun plain => second (forall_mem_cons.mpr ⟨by simpa using digest,plain⟩))

theorem find_plain (plain : name.Plain) : findParametersDigestComponent name = .none := loop_plain plain

theorem find_first (plain : front.Plain) (digest : c.isParametersSha256Digest) :
    findParametersDigestComponent (front ++ c :: back) = loop (front.length + 1) (.one front.length) back := by
  rw [findParametersDigestComponent,loop_append plain,loop,if_pos digest,if_neg (by simp),Nat.zero_add]

theorem find_one (before : front.Plain) (digest : c.isParametersSha256Digest) (behind : back.Plain) :
    findParametersDigestComponent (front ++ c :: back) = .one front.length := by
  rw [find_first before digest,loop_plain behind]

theorem find_single (single : findParametersDigestComponent name ≠ .several) :
    name.Plain ∨ ∃ (front : Name) (c : Component) (back : Name), name = front ++ c :: back ∧ front.Plain ∧ c.isParametersSha256Digest ∧ back.Plain := by
  by_cases plain : name.Plain
  · exact .inl plain
  right
  obtain ⟨c,present,digest⟩ : ∃ c ∈ name, c.isParametersSha256Digest := by simpa [Name.Plain] using plain
  obtain ⟨d,front,back,before,found,rfl,_⟩ := exists_of_eraseP (p := Component.isParametersSha256Digest) present digest
  have clear : Name.Plain front := fun e listed => by simpa using before e listed
  refine ⟨front,d,back,rfl,clear,found,?_⟩
  by_contra another
  exact single (by rw [find_first clear found,loop_second (by simp) another])

theorem countP_plain (plain : name.Plain) : name.countP Component.isParametersSha256Digest = 0 :=
  countP_eq_zero.mpr (fun c present => by simp [plain c present])

theorem countP_single (single : findParametersDigestComponent name ≠ .several) :
    name.countP Component.isParametersSha256Digest ≤ 1 := by
  rcases find_single single with plain | ⟨front,c,back,rfl,before,digest,behind⟩
  · rw [countP_plain plain]
    decide
  · rw [countP_append,countP_cons,countP_plain before,countP_plain behind,if_pos digest]

end

namespace InterestPacket
variable {i : InterestPacket} {sha : Sha256} {info : SignatureInfo}

structure Digested (sha : Sha256) (i : InterestPacket) : Prop where
  single : findParametersDigestComponent i.getName ≠ .several
  valid : i.hasApplicationParameters → i.isParametersDigestValid sha

theorem digestComponent_digest : (i.digestComponent sha).toComponent.isParametersSha256Digest := by
  have size : (i.computeParametersDigest sha).length = sha256DigestSize := sha.size _
  simp [digestComponent,Element.toComponent,Component.isParametersSha256Digest,size]

theorem digested_of_split {front back : Name} (name : i.getName = front ++ (i.digestComponent sha).toComponent :: back)
    (before : front.Plain) (behind : back.Plain) : i.Digested sha := by
  have found : findParametersDigestComponent i.getName = .one front.length := by
    rw [name]
    exact find_one before digestComponent_digest behind
  refine ⟨by simp [found],fun has => ?_⟩
  rw [isParametersDigestValid,found]
  simp only [has,Bool.true_and]
  rw [name,List.getElem?_append_right (Nat.le_refl _),Nat.sub_self]
  simp [digestComponent,Element.toComponent]

theorem addOrReplace_digested (single : findParametersDigestComponent i.getName ≠ .several) :
    (i.addOrReplaceParametersDigestComponent sha).resetWire.Digested sha := by
  rcases find_single single with plain | ⟨front,c,back,split,before,digest,behind⟩
  · rw [addOrReplaceParametersDigestComponent,find_plain plain]
    have appended : (i.name ++ [i.digestComponent sha]).map Element.toComponent = i.getName ++ [(i.digestComponent sha).toComponent] := by
      rw [map_append]
      rfl
    exact digested_of_split appended plain (by simp [Name.Plain])
  · have found : findParametersDigestComponent i.getName = .one front.length := by
      rw [split]
      exact find_one before digest behind
    rw [addOrReplaceParametersDigestComponent,found]
    have replaced : (i.name.set front.length (i.digestComponent sha)).map Element.toComponent =
        front ++ (i.digestComponent sha).toComponent :: back := by
      rw [map_set]
      exact (congrArg (List.set · _ _) split).trans (by rw [set_append_right _ _ (Nat.le_refl _),Nat.sub_self,set_cons_zero])
    exact digested_of_split replaced before behind

theorem Digested.congr {j : InterestPacket} (digested : i.Digested sha) (name : j.getName = i.getName)
    (parameters : j.parameterBlocks = i.parameterBlocks) : j.Digested sha := by
  refine ⟨name ▸ digested.single,fun has => ?_⟩
  rw [isParametersDigestValid_congr name parameters]
  refine digested.valid ?_
  have lengths := congrArg List.isEmpty parameters
  simp only [parameterBlocks,isEmpty_map] at lengths
  rwa [hasApplicationParameters,← lengths]

theorem digested_of_bare (single : findParametersDigestComponent i.getName ≠ .several) (bare : i.parameters = []) : i.Digested sha :=
  ⟨single,fun has => by simp [hasApplicationParameters,bare] at has⟩

theorem setName_digested (digested : i.Digested sha) : (i.setName sha elements).after.Digested sha := by
  unfold setName
  split
  · exact digested
  rename_i single
  split
  · exact digested
  simp only
  split
  · exact addOrReplace_digested single
  · rename_i bare
    exact digested_of_bare single (by simpa [hasApplicationParameters,resetWire] using bare)

theorem setApplicationParameters_digested (digested : i.Digested sha) (argument : BlockArgument) :
    (i.setApplicationParameters sha argument).after.Digested sha := by
  have changed : ∀ b, (i.setApplicationParametersInternal sha b).Digested sha := fun b => addOrReplace_digested digested.single
  cases argument with
  | null => exact digested
  | octets value => exact changed _
  | block b =>
    rw [setApplicationParameters]
    split
    · exact digested
    split
    · exact changed _
    split
    · exact digested
    · exact changed _

theorem unsetApplicationParameters_digested (digested : i.Digested sha) : i.unsetApplicationParameters.Digested sha := by
  unfold unsetApplicationParameters
  split
  · rename_i index found
    refine digested_of_bare ?_ rfl
    rcases find_single digested.single with plain | ⟨front,c,back,split,before,digest,behind⟩
    · rw [find_plain plain] at found
      cases found
    · rw [split,find_one before digest behind] at found
      cases found
      have erased : (i.name.eraseIdx front.length).map Element.toComponent = front ++ back := by
        rw [← eraseIdx_map]
        exact (congrArg (List.eraseIdx · _) split).trans (by rw [eraseIdx_append_of_length_le (Nat.le_refl _)]; simp)
      have plain := forall_mem_append.mpr ⟨before,behind⟩
      exact fun several => by
        rw [getName,resetWire,erased,find_plain plain] at several
        cases several
  · exact digested_of_bare digested.single rfl

def Encodes (i : InterestPacket) : InterestSetter → Prop
  | .setSignatureInfo info => i.parameters = [] → (info.wireEncode tlvInterestSignatureInfo).isOk
  | _ => True

theorem setSignatureInfo_digested (digested : i.Digested sha) (encodes : i.Encodes (.setSignatureInfo info)) :
    (i.setSignatureInfo sha info).after.Digested sha := by
  have single : findParametersDigestComponent i.withParameters.getName ≠ .several := by
    unfold withParameters
    split <;> exact digested.single
  have unchanged : i.parameters ≠ [] → i.withParameters = i := fun has => if_neg has
  unfold setSignatureInfo
  simp only
  split
  · rename_i fault failed
    rw [unchanged]
    · exact digested
    · intro bare
      have fine := encodes bare
      rw [failed] at fine
      cases fine
  split
  · rename_i index found
    split
    · rw [unchanged]
      · exact digested
      · intro bare
        rw [withParameters,if_pos bare] at found
        cases found
    · exact addOrReplace_digested single
  · exact addOrReplace_digested single

theorem setSignatureValue_digested (digested : i.Digested sha) (value : Option (List UInt8)) :
    (i.setSignatureValue sha value).after.Digested sha := by
  cases value with
  | none => exact digested
  | some value =>
    rw [setSignatureValue]
    unfold setSignatureValueInternal
    split
    · exact digested
    split
    · split
      · exact digested
      · exact addOrReplace_digested digested.single
    · exact addOrReplace_digested digested.single

theorem call_digested (digested : i.Digested sha) (encodes : i.Encodes setter) : (i.call sha setter).after.Digested sha := by
  cases setter with
  | setName name => exact setName_digested digested
  | setApplicationParameters parameters => exact setApplicationParameters_digested digested parameters
  | unsetApplicationParameters => exact unsetApplicationParameters_digested digested
  | setSignatureInfo info => exact setSignatureInfo_digested digested encodes
  | setSignatureValue value => exact setSignatureValue_digested digested value
  | setForwardingHint value => exact digested.congr rfl rfl
  | setInterestLifetime lifetime =>
    rw [call]
    split
    · exact digested
    · simp only
      split <;> exact digested.congr rfl rfl
  | setCanBePrefix | setMustBeFresh | setNonce | refreshNonce | setHopLimit =>
    simp only [call]
    split <;> exact digested.congr rfl rfl

-- As long as no SignatureInfo that cannot be encoded is given to an Interest
-- without parameters, the digest in the name is that of the parameters.
theorem encodes_digest_valid (sha : Sha256) (i : InterestPacket) (path : Guarded (step sha) (· = {}) Encodes i) :
    i.getName.countP Component.isParametersSha256Digest ≤ 1 ∧
      (i.hasApplicationParameters → i.isParametersDigestValid sha) := by
  have digested : i.Digested sha := by
    refine path.invariant ?_ ?_
    · rintro _ rfl
      exact digested_of_bare (by decide) rfl
    · intro s setter t _ before encodes taken
      cases taken
      exact call_digested before encodes
  exact ⟨countP_single digested.single,digested.valid⟩

theorem encodes_digest_valid_sample : ∃ i, Guarded (step sampleSha) (· = {}) Encodes i ∧
    i.hasApplicationParameters ∧ i.isParametersDigestValid sampleSha := by
  have path : Guarded (step sampleSha) (· = {}) Encodes (({} : InterestPacket).setSignatureInfo sampleSha { type := some 0 }).after :=
    .next (.start rfl) (show Encodes _ (.setSignatureInfo { type := some 0 }) from fun _ => by decide) rfl
  exact ⟨_,path,by decide,(encodes_digest_valid sampleSha _ path).2 (by decide)⟩

-- The empty parameters stay although the SignatureInfo could not be encoded.
theorem raised_digest_invalid : Transition.Reached (step sampleSha) (· = {}) (({} : InterestPacket).setSignatureInfo sampleSha {}).after ∧
    (({} : InterestPacket).setSignatureInfo sampleSha {}).raised = some (.signatureInfo .invalid) ∧
    (({} : InterestPacket).setSignatureInfo sampleSha {}).after.hasApplicationParameters ∧
    (({} : InterestPacket).setSignatureInfo sampleSha {}).after.isParametersDigestValid sampleSha = false :=
  ⟨Transition.Reached.next (.start rfl) (show step sampleSha {} (.setSignatureInfo {}) = some _ from rfl),by decide,by decide,by decide⟩

end InterestPacket
end ReflexiveNfd
