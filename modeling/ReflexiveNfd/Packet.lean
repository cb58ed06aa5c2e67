import ReflexiveNfd.Name

namespace ReflexiveNfd

-- A PitToken is a buffer of 1 to 32 octets; its constructor validates the length.
structure PitToken where
  octets : List UInt8
  validated : 1 ≤ octets.length ∧ octets.length ≤ 32
  deriving DecidableEq, Repr

def tokenOctet (tokenvalue i : UInt32) : UInt8 := (tokenvalue >>> (8 * i)).toUInt8

def setPitToken (tokenvalue : UInt32) : PitToken :=
  ⟨[tokenOctet tokenvalue 0,tokenOctet tokenvalue 1,tokenOctet tokenvalue 2,tokenOctet tokenvalue 3],by simp⟩

def joinOctets (a b c d : UInt8) : UInt32 :=
  a.toUInt32 ||| b.toUInt32 <<< 8 ||| c.toUInt32 <<< 16 ||| d.toUInt32 <<< 24

-- none: the four-octet loop indexes past the end of a shorter buffer.
def readPitToken (pitToken : PitToken) : Option UInt32 :=
  match pitToken.octets with
  | a :: b :: c :: d :: _ => some (joinOctets a b c d)
  | _ => none

theorem join_octets (tokenvalue : UInt32) :
    joinOctets (tokenOctet tokenvalue 0) (tokenOctet tokenvalue 1) (tokenOctet tokenvalue 2)
      (tokenOctet tokenvalue 3) = tokenvalue := by
  apply UInt32.eq_of_toBitVec_eq
  simp only [joinOctets,tokenOctet,UInt32.toBitVec_or,UInt32.toBitVec_shiftLeft,UInt8.toBitVec_toUInt32,
    UInt32.toBitVec_toUInt8,UInt32.toBitVec_shiftRight]
  apply BitVec.eq_of_getLsbD_eq
  intro i bound
  simp
  -- Each bit of the value comes from exactly one of the four octets.
  have octet : i < 8 ∨ (8 ≤ i ∧ i < 16) ∨ (16 ≤ i ∧ i < 24) ∨ (24 ≤ i ∧ i < 32) := by omega
  rcases octet with here | here | here | here <;> grind

theorem octets_join (a b c d : UInt8) :
    [tokenOctet (joinOctets a b c d) 0,tokenOctet (joinOctets a b c d) 1,
      tokenOctet (joinOctets a b c d) 2,tokenOctet (joinOctets a b c d) 3] = [a,b,c,d] := by
  simp only [List.cons.injEq,and_true]
  refine ⟨?_,?_,?_,?_⟩
  all_goals
    apply UInt8.eq_of_toBitVec_eq
    simp only [joinOctets,tokenOctet,UInt32.toBitVec_or,UInt32.toBitVec_shiftLeft,UInt8.toBitVec_toUInt32,
      UInt32.toBitVec_toUInt8,UInt32.toBitVec_shiftRight]
    apply BitVec.eq_of_getLsbD_eq
    intro i bound
    simp
  all_goals grind

@[simp] theorem read_set (tokenvalue : UInt32) : readPitToken (setPitToken tokenvalue) = some tokenvalue := by
  simp [readPitToken,setPitToken,join_octets]

theorem four_octets : ∀ octets : List UInt8, octets.length = 4 → ∃ a b c d, octets = [a,b,c,d]
  | [a,b,c,d],_ => ⟨a,b,c,d,rfl⟩

theorem set_read (four : pitToken.octets.length = 4) (value : readPitToken pitToken = some tokenvalue) :
    setPitToken tokenvalue = pitToken := by
  obtain ⟨octets,validated⟩ := pitToken
  obtain ⟨a,b,c,d,rfl⟩ := four_octets octets four
  have joined : joinOctets a b c d = tokenvalue := by simpa [readPitToken] using value
  subst joined
  simp only [setPitToken,octets_join]

-- A token is read within its octets, and written back as it was, if it has four.
theorem token_codec (pitToken : PitToken) :
    (∀ tokenvalue, readPitToken (setPitToken tokenvalue) = some tokenvalue) ∧
    ((∃ tokenvalue, readPitToken pitToken = some tokenvalue ∧ setPitToken tokenvalue = pitToken) ↔ pitToken.octets.length = 4) ∧
    ∀ other : PitToken, pitToken.octets.length = 4 → other.octets.length = 4 → readPitToken pitToken = readPitToken other →
      pitToken = other := by
  refine ⟨read_set,⟨?_,fun four => ?_⟩,fun other four alsoFour same => ?_⟩
  · rintro ⟨tokenvalue,_,rfl⟩
    rfl
  · obtain ⟨a,b,c,d,octets⟩ := four_octets pitToken.octets four
    have value : readPitToken pitToken = some (joinOctets a b c d) := by simp [readPitToken,octets]
    exact ⟨_,value,set_read four value⟩
  · obtain ⟨a,b,c,d,octets⟩ := four_octets other.octets alsoFour
    have value : readPitToken other = some (joinOctets a b c d) := by simp [readPitToken,octets]
    exact (set_read four (same.trans value)).symm.trans (set_read alsoFour value)

theorem token_codec_four : ∃ pitToken other : PitToken, pitToken.octets.length = 4 ∧ other.octets.length = 4 ∧ pitToken ≠ other ∧
    readPitToken pitToken ≠ readPitToken other :=
  ⟨⟨[1,2,3,4],by decide⟩,⟨[1,2,3,5],by decide⟩,rfl,rfl,by decide,fun same =>
    absurd ((token_codec ⟨[1,2,3,4],by decide⟩).2.2 ⟨[1,2,3,5],by decide⟩ rfl rfl same) (by decide)⟩

theorem token_lengths_confused : readPitToken ⟨[1,2,3],by decide⟩ = none ∧
    readPitToken ⟨[1,2,3,4,5],by decide⟩ = readPitToken ⟨[1,2,3,4],by decide⟩ ∧ setPitToken 67305985 ≠ ⟨[1,2,3,4,5],by decide⟩ ∧
    readPitToken ⟨[1,2,3,4,5],by decide⟩ = some 67305985 := by decide

abbrev FaceId := Nat
abbrev Nonce := UInt32

inductive FaceScope where
  | nonLocal
  | «local»
  deriving DecidableEq, Repr

inductive LinkType where
  | pointToPoint
  | multiAccess
  | adHoc
  deriving DecidableEq, Repr

-- Scope and link type are fixed when the face is made, so a face travels by
-- value; its id is what identifies it.
structure Face where
  id : FaceId
  scope : FaceScope
  linkType : LinkType
  deriving DecidableEq, Repr

-- One Interest object with the tags a pipeline reads or writes. Lifetimes are
-- milliseconds and may be negative.
structure Interest where
  name : Name
  canBePrefix : Bool := false
  mustBeFresh : Bool := false
  nonce : Nonce := 0
  lifetime : Int := 4000
  hopLimit : Option Nat := none
  forwardingHint : List Name := []
  pitToken : Option PitToken := none
  incomingFaceId : Option FaceId := none
  nextHopFaceId : Option FaceId := none
  nonDiscovery : Bool := false
  deriving DecidableEq, Repr, Inhabited

structure Data where
  name : Name
  digest : List UInt8 := []
  freshnessPeriod : Int := 0
  pitToken : Option PitToken := none
  incomingFaceId : Option FaceId := none
  noCache : Bool := false
  prefixAnnouncement : Bool := false
  deriving DecidableEq, Repr, Inhabited

inductive NackReason where
  | none
  | congestion
  | duplicate
  | noRoute
  deriving DecidableEq, Repr

structure Nack where
  interest : Interest
  reason : NackReason
  deriving DecidableEq, Repr

def isReflexiveInterest (convention : Convention) (interest : Interest) : Bool :=
  interest.name.isReflexiveName convention

def isReflexiveInterestFromProducer (convention : Convention) (interest : Interest) : Except ComponentError Bool :=
  interest.name.hasRN9999 convention

def Data.getFullName (data : Data) : Name :=
  data.name ++ [⟨tlvImplicitSha256DigestComponent,data.digest⟩]

-- The selectors matter, not the tags: this reads name, CanBePrefix and
-- MustBeFresh of the Interest only.
def matchesData (name : Name) (canBePrefix mustBeFresh : Bool) (data : Data) : Bool :=
  let named :=
    if name.length = data.name.length + 1 then
      name.endsWithDigest && decide (name = data.getFullName)
    else if canBePrefix then name.isPrefixOf data.name else decide (name = data.name)
  named && !(mustBeFresh && decide (data.freshnessPeriod ≤ 0))

-- The code compares the types and values, which for names in their shortest encoding
-- are all there is.
def matchesDecoded (name : Name) (canBePrefix mustBeFresh : Bool) (data : Data) : Bool :=
  matchesData name.decoded canBePrefix mustBeFresh { data with name := data.name.decoded }

theorem matchesDecoded_shortest (named : Name.Shortest name) (shortest : data.name.Shortest) :
    matchesDecoded name canBePrefix mustBeFresh data = matchesData name canBePrefix mustBeFresh data := by
  rw [matchesDecoded,Name.decoded_shortest named,Name.decoded_shortest shortest]

end ReflexiveNfd
