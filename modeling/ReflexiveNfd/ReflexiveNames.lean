import ReflexiveNfd.InterestRoundTrip

namespace ReflexiveNfd
open Octets Tlv List Component
variable {convention : Convention} {c : Component} {name : Name}

namespace Component

def Unreadable (convention : Convention) (c : Component) : Prop :=
  canDecodeMarkerConvention convention ∧ c.type = tlvReflexiveNameComponent ∧ c.value.head? = some segmentMarker ∧
    (c.value.length = 3 ∨ c.value.length = 5 ∨ c.value.length = 9)

def Announces (convention : Convention) (c : Component) : Prop :=
  canDecodeTypedConvention convention ∧ c.type = tlvReflexiveNameComponent ∧ c.isNumber ∧
    readNonNegativeInteger c.value = 960051513

theorem readNonNegativeInteger_two {octets : List UInt8} (two : octets.length = 2) : readNonNegativeInteger octets < 65536 := by
  obtain ⟨a,b,rfl⟩ := length_eq_two.mp two
  have := a.toNat_lt
  have := b.toNat_lt
  simp only [readNonNegativeInteger,foldl_cons,foldl_nil]
  omega

theorem isNumber_iff : c.isNumber ↔ c.value.length = 1 ∨ c.value.length = 2 ∨ c.value.length = 4 ∨ c.value.length = 8 := by
  simp [isNumber,or_assoc]

theorem isReflexive_iff : c.isReflexive convention ↔ c.type = tlvReflexiveNameComponent ∧
    (canDecodeMarkerConvention convention ∧ c.isNumberWithMarker segmentMarker ∨
      canDecodeTypedConvention convention ∧ c.isNumber) := by
  simp only [isReflexive,Bool.or_eq_true,Bool.and_eq_true,beq_iff_eq]
  tauto

theorem isNumberWithMarker_iff : c.isNumberWithMarker marker ↔
    (c.value.length = 2 ∨ c.value.length = 3 ∨ c.value.length = 5 ∨ c.value.length = 9) ∧ c.value.head? = some marker := by
  simp [isNumberWithMarker,or_assoc]

inductive Tested (convention : Convention) (c : Component) : Except ComponentError Bool → Prop where
  | raised : c.Unreadable convention → Tested convention c (.error .notNonNegativeInteger)
  | found : c.Announces convention → ¬ c.Unreadable convention → Tested convention c (.ok true)
  | other : ¬ c.Announces convention → ¬ c.Unreadable convention → Tested convention c (.ok false)

theorem isRN9999_eq : c.isRN9999 convention =
    if c.isReflexive convention then c.toNumber.map (fun number => number == 960051513) else .ok false := by
  unfold isRN9999 isReflexive
  split
  · cases c.toNumber <;> rfl
  · rfl

theorem isRN9999_tested (convention : Convention) (c : Component) : Tested convention c (c.isRN9999 convention) := by
  rw [isRN9999_eq,toNumber]
  by_cases reflexive : c.isReflexive convention
  · obtain ⟨typed,marked | numbered⟩ := isReflexive_iff.mp reflexive
    · obtain ⟨sizes,head⟩ := isNumberWithMarker_iff.mp marked.2
      by_cases number : c.isNumber
      · -- Only two octets are read both ways, and they are too few for the number.
        have two : c.value.length = 2 := by
          have := isNumber_iff.mp number
          omega
        have small := readNonNegativeInteger_two two
        rw [if_pos reflexive,if_pos number]
        have apart : readNonNegativeInteger c.value ≠ 960051513 := by omega
        have differs : (readNonNegativeInteger c.value == 960051513) = false := by simpa using apart
        rw [Except.map,differs]
        refine .other (fun announced => apart announced.2.2.2) (fun unreadable => ?_)
        obtain ⟨_,_,_,sizes⟩ := unreadable
        omega
      · rw [if_pos reflexive,if_neg number]
        refine .raised ⟨marked.1,typed,head,?_⟩
        rw [isNumber_iff] at number
        omega
    · have readable : ¬ c.Unreadable convention := by
        rintro ⟨_,_,_,sizes⟩
        have := isNumber_iff.mp numbered.2
        omega
      rw [if_pos reflexive,if_pos numbered.2,Except.map]
      by_cases same : readNonNegativeInteger c.value = 960051513
      · have equal : (readNonNegativeInteger c.value == 960051513) := by simpa using same
        rw [equal]
        exact .found ⟨numbered.1,typed,numbered.2,same⟩ readable
      · have differs : (readNonNegativeInteger c.value == 960051513) = false := by simpa using same
        rw [differs]
        exact .other (fun announced => same announced.2.2.2) readable
  · rw [if_neg reflexive]
    refine .other (fun announced => reflexive ?_) (fun unreadable => reflexive ?_)
    · exact isReflexive_iff.mpr ⟨announced.2.1,.inr ⟨announced.1,announced.2.2.1⟩⟩
    · refine isReflexive_iff.mpr ⟨unreadable.2.1,.inl ⟨unreadable.1,isNumberWithMarker_iff.mpr ⟨?_,unreadable.2.2.1⟩⟩⟩
      have := unreadable.2.2.2
      omega

theorem Announces.reflexive (announced : c.Announces convention) : c.isReflexive convention :=
  isReflexive_iff.mpr ⟨announced.2.1,.inr ⟨announced.1,announced.2.2.1⟩⟩

end Component

namespace Name

-- A component that cannot be read comes behind one that ends the search.
def Classifiable (convention : Convention) (name : Name) : Prop :=
  ∀ before c after, name = before ++ c :: after → c.Unreadable convention → ∃ b ∈ before, b.Announces convention

theorem classifiable_cons (readable : ¬ c.Unreadable convention) (plain : ¬ c.Announces convention) :
    Classifiable convention (c :: name) ↔ Classifiable convention name := by
  constructor
  · intro classifiable before d after split unreadable
    obtain ⟨b,listed,announced⟩ := classifiable (c :: before) d after (by rw [split]; rfl) unreadable
    rcases mem_cons.mp listed with rfl | earlier
    · exact absurd announced plain
    · exact ⟨b,earlier,announced⟩
  · intro classifiable before d after split unreadable
    cases before with
    | nil =>
      cases split
      exact absurd unreadable readable
    | cons first before =>
      cases split
      obtain ⟨b,listed,announced⟩ := classifiable before d after rfl unreadable
      exact ⟨b,mem_cons_of_mem _ listed,announced⟩

theorem hasRN9999_ok (convention : Convention) (name : Name) : (∃ answer, name.hasRN9999 convention = .ok answer) ↔ Classifiable convention name := by
  induction name with
  | nil =>
    refine iff_of_true ⟨false,rfl⟩ (fun before c after split => ?_)
    cases before <;> cases split
  | cons c rest ih =>
    rw [hasRN9999]
    have tested := isRN9999_tested convention c
    generalize c.isRN9999 convention = outcome at tested
    cases tested with
    | raised unreadable =>
      refine iff_of_false nofun (fun classifiable => ?_)
      obtain ⟨b,listed,_⟩ := classifiable [] c rest rfl unreadable
      cases listed
    | found announced readable =>
      refine iff_of_true ⟨true,rfl⟩ (fun before d after split unreadable => ?_)
      cases before with
      | nil =>
        cases split
        exact absurd unreadable readable
      | cons first before =>
        cases split
        exact ⟨c,mem_cons_self,announced⟩
    | other plain readable =>
      rw [classifiable_cons readable plain]
      exact ih

theorem hasRN9999_reflexive (found : name.hasRN9999 convention = .ok true) : name.isReflexiveName convention := by
  induction name with
  | nil => cases found
  | cons c rest ih =>
    rw [hasRN9999] at found
    have tested := isRN9999_tested convention c
    rw [isReflexiveName,any_cons,Bool.or_eq_true]
    generalize c.isRN9999 convention = outcome at tested found
    cases tested with
    | raised _ => cases found
    | found announced _ => exact .inl announced.reflexive
    | other _ _ => exact .inr (ih found)

end Name

theorem classification_exact (convention : Convention) (interest : Interest) :
    ((∃ answer, isReflexiveInterestFromProducer convention interest = .ok answer) ↔ interest.name.Classifiable convention) ∧
    (isReflexiveInterestFromProducer convention interest = .ok true → isReflexiveInterest convention interest) :=
  ⟨Name.hasRN9999_ok convention interest.name,Name.hasRN9999_reflexive⟩

theorem classification_exact_typed : ∃ interest : Interest, isReflexiveInterestFromProducer .typed interest = .ok true ∧
    isReflexiveInterest .typed interest := by
  have announced : isReflexiveInterestFromProducer .typed { name := [⟨tlvReflexiveNameComponent,[57,57,57,57]⟩] } = .ok true := by decide
  exact ⟨_,announced,(classification_exact .typed _).2 announced⟩

-- An Interest as it comes from the network, with a component of type 59 and the
-- value %00%01%02.
def markedWire : Block := Block.make tlvInterest [7,5,59,3,0,1,2,10,4,0,0,0,1]

theorem marked_number_raises : ∃ i, InterestPacket.wireDecode sampleSha true markedWire = .ok i ∧
    isReflexiveInterestFromProducer .either { name := i.getName } = .error .notNonNegativeInteger :=
  Results.ok_of_mem (by decide)

end ReflexiveNfd
