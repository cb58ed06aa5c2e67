import ReflexiveNfd.DataCodec

namespace ReflexiveNfd
open Tlv List Block Results Option

def Block.readHeader (octets : List UInt8) : Option (Nat × Nat × List UInt8) := do
  let (type,afterType) ← readType octets
  let (length,pos) ← readVarNumber afterType
  some (type,length,pos)

structure CompositeBlock where
  value : List UInt8
  elements : List Block := []
  deriving DecidableEq, Repr

namespace CompositeBlock

-- The readers raise with the elements so far still there; the check of the
-- length clears them first.
def parseLoop : Nat → List UInt8 → List Block → Except (List Block) (List Block)
  | _,[],elements => .ok elements
  | 0,_,elements => .error elements
  | steps + 1,octets,elements =>
    match readHeader octets with
    | none => .error elements
    | some (type,length,pos) =>
      if length > pos.length then .error []
      else parseLoop steps (pos.drop length)
        (elements ++ [⟨type,octets.take (octets.length - (pos.length - length)),pos.take length⟩])

def parse (b : CompositeBlock) : Except CompositeBlock CompositeBlock :=
  if b.elements ≠ [] ∨ b.value = [] then .ok b
  else ((parseLoop b.value.length b.value []).map (fun elements => { b with elements := elements })).mapError
    (fun elements => { b with elements := elements })

def Sequence (elements : List Block) (value : List UInt8) : Prop := wires elements = value ∧ ∀ e ∈ elements, e.Reads

def AllOrNothing (b : CompositeBlock) : Prop :=
  (∃ t, b.parse = .ok t ∧ Sequence t.elements b.value) ∨ ∃ t, b.parse = .error t ∧ t.elements = [] ∧ ∃ u, t.parse = .error u

-- Elements that are there are those of the value; otherwise no element but the
-- first has a header that cannot be read.
def Orderly (b : CompositeBlock) : Prop :=
  if b.elements = [] then ∀ found rest, (∀ e ∈ found, e.Reads) → b.value = wires found ++ rest → found ≠ [] → rest ≠ [] → readHeader rest ≠ none
  else Sequence b.elements b.value

variable {b : CompositeBlock} {octets rest : List UInt8} {elements found : List Block} {steps : Nat}

theorem fromBuffer_header : fromBuffer octets = (readHeader octets).bind (fun h => if h.2.1 > h.2.2.length then none
    else some (⟨h.1,octets.take (octets.length - (h.2.2.length - h.2.1)),h.2.2.take h.2.1⟩,h.2.2.drop h.2.1)) := by
  rw [readHeader,fromBuffer]
  cases readType octets with
  | none => rfl
  | some typed =>
    simp only [bind_eq_bind,bind_some]
    cases readVarNumber typed.2 <;> rfl

theorem parseLoop_element (read : fromBuffer octets = some (e,rest)) :
    parseLoop (steps + 1) octets elements = parseLoop steps rest (elements ++ [e]) := by
  rw [fromBuffer_header] at read
  obtain ⟨_,header,taken⟩ := bind_eq_some_iff.mp read
  obtain ⟨enough,⟨⟩⟩ := ite_none_left_eq_some.mp taken
  cases octets with
  | nil => cases header
  | cons => simp only [parseLoop,header,if_neg enough]

theorem parseLoop_stops (more : rest ≠ []) (unread : fromBuffer rest = none) :
    parseLoop (steps + 1) rest elements = .error (if readHeader rest = none then elements else []) := by
  cases rest with
  | nil => exact (more rfl).elim
  | cons first others =>
    cases header : readHeader (first :: others) with
    | none => simp [parseLoop,header]
    | some found =>
      have beyond : found.2.1 > found.2.2.length := by
        by_contra inside
        simp [fromBuffer_header,header,inside] at unread
      simp [parseLoop,header,beyond]

theorem parseLoop_elements (elements : List Block) (reads : ∀ e ∈ found, e.Reads) (enough : (wires found ++ rest).length ≤ steps) :
    ∃ left, rest.length ≤ left ∧ parseLoop steps (wires found ++ rest) elements = parseLoop left rest (elements ++ found) := by
  induction found generalizing steps elements with
  | nil => exact ⟨steps,enough,by simp [wires]⟩
  | cons e later ih =>
    obtain ⟨first,others⟩ := forall_mem_cons.mp reads
    have whole : wires (e :: later) ++ rest = e.wire ++ (wires later ++ rest) := append_assoc ..
    have size := length_pos_iff.mpr first.wire_ne_nil
    rw [whole,length_append] at enough
    cases steps with
    | zero => omega
    | succ steps =>
      have fewer : (wires later ++ rest).length ≤ steps := by omega
      obtain ⟨left,fits,same⟩ := ih (elements ++ [e]) others fewer
      refine ⟨left,fits,?_⟩
      rw [whole,parseLoop_element (first.followed _),same,append_assoc]
      rfl

theorem sequence_exists (octets : List UInt8) : ∃ found rest, octets = wires found ++ rest ∧ (∀ e ∈ found, e.Reads) ∧
    (rest = [] ∨ fromBuffer rest = none) := by
  induction size : octets.length using Nat.strongRecOn generalizing octets with
  | _ n ih =>
    cases read : fromBuffer octets with
    | none => exact ⟨[],octets,rfl,by simp,.inr read⟩
    | some pair =>
      obtain ⟨e,left⟩ := pair
      have reads := reads_of_fromBuffer read
      have split := (fromBuffer_consumes read).1
      have some := length_pos_iff.mpr reads.wire_ne_nil
      rw [split,length_append] at size
      obtain ⟨found,rest,rfl,others,ends⟩ := ih left.length (by omega) left rfl
      exact ⟨e :: found,rest,split.trans (append_assoc ..).symm,forall_mem_cons.mpr ⟨reads,others⟩,ends⟩

section
variable (bare : b.elements = []) (reads : ∀ e ∈ found, e.Reads)
include bare reads

theorem parse_rest (split : b.value = wires found ++ rest) : ∃ left, rest.length ≤ left ∧
    b.parse = ((parseLoop left rest found).map (fun elements => { b with elements := elements })).mapError
      (fun elements => { b with elements := elements }) := by
  obtain ⟨value,elements⟩ := b
  cases bare
  obtain ⟨left,fits,same⟩ := parseLoop_elements [] reads (Nat.le_refl (wires found ++ rest).length)
  refine ⟨left,fits,?_⟩
  change value = _ at split
  rw [nil_append,← split] at same
  rw [← same]
  cases value <;> rfl

theorem parse_raises (split : b.value = wires found ++ rest) (more : rest ≠ []) (unread : fromBuffer rest = none) :
    b.parse = .error { b with elements := if readHeader rest = none then found else [] } := by
  obtain ⟨left,fits,same⟩ := parse_rest bare reads split
  cases left with
  | zero => exact (more (length_eq_zero_iff.mp (Nat.le_zero.mp fits))).elim
  | succ =>
    rw [same,parseLoop_stops more unread]
    rfl

end

theorem parse_all_or_nothing_iff (b : CompositeBlock) : b.AllOrNothing ↔ b.Orderly := by
  unfold Orderly
  split
  · rename_i bare
    constructor
    · rintro whole found rest reads split some more unread
      have raised := parse_raises bare reads split more (by rw [fromBuffer_header,unread,bind_none])
      rw [if_pos unread] at raised
      rcases whole with ⟨t,returned,_⟩ | ⟨t,again,none,_⟩
      · cases returned.symm.trans raised
      · cases again.symm.trans raised
        exact some none
    · intro orderly
      obtain ⟨found,rest,split,reads,ends⟩ := sequence_exists b.value
      by_cases all : rest = []
      · obtain ⟨left,_,same⟩ := parse_rest bare reads split
        rw [all,append_nil] at split
        have returned : b.parse = .ok { b with elements := found } := by
          rw [same,all]
          cases left <;> rfl
        exact .inl ⟨_,returned,split.symm,reads⟩
      · have unread := ends.resolve_left all
        have raised := parse_raises bare reads split all unread
        have none : (if readHeader rest = none then found else []) = [] := by
          split_ifs with header
          · by_contra some
            exact orderly found rest reads split some all header
          · rfl
        rw [none] at raised
        exact .inr ⟨_,raised,rfl,_,parse_raises rfl reads split all unread⟩
  · rename_i filled
    have returned : b.parse = .ok b := if_pos (.inl filled)
    constructor
    · rintro (⟨t,again,sequence⟩ | ⟨t,raised,_⟩)
      · cases returned.symm.trans again
        exact sequence
      · cases returned.symm.trans raised
    · exact fun sequence => .inl ⟨b,returned,sequence⟩

-- An element without a value and then the TLV-TYPE 0: the element stays, and the
-- second parse returns with it.
theorem parse_keeps_elements : ∃ b t : CompositeBlock, b.elements = [] ∧ b.parse = .error t ∧ t.elements ≠ [] ∧ t.parse = .ok t :=
  ⟨⟨[8,0,0],[]⟩,⟨[8,0,0],[⟨8,[8,0],[]⟩]⟩,rfl,rfl,by decide,rfl⟩

end CompositeBlock

end ReflexiveNfd
