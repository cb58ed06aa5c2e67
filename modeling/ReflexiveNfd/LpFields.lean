import Mathlib.Data.List.Chain
import ReflexiveNfd.Elements
import ReflexiveNfd.Lib.Transition
import ReflexiveNfd.Lib.UpperBound
import ReflexiveNfd.Lib.Results

namespace ReflexiveNfd
open Octets Tlv List Transition Block

def lpPitToken : Nat := 98
def lpNack : Nat := 800
def lpIncomingFaceId : Nat := 812
def lpNextHopFaceId : Nat := 816
def lpCachePolicy : Nat := 820
def lpNonDiscovery : Nat := 844
def lpPrefixAnnouncement : Nat := 848
def lpHeader3Min : Nat := 800
def lpHeader3Max : Nat := 959

def fieldSet : List Nat :=
  [lpFragment,lpSequence,lpFragIndex,lpFragCount,lpPitToken,lpNack,lpNextHopFaceId,lpIncomingFaceId,lpCachePolicy,lpCongestionMark,lpAck,
    lpTxSequence,lpNonDiscovery,lpPrefixAnnouncement]

def isRepeatable (type : Nat) : Bool := type == lpAck

def canIgnore (type : Nat) : Bool := !fieldSet.contains type && lpHeader3Min ≤ type && type ≤ lpHeader3Max && type % 4 == 0

inductive LpError where
  | malformed
  | unexpectedType (type : Nat)
  | unrecognized (type : Nat)
  | repeated (type : Nat)
  | notSorted
  | outOfRange
  deriving DecidableEq, Repr

namespace LpPacket

def checkElements : Option Nat → List Block → Except LpError Unit
  | _,[] => .ok ()
  | prev,b :: rest =>
    if !fieldSet.contains b.type && !canIgnore b.type then .error (.unrecognized b.type)
    else if prev = some b.type ∧ !isRepeatable b.type then .error (.repeated b.type)
    else if prev.any (fun p => p != b.type && !comparePos p b.type) then .error .notSorted
    else checkElements (some b.type) rest

-- std::upper_bound halves the elements; on those in order this is insert, and
-- addField is add.
def insertField (elements : List Block) (type : Nat) (value : List UInt8) : List Block :=
  UpperBound.insert (fun b => comparePos type b.type) (make type value) elements

def wireDecode (wire : Block) : Except LpError LpPacket :=
  if wire.type = 5 ∨ wire.type = 6 then .ok ⟨none,insertField [] lpFragment wire.wire⟩
  else if wire.type ≠ lpLpPacket then .error (.unexpectedType wire.type)
  else
    match wire.parse with
    | none => .error .malformed
    | some elements => (checkElements none elements).map (fun _ => ⟨some wire.wire,elements⟩)

section
variable (p : LpPacket) (type : Nat)

def list : List (List UInt8) := (p.elements.filter (fun b => b.type == type)).map Block.value

def clear : LpPacket := ⟨none,p.elements.filter (fun b => b.type ≠ type)⟩

def eraseNth (type : Nat) : Nat → List Block → Option (List Block)
  | _,[] => none
  | index,b :: rest =>
    if b.type = type ∧ index = 0 then some rest
    else (eraseNth type (if b.type = type then index - 1 else index) rest).map (b :: ·)

def addField (value : List UInt8) : Option LpPacket :=
  if !isRepeatable type && p.has type then none else some ⟨none,insertField p.elements type value⟩

def removeField (type index : Nat) : Option LpPacket := (eraseNth type index p.elements).map (⟨none,·⟩)

end

end LpPacket

inductive LpCall where
  | add (type : Nat) (value : List UInt8)
  | set (type : Nat) (value : List UInt8)
  | remove (type index : Nat)
  | clear (type : Nat)
  deriving DecidableEq, Repr

namespace LpCall

def field : LpCall → Nat
  | add type _ | set type _ | remove type _ | clear type => type

def value : LpCall → List UInt8
  | add _ value | set _ value => value
  | remove _ _ | clear _ => []

def Declared (call : LpCall) : Prop := call.field ∈ fieldSet ∧ call.value.length ≤ maxBufferSize

instance (call : LpCall) : Decidable call.Declared := by unfold Declared; infer_instance

end LpCall

namespace LpPacket

def step (p : LpPacket) : LpCall → Option LpPacket
  | .add type value => some ((p.addField type value).getD p)
  | .set type value => some (((p.clear type).addField type value).getD (p.clear type))
  | .remove type index => some ((p.removeField type index).getD p)
  | .clear type => some (p.clear type)

def Start (p : LpPacket) : Prop := p = blank ∨ ∃ wire : Block, wire.Reads ∧ wire.size ≤ maxBufferSize ∧ wireDecode wire = .ok p

def Follows (a b : Nat) : Prop := a = b ∧ isRepeatable a ∨ comparePos a b

structure WellFormed (p : LpPacket) : Prop where
  order : p.elements.Pairwise (fun a b => Follows a.type b.type)
  known : ∀ b ∈ p.elements, b.type ∈ fieldSet ∨ canIgnore b.type
  reads : ∀ b ∈ p.elements, b.Reads
  wire : ∀ octets ∈ p.wire, Block.Reads ⟨lpLpPacket,octets,wires p.elements⟩

variable {p q : LpPacket} {type : Nat} {value : List UInt8} {call : LpCall} {elements : List Block} {a b c : Nat}

theorem comparePos_iff : comparePos a b ↔ a ≠ lpFragment ∧ (b = lpFragment ∨ a < b) := by
  unfold comparePos locationSortOrder lpFragment
  by_cases left : a = 80 <;> by_cases right : b = 80 <;> simp [left,right]

theorem comparePos_trans (first : comparePos a b) (second : comparePos b c) : comparePos a c := by
  rw [comparePos_iff] at *
  omega

theorem comparePos_total (ne : a ≠ b) (not : comparePos a b = false) : comparePos b a := by
  have left := comparePos_iff (a := a) (b := b)
  rw [not] at left
  rw [comparePos_iff]
  simp only [Bool.false_eq_true,false_iff] at left
  omega

theorem Follows.trans (first : Follows a b) (second : Follows b c) : Follows a c := by
  rcases first with ⟨rfl,_⟩ | before
  · exact second
  · rcases second with ⟨rfl,_⟩ | behind
    · exact .inr before
    · exact .inr (comparePos_trans before behind)

theorem follows_iff : Follows a b ↔ ¬ (a = b ∧ !isRepeatable b) ∧ ¬ (a != b && !comparePos a b) := by
  unfold Follows
  by_cases same : a = b
  · have irreflexive : comparePos b b = false := by
      rw [Bool.eq_false_iff,ne_eq,comparePos_iff]
      omega
    simp [same,irreflexive]
  · simp [same]

theorem checkElements_iff (prev : Option Nat) (elements : List Block) : checkElements prev elements = .ok () ↔
    (∀ b ∈ elements, b.type ∈ fieldSet ∨ canIgnore b.type) ∧ List.IsChain Follows (prev.toList ++ elements.map Block.type) := by
  induction elements generalizing prev with
  | nil => cases prev <;> simp [checkElements]
  | cons b rest ih =>
    rw [checkElements]
    by_cases known : b.type ∈ fieldSet ∨ canIgnore b.type
    · have passes : ¬ (!fieldSet.contains b.type && !canIgnore b.type) := by
        rcases known with listed | ignorable
        · simp [listed]
        · simp [ignorable]
      rw [if_neg passes]
      cases prev with
      | none =>
        rw [if_neg (by simp),if_neg (by simp),ih]
        simp [known]
      | some p =>
        by_cases follows : Follows p b.type
        · obtain ⟨single,sorted⟩ := follows_iff.mp follows
          rw [if_neg (by simpa using single),if_neg (by simpa using sorted),ih]
          simp [known,follows]
        · refine iff_of_false ?_ (fun both => follows (by simpa using both.2.rel))
          split
          · exact nofun
          split
          · exact nofun
          · rename_i single sorted
            exact absurd (follows_iff.mpr ⟨by simpa using single,by simpa using sorted⟩) follows
    · have raised : (!fieldSet.contains b.type && !canIgnore b.type) := by simpa using known
      rw [if_pos raised]
      simp [known]

instance : IsTrans Nat Follows := ⟨fun _ _ _ => Follows.trans⟩

theorem order_iff : elements.Pairwise (fun a b => Follows a.type b.type) ↔ List.IsChain Follows (elements.map Block.type) := by
  rw [isChain_iff_pairwise,pairwise_map]

section
variable (order : elements.Pairwise (fun a b => Follows a.type b.type))
include order

theorem order_partitioned (type : Nat) :
    elements.Pairwise (fun a b => comparePos type a.type → comparePos type b.type) := by
  refine order.imp ?_
  rintro a b (⟨same,_⟩ | before) behind
  · rwa [← same]
  · exact comparePos_trans behind before

theorem insertField_eq :
    insertField elements type value = insert elements type value :=
  UpperBound.insert_eq (order_partitioned order type)

theorem addField_eq : addField ⟨octets,elements⟩ type value = add ⟨octets,elements⟩ type value := by
  simp [addField,add,isRepeatable,insertField_eq order]

theorem insert_order (single : isRepeatable type ∨ ∀ b ∈ elements, b.type ≠ type) :
    (insert elements type value).Pairwise (fun a b => Follows a.type b.type) := by
  have split := takeWhile_append_dropWhile (p := fun b : Block => !comparePos type b.type) (l := elements)
  have parts := order
  rw [← split] at parts
  obtain ⟨front,back,across⟩ := pairwise_append.mp parts
  have low : ∀ b ∈ elements.takeWhile (fun b => !comparePos type b.type), Follows b.type type := by
    intro b present
    have not : comparePos type b.type = false := by simpa using mem_takeWhile_imp present
    by_cases same : b.type = type
    · refine .inl ⟨same,?_⟩
      rw [same]
      exact single.resolve_right (fun absent => absent b ((takeWhile_sublist _).subset present) same)
    · exact .inr (comparePos_total (Ne.symm same) not)
  have high : ∀ b ∈ elements.dropWhile (fun b => !comparePos type b.type), Follows type b.type := fun b present =>
    .inr (UpperBound.dropWhile_after (order_partitioned order type) b present)
  refine pairwise_append.mpr ⟨front,pairwise_cons.mpr ⟨high,back⟩,?_⟩
  intro a present b among
  rcases mem_cons.mp among with rfl | later
  · exact low a present
  · exact across a present b later

end

theorem WellFormed.sublist (good : p.WellFormed) (fewer : elements.Sublist p.elements) : WellFormed ⟨none,elements⟩ where
  order := good.order.sublist fewer
  known := fun b present => good.known b (fewer.subset present)
  reads := fun b present => good.reads b (fewer.subset present)
  wire := nofun

theorem eraseNth_sublist (erased : eraseNth type index elements = some fewer) : fewer.Sublist elements := by
  induction elements generalizing index fewer with
  | nil => cases erased
  | cons b rest ih =>
    rw [eraseNth] at erased
    split at erased
    · cases erased
      exact sublist_cons_self _ _
    · obtain ⟨tail,left,rfl⟩ := Option.map_eq_some_iff.mp erased
      exact (ih left).cons_cons b

section
variable (good : p.WellFormed) (declared : type ∈ fieldSet) (small : value.length ≤ maxBufferSize)
include good declared small

theorem WellFormed.insert (single : isRepeatable type ∨ p.has type = false) : WellFormed ⟨none,insert p.elements type value⟩ := by
  have members : ∀ b ∈ LpPacket.insert p.elements type value, b = make type value ∨ b ∈ p.elements := by
    intro b present
    obtain ⟨front,back,whole,result⟩ := insert_split p.elements type value
    rw [result] at present
    rw [whole]
    simp only [mem_append,mem_cons] at present ⊢
    rcases present with here | new | there
    · exact .inr (.inl here)
    · exact .inl new
    · exact .inr (.inr there)
  have legal := (by decide : ∀ type ∈ fieldSet, type ≠ invalidType ∧ type ≤ maxUInt32) type declared
  refine ⟨insert_order good.order (single.imp_right ?_),fun b present => ?_,fun b present => ?_,nofun⟩
  · intro absent b present same
    rw [has,any_eq_false] at absent
    exact absent b present (by simp [same])
  · rcases members b present with rfl | old
    · exact .inl declared
    · exact good.known b old
  · rcases members b present with rfl | old
    · exact reads_make legal (Nat.lt_of_le_of_lt small (by decide))
    · exact good.reads b old

theorem WellFormed.addField :
    ((p.addField type value).getD p).WellFormed := by
  rw [addField_eq good.order,add]
  split
  · exact good
  · rename_i single
    refine good.insert declared small ?_
    by_cases repeatable : type = lpAck
    · exact .inl (by simp [isRepeatable,repeatable])
    · exact .inr (by simpa [repeatable] using single)

end

theorem WellFormed.clear (good : p.WellFormed) (type : Nat) : (p.clear type).WellFormed := good.sublist filter_sublist

theorem step_wellFormed (good : p.WellFormed) (declared : call.Declared) (taken : p.step call = some q) : q.WellFormed := by
  cases call with
  | add type value =>
    cases taken
    exact good.addField declared.1 declared.2
  | set type value =>
    cases taken
    exact (good.clear type).addField declared.1 declared.2
  | remove type index =>
    cases taken
    cases erased : eraseNth type index p.elements with
    | none =>
      rw [removeField,erased]
      exact good
    | some fewer =>
      rw [removeField,erased]
      exact good.sublist (eraseNth_sublist erased)
  | clear type =>
    cases taken
    exact good.clear type

theorem blank_wellFormed : blank.WellFormed := ⟨.nil,nofun,nofun,nofun⟩

theorem wireDecode_wellFormed {wire : Block} (reads : wire.Reads) (small : wire.size ≤ maxBufferSize) (decoded : wireDecode wire = .ok p) :
    p.WellFormed := by
  unfold wireDecode at decoded
  split at decoded
  · cases decoded
    rw [insertField_eq .nil]
    exact blank_wellFormed.insert (by decide) small (.inr rfl)
  split at decoded
  · cases decoded
  rename_i typed
  split at decoded
  · cases decoded
  · rename_i elements parsed
    obtain ⟨⟨⟩,checked,rfl⟩ := Results.map_parts decoded
    obtain ⟨known,chain⟩ := (checkElements_iff none elements).mp checked
    obtain ⟨whole,each⟩ := parseOctets_parts parsed
    refine ⟨order_iff.mpr chain,known,each,?_⟩
    rintro _ ⟨⟩
    rw [whole,← not_not.mp typed]
    exact reads

theorem reached_wellFormed (path : Guarded step Start (fun _ call => call.Declared) p) : p.WellFormed := by
  refine path.invariant ?_ ?_
  · rintro _ (rfl | ⟨wire,reads,small,decoded⟩)
    · exact blank_wellFormed
    · exact wireDecode_wellFormed reads small decoded
  · exact fun s call t _ good declared taken => step_wellFormed good declared taken

def renewed (b : Block) : Block := make b.type b.value

theorem encodeValue_eq (elements : List Block) : encodeValue elements = wires (elements.map renewed) := by
  rw [encodeValue,wires,map_map]
  rfl

theorem list_renewed (wire : Option (List UInt8)) (elements : List Block) :
    list ⟨wire,elements.map renewed⟩ type = list ⟨wire,elements⟩ type := by
  simp only [list,filter_map,map_map]
  rfl

theorem WellFormed.checks (good : p.WellFormed) : checkElements none p.elements = .ok () :=
  (checkElements_iff none p.elements).mpr ⟨good.known,order_iff.mp good.order⟩

theorem WellFormed.encoded (good : p.WellFormed) (fits : contentSize p.elements ≤ maxBufferSize) :
    ∃ q, wireDecode (wireEncode.encoded p) = .ok q ∧ ∀ type, q.list type = p.list type := by
  have whole : ∀ octets elements, (∀ b ∈ elements, b.Reads) → checkElements none elements = .ok () →
      wireDecode ⟨lpLpPacket,octets,wires elements⟩ = .ok ⟨some octets,elements⟩ := by
    intro octets elements reads checked
    have parsed : parse ⟨lpLpPacket,octets,wires elements⟩ = some elements := parseOctets_wires reads (Nat.le_refl _)
    rw [wireDecode,if_neg (by simp [lpLpPacket]),if_neg (by simp),parsed]
    simp only [checked]
    rfl
  unfold wireEncode.encoded
  split
  · rename_i octets _
    exact ⟨_,whole octets p.elements good.reads good.checks,fun type => rfl⟩
  · have reads : ∀ b ∈ p.elements.map renewed, b.Reads := by
      intro b present
      have bound := length_wire_le present
      rw [← encodeValue_eq] at bound
      obtain ⟨old,listed,rfl⟩ := mem_map.mp present
      have inner := length_value_make_le old.type old.value
      exact reads_make (good.reads old listed).type_legal
        (Nat.lt_of_le_of_lt (Nat.le_trans inner (Nat.le_trans bound fits)) (by decide))
    have checked : checkElements none (p.elements.map renewed) = .ok () := by
      have old := (checkElements_iff none p.elements).mp good.checks
      refine (checkElements_iff none _).mpr ⟨?_,?_⟩
      · intro b present
        obtain ⟨c,listed,rfl⟩ := mem_map.mp present
        exact old.1 c listed
      · rw [map_map]
        exact old.2
    rw [encodeValue_eq]
    exact ⟨_,whole _ _ reads checked,fun type => list_renewed _ _⟩

def Bare (p : LpPacket) : Prop := ∀ b, p.elements = [b] → b.type = lpFragment →
  ∃ packet, fromBuffer b.value = some (packet,[]) ∧ (packet.type = 5 ∨ packet.type = 6)

theorem wireEncode_cases (p : LpPacket) : (∃ b, p.elements = [b] ∧ b.type = lpFragment ∧ p.wireEncode = (fromBuffer b.value).map Prod.fst) ∨
    p.wireEncode = some (wireEncode.encoded p) := by
  unfold wireEncode
  split
  · rename_i b only
    split
    · rename_i fragment
      exact .inl ⟨b,only,fragment,rfl⟩
    · exact .inr rfl
  · exact .inr rfl

theorem reached_read_back (p : LpPacket) (path : Guarded step Start (fun _ call => call.Declared) p) :
    checkElements none p.elements = .ok () ∧
      (contentSize p.elements ≤ maxBufferSize → p.Bare →
        ∃ wire q, p.wireEncode = some wire ∧ wireDecode wire = .ok q ∧ ∀ type, q.list type = p.list type) := by
  have good := reached_wellFormed path
  refine ⟨good.checks,fun fits bare => ?_⟩
  rcases p.wireEncode_cases with ⟨b,only,fragment,encoded⟩ | encoded
  · obtain ⟨packet,read,typed⟩ := bare b only fragment
    have same : packet.wire = b.value := by
      have consumed := (fromBuffer_consumes read).1
      rw [append_nil] at consumed
      exact consumed.symm
    refine ⟨packet,⟨none,[make lpFragment packet.wire]⟩,by rw [encoded,read]; rfl,?_,fun type => ?_⟩
    · rw [wireDecode,if_pos typed]
      rfl
    · rw [list,list,only,same]
      by_cases asked : lpFragment = type <;> simp [make,fragment,asked]
  · obtain ⟨q,decoded,same⟩ := good.encoded fits
    exact ⟨_,q,encoded,decoded,same⟩

def sampleCalls : List LpCall := [.add lpFragment [5,2,7,0],.add lpAck (encodeSequence 2),.set lpSequence (encodeSequence 1),.add lpAck (encodeSequence 3),
  .remove lpSequence 0,.add lpTxSequence (encodeSequence 4)]

theorem reached_read_back_acks : ∃ p wire q, Guarded step Start (fun _ call => call.Declared) p ∧
    p.list lpAck = [encodeSequence 2,encodeSequence 3] ∧ p.wireEncode = some wire ∧ wireDecode wire = .ok q ∧
    ∀ type, q.list type = p.list type := by
  obtain ⟨p,ran,fits,four,acks⟩ : ∃ p ∈ run (checked step (fun _ call => call.Declared)) blank sampleCalls,
    contentSize p.elements ≤ maxBufferSize ∧ p.elements.length = 4 ∧ p.list lpAck = [encodeSequence 2,encodeSequence 3] := by decide
  have path := checked_guarded (.start (show Start blank from .inl rfl)) ran
  obtain ⟨wire,q,encoded,decoded,same⟩ := (reached_read_back p path).2 fits (fun b only => by rw [only] at four; cases four)
  exact ⟨p,wire,q,path,acks,encoded,decoded,same⟩

end LpPacket
end ReflexiveNfd
