import ReflexiveNfd.Fragmentation

namespace ReflexiveNfd
open List Option Function LpPacket

structure PartialPacket where
  fragments : List LpPacket
  fragCount : Nat
  nReceivedFragments : Nat
  deriving DecidableEq, Repr

inductive Reassembled where
  | incomplete
  | complete (netPkt : Block) (firstFrag : LpPacket)
  | raised
  deriving DecidableEq, Repr

-- Partial packets are known by the endpoint and the sequence number of the first
-- fragment.
structure LpReassembler (Endpoint : Type) where
  nMaxFragments : UInt64
  partialPackets : Endpoint × UInt64 → Option PartialPacket

namespace LpReassembler
variable {Endpoint : Type} [DecidableEq Endpoint]

def concatenate : List LpPacket → Option (List UInt8)
  | [] => some []
  | frag :: frags => do
      let payload ← frag.getFragment
      let later ← concatenate frags
      some (payload ++ later)

def doReassembly (pp : PartialPacket) : Option Block := do
  let fragBuffer ← concatenate pp.fragments
  let (netPkt,_) ← Block.fromBuffer fragBuffer
  some netPkt

section
variable (r : LpReassembler Endpoint) (key : Endpoint × UInt64)

def store (pp : PartialPacket) : LpReassembler Endpoint :=
  { r with partialPackets := update r.partialPackets key (some pp) }

def erase : LpReassembler Endpoint :=
  { r with partialPackets := update r.partialPackets key none }

def partialPacket (fragCount : Nat) : PartialPacket :=
  let pp := (r.partialPackets key).getD ⟨[],0,0⟩
  if pp.fragCount = 0 then ⟨replicate fragCount .blank,fragCount,0⟩ else pp

def addFragment (fragIndex fragCount : Nat) (packet : LpPacket) :
    LpReassembler Endpoint × Reassembled :=
  let pp := r.partialPacket key fragCount
  if fragCount ≠ pp.fragCount then (r.store key pp,.incomplete)
  else if (pp.fragments.getD fragIndex .blank).has lpSequence then (r.store key pp,.incomplete)
  else
    let pp := { pp with fragments := pp.fragments.set fragIndex packet, nReceivedFragments := pp.nReceivedFragments + 1 }
    if pp.nReceivedFragments = pp.fragCount then
      match doReassembly pp with
      | some reassembled => (r.erase key,.complete reassembled (pp.fragments.getD 0 .blank))
      | none => (r.store key pp,.raised)
    else (r.store key pp,.incomplete)

end

def fieldOr (packet : LpPacket) (type absent : Nat) : Option Nat :=
  if packet.has type then packet.getNonNegativeInteger type else some absent

def receiveFragment (r : LpReassembler Endpoint) (remoteEndpoint : Endpoint) (packet : LpPacket) : LpReassembler Endpoint × Reassembled :=
  match fieldOr packet lpFragIndex 0,fieldOr packet lpFragCount 1 with
  | some fragIndex,some fragCount =>
    if fragIndex ≥ fragCount then (r,.incomplete)
    else if fragCount > r.nMaxFragments.toNat then (r,.incomplete)
    else if fragIndex = 0 ∧ fragCount = 1 then
      match packet.getFragment.bind Block.fromBuffer with
      | some (netPkt,_) => (r,.complete netPkt packet)
      | none => (r,.raised)
    else if packet.has lpSequence then
      match packet.getSequence with
      | some seq => r.addFragment (remoteEndpoint,seq - UInt64.ofNat fragIndex) fragIndex fragCount packet
      | none => (r,.raised)
    else (r,.incomplete)
  | _,_ => (r,.raised)

def timeoutPartialPacket (r : LpReassembler Endpoint) (key : Endpoint × UInt64) : LpReassembler Endpoint := r.erase key

end LpReassembler

def FragmentOf (start : UInt64) (count : Nat) (packet : LpPacket) : Prop :=
  ∃ index < count, LpReassembler.fieldOr packet lpFragIndex 0 = some index ∧ LpReassembler.fieldOr packet lpFragCount 1 = some count ∧
    (count = 1 ∨ packet.getSequence = some (start + UInt64.ofNat index))

inductive Delivery (Endpoint : Type) where
  | own (index : Nat)
  | other (endpoint : Endpoint) (packet : LpPacket)
  | timeout (key : Endpoint × UInt64)

namespace Delivery
variable {Endpoint : Type}

-- Other packets are from other endpoints or fragments of messages in a disjoint
-- range of sequence numbers.
def Proper (endpoint : Endpoint) (start : UInt64) (count : Nat) : Delivery Endpoint → Prop
  | own index => index < count
  | other source packet => source ≠ endpoint ∨ ∃ first number, FragmentOf first number packet ∧
      ∀ i < count, ∀ j < number, start + UInt64.ofNat i ≠ first + UInt64.ofNat j
  | timeout key => key ≠ (endpoint,start)

def index : Delivery Endpoint → Option Nat
  | own index => some index
  | _ => none

end Delivery

namespace LpReassembler
variable {Endpoint : Type} [DecidableEq Endpoint]

def deliver (endpoint : Endpoint) (sent : List LpPacket) (r : LpReassembler Endpoint) : Delivery Endpoint → LpReassembler Endpoint
  | .own index => (r.receiveFragment endpoint (sent.getD index .blank)).1
  | .other source packet => (r.receiveFragment source packet).1
  | .timeout key => r.timeoutPartialPacket key

variable {r : LpReassembler Endpoint} {packet : LpPacket}

theorem addFragment_frame (apart : another ≠ key) :
    (r.addFragment key fragIndex fragCount packet).1.partialPackets another = r.partialPackets another := by
  simp only [addFragment]
  split
  · exact update_of_ne apart ..
  · split
    · exact update_of_ne apart ..
    · split
      · split
        · exact update_of_ne apart ..
        · exact update_of_ne apart ..
      · exact update_of_ne apart ..

theorem receiveFragment_cases (r : LpReassembler Endpoint) (endpoint : Endpoint) (packet : LpPacket) :
    (r.receiveFragment endpoint packet).1 = r ∨
      ∃ fragIndex fragCount seq, fieldOr packet lpFragIndex 0 = some fragIndex ∧ fieldOr packet lpFragCount 1 = some fragCount ∧
        packet.getSequence = some seq ∧ fragCount ≠ 1 ∧
        r.receiveFragment endpoint packet = r.addFragment (endpoint,seq - UInt64.ofNat fragIndex) fragIndex fragCount packet := by
  unfold receiveFragment
  split
  · rename_i fragIndex fragCount indexed counted
    split
    · exact .inl rfl
    · split
      · exact .inl rfl
      · split
        · split <;> exact .inl rfl
        · rename_i less _ several
          split
          · split
            · rename_i seq numbered
              exact .inr ⟨fragIndex,fragCount,seq,indexed,counted,numbered,by omega,rfl⟩
            · exact .inl rfl
          · exact .inl rfl
  · exact .inl rfl

theorem addFragment_nMaxFragments : (r.addFragment key fragIndex fragCount packet).1.nMaxFragments = r.nMaxFragments := by
  simp only [addFragment]
  split
  · rfl
  · split
    · rfl
    · split
      · split <;> rfl
      · rfl

theorem receiveFragment_nMaxFragments : (r.receiveFragment endpoint packet).1.nMaxFragments = r.nMaxFragments := by
  rcases receiveFragment_cases r endpoint packet with same | ⟨fragIndex,fragCount,seq,_,_,_,_,result⟩
  · rw [same]
  · rw [result,addFragment_nMaxFragments]

theorem other_frame {start : UInt64} {count : Nat} (positive : 0 < count)
    (proper : (Delivery.other source packet).Proper endpoint start count) :
    (r.receiveFragment source packet).1.partialPackets (endpoint,start) = r.partialPackets (endpoint,start) := by
  rcases receiveFragment_cases r source packet with same | ⟨fragIndex,fragCount,seq,indexed,counted,numbered,several,result⟩
  · rw [same]
  · rw [result]
    refine addFragment_frame ?_
    rintro ⟨⟩
    rcases proper with elsewhere | ⟨first,number,⟨index,within,indexedOther,countedOther,sequenced⟩,disjoint⟩
    · exact elsewhere rfl
    · rw [indexed] at indexedOther
      cases indexedOther
      rw [counted] at countedOther
      cases countedOther
      rcases sequenced with one | sequence
      · exact several one
      · rw [numbered] at sequence
        cases sequence
        refine disjoint 0 positive 0 (by omega) ?_
        simp

structure IsSent (start : UInt64) (fragIndex fragCount : Nat) (payload : List UInt8) (packet : LpPacket) : Prop where
  index : packet.get lpFragIndex = some (encodeNonNegativeInteger fragIndex)
  count : packet.get lpFragCount = some (encodeNonNegativeInteger fragCount)
  payload : packet.getFragment = some payload
  sequence : packet.get lpSequence = some (encodeSequence (start + UInt64.ofNat fragIndex))

theorem receiveFragment_sent (sent : IsSent start fragIndex fragCount payload packet)
    (within : fragIndex < fragCount) (several : 2 ≤ fragCount) (limit : fragCount ≤ r.nMaxFragments.toNat) :
    r.receiveFragment endpoint packet = r.addFragment (endpoint,start) fragIndex fragCount packet := by
  have small := r.nMaxFragments.toNat_lt
  have indexed : fieldOr packet lpFragIndex 0 = some fragIndex := by
    rw [fieldOr,has_eq_get,getNonNegativeInteger,sent.index]
    exact readNonNegativeInteger_encode (by omega)
  have counted : fieldOr packet lpFragCount 1 = some fragCount := by
    rw [fieldOr,has_eq_get,getNonNegativeInteger,sent.count]
    exact readNonNegativeInteger_encode (by omega)
  have numbered : packet.getSequence = some (start + UInt64.ofNat fragIndex) := by
    rw [getSequence,sent.sequence]
    exact readSequence_encode _
  have has : packet.has lpSequence := by rw [has_eq_get,sent.sequence]; rfl
  simp only [receiveFragment,indexed,counted,numbered,has,if_true]
  rw [if_neg (by omega),if_neg (by omega),if_neg (by omega)]
  congr 2
  simp

def held (sent : List LpPacket) (arrived : Finset Nat) : List LpPacket := sent.mapIdx (fun i pkt => if i ∈ arrived then pkt else .blank)

structure Collected (r : LpReassembler Endpoint) (key : Endpoint × UInt64) (sent : List LpPacket) (arrived : Finset Nat) : Prop where
  within : arrived ⊆ Finset.range sent.length
  absent : arrived = ∅ → r.partialPackets key = none
  present : arrived ≠ ∅ → r.partialPackets key = some ⟨held sent arrived,sent.length,arrived.card⟩

variable {sent : List LpPacket} {arrived : Finset Nat}

theorem held_empty (sent : List LpPacket) : held sent ∅ = replicate sent.length .blank := by
  refine ext_getElem (by simp [held]) (fun i _ _ => ?_)
  simp [held]

theorem held_all (sent : List LpPacket) : held sent (Finset.range sent.length) = sent := by
  refine ext_getElem (by simp [held]) (fun i _ inside => ?_)
  simp [held,inside]

theorem held_insert (sent : List LpPacket) (arrived : Finset Nat) (j : Nat) :
    (held sent arrived).set j (sent.getD j .blank) = held sent (insert j arrived) := by
  refine ext_getElem (by simp [held]) (fun i _ inside => ?_)
  have length : i < sent.length := by simpa [held] using inside
  simp only [held,getElem_set,getElem_mapIdx,Finset.mem_insert]
  by_cases same : j = i
  · subst same
    simp [length]
  · simp [same,Ne.symm same]

theorem getD_held (inside : j < sent.length) :
    (held sent arrived).getD j .blank = if j ∈ arrived then sent.getD j .blank else .blank := by
  simp [held,List.getD,inside]

omit [DecidableEq Endpoint] in
theorem Collected.partialPacket (collected : Collected r key sent arrived) (positive : 0 < sent.length) :
    r.partialPacket key sent.length = ⟨held sent arrived,sent.length,arrived.card⟩ := by
  by_cases none : arrived = ∅
  · simp [LpReassembler.partialPacket,collected.absent none,none,held_empty]
  · rw [LpReassembler.partialPacket,collected.present none]
    exact if_neg (Nat.ne_of_gt positive)

theorem Collected.store (collected : Collected r key sent arrived) (some : arrived ≠ ∅) :
    Collected (r.store key ⟨held sent arrived,sent.length,arrived.card⟩) key sent arrived :=
  ⟨collected.within,fun none => absurd none some,fun _ => update_self ..⟩

theorem addFragment_own (collected : Collected r key sent arrived) (inside : j < sent.length)
    (numbered : ∀ i < sent.length, (sent.getD i .blank).has lpSequence)
    (reassembles : (concatenate sent).bind Block.fromBuffer = some (netPkt,[])) (missing : arrived ≠ Finset.range sent.length) :
    let result := r.addFragment key j sent.length (sent.getD j .blank)
    if insert j arrived = Finset.range sent.length then result.2 = .complete netPkt (sent.getD 0 .blank)
    else result.2 = .incomplete ∧ Collected result.1 key sent (insert j arrived) := by
  intro result
  have positive : 0 < sent.length := by omega
  have within := Finset.insert_subset (Finset.mem_range.mpr inside) collected.within
  by_cases already : j ∈ arrived
  · have some : arrived ≠ ∅ := Finset.ne_empty_of_mem already
    have dropped : result = (r.store key ⟨held sent arrived,sent.length,arrived.card⟩,.incomplete) := by
      simp only [result,addFragment,collected.partialPacket positive,getD_held inside,already,if_true,numbered j inside]
      simp
    rw [Finset.insert_eq_of_mem already,if_neg missing,dropped]
    exact ⟨rfl,collected.store some⟩
  · have free : blank.has lpSequence = false := rfl
    have card := Finset.card_insert_of_notMem already
    have whole : arrived.card + 1 = sent.length ↔ insert j arrived = Finset.range sent.length := by
      rw [← card]
      constructor
      · intro full
        exact Finset.eq_of_subset_of_card_le within (by rw [Finset.card_range,full])
      · intro all
        rw [all,Finset.card_range]
    split
    · rename_i all
      obtain ⟨fragBuffer,joined,read⟩ := bind_eq_some_iff.mp reassembles
      have done : ∀ number, doReassembly ⟨sent,sent.length,number⟩ = some netPkt := by
        intro number
        simp only [doReassembly,joined,read,bind_eq_bind,bind_some]
      simp only [result,addFragment,collected.partialPacket positive,getD_held inside,already,if_false,free,held_insert,all,held_all,
        whole.mpr all,done,if_true,ne_eq,not_true_eq_false,Bool.false_eq_true]
    · rename_i more
      have kept : result = (r.store key ⟨held sent (insert j arrived),sent.length,arrived.card + 1⟩,.incomplete) := by
        simp only [result,addFragment,collected.partialPacket positive,getD_held inside,already,if_false,free,held_insert,
          mt whole.mp more,ne_eq,not_true_eq_false,Bool.false_eq_true]
      rw [kept]
      refine ⟨rfl,within,fun none => absurd none (Finset.insert_ne_empty j arrived),fun _ => ?_⟩
      rw [card]
      exact update_self ..

structure Message (start : UInt64) (sent : List LpPacket) (netPkt : Block) : Prop where
  several : 2 ≤ sent.length
  each : ∀ i < sent.length, ∃ payload, IsSent start i sent.length payload (sent.getD i .blank)
  reassembles : (concatenate sent).bind Block.fromBuffer = some (netPkt,[])

theorem Message.numbered (message : Message start sent netPkt) :
    ∀ i < sent.length, (sent.getD i .blank).has lpSequence := by
  intro i inside
  obtain ⟨payload,isSent⟩ := message.each i inside
  rw [has_eq_get,isSent.sequence]
  rfl

def seen (deliveries : List (Delivery Endpoint)) : Finset Nat := (deliveries.filterMap Delivery.index).toFinset

theorem deliver_nMaxFragments (d : Delivery Endpoint) : (r.deliver endpoint sent d).nMaxFragments = r.nMaxFragments := by
  cases d with
  | own index => exact receiveFragment_nMaxFragments
  | other source packet => exact receiveFragment_nMaxFragments
  | timeout key => rfl

section
variable {endpoint : Endpoint} (message : Message start sent netPkt) (limit : sent.length ≤ r.nMaxFragments.toNat) (collected : Collected r (endpoint,start) sent arrived)
include message limit collected

theorem receive_own (inside : j < sent.length) (missing : arrived ≠ Finset.range sent.length) :
    let result := r.receiveFragment endpoint (sent.getD j .blank)
    if insert j arrived = Finset.range sent.length then result.2 = .complete netPkt (sent.getD 0 .blank)
    else result.2 = .incomplete ∧ Collected result.1 (endpoint,start) sent (insert j arrived) := by
  obtain ⟨payload,isSent⟩ := message.each j inside
  rw [receiveFragment_sent isSent inside message.several limit]
  exact addFragment_own collected inside message.numbered message.reassembles missing

theorem deliver_collected (proper : d.Proper endpoint start sent.length) (missing : arrived ∪ d.index.toFinset ≠ Finset.range sent.length) :
    Collected (r.deliver endpoint sent d) (endpoint,start) sent (arrived ∪ d.index.toFinset) := by
  have positive : 0 < sent.length := Nat.lt_of_lt_of_le (by decide) message.several
  have frame : ∀ r' : LpReassembler Endpoint, r'.partialPackets (endpoint,start) = r.partialPackets (endpoint,start) →
      Collected r' (endpoint,start) sent arrived :=
    fun r' same => ⟨collected.within,fun none => same.trans (collected.absent none),fun some => same.trans (collected.present some)⟩
  cases d with
  | own index =>
    have joined : arrived ∪ (Delivery.own index : Delivery Endpoint).index.toFinset = insert index arrived := by
      simp [Delivery.index]
    rw [joined] at missing ⊢
    have before : arrived ≠ Finset.range sent.length := by
      rintro rfl
      exact missing (Finset.insert_eq_of_mem (Finset.mem_range.mpr proper))
    have step := receive_own message limit collected proper before
    rw [if_neg missing] at step
    exact step.2
  | other source packet =>
    rw [show (Delivery.other source packet).index = none from rfl,toFinset_none,Finset.union_empty]
    exact frame _ (other_frame positive proper)
  | timeout key =>
    rw [show (Delivery.timeout key).index = none from rfl,toFinset_none,Finset.union_empty]
    exact frame _ (update_of_ne (Ne.symm proper) ..)

theorem deliveries_collected (proper : ∀ d ∈ deliveries, d.Proper endpoint start sent.length) (missing : arrived ∪ seen deliveries ≠ Finset.range sent.length) :
    Collected (deliveries.foldl (deliver endpoint sent) r) (endpoint,start) sent (arrived ∪ seen deliveries) ∧
      (deliveries.foldl (deliver endpoint sent) r).nMaxFragments = r.nMaxFragments := by
  induction deliveries generalizing r arrived with
  | nil =>
    rw [show seen ([] : List (Delivery Endpoint)) = ∅ from rfl,Finset.union_empty]
    exact ⟨collected,rfl⟩
  | cons d later ih =>
    have joined : arrived ∪ seen (d :: later) = arrived ∪ d.index.toFinset ∪ seen later := by
      rw [Finset.union_assoc]
      congr 1
      cases index : d.index <;> simp [seen,index]
    rw [forall_mem_cons] at proper
    rw [joined] at missing ⊢
    have before : arrived ∪ d.index.toFinset ≠ Finset.range sent.length := by
      intro all
      refine missing (Finset.Subset.antisymm (Finset.union_subset all.subset ?_) (all ▸ Finset.subset_union_left))
      intro index listed
      obtain ⟨delivery,present,own⟩ := mem_filterMap.mp (mem_toFinset.mp listed)
      have inside := proper.2 delivery present
      cases delivery with
      | own _ =>
        cases own
        exact Finset.mem_range.mpr inside
      | other _ _ => cases own
      | timeout _ => cases own
    have limitAfter : sent.length ≤ (r.deliver endpoint sent d).nMaxFragments.toNat := by rwa [deliver_nMaxFragments]
    obtain ⟨result,same⟩ := ih limitAfter (deliver_collected message limit collected proper.1 before) proper.2 missing
    exact ⟨result,same.trans (deliver_nMaxFragments d)⟩

end

theorem concatenate_exact (each : List.Forall₂ (fun pkt payload => getFragment pkt = some payload) sent payloads) :
    concatenate sent = some payloads.flatten := by
  induction each with
  | nil => rfl
  | cons got _ ih => simp only [concatenate,got,ih,bind_eq_bind,bind_some,flatten_cons]

theorem message_of_fragments {packet : LpPacket} {frags : List LpPacket} {payload : List UInt8} {netPkt : Block} {mtu : Nat}
    {nMaxFragments : UInt64} (lastSeqNo : UInt64) (unindexed : packet.get lpFragIndex = none) (uncounted : packet.get lpFragCount = none)
    (carries : packet.get lpFragment = some payload) (element : Block.fromBuffer payload = some (netPkt,[]))
    (fragmented : LpFragmenter.fragmentPacket nMaxFragments packet mtu = .ok frags) (several : 2 ≤ frags.length) :
    Message (lastSeqNo + 1) (assignSequences lastSeqNo frags) netPkt ∧
      ((assignSequences lastSeqNo frags).getD 0 .blank).fieldsOtherThan [lpFragment,lpSequence,lpFragIndex,lpFragCount] =
        packet.fieldsOtherThan [lpFragment,lpSequence,lpFragIndex,lpFragCount] := by
  have cut : frags ≠ [packet] := by
    rintro rfl
    exact absurd several (by simp)
  obtain ⟨same,_⟩ | ⟨payloads,whole,nonempty,length,_,_,_,_,each⟩ := LpFragmenter.fragmentPacket_exact unindexed uncounted carries fragmented
  · exact absurd same cut
  have numbered : (assignSequences lastSeqNo frags).length = frags.length := length_assignNumbers ..
  have sentOf : ∀ i < frags.length, ∃ frag piece, payloads[i]? = some piece ∧ IsFragment (if i = 0 then packet else .blank) i frags.length piece frag ∧
      (assignSequences lastSeqNo frags)[i]? = some (frag.set lpSequence (encodeSequence (lastSeqNo + 1 + UInt64.ofNat i))) := by
    intro i inside
    obtain ⟨piece,listed,_,isFragment⟩ := each i _ (List.getElem?_eq_getElem inside)
    refine ⟨_,piece,listed,isFragment,?_⟩
    rw [assignSequences,assignNumbers_getElem,List.getElem?_eq_getElem inside]
    rfl
  have isSent : ∀ i < frags.length, ∃ piece, payloads[i]? = some piece ∧
      IsSent (lastSeqNo + 1) i frags.length piece ((assignSequences lastSeqNo frags).getD i .blank) := by
    intro i inside
    obtain ⟨frag,piece,listed,isFragment,numbering⟩ := sentOf i inside
    refine ⟨piece,listed,?_⟩
    rw [List.getD,numbering,getD_some]
    refine ⟨?_,?_,?_,get_set_self⟩
    · rw [get_set_ne (by decide),isFragment.index]
    · rw [get_set_ne (by decide),isFragment.count]
    · rw [getFragment,get_set_ne (by decide),isFragment.carries]
      exact if_neg (nonempty piece (mem_of_getElem? listed))
  refine ⟨⟨by omega,?_,?_⟩,?_⟩
  · rw [numbered]
    intro i inside
    obtain ⟨piece,_,sent⟩ := isSent i inside
    exact ⟨piece,sent⟩
  · have fragments : concatenate (assignSequences lastSeqNo frags) = some payloads.flatten := by
      refine concatenate_exact (forall₂_iff_get.mpr ⟨by omega,fun i inside insidePayloads => ?_⟩)
      obtain ⟨piece,listed,sent⟩ := isSent i (by omega)
      have payload := sent.payload
      rw [List.getD,List.getElem?_eq_getElem inside,getD_some] at payload
      rw [List.getElem?_eq_getElem insidePayloads] at listed
      cases listed
      exact payload
    rw [fragments,whole]
    exact element
  · obtain ⟨frag,piece,_,isFragment,first⟩ := sentOf 0 (by omega)
    rw [List.getD,first,getD_some,fieldsOtherThan_set (by decide)]
    exact fieldsOtherThan_more (by decide) isFragment.headers

end LpReassembler

open LpReassembler

-- The fragments of a packet are put together again whatever arrives in between:
-- each is kept or dropped until the last missing one arrives, and that one
-- completes the packet.
theorem fragments_reassembled {Endpoint : Type} [DecidableEq Endpoint] (endpoint : Endpoint) (r : LpReassembler Endpoint) (packet : LpPacket)
    (payload : List UInt8) (netPkt : Block) (mtu : Nat) (nMaxFragments lastSeqNo : UInt64) (frags : List LpPacket)
    (unindexed : packet.get lpFragIndex = none) (uncounted : packet.get lpFragCount = none)
    (carries : packet.get lpFragment = some payload) (element : Block.fromBuffer payload = some (netPkt,[]))
    (fragmented : LpFragmenter.fragmentPacket nMaxFragments packet mtu = .ok frags) (several : 2 ≤ frags.length)
    (limit : frags.length ≤ r.nMaxFragments.toNat) (fresh : r.partialPackets (endpoint,lastSeqNo + 1) = none) :
    let sent := assignSequences lastSeqNo frags
    netPkt.wire = payload ∧
    (sent.getD 0 .blank).fieldsOtherThan [lpFragment,lpSequence,lpFragIndex,lpFragCount] =
      packet.fieldsOtherThan [lpFragment,lpSequence,lpFragIndex,lpFragCount] ∧
    ∀ earlier : List (Delivery Endpoint), (∀ d ∈ earlier, d.Proper endpoint (lastSeqNo + 1) frags.length) →
      seen earlier ≠ Finset.range frags.length → ∀ j < frags.length,
        ((earlier.foldl (deliver endpoint sent) r).receiveFragment endpoint (sent.getD j .blank)).2 =
          if insert j (seen earlier) = Finset.range frags.length then .complete netPkt (sent.getD 0 .blank) else .incomplete := by
  intro sent
  obtain ⟨message,headers⟩ := message_of_fragments lastSeqNo unindexed uncounted carries element fragmented several
  have length : sent.length = frags.length := length_assignNumbers ..
  have whole : netPkt.wire = payload := by
    have consumed := (Block.fromBuffer_consumes element).1
    rw [append_nil] at consumed
    exact consumed.symm
  refine ⟨whole,headers,fun earlier proper missing j inside => ?_⟩
  rw [← length] at proper missing inside limit ⊢
  have start : Collected r (endpoint,lastSeqNo + 1) sent ∅ := ⟨Finset.empty_subset _,fun _ => fresh,fun some => absurd rfl some⟩
  obtain ⟨collected,same⟩ := deliveries_collected message limit start proper (by rwa [Finset.empty_union])
  rw [Finset.empty_union] at collected
  have step := receive_own message (by rwa [same]) collected inside missing
  split
  · rename_i all
    rwa [if_pos all] at step
  · rename_i more
    rw [if_neg more] at step
    exact step.1

def tokenPacket : LpPacket :=
  ⟨none,[⟨98,[98,1,3],[3]⟩,⟨80,80 :: 20 :: 6 :: 18 :: replicate 18 7,6 :: 18 :: replicate 18 7⟩]⟩

theorem fragments_reassembled_reordered : ∃ frags netPkt, LpFragmenter.fragmentPacket 400 tokenPacket 56 = .ok frags ∧ frags.length = 4 ∧
    netPkt.wire = 6 :: 18 :: replicate 18 7 ∧
    ((([.own 3,.own 0,.other 9 .blank,.own 2,.own 3] : List (Delivery Nat)).foldl (deliver 5 (assignSequences 18446744073709551613 frags))
      ⟨400,fun _ => none⟩).receiveFragment 5 ((assignSequences 18446744073709551613 frags).getD 1 .blank)).2 =
        .complete netPkt ((assignSequences 18446744073709551613 frags).getD 0 .blank) := by
  obtain ⟨frags,ran,four⟩ : ∃ frags, LpFragmenter.fragmentPacket 400 tokenPacket 56 = .ok frags ∧ frags.length = 4 := ⟨_,rfl,rfl⟩
  have reassembled := fragments_reassembled 5 (⟨400,fun _ => none⟩ : LpReassembler Nat) tokenPacket _ ⟨6,6 :: 18 :: replicate 18 7,replicate 18 7⟩
    56 400 18446744073709551613 frags rfl rfl rfl (by decide) ran (by rw [four]; decide) (by rw [four]; decide) rfl
  rw [four] at reassembled
  have result := reassembled.2.2 [.own 3,.own 0,.other 9 .blank,.own 2,.own 3] ?_ (by decide) 1 (by decide)
  · rw [if_pos (by decide)] at result
    exact ⟨frags,_,ran,four,rfl,result⟩
  · intro d present
    simp only [mem_cons,not_mem_nil,or_false] at present
    rcases present with rfl | rfl | rfl | rfl | rfl
    · exact (by decide : 3 < 4)
    · exact (by decide : 0 < 4)
    · exact .inl (by decide)
    · exact (by decide : 2 < 4)
    · exact (by decide : 3 < 4)

end ReflexiveNfd
