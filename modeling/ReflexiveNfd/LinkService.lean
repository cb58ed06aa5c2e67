import ReflexiveNfd.Fragmentation

namespace ReflexiveNfd
open Octets Tlv List Option

def mtuUnlimited : Int := -1
def minMtu : Int := 64

-- TLV-TYPE, TLV-LENGTH and eight octets: what a TxSequence and an Ack take, and
-- the longest CongestionMark.
def reservedHeaderSpace : Nat := sizeOfVarNumber lpTxSequence + sizeOfVarNumber 8 + 8
def congestionMarkSize : Nat := sizeOfVarNumber lpCongestionMark + sizeOfVarNumber 8 + 8
def ackSize : Nat := sizeOfVarNumber lpAck + sizeOfVarNumber 8 + 8

structure LinkServiceOptions where
  allowFragmentation : Bool
  nMaxFragments : UInt64
  reliability : Bool
  allowCongestionMarking : Bool
  defaultCongestionThreshold : Nat
  baseCongestionMarkingInterval : Int
  markingInterval : Nat → Int
  overrideMtu : Int

-- nextMarkTime is none when it is the end of time. sent records what the
-- transport was given.
structure GenericLinkService where
  transportMtu : Int
  lastSeqNo : UInt64
  lastTxSeqNo : UInt64
  ackQueue : List UInt64
  nextMarkTime : Option Int
  nMarkedSinceInMarkingState : Nat
  nFragmentationErrors : Nat
  nCongestionMarked : Nat
  nOutOverMtu : Nat
  sent : List Block

structure SendQueue where
  sendQueueLength : Int
  now : Int

namespace LpReliability

def attach : List UInt64 → Int → LpPacket → LpPacket × List UInt64
  | [],_,pkt => (pkt,[])
  | ackTxSeq :: ackQueue,remainingSpace,pkt =>
    if ackSize > remainingSpace then (pkt,ackTxSeq :: ackQueue)
    else attach ackQueue (remainingSpace - ackSize) ⟨none,LpPacket.insert pkt.elements lpAck (encodeSequence ackTxSeq)⟩

-- Up to two octets are kept for a longer TLV-LENGTH.
def reservedSpace (pktSize : Nat) : Int := (sizeOfVarNumber maxNdnPacketSize : Int) - sizeOfVarNumber pktSize

def remainingSpace (mtu : Int) (pktSize : Nat) : Int := mtu - reservedSpace pktSize - pktSize

def piggyback (pkt : LpPacket) (mtu : Int) (ackQueue : List UInt64) : Option (LpPacket × List UInt64) := do
  let block ← pkt.wireEncode
  some (attach ackQueue (remainingSpace (if mtu = mtuUnlimited then (maxNdnPacketSize : Int) else mtu) block.size) pkt)

def nAcks (mtu : Int) (ackQueue : List UInt64) (pktSize : Nat) : Nat := min ackQueue.length ((remainingSpace mtu pktSize).toNat / ackSize)

def left (mtu : Int) (pktSize nAcks : Nat) : Int := mtu - pktSize - (ackSize * nAcks : Nat)

def assignTxSequences (lastTxSeqNo : UInt64) (frags : List LpPacket) : List LpPacket := assignNumbers lpTxSequence lastTxSeqNo frags

end LpReliability

namespace GenericLinkService

section
variable (options : LinkServiceOptions)

section
variable (line : SendQueue) (s : GenericLinkService) (pkt : LpPacket)

def getEffectiveMtu : Int := min options.overrideMtu s.transportMtu

def checkCongestionLevel :
    GenericLinkService × LpPacket :=
  if line.sendQueueLength < 0 then (s,pkt)
  else if options.defaultCongestionThreshold < line.sendQueueLength then
    match s.nextMarkTime with
    | none => ({ s with nextMarkTime := some (line.now + options.baseCongestionMarkingInterval) },pkt)
    | some nextMarkTime =>
      if nextMarkTime ≤ line.now then
        let marked := s.nMarkedSinceInMarkingState + 1
        ({ s with
            nCongestionMarked := s.nCongestionMarked + 1
            nMarkedSinceInMarkingState := marked
            nextMarkTime := some (nextMarkTime + options.markingInterval marked) },
          pkt.set lpCongestionMark (encodeNonNegativeInteger 1))
      else (s,pkt)
  else if s.nextMarkTime ≠ none then ({ s with nextMarkTime := none, nMarkedSinceInMarkingState := 0 },pkt)
  else (s,pkt)

def withAcks : Option (GenericLinkService × LpPacket) :=
  if options.reliability then
    (LpReliability.piggyback pkt (s.getEffectiveMtu options) s.ackQueue).map (fun result => ({ s with ackQueue := result.2 },result.1))
  else some (s,pkt)

def sendLpPacket : Option GenericLinkService := do
  let mtu := s.getEffectiveMtu options
  let (s,pkt) ← s.withAcks options pkt
  let (s,pkt) := if options.allowCongestionMarking then s.checkCongestionLevel options line pkt else (s,pkt)
  let block ← pkt.wireEncode
  if mtu ≠ mtuUnlimited ∧ mtu < block.size then some { s with nOutOverMtu := s.nOutOverMtu + 1 }
  else some { s with sent := s.sent ++ [block] }

def sendLpPackets : GenericLinkService → List (LpPacket × SendQueue) → Option GenericLinkService
  | s,[] => some s
  | s,(pkt,line) :: later => do
      let t ← s.sendLpPacket options line pkt
      t.sendLpPackets later

def fragmentMtu : Int :=
  let mtu := s.getEffectiveMtu options
  let mtu := if options.reliability ∧ mtu ≠ mtuUnlimited then mtu - reservedHeaderSpace else mtu
  if options.allowCongestionMarking ∧ mtu ≠ mtuUnlimited then mtu - congestionMarkSize else mtu

def number (frags : List LpPacket) : GenericLinkService × List LpPacket :=
  let (s,frags) := if options.reliability ∨ frags.length > 1 then
      ({ s with lastSeqNo := s.lastSeqNo + UInt64.ofNat frags.length },assignSequences s.lastSeqNo frags)
    else (s,frags)
  if options.reliability ∧ (frags.headD .blank).has lpFragment then
    ({ s with lastTxSeqNo := s.lastTxSeqNo + UInt64.ofNat frags.length },LpReliability.assignTxSequences s.lastTxSeqNo frags)
  else (s,frags)

def sendNetPacket (lines : Nat → SendQueue) (s : GenericLinkService) (pkt : LpPacket) : Option GenericLinkService :=
  let mtu := s.fragmentMtu options
  let fragmented := if options.allowFragmentation ∧ mtu ≠ mtuUnlimited then LpFragmenter.fragmentPacket options.nMaxFragments pkt mtu.toNat
    else .ok [pkt]
  match fragmented with
  | .error .raised => none
  | .error _ => some { s with nFragmentationErrors := s.nFragmentationErrors + 1 }
  | .ok frags =>
    let (s,frags) := s.number options frags
    s.sendLpPackets options (frags.mapIdx (fun i frag => (frag,lines i)))

def marks : Bool :=
  options.allowCongestionMarking && decide (0 ≤ line.sendQueueLength) &&
    decide ((options.defaultCongestionThreshold : Int) < line.sendQueueLength) &&
    s.nextMarkTime.any (fun nextMarkTime => nextMarkTime ≤ line.now)

def markedContent : Nat :=
  if s.marks options line then
    LpPacket.contentSize (pkt.elements.filter (fun b => b.type ≠ lpCongestionMark)) +
      (Block.encode lpCongestionMark (encodeNonNegativeInteger 1)).length
  else LpPacket.contentSize pkt.elements

def nAcks : Nat :=
  if options.reliability then LpReliability.nAcks (s.getEffectiveMtu options) s.ackQueue (LpPacket.lpSize (LpPacket.contentSize pkt.elements))
  else 0

def left : Int :=
  LpReliability.left (s.getEffectiveMtu options) (LpPacket.lpSize (LpPacket.contentSize pkt.elements)) (s.nAcks options pkt)

end

end

end GenericLinkService

namespace LpReliability
open LpPacket

theorem length_ack (ackTxSeq : UInt64) : (Block.encode lpAck (encodeSequence ackTxSeq)).length = ackSize := by
  rw [length_encode,encodeSequence,length_toBigEndian]
  rfl

def addAck (pkt : LpPacket) (ackTxSeq : UInt64) : LpPacket := ⟨none,insert pkt.elements lpAck (encodeSequence ackTxSeq)⟩

theorem attach_eq (ackQueue : List UInt64) (space : Int) (pkt : LpPacket) : attach ackQueue space pkt =
    ((ackQueue.take (space.toNat / ackSize)).foldl addAck pkt,ackQueue.drop (space.toNat / ackSize)) := by
  induction ackQueue generalizing space pkt with
  | nil => simp [attach]
  | cons ackTxSeq ackQueue ih =>
    have twelve : ackSize = 12 := rfl
    rw [attach]
    split
    · have none : space.toNat / ackSize = 0 := Nat.div_eq_of_lt (by omega)
      simp [none]
    · have more : space.toNat / ackSize = (space - ackSize).toNat / ackSize + 1 := by
        rw [twelve] at *
        omega
      rw [ih,more]
      rfl

section
variable (keep : Block → Bool) (kept : ∀ ackTxSeq, keep ⟨lpAck,Block.encode lpAck (encodeSequence ackTxSeq),encodeSequence ackTxSeq⟩)
include kept

theorem addAcks_exact (acks : List UInt64) (pkt : LpPacket) : contentSize ((acks.foldl addAck pkt).elements.filter keep) =
      contentSize (pkt.elements.filter keep) + ackSize * acks.length ∧ (pkt.Wrapped → (acks.foldl addAck pkt).Wrapped) := by
  induction acks generalizing pkt with
  | nil => exact ⟨rfl,id⟩
  | cons ackTxSeq acks ih =>
    obtain ⟨size,wrapped⟩ := ih (addAck pkt ackTxSeq)
    refine ⟨?_,fun _ => wrapped (wrapped_insert (by decide))⟩
    rw [foldl_cons,size,addAck,contentSize_filter_insert _ _ _ _ (kept ackTxSeq),length_ack,length_cons,Nat.mul_add]
    omega

theorem attach_exact (ackQueue : List UInt64) (remainingSpace : Int) (pkt : LpPacket) :
    contentSize ((attach ackQueue remainingSpace pkt).1.elements.filter keep) =
        contentSize (pkt.elements.filter keep) + ackSize * min ackQueue.length (remainingSpace.toNat / ackSize) ∧
      (pkt.Wrapped → (attach ackQueue remainingSpace pkt).1.Wrapped) := by
  have attached := addAcks_exact keep kept (ackQueue.take (remainingSpace.toNat / ackSize)) pkt
  rw [length_take,Nat.min_comm] at attached
  rwa [attach_eq]

end

-- What is left for an acknowledged packet of an MTU with a TLV-LENGTH of at most
-- three octets: its header stays as it is, or grows to four.
theorem left_cases {mtu : Int} {ackQueue : List UInt64} (small : mtu ≤ 65535) (size : pktSize = lpSize value) (acked : nAcks mtu ackQueue pktSize ≠ 0) :
    let nAcks := nAcks mtu ackQueue pktSize
    let left := left mtu pktSize nAcks
    0 ≤ left ∧ value + ackSize * nAcks + left ≤ 65533 ∧ (value < 251 → 2 ≤ left) := by
  have twelve : ackSize = 12 := rfl
  have sizes : sizeOfVarNumber maxNdnPacketSize = 3 := rfl
  simp only [nAcks,left,remainingSpace,reservedSpace,twelve,sizes] at *
  unfold lpSize sizeOfVarNumber maxUInt16 maxUInt32 at *
  split_ifs at * <;> omega

end LpReliability

namespace GenericLinkService
open LpPacket
variable {options : LinkServiceOptions} {line : SendQueue} {s t : GenericLinkService} {pkt : LpPacket}

theorem checkCongestionLevel_exact (s : GenericLinkService) (line : SendQueue) (pkt : LpPacket) (allowed : options.allowCongestionMarking) :
    (s.checkCongestionLevel options line pkt).2 =
        (if s.marks options line then pkt.set lpCongestionMark (encodeNonNegativeInteger 1) else pkt) ∧
      (s.checkCongestionLevel options line pkt).1.transportMtu = s.transportMtu ∧
      (s.checkCongestionLevel options line pkt).1.nOutOverMtu = s.nOutOverMtu ∧
      (s.checkCongestionLevel options line pkt).1.ackQueue = s.ackQueue := by
  rw [checkCongestionLevel,marks,allowed]
  by_cases unknown : line.sendQueueLength < 0
  · rw [if_pos unknown,decide_eq_false (by omega : ¬ 0 ≤ line.sendQueueLength)]
    exact ⟨rfl,rfl,rfl,rfl⟩
  · rw [if_neg unknown,decide_eq_true (by omega : 0 ≤ line.sendQueueLength)]
    by_cases above : (options.defaultCongestionThreshold : Int) < line.sendQueueLength
    · rw [if_pos above,decide_eq_true above]
      cases s.nextMarkTime with
      | none => exact ⟨rfl,rfl,rfl,rfl⟩
      | some nextMarkTime =>
        by_cases due : nextMarkTime ≤ line.now
        · simp [due]
        · simp [due]
    · rw [if_neg above,decide_eq_false above]
      split <;> exact ⟨rfl,rfl,rfl,rfl⟩

theorem mark_cases (options : LinkServiceOptions) (line : SendQueue) (s : GenericLinkService) (pkt : LpPacket) : ∃ after marked,
    (if options.allowCongestionMarking then s.checkCongestionLevel options line pkt else (s,pkt)) = (after,marked) ∧
      marked = (if s.marks options line then pkt.set lpCongestionMark (encodeNonNegativeInteger 1) else pkt) ∧
      after.transportMtu = s.transportMtu ∧ after.nOutOverMtu = s.nOutOverMtu ∧ after.ackQueue = s.ackQueue := by
  by_cases allowed : options.allowCongestionMarking
  · rw [if_pos allowed]
    exact ⟨_,_,rfl,checkCongestionLevel_exact s line pkt allowed⟩
  · rw [if_neg allowed]
    exact ⟨s,pkt,rfl,by simp [marks,allowed],rfl,rfl,rfl⟩

theorem marked_exact (options : LinkServiceOptions) (line : SendQueue) (s : GenericLinkService) (wrapped : pkt.Wrapped)
    (result : marked = if s.marks options line then pkt.set lpCongestionMark (encodeNonNegativeInteger 1) else pkt) :
    contentSize marked.elements = s.markedContent options line pkt ∧ marked.Wrapped := by
  rw [result,markedContent]
  split
  · exact ⟨contentSize_insert ..,wrapped_insert (by decide)⟩
  · exact ⟨rfl,wrapped⟩

theorem withAcks_exact (line : SendQueue) (wrapped : pkt.Wrapped) (limited : s.getEffectiveMtu options ≠ mtuUnlimited) :
    ∃ before acked, s.withAcks options pkt = some (before,acked) ∧ acked.Wrapped ∧ before = { s with ackQueue := before.ackQueue } ∧
      s.markedContent options line acked = s.markedContent options line pkt + ackSize * s.nAcks options pkt := by
  unfold withAcks nAcks markedContent
  by_cases reliable : options.reliability
  · obtain ⟨block,encoded,_,size⟩ := wrapped.wireEncode
    let space := LpReliability.remainingSpace (s.getEffectiveMtu options) (lpSize (contentSize pkt.elements))
    have all := LpReliability.attach_exact (fun _ => true) (fun _ => rfl) s.ackQueue space pkt
    have apart := LpReliability.attach_exact (fun b => b.type ≠ lpCongestionMark) (fun _ => rfl) s.ackQueue space pkt
    rw [filter_true,filter_true] at all
    have piggybacked : LpReliability.piggyback pkt (s.getEffectiveMtu options) s.ackQueue =
        some (LpReliability.attach s.ackQueue space pkt) := by
      simp only [LpReliability.piggyback,encoded,size,if_neg limited,bind_eq_bind,bind_some]
      rfl
    rw [if_pos reliable,if_pos reliable,piggybacked]
    have count : LpReliability.nAcks (s.getEffectiveMtu options) s.ackQueue (lpSize (contentSize pkt.elements)) =
        min s.ackQueue.length (space.toNat / ackSize) := rfl
    refine ⟨_,_,rfl,all.2 wrapped,rfl,?_⟩
    split
    · rw [apart.1,count]
      omega
    · exact all.1
  · rw [if_neg reliable,if_neg reliable]
    exact ⟨s,pkt,rfl,wrapped,rfl,by omega⟩

theorem sendLpPacket_exact (line : SendQueue) (wrapped : pkt.Wrapped) (limited : s.getEffectiveMtu options ≠ mtuUnlimited) :
    ∃ t, s.sendLpPacket options line pkt = some t ∧ t.transportMtu = s.transportMtu ∧
      t.nOutOverMtu = s.nOutOverMtu +
        (if s.getEffectiveMtu options < lpSize (s.markedContent options line pkt + ackSize * s.nAcks options pkt) then 1 else 0) := by
  obtain ⟨before,acked,attached,wrappedAcked,same,content⟩ := withAcks_exact line wrapped limited
  obtain ⟨after,marked,result,mark,mtu,count,_⟩ := mark_cases options line before acked
  obtain ⟨size,wrappedMarked⟩ := marked_exact options line before wrappedAcked mark
  obtain ⟨block,encoded,_,blockSize⟩ := wrappedMarked.wireEncode
  have unchanged : before.markedContent options line acked = s.markedContent options line acked := by rw [same]; rfl
  rw [same] at mtu count
  rw [size,unchanged,content] at blockSize
  simp only [sendLpPacket,attached,result,encoded,bind_eq_bind,bind_some,blockSize]
  by_cases beyond : s.getEffectiveMtu options < lpSize (s.markedContent options line pkt + ackSize * s.nAcks options pkt)
  · rw [if_pos ⟨limited,beyond⟩,if_pos beyond]
    exact ⟨_,rfl,mtu,by rw [← count]⟩
  · rw [if_neg (fun both => beyond both.2),if_neg beyond]
    exact ⟨_,rfl,mtu,count⟩

-- No acknowledgement is attached, or the octets of the mark and those by which the
-- header gets longer are at most what the acknowledgements leave.
def Room (options : LinkServiceOptions) (line : SendQueue) (s : GenericLinkService) (pkt : LpPacket) : Prop :=
  let value := contentSize pkt.elements
  let marked := s.markedContent options line pkt
  let nAcks := s.nAcks options pkt
  nAcks = 0 ∨ ((marked : Int) - value) + (headerOctets (marked + ackSize * nAcks) - headerOctets value) ≤ s.left options pkt

theorem markedContent_le (options : LinkServiceOptions) (line : SendQueue) (s : GenericLinkService) (pkt : LpPacket) : s.markedContent options line pkt ≤
    contentSize pkt.elements + (if options.allowCongestionMarking then 5 else 0) := by
  unfold markedContent
  by_cases marking : s.marks options line
  · have allowed : options.allowCongestionMarking := by
      simp only [marks,Bool.and_eq_true] at marking
      exact marking.1.1.1
    rw [if_pos marking,if_pos allowed]
    exact Nat.add_le_add_right (contentSize_filter_le ..) _
  · rw [if_neg marking]
    omega

theorem room_iff (bound : (lpSize (contentSize pkt.elements) : Int) + (if options.allowCongestionMarking then congestionMarkSize else 0 : Nat) ≤
    s.getEffectiveMtu options) :
    ¬ s.getEffectiveMtu options < lpSize (s.markedContent options line pkt + ackSize * s.nAcks options pkt) ↔ s.Room options line pkt := by
  have content := markedContent_le options line s pkt
  unfold Room
  by_cases none : s.nAcks options pkt = 0
  · rw [none,Nat.mul_zero,Nat.add_zero]
    refine iff_of_true ?_ (.inl rfl)
    have twelve : congestionMarkSize = 12 := rfl
    by_cases allowed : options.allowCongestionMarking
    · rw [if_pos allowed] at content bound
      have := lpSize_mono content
      have := lpSize_add_le (contentSize pkt.elements)
      omega
    · rw [if_neg allowed] at content bound
      have := lpSize_mono content
      rw [Nat.add_zero] at this
      omega
  · simp only [none,false_or,left,LpReliability.left,lpSize_header]
    omega

-- Room under such an MTU: only a value of 251 or 252 octets gets no reserve for a longer
-- header, and a mark takes five octets and can lengthen the header as well.
def ShortRoom (options : LinkServiceOptions) (line : SendQueue) (s : GenericLinkService) (pkt : LpPacket) : Prop :=
  let value := contentSize pkt.elements
  let nAcks := s.nAcks options pkt
  nAcks = 0 ∨
    if s.marks options line then
      let marked := contentSize (pkt.elements.filter (fun b => b.type ≠ lpCongestionMark)) + 5
      marked + (if value < 253 ∧ 253 ≤ marked + 12 * nAcks then 2 else 0 : Nat) ≤ value + s.left options pkt
    else (value ≠ 251 ∧ value ≠ 252) ∨ 2 ≤ s.left options pkt

theorem room_short (small : s.getEffectiveMtu options ≤ 65535) : s.Room options line pkt ↔ s.ShortRoom options line pkt := by
  by_cases none : s.nAcks options pkt = 0
  · exact iff_of_true (.inl none) (.inl none)
  · have reliable : options.reliability := by
      by_contra off
      exact none (by simp [nAcks,off])
    have count : s.nAcks options pkt = LpReliability.nAcks (s.getEffectiveMtu options) s.ackQueue (lpSize (contentSize pkt.elements)) := if_pos reliable
    obtain ⟨spare,inside,short⟩ := LpReliability.left_cases small rfl (count ▸ none)
    have fewer := contentSize_filter_le pkt.elements (fun b => b.type ≠ lpCongestionMark)
    have five : (Block.encode lpCongestionMark (encodeNonNegativeInteger 1)).length = 5 := by decide
    have twelve : ackSize = 12 := rfl
    have positive := Nat.pos_of_ne_zero none
    rw [← count] at spare short
    rw [← count,twelve] at inside
    simp only [Room,ShortRoom,markedContent,left,none,false_or,headerOctets,twelve,five]
    by_cases marking : s.marks options line
    · simp only [if_pos marking]
      split_ifs <;> omega
    · simp only [if_neg marking]
      split_ifs <;> omega

def calls (options : LinkServiceOptions) : GenericLinkService → List (LpPacket × SendQueue) → List (GenericLinkService × SendQueue × LpPacket)
  | _,[] => []
  | s,(pkt,line) :: later => (s,line,pkt) :: match s.sendLpPacket options line pkt with
      | none => []
      | some t => calls options t later

def Counts (options : LinkServiceOptions) (transportMtu : Int) (pkt : LpPacket) : Prop :=
  ∀ (s : GenericLinkService) (line : SendQueue), s.transportMtu = transportMtu →
    ∃ t, s.sendLpPacket options line pkt = some t ∧ t.transportMtu = transportMtu ∧ s.nOutOverMtu ≤ t.nOutOverMtu ∧
      (t.nOutOverMtu = s.nOutOverMtu ↔ s.Room options line pkt)

theorem sendLpPackets_counts (options : LinkServiceOptions) (s : GenericLinkService) (entries : List (LpPacket × SendQueue))
    (counts : ∀ entry ∈ entries, Counts options s.transportMtu entry.1) :
    ∃ t, s.sendLpPackets options entries = some t ∧ s.nOutOverMtu ≤ t.nOutOverMtu ∧
      (∀ call ∈ s.calls options entries, call.1.transportMtu = s.transportMtu) ∧
      (t.nOutOverMtu = s.nOutOverMtu ↔ ∀ call ∈ s.calls options entries, call.1.Room options call.2.1 call.2.2) := by
  induction entries generalizing s with
  | nil => exact ⟨s,rfl,Nat.le_refl _,by simp [calls],by simp [calls]⟩
  | cons entry later ih =>
    obtain ⟨pkt,line⟩ := entry
    rw [forall_mem_cons] at counts
    obtain ⟨middle,sent,mtu,grows,counted⟩ := counts.1 s line rfl
    obtain ⟨t,sentLater,growsLater,sameMtu,countedLater⟩ := ih (s := middle) (mtu ▸ counts.2)
    refine ⟨t,by simp only [sendLpPackets,sent,sentLater,bind_eq_bind,bind_some],Nat.le_trans grows growsLater,?_,?_⟩
    · simp only [calls,sent,forall_mem_cons,true_and]
      exact fun call later => (sameMtu call later).trans mtu
    · simp only [calls,sent,forall_mem_cons,← counted,← countedLater]
      omega

theorem counts_wrapped {transportMtu : Int} (wrapped : pkt.Wrapped) (limited : minMtu ≤ min options.overrideMtu transportMtu)
    (bound : (lpSize (contentSize pkt.elements) : Int) + (if options.allowCongestionMarking then congestionMarkSize else 0 : Nat) ≤
      min options.overrideMtu transportMtu) : Counts options transportMtu pkt := by
  rintro s line rfl
  have finite : s.getEffectiveMtu options ≠ mtuUnlimited := by
    simp only [getEffectiveMtu,mtuUnlimited,minMtu] at *
    omega
  obtain ⟨t,sent,mtu,counted⟩ := sendLpPacket_exact line wrapped finite
  refine ⟨t,sent,mtu,by omega,?_⟩
  rw [← room_iff bound,counted]
  split <;> omega

end GenericLinkService

namespace LpFragmenter
open LpPacket
variable {packet : LpPacket} {mtu : Nat}

theorem bare_or_wrapped (fresh : packet.wire = none) : (∃ b, packet.elements = [b] ∧ b.type = lpFragment) ∨ packet.Wrapped := by
  by_cases bare : ∃ b, packet.elements = [b] ∧ b.type = lpFragment
  · exact .inl bare
  · exact .inr ⟨fresh,fun b only fragment => bare ⟨b,only,fragment⟩⟩

theorem headerSize_eq (fresh : packet.wire = none) (encoded : packet.wireEncode = some packetWire) :
    contentSize (packet.elements.filter (fun b => b.type ≠ lpFragment)) = headerSize packet packetWire := by
  have sizes : ∀ elements : List Block, contentSize elements = (elements.map packet.elementSize).sum := by
    intro elements
    rw [contentSize_eq_sum]
    congr 2
    funext b
    rw [elementSize,fresh]
    rfl
  rcases bare_or_wrapped fresh with ⟨b,only,fragment⟩ | wrapped
  · have none : packet.elements.filter (fun b => b.type ≠ lpFragment) = [] := by simp [only,fragment]
    rw [headerSize,none]
    split <;> rfl
  · obtain ⟨block,same,type,_⟩ := wrapped.wireEncode
    rw [encoded] at same
    cases same
    rw [headerSize,if_pos type,sizes]

theorem fragments_small (fresh : packet.wire = none)
    (unindexed : packet.get lpFragIndex = none) (uncounted : packet.get lpFragCount = none) (carries : packet.get lpFragment = some netPkt)
    (fragmented : fragmentPacket nMaxFragments packet mtu = .ok frags) :
    (frags = [packet] ∧ ∃ packetWire, packet.wireEncode = some packetWire ∧ maxSingleFragOverhead + packetWire.size ≤ mtu) ∨
      ∀ frag ∈ frags, frag.Wrapped ∧ contentSize frag.elements + 20 ≤ mtu ∧ frag.has lpFragment := by
  rcases fragmentPacket_exact unindexed uncounted carries fragmented with fast | ⟨payloads,_,_,_,_,packetWire,encoded,enough,each⟩
  · exact .inl fast
  · refine .inr (fun frag present => ?_)
    obtain ⟨j,listed⟩ := mem_iff_getElem?.mp present
    obtain ⟨payload,_,short,isFragment⟩ := each j frag listed
    refine ⟨wrapped_of_get isFragment.unsent isFragment.index (by decide),?_,by rw [has_eq_get,isFragment.carries]; rfl⟩
    have base : contentSize ((if j = 0 then packet else LpPacket.blank).elements.filter (fun b => b.type ≠ lpFragment)) =
        if j = 0 then headerSize packet packetWire else 0 := by
      split
      · exact headerSize_eq fresh encoded
      · rfl
    have numbers : ∀ type n, type < 253 → (Block.encode type (encodeNonNegativeInteger n)).length ≤ 10 := by
      intro type n one
      have eight := length_encodeNonNegativeInteger_le n
      rw [length_encode,sizeOfVarNumber,if_pos one,sizeOfVarNumber,if_pos (by omega)]
      omega
    have content := isFragment.size
    have indexSize := numbers lpFragIndex j (by decide)
    have countSize := numbers lpFragCount frags.length (by decide)
    have payloadSize := (sizeOfVarNumber_le payload.length).2
    have fragmentSize : (Block.encode lpFragment payload).length = 1 + sizeOfVarNumber payload.length + payload.length := length_encode ..
    rw [base,fragmentSize] at content
    simp only [maxFragOverhead] at enough short
    by_cases first : j = 0
    · rw [if_pos first] at content short
      omega
    · rw [if_neg first] at content short
      omega

end LpFragmenter

namespace GenericLinkService
open LpPacket
variable {options : LinkServiceOptions} {s : GenericLinkService} {pkt : LpPacket} {frags : List LpPacket}

theorem counts_bare {transportMtu : Int} (unreliable : options.reliability = false)
    (limited : minMtu ≤ min options.overrideMtu transportMtu) (only : pkt.elements = [b]) (fragment : b.type = lpFragment)
    (encoded : pkt.wireEncode = some block) (whole : block.size = b.value.length)
    (bound : (maxSingleFragOverhead + block.size : Int) + (if options.allowCongestionMarking then congestionMarkSize else 0 : Nat) ≤
      min options.overrideMtu transportMtu) : Counts options transportMtu pkt := by
  rintro s line rfl
  have noAcks : s.nAcks options pkt = 0 := by simp [nAcks,unreliable]
  have room : s.Room options line pkt := .inl noAcks
  have plain : s.withAcks options pkt = some (s,pkt) := by simp [withAcks,unreliable]
  have small : ¬ s.getEffectiveMtu options < block.size := by
    simp only [getEffectiveMtu] at *
    omega
  obtain ⟨after,marked,result,mark,mtu,count,_⟩ := mark_cases options line s pkt
  have encodedMarked : ∃ block, marked.wireEncode = some block ∧ ¬ s.getEffectiveMtu options < block.size := by
    rw [mark]
    split
    · have isWrapped : LpPacket.Wrapped ⟨none,insert (pkt.elements.filter (fun b => b.type ≠ lpCongestionMark)) lpCongestionMark
          (encodeNonNegativeInteger 1)⟩ := wrapped_insert (by decide)
      obtain ⟨wrapped,made,_,size⟩ := isWrapped.wireEncode
      refine ⟨wrapped,made,?_⟩
      have content : contentSize pkt.elements = 1 + sizeOfVarNumber b.value.length + b.value.length := by
        rw [only,contentSize_cons,fragment]
        exact length_encode ..
      have less := contentSize_filter_le pkt.elements (fun b => b.type ≠ lpCongestionMark)
      have five : (Block.encode lpCongestionMark (encodeNonNegativeInteger 1)).length = 5 := by decide
      have long := (sizeOfVarNumber_le b.value.length).2
      have sum := (lpSize_le (contentSize (pkt.elements.filter (fun b => b.type ≠ lpCongestionMark)) + 5)).2
      rw [contentSize_insert,five] at size
      simp only [getEffectiveMtu,maxSingleFragOverhead] at *
      omega
    · exact ⟨block,encoded,small⟩
  obtain ⟨final,encodedFinal,fits⟩ := encodedMarked
  refine ⟨{ after with sent := after.sent ++ [final] },?_,mtu,Nat.le_of_eq count.symm,iff_of_true count room⟩
  simp only [sendLpPacket,plain,result,encodedFinal,bind_eq_bind,bind_some]
  rw [if_neg (fun both => fits both.2)]

theorem number_frame (options : LinkServiceOptions) (s : GenericLinkService) (frags : List LpPacket) :
    (s.number options frags).1.transportMtu = s.transportMtu ∧ (s.number options frags).1.nOutOverMtu = s.nOutOverMtu := by
  unfold number
  dsimp only
  split <;> split <;> exact ⟨rfl,rfl⟩

theorem length_number (type : Nat) (number : UInt64) :
    (Block.encode type (encodeSequence number)).length = sizeOfVarNumber type + 9 := by
  rw [length_encode,encodeSequence,length_toBigEndian]
  rfl

theorem number_reliable (reliable : options.reliability) (carried : ∀ frag ∈ frags, frag.has lpFragment) :
    ∀ frame ∈ (s.number options frags).2, ∃ frag ∈ frags, frame.Wrapped ∧ contentSize frame.elements ≤ contentSize frag.elements + 22 := by
  intro frame present
  cases frags with
  | nil =>
    simp [number,assignSequences,LpReliability.assignTxSequences,assignNumbers] at present
  | cons first rest =>
    have front : ((assignSequences s.lastSeqNo (first :: rest)).headD .blank).has lpFragment := by
      rw [assignSequences,assignNumbers,headD_cons,has_eq_get,get_set_ne (by decide),← has_eq_get]
      exact carried first mem_cons_self
    have numbered : (s.number options (first :: rest)).2 =
        LpReliability.assignTxSequences s.lastTxSeqNo (assignSequences s.lastSeqNo (first :: rest)) := by
      rw [number,if_pos (.inl reliable)]
      dsimp only
      rw [if_pos ⟨reliable,front⟩]
    rw [numbered] at present
    obtain ⟨sequenced,inside,tx,rfl⟩ := mem_assignNumbers present
    obtain ⟨frag,listed,seq,rfl⟩ := mem_assignNumbers inside
    refine ⟨frag,listed,wrapped_insert (by decide),?_⟩
    have outer := contentSize_set_le (frag.set lpSequence (encodeSequence seq)) lpTxSequence (encodeSequence tx)
    have inner := contentSize_set_le frag lpSequence (encodeSequence seq)
    rw [length_number] at outer inner
    have three : sizeOfVarNumber lpTxSequence = 3 := rfl
    have one : sizeOfVarNumber lpSequence = 1 := rfl
    omega

theorem number_frames (carried : ∀ frag ∈ frags, frag.has lpFragment) (present : frame ∈ (s.number options frags).2) :
    (options.reliability = false ∧ frame ∈ frags) ∨ ∃ frag ∈ frags, frame.Wrapped ∧
      contentSize frame.elements ≤ contentSize frag.elements + 10 + (if options.reliability then 12 else 0) := by
  cases reliable : options.reliability with
  | true => exact .inr (number_reliable reliable carried frame present)
  | false =>
    by_cases several : frags.length > 1
    · have numbered : (s.number options frags).2 = assignSequences s.lastSeqNo frags := by simp [number,reliable,several]
      rw [numbered] at present
      obtain ⟨frag,listed,seq,rfl⟩ := mem_assignNumbers present
      refine .inr ⟨frag,listed,wrapped_insert (by decide),?_⟩
      have size := contentSize_set_le frag lpSequence (encodeSequence seq)
      rw [length_number] at size
      exact size
    · exact .inl ⟨rfl,by simpa [number,reliable,several] using present⟩

theorem fragmentMtu_eq (limited : minMtu ≤ s.getEffectiveMtu options) :
    s.fragmentMtu options = s.getEffectiveMtu options - (if options.reliability then 12 else 0 : Nat) -
      (if options.allowCongestionMarking then 12 else 0 : Nat) := by
  have finite : s.getEffectiveMtu options ≠ mtuUnlimited ∧ s.getEffectiveMtu options - reservedHeaderSpace ≠ mtuUnlimited := by
    simp only [minMtu,mtuUnlimited,show reservedHeaderSpace = 12 from rfl] at *
    omega
  unfold fragmentMtu
  cases options.reliability <;> cases options.allowCongestionMarking <;> simp [finite] <;> rfl

def netCalls (options : LinkServiceOptions) (lines : Nat → SendQueue) (s : GenericLinkService) (frags : List LpPacket) :
    List (GenericLinkService × SendQueue × LpPacket) :=
  (s.number options frags).1.calls options ((s.number options frags).2.mapIdx (fun i frag => (frag,lines i)))

theorem frames_count {payload : List UInt8} (limited : minMtu ≤ s.getEffectiveMtu options) (fresh : pkt.wire = none)
    (unindexed : pkt.get lpFragIndex = none) (uncounted : pkt.get lpFragCount = none) (carries : pkt.get lpFragment = some payload)
    (element : Block.fromBuffer payload = some (netPkt,[]))
    (accepted : LpFragmenter.fragmentPacket options.nMaxFragments pkt (s.fragmentMtu options).toNat = .ok frags) :
    ∀ frame ∈ (s.number options frags).2, Counts options s.transportMtu frame := by
  have mtu := fragmentMtu_eq limited
  have twelve : congestionMarkSize = 12 := rfl
  have carriesHas : pkt.has lpFragment := by rw [has_eq_get,carries]; rfl
  -- enough for a frame: wrapped, and not larger than the fragments were planned for
  have counts : ∀ frame : LpPacket, frame.Wrapped → (contentSize frame.elements : Int) + 10 ≤
      s.getEffectiveMtu options - (if options.allowCongestionMarking then 12 else 0 : Nat) → Counts options s.transportMtu frame := by
    intro frame wrapped size
    have sum := (lpSize_le (contentSize frame.elements)).2
    refine counts_wrapped wrapped limited ?_
    rw [twelve]
    simp only [getEffectiveMtu] at size
    omega
  suffices planned : ∀ frag ∈ frags, (contentSize frag.elements : Int) + 20 ≤ s.fragmentMtu options ∧ frag.has lpFragment ∧
      (options.reliability = false → Counts options s.transportMtu frag) by
    intro frame present
    rcases number_frames (fun frag listed => (planned frag listed).2.1) present with ⟨unreliable,listed⟩ | ⟨frag,listed,wrapped,size⟩
    · exact (planned frame listed).2.2 unreliable
    · have small := (planned frag listed).1
      exact counts frame wrapped (by omega)
  rcases LpFragmenter.fragments_small fresh unindexed uncounted carries accepted with ⟨rfl,packetWire,encoded,small⟩ | each
  · -- the packet itself
    refine forall_mem_singleton.mpr ?_
    simp only [maxSingleFragOverhead] at small
    rcases LpFragmenter.bare_or_wrapped fresh with ⟨b,only,fragment⟩ | wrapped
    · obtain rfl : payload = b.value := by
        rw [get_eq_head,only,filter_cons_of_pos (by simp [fragment])] at carries
        exact (some.inj carries).symm
      have sent : pkt.wireEncode = some netPkt := by
        simp only [wireEncode,only,if_pos fragment,element,map_some]
      rw [sent] at encoded
      cases encoded
      have whole := (Block.fromBuffer_consumes element).1
      rw [append_nil] at whole
      have size : netPkt.size = b.value.length := by rw [whole]; rfl
      have content : contentSize pkt.elements = 1 + sizeOfVarNumber b.value.length + b.value.length := by
        rw [only,contentSize_cons,fragment]
        exact length_encode ..
      have long := (sizeOfVarNumber_le b.value.length).2
      refine ⟨by omega,carriesHas,fun unreliable => counts_bare unreliable limited only fragment sent size ?_⟩
      simp only [getEffectiveMtu,maxSingleFragOverhead,twelve] at *
      omega
    · obtain ⟨block,same,_,size⟩ := wrapped.wireEncode
      rw [encoded] at same
      cases same
      have sum := (lpSize_le (contentSize pkt.elements)).1
      exact ⟨by omega,carriesHas,fun _ => counts pkt wrapped (by omega)⟩
  · intro frag listed
    obtain ⟨wrapped,small,has⟩ := each frag listed
    exact ⟨by omega,has,fun _ => counts frag wrapped (by omega)⟩

end GenericLinkService

open GenericLinkService

-- No frame is too large exactly when every one has room for what is added last.
theorem frames_within_mtu (options : LinkServiceOptions) (lines : Nat → SendQueue) (s : GenericLinkService) (pkt : LpPacket) (payload : List UInt8)
    (netPkt : Block) (frags : List LpPacket) (fragmentation : options.allowFragmentation) (limited : minMtu ≤ s.getEffectiveMtu options)
    (fresh : pkt.wire = none) (unindexed : pkt.get lpFragIndex = none) (uncounted : pkt.get lpFragCount = none)
    (carries : pkt.get lpFragment = some payload) (element : Block.fromBuffer payload = some (netPkt,[]))
    (accepted : LpFragmenter.fragmentPacket options.nMaxFragments pkt (s.fragmentMtu options).toNat = .ok frags) :
    ∃ t, s.sendNetPacket options lines pkt = some t ∧
      (t.nOutOverMtu = s.nOutOverMtu ↔ ∀ call ∈ s.netCalls options lines frags, call.1.Room options call.2.1 call.2.2) ∧
      (s.getEffectiveMtu options ≤ 65535 →
        (t.nOutOverMtu = s.nOutOverMtu ↔ ∀ call ∈ s.netCalls options lines frags, call.1.ShortRoom options call.2.1 call.2.2)) := by
  have finite : s.fragmentMtu options ≠ mtuUnlimited := by
    have mtu := fragmentMtu_eq limited
    simp only [minMtu,mtuUnlimited] at *
    split_ifs at mtu <;> omega
  have counts := frames_count limited fresh unindexed uncounted carries element accepted
  obtain ⟨mtu,count⟩ := number_frame options s frags
  obtain ⟨t,sent,_,sameMtu,counted⟩ := sendLpPackets_counts options (s.number options frags).1
    ((s.number options frags).2.mapIdx (fun i frag => (frag,lines i))) (by
      intro entry present
      obtain ⟨i,inside,rfl⟩ := mem_mapIdx.mp present
      rw [mtu]
      exact counts _ (getElem_mem inside))
  rw [count] at counted
  refine ⟨t,?_,counted,fun small => counted.trans (forall₂_congr (fun call listed => room_short ?_))⟩
  · simp only [sendNetPacket,fragmentation,true_and,if_pos finite,accepted]
    exact sent
  · rwa [getEffectiveMtu,sameMtu call listed,mtu]

def shortPacket : LpPacket := ⟨none,[⟨80,80 :: 10 :: 6 :: 8 :: List.replicate 8 7,6 :: 8 :: List.replicate 8 7⟩]⟩

def allFeatures : LinkServiceOptions := ⟨true,400,true,true,0,1,fun _ => 1,64⟩

theorem frames_within_mtu_unacknowledged : ∃ t, (⟨64,0,0,[],some 0,0,0,0,0,[]⟩ : GenericLinkService).sendNetPacket allFeatures (fun _ => ⟨1,5⟩)
    shortPacket = some t ∧ (t.nOutOverMtu = 0 ↔ ∀ call ∈ (⟨64,0,0,[],some 0,0,0,0,0,[]⟩ : GenericLinkService).netCalls allFeatures
      (fun _ => ⟨1,5⟩) [shortPacket], call.1.ShortRoom allFeatures call.2.1 call.2.2) := by
  obtain ⟨t,sent,_,counted⟩ := frames_within_mtu allFeatures (fun _ => ⟨1,5⟩) ⟨64,0,0,[],some 0,0,0,0,0,[]⟩ shortPacket (6 :: 8 :: List.replicate 8 7)
    ⟨6,6 :: 8 :: List.replicate 8 7,List.replicate 8 7⟩ [shortPacket] rfl (by decide) rfl rfl rfl rfl (by decide) rfl
  exact ⟨t,sent,counted (by decide)⟩

-- Two acknowledgements leave two octets of an MTU of 64, and the congestion mark
-- that is added after them takes five. Without a mark, acknowledgements can make
-- the TLV-LENGTH longer than was reckoned with.
theorem frames_over_mtu : ((⟨64,0,0,[1,2],some 0,0,0,0,0,[]⟩ : GenericLinkService).sendNetPacket allFeatures (fun _ => ⟨1,5⟩)
      shortPacket).map (fun t => (t.nFragmentationErrors,t.nOutOverMtu,t.sent)) = some (0,1,[]) ∧
    ((⟨277,0,0,[1,2],none,0,0,0,0,[]⟩ : GenericLinkService).sendNetPacket
      { allFeatures with allowCongestionMarking := false, overrideMtu := 277 } (fun _ => ⟨0,0⟩)
      ⟨none,[⟨80,80 :: 227 :: 6 :: 225 :: List.replicate 225 7,6 :: 225 :: List.replicate 225 7⟩]⟩).map
        (fun t => (t.nFragmentationErrors,t.nOutOverMtu,t.sent)) = some (0,1,[]) := by
  constructor
  · decide
  · decide +kernel

end ReflexiveNfd
