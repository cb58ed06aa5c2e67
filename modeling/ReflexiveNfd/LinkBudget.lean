import ReflexiveNfd.LinkService
import ReflexiveNfd.Elements

namespace ReflexiveNfd
open Octets Tlv List Option

namespace LpReliability
open LpPacket

def Piggybacks (pkt : LpPacket) (mtu : Int) (ackQueue : List UInt64) : Prop :=
  ∃ added rest wire, ackQueue = added ++ rest ∧ piggyback pkt mtu ackQueue = some (added.foldl addAck pkt,rest) ∧
    (added.foldl addAck pkt).wireEncode = some wire ∧ wire.size ≤ mtu

theorem addAcks_wrapped (pkt : LpPacket) (some : acks ≠ []) : (acks.foldl addAck pkt).Wrapped := by
  rw [← dropLast_append_getLast some,foldl_append]
  exact wrapped_insert (by decide)

-- An LpPacket under an MTU with a TLV-LENGTH of at most three octets: no acknowledgement
-- is attached, the value has not 251 or 252 octets, or the acknowledgements leave two.
-- For any packet, a header has to fit in what is left and what is not its value.
theorem piggybacks_iff (pkt : LpPacket) (mtu : Int) (ackQueue : List UInt64) (encoded : pkt.wireEncode = some block) (fits : block.size ≤ mtu) :
    let value := contentSize pkt.elements
    let nAcks := nAcks mtu ackQueue block.size
    let left := left mtu block.size nAcks
    (pkt.Wrapped → mtu ≤ 65535 → (Piggybacks pkt mtu ackQueue ↔ nAcks = 0 ∨ (value ≠ 251 ∧ value ≠ 252) ∨ 2 ≤ left)) ∧
      (Piggybacks pkt mtu ackQueue ↔ nAcks = 0 ∨ (headerOctets (value + ackSize * nAcks) : Int) ≤ (block.size - value) + left) := by
  intro value nAcks left
  have finite : mtu ≠ mtuUnlimited := by
    simp only [mtuUnlimited]
    omega
  have attached := attach_eq ackQueue (remainingSpace mtu block.size) pkt
  have content := (attach_exact (fun _ => true) (fun _ => rfl) ackQueue (remainingSpace mtu block.size) pkt).1
  rw [filter_true,filter_true,attached] at content
  have ran : piggyback pkt mtu ackQueue = some (attach ackQueue (remainingSpace mtu block.size) pkt) := by
    simp only [piggyback,encoded,if_neg finite,bind_eq_bind,bind_some]
  rw [attached] at ran
  generalize taken : ackQueue.take ((remainingSpace mtu block.size).toNat / ackSize) = added at ran content
  have count : nAcks = added.length := by rw [← taken,length_take,Nat.min_comm]; rfl
  have limit : Piggybacks pkt mtu ackQueue ↔ ∃ wire, (added.foldl addAck pkt).wireEncode = some wire ∧ wire.size ≤ mtu := by
    constructor
    · rintro ⟨_,_,wire,_,same,found,small⟩
      obtain ⟨same,_⟩ := Prod.mk.inj (some.inj (ran.symm.trans same))
      exact ⟨wire,same ▸ found,small⟩
    · rintro ⟨wire,found,small⟩
      exact ⟨added,_,wire,by rw [← taken,take_append_drop],ran,found,small⟩
  have general : Piggybacks pkt mtu ackQueue ↔ nAcks = 0 ∨ (headerOctets (value + ackSize * nAcks) : Int) ≤ (block.size - value) + left := by
    rw [limit]
    by_cases none : added = []
    · rw [none] at count ⊢
      exact iff_of_true ⟨block,encoded,fits⟩ (.inl count)
    · obtain ⟨wire,found,_,size⟩ := (addAcks_wrapped pkt none).wireEncode
      have sum : wire.size = lpSize (value + ackSize * nAcks) := by
        rw [size]
        exact congrArg lpSize content
      have acked : nAcks ≠ 0 := by rwa [count,Ne,length_eq_zero_iff]
      simp only [found,some.injEq,exists_eq_left',sum,lpSize_header,acked,false_or,left,LpReliability.left]
      omega
  refine ⟨fun wrapped small => ?_,general⟩
  obtain ⟨_,same,_,size⟩ := wrapped.wireEncode
  rw [encoded] at same
  cases same
  by_cases none : nAcks = 0
  · rw [general]
    exact iff_of_true (.inl none) (.inl none)
  · obtain ⟨spare,inside,short⟩ : 0 ≤ left ∧ (value + ackSize * nAcks : Nat) + left ≤ 65533 ∧ (value < 251 → 2 ≤ left) := left_cases small size none
    have header : (block.size : Int) = headerOctets value + value := by exact_mod_cast size.trans (lpSize_header value)
    have twelve : ackSize = 12 := rfl
    have positive := Nat.pos_of_ne_zero none
    rw [twelve] at inside
    rw [general,header]
    clear_value left nAcks value
    simp only [none,false_or,headerOctets,twelve]
    split_ifs <;> omega

def sizedPacket (size : Nat) : LpPacket := ⟨none,[Block.make lpSequence (List.replicate size 7)]⟩

theorem piggybacks_small : Piggybacks (sizedPacket 8) 64 [1] :=
  ((@piggybacks_iff ⟨100,_,_⟩ (sizedPacket 8) 64 [1] rfl (by decide)).1 ⟨rfl,fun b only => by cases only; decide⟩ (by decide)).mpr (by decide)

-- A value of 251 octets has a TLV-LENGTH of one octet, but the packet has 253.
theorem piggyback_over_mtu : ((sizedPacket 249).wireEncode.map Block.size,
    (piggyback (sizedPacket 249) 265 [1]).bind (fun result => result.1.wireEncode.map Block.size)) = (some 253,some 267) := by
  decide +kernel

end LpReliability

namespace GenericLinkService
open LpPacket
variable {options : LinkServiceOptions} {s : GenericLinkService}

section
variable (options : LinkServiceOptions)

def MtuKept (s : GenericLinkService) : Prop :=
  (s.fragmentMtu options = mtuUnlimited ∨ 0 ≤ s.fragmentMtu options) ∧
    (s.transportMtu ≠ mtuUnlimited → s.fragmentMtu options ≠ mtuUnlimited)

def featureSpace : Nat :=
  (if options.reliability then reservedHeaderSpace else 0) + if options.allowCongestionMarking then congestionMarkSize else 0

theorem mtu_kept_iff (s : GenericLinkService) : s.MtuKept options ↔
    (s.transportMtu = mtuUnlimited ∧ mtuUnlimited ≤ options.overrideMtu) ∨ featureSpace options ≤ s.getEffectiveMtu options := by
  have sizes : reservedHeaderSpace = 12 ∧ congestionMarkSize = 12 := ⟨rfl,rfl⟩
  simp only [MtuKept,fragmentMtu,featureSpace,getEffectiveMtu,mtuUnlimited,sizes]
  cases options.reliability <;> cases options.allowCongestionMarking <;> simp <;> omega

def reliableOptions : LinkServiceOptions := ⟨true,400,true,false,0,1,fun _ => 1,1500⟩

def onMtu (transportMtu : Int) (ackQueue : List UInt64) : GenericLinkService := ⟨transportMtu,0,0,ackQueue,none,0,0,0,0,[]⟩

-- An MTU of 11 octets is taken for none at all, and with 5 the assertion fails.
theorem mtu_lost : ((onMtu 11 []).fragmentMtu reliableOptions,(onMtu 5 []).fragmentMtu reliableOptions) = (mtuUnlimited,-7) := by
  decide

def requestIdlePacket (line : SendQueue) (s : GenericLinkService) : Option GenericLinkService :=
  s.sendLpPacket options line .blank

def sendIdleAcks (options : LinkServiceOptions) : Nat → (Nat → SendQueue) → GenericLinkService → Option GenericLinkService
  | 0,_,s => if s.ackQueue = [] then some s else none
  | steps + 1,lines,s =>
    if s.ackQueue = [] then some s
    else (s.requestIdlePacket options (lines 0)).bind (sendIdleAcks options steps (fun i => lines (i + 1)))

-- An idle packet has two octets, and two are kept for a longer TLV-LENGTH.
def idleSpace (s : GenericLinkService) : Int :=
  (if s.getEffectiveMtu options = mtuUnlimited then (maxNdnPacketSize : Int) else s.getEffectiveMtu options) - 2 - 2

end

theorem requestIdlePacket_exact (line : SendQueue) (reliable : options.reliability) : ∃ t, s.requestIdlePacket options line = some t ∧
    t.transportMtu = s.transportMtu ∧ t.ackQueue = s.ackQueue.drop ((s.idleSpace options).toNat / ackSize) := by
  have acked : s.withAcks options .blank = some ({ s with ackQueue := s.ackQueue.drop ((s.idleSpace options).toNat / ackSize) },
      (LpReliability.attach s.ackQueue (s.idleSpace options) .blank).1) := by
    have blank : LpReliability.piggyback .blank (s.getEffectiveMtu options) s.ackQueue =
        some (LpReliability.attach s.ackQueue (s.idleSpace options) .blank) := rfl
    rw [withAcks,if_pos reliable,blank,LpReliability.attach_eq,map_some]
  have wrapped := (LpReliability.attach_exact (fun _ => true) (fun _ => rfl) s.ackQueue (s.idleSpace options) .blank).2 ⟨rfl,fun _ only => by cases only⟩
  obtain ⟨after,marked,result,mark,mtu,_,queue⟩ := mark_cases options line
    { s with ackQueue := s.ackQueue.drop ((s.idleSpace options).toNat / ackSize) } _
  obtain ⟨block,encoded,_⟩ := (marked_exact options line _ wrapped mark).2.wireEncode
  simp only [requestIdlePacket,sendLpPacket,acked,result,encoded,bind_eq_bind,bind_some]
  split <;> exact ⟨_,rfl,mtu,queue⟩

theorem sendIdleAcks_ends (reliable : options.reliability) (room : ackSize ≤ s.idleSpace options) (lines : Nat → SendQueue)
    (enough : s.ackQueue.length ≤ steps) : ∃ t, s.sendIdleAcks options steps lines = some t ∧ t.ackQueue = [] := by
  induction steps generalizing s lines with
  | zero =>
    have done := length_eq_zero_iff.mp (Nat.le_zero.mp enough)
    exact ⟨s,if_pos done,done⟩
  | succ steps ih =>
    rw [sendIdleAcks]
    by_cases done : s.ackQueue = []
    · exact ⟨s,if_pos done,done⟩
    · obtain ⟨t,sent,mtu,queue⟩ := requestIdlePacket_exact (lines 0) reliable
      have one : 0 < (s.idleSpace options).toNat / ackSize := Nat.div_pos (by omega) (by decide)
      rw [if_neg done,sent,bind_some]
      refine ih ?_ _ ?_
      · rwa [idleSpace,getEffectiveMtu,mtu]
      · rw [queue,length_drop]
        omega

theorem sendIdleAcks_stuck (reliable : options.reliability) (full : ¬ ackSize ≤ s.idleSpace options) (waiting : s.ackQueue ≠ []) :
    s.sendIdleAcks options steps lines = none := by
  induction steps generalizing s lines with
  | zero => exact if_neg waiting
  | succ steps ih =>
    obtain ⟨t,sent,mtu,queue⟩ := requestIdlePacket_exact (lines 0) reliable
    have twelve : ackSize = 12 := rfl
    have none : (s.idleSpace options).toNat / ackSize = 0 := Nat.div_eq_of_lt (by omega)
    rw [none,drop_zero] at queue
    rw [sendIdleAcks,if_neg waiting,sent,bind_some]
    refine ih ?_ (queue ▸ waiting)
    rwa [idleSpace,getEffectiveMtu,mtu]

-- The loop ends, with no acknowledgement left, exactly if there is none or the MTU
-- leaves space for one.
theorem idle_acks_sent_iff (options : LinkServiceOptions) (lines : Nat → SendQueue) (s : GenericLinkService) (reliable : options.reliability) :
    (∃ steps t, s.sendIdleAcks options steps lines = some t ∧ t.ackQueue = []) ↔
      s.ackQueue = [] ∨ s.getEffectiveMtu options = mtuUnlimited ∨ 16 ≤ s.getEffectiveMtu options := by
  have space : ackSize ≤ s.idleSpace options ↔ s.getEffectiveMtu options = mtuUnlimited ∨ 16 ≤ s.getEffectiveMtu options := by
    have twelve : ackSize = 12 := rfl
    rw [idleSpace,twelve]
    split
    · rename_i unlimited
      exact iff_of_true (by decide) (.inl unlimited)
    · omega
  rw [← space]
  constructor
  · rintro ⟨steps,t,ended,_⟩
    by_contra neither
    rw [not_or] at neither
    rw [sendIdleAcks_stuck reliable neither.2 neither.1] at ended
    cases ended
  · rintro (none | room)
    · exact ⟨0,s,if_pos none,none⟩
    · exact ⟨_,sendIdleAcks_ends reliable room lines (Nat.le_refl _)⟩

theorem idle_acks_sent : ∃ steps t, (onMtu 16 [1,2,3]).sendIdleAcks reliableOptions steps (fun _ => ⟨0,0⟩) = some t ∧ t.ackQueue = [] :=
  (idle_acks_sent_iff reliableOptions (fun _ => ⟨0,0⟩) (onMtu 16 [1,2,3]) rfl).mpr (.inr (.inr (by decide)))

theorem idle_acks_unsent : ¬ ∃ steps t, (onMtu 15 [1]).sendIdleAcks reliableOptions steps (fun _ => ⟨0,0⟩) = some t := by
  rintro ⟨steps,t,ended⟩
  rw [sendIdleAcks_stuck rfl (by decide) (by decide)] at ended
  cases ended

end GenericLinkService
end ReflexiveNfd
