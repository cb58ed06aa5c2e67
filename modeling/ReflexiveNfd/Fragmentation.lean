import Mathlib.Data.Finset.Card
import Mathlib.Order.Interval.Finset.Nat
import ReflexiveNfd.LpPacket

namespace ReflexiveNfd
open Octets Tlv List Option

-- LpPacket, Sequence and Fragment with the longest lengths, and the same with
-- FragIndex and FragCount.
def maxSingleFragOverhead : Nat := (1 + 9) + (1 + 1 + 8) + (1 + 9)
def maxFragOverhead : Nat := (1 + 9) + (1 + 1 + 8) + (1 + 1 + 8) + (1 + 1 + 8) + (1 + 9)

-- raised stands for an exception; the other two are logged and the packet is dropped.
inductive FragmentationError where
  | raised
  | mtuTooSmall
  | fragCountOverLimit
  deriving DecidableEq, Repr

namespace LpFragmenter

def fill (base : LpPacket) (fragIndex fragCount : Nat) (payload : List UInt8) : Option LpPacket := do
  let frag ← base.add lpFragIndex (encodeNonNegativeInteger fragIndex)
  let frag ← frag.add lpFragCount (encodeNonNegativeInteger fragCount)
  some (frag.set lpFragment payload)

-- The loop over the payload: rest is what is left of it, size the length of the
-- next piece. Only the first fragment starts from the packet.
def populate (fragCount payloadSize : Nat) : Nat → LpPacket → Nat → Nat → List UInt8 → Option (List LpPacket)
  | 0,_,_,_,_ => some []
  | steps + 1,base,fragIndex,size,rest =>
    if rest = [] then some []
    else do
      let frag ← fill base fragIndex fragCount (rest.take size)
      let frags ← populate fragCount payloadSize steps .blank (fragIndex + 1) payloadSize (rest.drop size)
      some (frag :: frags)

def fragCountOf (netPktSize firstPayloadSize payloadSize : Nat) : Nat :=
  1 + (netPktSize - firstPayloadSize) / payloadSize + (if (netPktSize - firstPayloadSize) % payloadSize ≠ 0 then 1 else 0)

def headerSize (packet : LpPacket) (packetWire : Block) : Nat :=
  if packetWire.type = lpLpPacket then
    ((packet.elements.filter (fun b => b.type ≠ lpFragment)).map packet.elementSize).sum
  else 0

def fragmentPacket (nMaxFragments : UInt64) (packet : LpPacket) (mtu : Nat) : Except FragmentationError (List LpPacket) :=
  match packet.wireEncode,packet.getFragment with
  | some packetWire,some netPkt =>
    if maxSingleFragOverhead + packetWire.size ≤ mtu then .ok [packet]
    else
      let firstHeaderSize := headerSize packet packetWire
      if maxFragOverhead + firstHeaderSize + 1 > mtu then .error .mtuTooSmall
      else
        let firstPayloadSize := min netPkt.length (mtu - firstHeaderSize - maxFragOverhead)
        let payloadSize := mtu - maxFragOverhead
        let fragCount := fragCountOf netPkt.length firstPayloadSize payloadSize
        if fragCount > nMaxFragments.toNat then .error .fragCountOverLimit
        else match populate fragCount payloadSize netPkt.length packet 0 firstPayloadSize netPkt with
          | some frags => .ok frags
          | none => .error .raised
  | _,_ => .error .raised

end LpFragmenter

def assignNumbers (type : Nat) (last : UInt64) : List LpPacket → List LpPacket
  | [] => []
  | pkt :: pkts => pkt.set type (encodeSequence (last + 1)) :: assignNumbers type (last + 1) pkts

def assignSequences (lastSeqNo : UInt64) (pkts : List LpPacket) : List LpPacket := assignNumbers lpSequence lastSeqNo pkts

structure IsFragment (base : LpPacket) (fragIndex fragCount : Nat) (payload : List UInt8) (frag : LpPacket) : Prop where
  index : frag.get lpFragIndex = some (encodeNonNegativeInteger fragIndex)
  count : frag.get lpFragCount = some (encodeNonNegativeInteger fragCount)
  carries : frag.get lpFragment = some payload
  headers : frag.fieldsOtherThan [lpFragment,lpFragIndex,lpFragCount] = base.fieldsOtherThan [lpFragment,lpFragIndex,lpFragCount]
  unsent : frag.wire = none
  size : LpPacket.contentSize frag.elements = LpPacket.contentSize (base.elements.filter (fun b => b.type ≠ lpFragment)) +
    (Block.encode lpFragIndex (encodeNonNegativeInteger fragIndex)).length +
    (Block.encode lpFragCount (encodeNonNegativeInteger fragCount)).length + (Block.encode lpFragment payload).length

namespace LpFragmenter
open LpPacket
variable {base packet : LpPacket} {fragIndex fragCount payloadSize size steps mtu : Nat} {rest payload : List UInt8}

theorem fill_exact (fragIndex fragCount : Nat) (payload : List UInt8) (unindexed : base.get lpFragIndex = none) (uncounted : base.get lpFragCount = none) :
    ∃ frag, fill base fragIndex fragCount payload = some frag ∧ IsFragment base fragIndex fragCount payload frag := by
  have uncountedStill : get ⟨none,insert base.elements lpFragIndex (encodeNonNegativeInteger fragIndex)⟩ lpFragCount = none := by
    rw [get_add_ne (by decide),uncounted]
  have filled : fill base fragIndex fragCount payload = some (set ⟨none,insert (insert base.elements lpFragIndex
      (encodeNonNegativeInteger fragIndex)) lpFragCount (encodeNonNegativeInteger fragCount)⟩ lpFragment payload) := by
    simp only [fill,add_exact unindexed,bind_eq_bind,bind_some,add_exact uncountedStill]
  refine ⟨_,filled,?_,?_,get_set_self,?_,rfl,?_⟩
  · rw [get_set_ne (by decide),get_insert_ne (by decide),get_add_self unindexed]
  · rw [get_set_ne (by decide),get_add_self uncountedStill]
  · rw [fieldsOtherThan_set (by decide),fieldsOtherThan_insert (by decide),fieldsOtherThan_insert (by decide)]
    rfl
  · rw [LpPacket.set,contentSize_insert,contentSize_filter_insert _ _ _ _ rfl,contentSize_filter_insert _ _ _ _ rfl]

def piecesOf (length payloadSize : Nat) : Nat := length / payloadSize + (if length % payloadSize ≠ 0 then 1 else 0)

theorem piecesOf_pos {length : Nat} (positive : 0 < payloadSize) (some : 0 < length) :
    piecesOf length payloadSize = 1 + piecesOf (length - payloadSize) payloadSize := by
  unfold piecesOf
  by_cases large : payloadSize ≤ length
  · rw [Nat.div_eq_sub_div positive large,Nat.mod_eq_sub_mod large]
    omega
  · have less : length < payloadSize := by omega
    rw [Nat.div_eq_of_lt less,Nat.mod_eq_of_lt less,Nat.sub_eq_zero_of_le (Nat.le_of_lt less),Nat.zero_div,Nat.zero_mod]
    simp
    omega

theorem populate_exact (fragIndex fragCount size payloadSize : Nat) (enough : rest.length ≤ steps) (positive : 0 < size) (positiveLater : 0 < payloadSize)
    (unindexed : base.get lpFragIndex = none) (uncounted : base.get lpFragCount = none) :
    ∃ (frags : List LpPacket) (payloads : List (List UInt8)), populate fragCount payloadSize steps base fragIndex size rest = some frags ∧ payloads.flatten = rest ∧
      (∀ payload ∈ payloads, payload ≠ []) ∧ frags.length = payloads.length ∧
      (rest ≠ [] → payloads.length = 1 + piecesOf (rest.length - size) payloadSize) ∧
      ∀ j frag, frags[j]? = some frag → ∃ payload, payloads[j]? = some payload ∧ payload.length ≤ (if j = 0 then size else payloadSize) ∧
        IsFragment (if j = 0 then base else .blank) (fragIndex + j) fragCount payload frag := by
  induction steps generalizing base fragIndex size rest with
  | zero =>
    obtain rfl : rest = [] := length_eq_zero_iff.mp (by omega)
    exact ⟨[],[],rfl,rfl,by simp,rfl,by simp,by simp⟩
  | succ steps ih =>
    rw [populate]
    by_cases done : rest = []
    · rw [if_pos done]
      exact ⟨[],[],rfl,by simp [done],by simp,rfl,fun more => absurd done more,by simp⟩
    · rw [if_neg done]
      have long := length_pos_iff.mpr done
      obtain ⟨frag,filled,isFragment⟩ := fill_exact fragIndex fragCount (rest.take size) unindexed uncounted
      obtain ⟨frags,payloads,populated,whole,nonempty,length,counted,each⟩ :=
        @ih .blank (rest.drop size) (fragIndex + 1) payloadSize (by rw [length_drop]; omega) positiveLater rfl rfl
      refine ⟨frag :: frags,rest.take size :: payloads,?_,?_,?_,?_,fun _ => ?_,?_⟩
      · simp only [filled,populated,bind_eq_bind,bind_some]
      · rw [flatten_cons,whole,take_append_drop]
      · refine forall_mem_cons.mpr ⟨?_,nonempty⟩
        intro empty
        have := congrArg List.length empty
        rw [length_take,length_nil] at this
        omega
      · rw [length_cons,length_cons,length]
      · rw [length_cons]
        by_cases last : rest.drop size = []
        · rw [last] at whole
          have none : payloads = [] := by
            cases payloads with
            | nil => rfl
            | cons first others => exact absurd (append_eq_nil_iff.mp whole).1 (nonempty first mem_cons_self)
          have beyond := drop_eq_nil_iff.mp last
          rw [none,Nat.sub_eq_zero_of_le beyond]
          simp [piecesOf]
        · have counted := counted last
          rw [length_drop] at counted
          have more : 0 < rest.length - size := by
            have := length_pos_iff.mpr last
            rwa [length_drop] at this
          rw [counted,piecesOf_pos positiveLater more]
          omega
      · intro j piece found
        cases j with
        | zero =>
          cases found
          exact ⟨_,rfl,length_take_le size rest,isFragment⟩
        | succ j =>
          obtain ⟨payload,listed,short,one⟩ := each j piece found
          refine ⟨payload,listed,by rw [if_neg (by omega)]; simpa using short,?_⟩
          rw [if_neg (by omega)]
          have same : fragIndex + 1 + j = fragIndex + (j + 1) := by omega
          rw [same] at one
          by_cases first : j = 0
          · rwa [if_pos first] at one
          · rwa [if_neg first] at one

theorem fragmentPacket_exact
    (unindexed : packet.get lpFragIndex = none) (uncounted : packet.get lpFragCount = none) (carries : packet.get lpFragment = some netPkt)
    (fragmented : fragmentPacket nMaxFragments packet mtu = .ok frags) :
    (frags = [packet] ∧ ∃ packetWire, packet.wireEncode = some packetWire ∧ maxSingleFragOverhead + packetWire.size ≤ mtu) ∨
    ∃ payloads : List (List UInt8), payloads.flatten = netPkt ∧ (∀ payload ∈ payloads, payload ≠ []) ∧ frags.length = payloads.length ∧
      frags.length ≤ nMaxFragments.toNat ∧
      ∃ packetWire, packet.wireEncode = some packetWire ∧ maxFragOverhead + headerSize packet packetWire + 1 ≤ mtu ∧
        ∀ j frag, frags[j]? = some frag → ∃ payload, payloads[j]? = some payload ∧
          payload.length ≤ mtu - maxFragOverhead - (if j = 0 then headerSize packet packetWire else 0) ∧
          IsFragment (if j = 0 then packet else .blank) j frags.length payload frag := by
  unfold fragmentPacket at fragmented
  split at fragmented
  · rename_i packetWire payload encoded found
    obtain ⟨_,got,checked⟩ := bind_eq_some_iff.mp found
    rw [carries] at got
    cases got
    obtain ⟨nonempty,⟨⟩⟩ := ite_none_left_eq_some.mp checked
    have long := length_pos_iff.mpr nonempty
    split at fragmented
    · rename_i short
      cases fragmented
      exact .inl ⟨rfl,packetWire,encoded,short⟩
    · dsimp only at fragmented
      split at fragmented
      · cases fragmented
      · rename_i enough
        split at fragmented
        · cases fragmented
        · rename_i allowed
          obtain ⟨made,payloads,populated,whole,nonempties,length,counted,each⟩ :=
            populate_exact 0 (fragCountOf netPkt.length (min netPkt.length (mtu - headerSize packet packetWire - maxFragOverhead)) (mtu - maxFragOverhead))
              (min netPkt.length (mtu - headerSize packet packetWire - maxFragOverhead)) (mtu - maxFragOverhead) (Nat.le_refl netPkt.length)
              (by omega) (by omega) unindexed uncounted
          rw [populated] at fragmented
          cases fragmented
          have count : frags.length = fragCountOf netPkt.length (min netPkt.length (mtu - headerSize packet packetWire - maxFragOverhead)) (mtu - maxFragOverhead) := by
            rw [length,counted nonempty,fragCountOf,piecesOf,Nat.add_assoc]
          refine .inr ⟨payloads,whole,nonempties,length,by omega,packetWire,encoded,by omega,fun j frag listed => ?_⟩
          obtain ⟨payload,present,short,isFragment⟩ := each j frag listed
          rw [Nat.zero_add,← count] at isFragment
          refine ⟨payload,present,?_,isFragment⟩
          by_cases first : j = 0
          · rw [if_pos first] at short ⊢
            omega
          · rw [if_neg first] at short ⊢
            omega
  · cases fragmented

end LpFragmenter

theorem assignNumbers_getElem (type : Nat) (last : UInt64) (pkts : List LpPacket) (j : Nat) :
    (assignNumbers type last pkts)[j]? = pkts[j]?.map (fun pkt => pkt.set type (encodeSequence (last + 1 + UInt64.ofNat j))) := by
  induction pkts generalizing last j with
  | nil => rfl
  | cons pkt pkts ih =>
    cases j with
    | zero => simp [assignNumbers]
    | succ j =>
      rw [assignNumbers,List.getElem?_cons_succ,List.getElem?_cons_succ,ih,UInt64.ofNat_add]
      congr 3
      funext pkt
      rw [UInt64.add_comm (UInt64.ofNat j),UInt64.add_assoc (last + 1)]
      rfl

theorem length_assignNumbers (type : Nat) (last : UInt64) (pkts : List LpPacket) : (assignNumbers type last pkts).length = pkts.length := by
  induction pkts generalizing last with
  | nil => rfl
  | cons pkt pkts ih => rw [assignNumbers,length_cons,length_cons,ih]

theorem mem_assignNumbers
    (present : numbered ∈ assignNumbers type last pkts) : ∃ pkt ∈ pkts, ∃ number, numbered = pkt.set type (encodeSequence number) := by
  obtain ⟨j,inside⟩ := mem_iff_getElem?.mp present
  rw [assignNumbers_getElem] at inside
  obtain ⟨pkt,listed,same⟩ := map_eq_some_iff.mp inside
  exact ⟨pkt,mem_of_getElem? listed,_,same.symm⟩

end ReflexiveNfd
