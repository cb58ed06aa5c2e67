import ReflexiveNfd.Lib.Transition
import ReflexiveNfd.Lib.Forest
import ReflexiveNfd.Lib.Vectors
import ReflexiveNfd.Lib.OrderedMap
import ReflexiveNfd.Lib.Results
import ReflexiveNfd.LinkService

namespace ReflexiveNfd
open Octets Tlv Vectors Results List Option Function Transition OrderedMap Nat

def compareSequences (a b : UInt64) : Ordering := compare a.toNat b.toNat

abbrev NetPktId := Nat

structure ReliabilityOptions where
  isEnabled : Bool
  maxRetx : Nat
  seqNumLossThreshold : Nat
  deriving DecidableEq, Repr

-- rtoTimer says that the timer is running; it is cancelled with the element.
structure UnackedFrag where
  pkt : LpPacket
  rtoTimer : Bool
  retxCount : Nat
  nGreaterSeqAcks : Nat
  netPkt : NetPktId
  deriving DecidableEq, Repr

structure NetPkt where
  unackedFrags : List UInt64
  pkt : LpPacket
  isInterest : Bool
  didRetx : Bool
  deriving DecidableEq, Repr

abbrev UnackedFrags := OrderedMap UInt64 UnackedFrag compareSequences

-- Iterators are TxSequences, and none is the end of the map. Network packets are
-- kept by identifiers, the next of which is nNetPkts. traced: the logger's level
-- has trace messages evaluated; erasedReads: what they read after it was erased.
structure LpReliability where
  options : ReliabilityOptions
  unackedFrags : UnackedFrags
  firstUnackedFrag : Option UInt64
  ackQueue : List UInt64
  recentRecvSeqs : OrderedMap UInt64 Nat compareSequences
  recentRecvSeqsQueue : List UInt64
  lastTxSeqNo : UInt64
  idleAckTimer : Bool
  netPkts : NetPktId → NetPkt
  nNetPkts : Nat
  nAcknowledged : Nat
  nRetransmitted : Nat
  nRetxExhausted : Nat
  retransmitted : List LpPacket
  droppedInterests : List (List UInt8)
  traced : Bool
  erasedReads : List UInt64

-- invalid: an iterator without an element was used or an assertion failed.
-- unbounded: a loop went on for longer than it was given.
-- rangeExceeded: assignTxSequence raised, called in the given state.
inductive ReliabilityFault where
  | invalid
  | unbounded
  | rangeExceeded (found : LpReliability)

inductive Incoming where
  | fresh
  | duplicate
  | raised
  deriving DecidableEq, Repr

inductive ReliabilityEvent where
  | handleOutgoing (frags : List LpPacket) (pkt : LpPacket) (isInterest : Bool)
  | processIncomingPacket (pkt : LpPacket) (now rto : Nat)
  | rtoTimer (txSeq : UInt64)
  | setOptions (options : ReliabilityOptions)

instance : Std.TransCmp compareSequences where
  eq_swap {a b} := (Std.OrientedOrd.eq_swap : compare a.toNat b.toNat = (compare b.toNat a.toNat).swap)
  isLE_trans {a _ c} below above := (Std.TransOrd.isLE_trans below above : (compare a.toNat c.toNat).isLE)

instance : Std.LawfulEqCmp compareSequences where
  compare_self := Std.compare_self
  eq_of_compare same := UInt64.toNat_inj.mp (Std.compare_eq_iff_eq.mp same)

theorem compareSequences_lt : compareSequences a b = .lt ↔ a.toNat < b.toNat := Nat.compare_eq_lt

namespace LpReliability

def initial (options : ReliabilityOptions) (traced : Bool) : LpReliability where
  options := options
  unackedFrags := .empty
  firstUnackedFrag := none
  ackQueue := []
  recentRecvSeqs := .empty
  recentRecvSeqsQueue := []
  lastTxSeqNo := 0 - 1
  idleAckTimer := false
  netPkts := fun _ => ⟨[],.blank,false,false⟩
  nNetPkts := 0
  nAcknowledged := 0
  nRetransmitted := 0
  nRetxExhausted := 0
  retransmitted := []
  droppedInterests := []
  traced := traced
  erasedReads := []

section
variable (s : LpReliability)

section
variable (it : UInt64) (id : NetPktId) (frag : LpPacket) (txSeq : UInt64)

def deref : Except ReliabilityFault UnackedFrag :=
  match s.unackedFrags.find it with
  | some frag => .ok frag
  | none => .error .invalid

def write (frag : UnackedFrag) : LpReliability :=
  { s with unackedFrags := s.unackedFrags.insert it frag }

def first : Except ReliabilityFault UInt64 :=
  match s.firstUnackedFrag with
  | none => .error .invalid
  | some it => (s.deref it).map (fun _ => it)

def setNetPkt (netPkt : NetPkt) : LpReliability :=
  { s with netPkts := update s.netPkts id netPkt }

def deleteUnackedFrag (fragIt : UInt64) : Except ReliabilityFault LpReliability := do
  let firstUnackedTxSeq ← s.first
  let _ ← s.deref fragIt
  let remaining := s.unackedFrags.erase fragIt
  match remaining.begin? with
  | none => .ok { s with unackedFrags := remaining, firstUnackedFrag := none }
  | some start =>
    if firstUnackedTxSeq = fragIt then
      .ok { s with unackedFrags := remaining, firstUnackedFrag := some ((remaining.next? fragIt).getD start) }
    else .ok { s with unackedFrags := remaining }

def exceeds : Except ReliabilityFault Bool :=
  if s.unackedFrags.begin? = none then .ok false
  else s.first.map (fun firstUnackedTxSeq => txSeq == firstUnackedTxSeq)

def advance : LpReliability := { s with lastTxSeqNo := s.lastTxSeqNo + 1 }

def assignTxSequence : Except ReliabilityFault (LpReliability × LpPacket × UInt64) := do
  let txSeq := s.lastTxSeqNo + 1
  if ← s.exceeds txSeq then .error (.rangeExceeded s)
  else .ok (s.advance,frag.set lpTxSequence (encodeSequence txSeq),txSeq)

-- try_emplace, which leaves an element that is there, and the assignments to the
-- element it returns.
def emplace (pkt : LpPacket) (netPkt : NetPktId) (assign : UnackedFrag → UnackedFrag) : LpReliability :=
  s.write txSeq (assign { (s.unackedFrags.find txSeq).getD ⟨pkt,false,0,0,netPkt⟩ with netPkt := netPkt })

def beginWindow : LpReliability :=
  { s with firstUnackedFrag := if s.unackedFrags.size = 1 then s.unackedFrags.begin? else s.firstUnackedFrag }

def pushFrag : LpReliability :=
  s.setNetPkt id { s.netPkts id with unackedFrags := (s.netPkts id).unackedFrags ++ [txSeq] }

def handleFrag : Except ReliabilityFault (LpReliability × LpPacket) :=
  if frag.getSequence = none then .error .invalid
  else do
    let (s,frag,txSeq) ← s.assignTxSequence frag
    let s := s.emplace txSeq frag id (fun unacked => { unacked with rtoTimer := true })
    .ok (s.beginWindow.pushFrag id txSeq,frag)

end

end

def handleFrags (id : NetPktId) : LpReliability → List LpPacket → Except ReliabilityFault (LpReliability × List LpPacket)
  | s,[] => .ok (s,[])
  | s,frag :: frags => do
      let (t,frag) ← s.handleFrag id frag
      let (u,frags) ← handleFrags id t frags
      .ok (u,frag :: frags)

def newNetPkt (s : LpReliability) (netPkt : NetPkt) : LpReliability :=
  { s with netPkts := update s.netPkts s.nNetPkts netPkt, nNetPkts := s.nNetPkts + 1 }

def handleOutgoing (s : LpReliability) (frags : List LpPacket) (pkt : LpPacket) (isInterest : Bool) :
    Except ReliabilityFault (LpReliability × List LpPacket) :=
  if s.options.isEnabled then
    handleFrags s.nNetPkts (s.newNetPkt ⟨[],pkt,isInterest,false⟩) frags
  else .error .invalid

-- Behind the last element the search goes on at the beginning.
def position (s : LpReliability) (it : Option UInt64) : Except ReliabilityFault UInt64 :=
  match it.or s.unackedFrags.begin? with
  | some txSeq => .ok txSeq
  | none => .error .invalid

def findLostFrom (ackIt : UInt64) : Nat → LpReliability → Option UInt64 → Except ReliabilityFault (LpReliability × List UInt64)
  | 0,_,_ => .error .unbounded
  | steps + 1,s,it => do
      let txSeq ← s.position it
      let unackedFrag ← s.deref txSeq
      if txSeq = ackIt then .ok (s,[])
      else
        let nGreaterSeqAcks := unackedFrag.nGreaterSeqAcks + 1
        let s := s.write txSeq { unackedFrag with nGreaterSeqAcks := nGreaterSeqAcks }
        let (t,lostLpPackets) ← findLostFrom ackIt steps s (s.unackedFrags.next? txSeq)
        .ok (t,if s.options.seqNumLossThreshold ≤ nGreaterSeqAcks then txSeq :: lostLpPackets else lostLpPackets)

def findLostLpPackets (s : LpReliability) (ackIt : UInt64) : Except ReliabilityFault (LpReliability × List UInt64) := do
  let _ ← s.deref ackIt
  findLostFrom ackIt (s.unackedFrags.size + 1) s s.firstUnackedFrag

-- The other fragments of the network packet are deleted.
def deleteOthers (txSeq : UInt64) : LpReliability → List UInt64 → Except ReliabilityFault (LpReliability × List UInt64)
  | s,[] => .ok (s,[])
  | s,it :: its =>
    if it = txSeq then deleteOthers txSeq s its
    else do
      let t ← s.deleteUnackedFrag it
      let (u,removed) ← deleteOthers txSeq t its
      .ok (u,it :: removed)

section
variable (s : LpReliability)

def notifyDropped (id : NetPktId) : Except ReliabilityFault LpReliability :=
  if (s.netPkts id).isInterest then
    match (s.netPkts id).pkt.getFragment with
    | some frag => .ok { s with droppedInterests := s.droppedInterests ++ [frag] }
    | none => .error .invalid
  else .ok s

def drop (txSeq : UInt64) (id : NetPktId) : Except ReliabilityFault (LpReliability × List UInt64) := do
  let (t,removed) ← deleteOthers txSeq s (s.netPkts id).unackedFrags
  let t ← notifyDropped { t with nRetxExhausted := t.nRetxExhausted + 1 } id
  let u ← t.deleteUnackedFrag txSeq
  .ok (u,removed ++ [txSeq])

def hint (newTxSeq : UInt64) : Except ReliabilityFault (Option UInt64) :=
  match s.firstUnackedFrag with
  | none => .ok none
  | some it => (s.deref it).map (fun _ => if newTxSeq < it then some it else none)

def send (pkt : LpPacket) : LpReliability := { s with retransmitted := s.retransmitted ++ [pkt] }

-- The message about a retransmission reads retxCount of the lost fragment.
def traceRetransmission (txSeq : UInt64) : LpReliability :=
  if s.traced ∧ s.unackedFrags.find txSeq = none then { s with erasedReads := s.erasedReads ++ [txSeq] } else s

def retransmit (txSeq : UInt64) (txFrag : UnackedFrag) : Except ReliabilityFault (LpReliability × List UInt64) := do
  let (s,pkt,newTxSeq) ← s.assignTxSequence txFrag.pkt
  let netPkt := s.netPkts txFrag.netPkt
  let _ ← s.hint newTxSeq
  let s := s.emplace newTxSeq pkt txFrag.netPkt (fun unacked => { unacked with retxCount := txFrag.retxCount + 1 })
  if txSeq ∈ netPkt.unackedFrags then
    let s := s.setNetPkt txFrag.netPkt { netPkt with unackedFrags := netPkt.unackedFrags.replace txSeq newTxSeq, didRetx := true }
    let s ← s.deleteUnackedFrag txSeq
    let newTxFrag ← s.deref newTxSeq
    .ok (((s.send newTxFrag.pkt).traceRetransmission txSeq).write newTxSeq { newTxFrag with rtoTimer := true },[txSeq])
  else .error .invalid

def onLpPacketLost (txSeq : UInt64) : Except ReliabilityFault (LpReliability × List UInt64) := do
  let txFrag ← s.deref txSeq
  let s := s.write txSeq { txFrag with rtoTimer := false }
  if txFrag.pkt.getSequence = none then .error .invalid
  else if s.options.maxRetx ≤ txFrag.retxCount then s.drop txSeq txFrag.netPkt
  else s.retransmit txSeq txFrag

def countReceived (remaining : List UInt64) (didRetx : Bool) : LpReliability :=
  if remaining ≠ [] then s
  else if didRetx then { s with nRetransmitted := s.nRetransmitted + 1 }
  else { s with nAcknowledged := s.nAcknowledged + 1 }

def onLpPacketAcknowledged (fragIt : UInt64) : Except ReliabilityFault LpReliability := do
  let frag ← s.deref fragIt
  let netPkt := s.netPkts frag.netPkt
  if fragIt ∈ netPkt.unackedFrags then
    let remaining := eraseSwap netPkt.unackedFrags fragIt
    let s := s.setNetPkt frag.netPkt { netPkt with unackedFrags := remaining }
    (s.countReceived remaining netPkt.didRetx).deleteUnackedFrag fragIt
  else .error .invalid

end

def handleLost : LpReliability → List UInt64 → List UInt64 → Except ReliabilityFault LpReliability
  | s,_,[] => .ok s
  | s,removedLpPackets,txSeq :: lostLpPackets =>
    if txSeq ∈ removedLpPackets then handleLost s removedLpPackets lostLpPackets
    else do
      let (t,removedTxSeqs) ← s.onLpPacketLost txSeq
      handleLost t (removedLpPackets ++ removedTxSeqs) lostLpPackets

section
variable (s : LpReliability) (now rto : Nat) (pkt : LpPacket)

-- An Ack for an unknown TxSequence is ignored.
def processAck (ackTxSeq : UInt64) : Except ReliabilityFault LpReliability :=
  match s.unackedFrags.find ackTxSeq with
  | none => .ok s
  | some frag => do
      let s := s.write ackTxSeq { frag with rtoTimer := false }
      let (s,lostLpPackets) ← s.findLostLpPackets ackTxSeq
      let s ← s.onLpPacketAcknowledged ackTxSeq
      handleLost s [] lostLpPackets

def processAcks : LpReliability → List UInt64 → Except ReliabilityFault LpReliability
  | s,[] => .ok s
  | s,ackTxSeq :: acks => do
      let t ← s.processAck ackTxSeq
      processAcks t acks

-- A Sequence that has left the map counts as received at the epoch.
def forgetRecent (now rto : Nat) (recent : OrderedMap UInt64 Nat compareSequences) :
    List UInt64 → OrderedMap UInt64 Nat compareSequences × List UInt64
  | [] => (recent,[])
  | seq :: queue =>
    let received := (recent.find seq).getD 0
    if received + rto < now then forgetRecent now rto (recent.erase seq) queue
    else (recent.insert seq received,seq :: queue)

def noteSequence (pktSequence : UInt64) : LpReliability × Incoming :=
  let isDuplicate := (s.recentRecvSeqs.find pktSequence).isSome
  let (recent,queue) := forgetRecent now rto s.recentRecvSeqs s.recentRecvSeqsQueue
  ({ s with
      recentRecvSeqs := if (recent.find pktSequence).isSome then recent else recent.insert pktSequence now
      recentRecvSeqsQueue := queue ++ [pktSequence]
      idleAckTimer := true },
    if isDuplicate then .duplicate else .fresh)

def noteReceived : LpReliability × Incoming :=
  if pkt.has lpFragment ∧ pkt.has lpTxSequence then
    match (pkt.get lpTxSequence).bind readSequence with
    | none => (s,.raised)
    | some txSeq =>
      let s := { s with ackQueue := s.ackQueue ++ [txSeq] }
      if pkt.has lpSequence then
        match pkt.getSequence with
        | none => (s,.raised)
        | some pktSequence => s.noteSequence now rto pktSequence
      else ({ s with idleAckTimer := true },.fresh)
  else (s,.fresh)

def acksOf : Option (List UInt64) :=
  (pkt.elements.filter (fun b => b.type == lpAck)).mapM (fun b => readSequence b.value)

def processIncomingPacket : Except ReliabilityFault (LpReliability × Incoming) :=
  if s.options.isEnabled then
    match acksOf pkt with
    | none => .ok (s,.raised)
    | some acks => do
        let t ← s.processAcks acks
        .ok (t.noteReceived now rto pkt)
  else .error .invalid

def attempt : ReliabilityEvent → Except ReliabilityFault LpReliability
  | .handleOutgoing frags pkt isInterest => (s.handleOutgoing frags pkt isInterest).map Prod.fst
  | .processIncomingPacket pkt now rto => (s.processIncomingPacket now rto pkt).map Prod.fst
  | .rtoTimer txSeq => (s.onLpPacketLost txSeq).map Prod.fst
  | .setOptions options => .ok { s with options := options }

-- The link service calls only when reliability is enabled, with fragments that
-- have Sequences, and an Interest packet has its fragment. A timer fires only
-- while it is running.
def Permitted : ReliabilityEvent → Prop
  | .handleOutgoing frags pkt isInterest => s.options.isEnabled ∧ (∀ frag ∈ frags, frag.getSequence.isSome) ∧
      (isInterest = true → pkt.getFragment.isSome)
  | .processIncomingPacket .. => s.options.isEnabled
  | .rtoTimer txSeq => (s.unackedFrags.find txSeq).any UnackedFrag.rtoTimer
  | .setOptions _ => True

end

instance (s : LpReliability) (event : ReliabilityEvent) : Decidable (s.Permitted event) := by
  cases event <;> unfold Permitted <;> infer_instance

def step (s : LpReliability) (event : ReliabilityEvent) : Option LpReliability :=
  if s.Permitted event then (s.attempt event).toOption else none

abbrev Reached (s : LpReliability) : Prop := Transition.Reached step (fun start => ∃ options traced, start = initial options traced) s

def age (s : LpReliability) (txSeq : UInt64) : Nat := (s.lastTxSeqNo - txSeq).toNat

def outstanding (s : LpReliability) : Nat := (s.firstUnackedFrag.map (fun it => s.age it + 1)).getD 0

def messages (s : LpReliability) : Bool × List UInt64 × List LpPacket := (s.traced,s.erasedReads,s.retransmitted)

variable {s t : LpReliability} {m : UnackedFrags} {f k : UInt64} {frag : UnackedFrag} {pkt : LpPacket} {id : NetPktId}

-- A message about a retransmission, if evaluated, reads what has been erased.
def MessagesRead (messages : Bool × List UInt64 × List LpPacket) : Prop :=
  messages.2.1.length = if messages.1 then messages.2.2.length else 0

structure Windowed (m : UnackedFrags) (start : Option UInt64) (last : UInt64) : Prop where
  valid : ∀ it, start = some it → ∃ frag, m.find it = some frag
  oldest : ∀ k frag, m.find k = some frag → ∃ it, start = some it ∧ (last - k).toNat ≤ (last - it).toNat

abbrev WindowSound (s : LpReliability) : Prop := Windowed s.unackedFrags s.firstUnackedFrag s.lastTxSeqNo

theorem deref_ok (present : s.unackedFrags.find k = some frag) : s.deref k = .ok frag := by
  rw [deref,present]

theorem first_ok (windowed : WindowSound s) (begun : s.firstUnackedFrag = some k) : s.first = .ok k := by
  obtain ⟨frag,present⟩ := windowed.valid k begun
  rw [first,begun]
  simp only [deref_ok present]
  rfl

theorem Windowed.insert (windowed : Windowed m start last) (present : (m.find k).isSome) : Windowed (m.insert k frag) start last := by
  have same : ∀ j, ((m.insert k frag).find j).isSome = (m.find j).isSome := by
    intro j
    rw [find_insert]
    split
    · rename_i here
      rw [here,present]
      rfl
    · rfl
  refine ⟨fun it begun => ?_,fun j other found => ?_⟩
  · obtain ⟨old,held⟩ := windowed.valid it begun
    exact isSome_iff_exists.mp ((same it).trans (by rw [held]; rfl))
  · obtain ⟨old,held⟩ := isSome_iff_exists.mp ((same j).symm.trans (by rw [found]; rfl))
    exact windowed.oldest j old held

-- Behind the oldest TxSequence the next in the order of the map, or else the
-- first of the map, is the next oldest.
theorem age_le_of_next (older : (last - k).toNat ≤ (last - f).toNat) (olderN : (last - n).toNat ≤ (last - f).toNat)
    (apart : k ≠ f) (follows : f.toNat < n.toNat ∧ (f.toNat < k.toNat → n.toNat ≤ k.toNat) ∨ k.toNat ≤ f.toNat ∧ n.toNat ≤ k.toNat) :
    (last - k).toNat ≤ (last - n).toNat := by
  have differ : k.toNat ≠ f.toNat := fun same => apart (UInt64.toNat_inj.mp same)
  have boundK := k.toNat_lt
  rw [UInt64.toNat_sub,UInt64.toNat_sub] at *
  omega

theorem find_of_erase (found : (m.erase k).find j = some other) : j ≠ k ∧ m.find j = some other := by
  by_cases same : j = k
  · rw [same,find_erase_self] at found
    cases found
  · exact ⟨same,(find_erase_ne same).symm.trans found⟩

theorem Windowed.atMost (windowed : Windowed m (some f) last) (present : m.find k = some frag) : (last - k).toNat ≤ (last - f).toNat := by
  obtain ⟨it,begun,older⟩ := windowed.oldest k frag present
  cases begun
  exact older

theorem next_cyclic (begins : m.begin? = some b) (c : UInt64) : ∃ n, (m.next? c).getD b = n ∧ (∃ frag, m.find n = some frag) ∧
    ∀ k frag, m.find k = some frag →
      c.toNat < n.toNat ∧ (c.toNat < k.toNat → n.toNat ≤ k.toNat) ∨ k.toNat ≤ c.toNat ∧ n.toNat ≤ k.toNat := by
  cases follows : m.next? c with
  | some n =>
    obtain ⟨held,behind,between⟩ := next?_spec follows
    refine ⟨n,rfl,held,fun k frag found => .inl ⟨compareSequences_lt.mp behind,fun after => ?_⟩⟩
    exact Nat.le_of_not_lt (fun less => between k frag found (compareSequences_lt.mpr after) (compareSequences_lt.mpr less))
  | none =>
    obtain ⟨held,least⟩ := begin?_spec begins
    refine ⟨b,rfl,held,fun k frag found => .inr ⟨?_,?_⟩⟩
    · exact Nat.le_of_not_lt (fun after => next?_eq_none follows k frag found (compareSequences_lt.mpr after))
    · exact Nat.le_of_not_lt (fun less => least k frag found (compareSequences_lt.mpr less))

theorem Windowed.eraseFirst (windowed : Windowed m (some f) last) (begins : (m.erase f).begin? = some b) :
    Windowed (m.erase f) (some (((m.erase f).next? f).getD b)) last := by
  obtain ⟨n,next,⟨frag,held⟩,follows⟩ := next_cyclic begins f
  rw [next]
  refine ⟨fun it begun => some.inj begun ▸ ⟨frag,held⟩,fun j other found => ⟨n,rfl,?_⟩⟩
  obtain ⟨apart,present⟩ := find_of_erase found
  exact age_le_of_next (windowed.atMost present) (windowed.atMost (find_of_erase held).2) apart (follows j other found)

theorem deleteUnackedFrag_exact (windowed : WindowSound s) (present : s.unackedFrags.find k = some frag) :
    ∃ start, s.deleteUnackedFrag k = .ok { s with unackedFrags := s.unackedFrags.erase k, firstUnackedFrag := start } ∧
      Windowed (s.unackedFrags.erase k) start s.lastTxSeqNo := by
  obtain ⟨f,begun,_⟩ := windowed.oldest k frag present
  simp only [deleteUnackedFrag,first_ok windowed begun,deref_ok present,ok_bind]
  cases begins : (s.unackedFrags.erase k).begin? with
  | none =>
    refine ⟨none,rfl,⟨nofun,fun j other found => ?_⟩⟩
    rw [begin?_eq_none.mp begins j] at found
    cases found
  | some b =>
    rw [WindowSound,begun] at windowed
    by_cases same : f = k
    · subst same
      exact ⟨_,if_pos rfl,windowed.eraseFirst begins⟩
    · refine ⟨some f,by simp only [if_neg same,begun],⟨fun it begun => ?_,fun j other found => ⟨f,rfl,windowed.atMost (find_of_erase found).2⟩⟩⟩
      cases begun
      obtain ⟨other,held⟩ := windowed.valid f rfl
      exact ⟨other,(find_erase_ne same).trans held⟩

def Exceeded (fault : ReliabilityFault) : Prop := ∃ found, fault = .rangeExceeded found ∧ 2 ^ 63 ≤ found.outstanding

theorem age_next (apart : k ≠ last + 1) : (last + 1 - k).toNat = (last - k).toNat + 1 := by
  have differ : k.toNat ≠ (last + 1).toNat := fun same => apart (UInt64.toNat_inj.mp same)
  have boundK := k.toNat_lt
  have one : (1 : UInt64).toNat = 1 := rfl
  rw [UInt64.toNat_add] at differ
  rw [UInt64.toNat_sub,UInt64.toNat_sub,UInt64.toNat_add]
  omega

theorem age_of_next (last : UInt64) : (last - (last + 1)).toNat = 2 ^ 64 - 1 := by
  have one : (1 : UInt64).toNat = 1 := rfl
  rw [UInt64.toNat_sub,UInt64.toNat_add]
  omega

theorem eq_next_of_age (oldest : 2 ^ 64 - 1 ≤ (last - f).toNat) : last + 1 = f := by
  have boundF := f.toNat_lt
  have one : (1 : UInt64).toNat = 1 := rfl
  refine UInt64.toNat_inj.mp ?_
  rw [UInt64.toNat_sub] at oldest
  rw [UInt64.toNat_add]
  omega

theorem assignTxSequence_yields (windowed : WindowSound s) (pkt : LpPacket) :
    Yields Exceeded (s.assignTxSequence pkt) (fun result =>
      result = (s.advance,pkt.set lpTxSequence (encodeSequence (s.lastTxSeqNo + 1)),s.lastTxSeqNo + 1) ∧
        s.unackedFrags.find (s.lastTxSeqNo + 1) = none) := by
  rw [assignTxSequence,exceeds]
  cases begins : s.unackedFrags.begin? with
  | none => exact .ok ⟨rfl,begin?_eq_none.mp begins _⟩
  | some b =>
    obtain ⟨⟨frag,present⟩,_⟩ := begin?_spec begins
    obtain ⟨f,begun,_⟩ := windowed.oldest b frag present
    rw [if_neg (by simp),first_ok windowed begun]
    by_cases same : s.lastTxSeqNo + 1 = f
    · refine .inr ⟨.rangeExceeded s,by simp [Except.map,same],s,rfl,?_⟩
      simp only [outstanding,begun,map_some,getD_some,age,← same,age_of_next]
      omega
    · refine .of_eq (by simp [Except.map,same]) ⟨rfl,?_⟩
      refine eq_none_iff_forall_ne_some.mpr (fun other found => ?_)
      rw [WindowSound,begun] at windowed
      have older := windowed.atMost found
      rw [age_of_next] at older
      exact same (eq_next_of_age older)

theorem Windowed.add (windowed : Windowed m (some f) last) (absent : m.find (last + 1) = none) :
    Windowed (m.insert (last + 1) frag) (some f) (last + 1) := by
  have older : ∀ {j other}, m.find j = some other → (last + 1 - j).toNat = (last - j).toNat + 1 := by
    intro j other present
    refine age_next (fun same => ?_)
    rw [same,absent] at present
    cases present
  obtain ⟨known,held⟩ := windowed.valid f rfl
  refine ⟨fun it begun => ?_,fun j other found => ⟨f,rfl,?_⟩⟩
  · cases begun
    by_cases new : f = last + 1
    · rw [new,absent] at held
      cases held
    · exact ⟨known,(find_insert_ne new).trans held⟩
  · by_cases new : j = last + 1
    · rw [new]
      simp
    · have present := (find_insert_ne new).symm.trans found
      have young := older present
      have old := older held
      have le := windowed.atMost present
      omega

theorem Windowed.begun (windowed : Windowed m start last) (present : m.find k = some frag) : ∃ f, start = some f := by
  obtain ⟨f,begun,_⟩ := windowed.oldest k frag present
  exact ⟨f,begun⟩

theorem beginWindow_sound (windowed : Windowed m start last) (absent : m.find (last + 1) = none) : Windowed (m.insert (last + 1) frag)
    (if (m.insert (last + 1) frag).size = 1 then (m.insert (last + 1) frag).begin? else start) (last + 1) := by
  split
  · rename_i only
    obtain ⟨e,single⟩ := length_eq_one_iff.mp only
    have begins : (m.insert (last + 1) frag).begin? = some e.1 := by rw [OrderedMap.begin?,single]; rfl
    have unique : ∀ k other, (m.insert (last + 1) frag).find k = some other → k = e.1 := by
      intro k other found
      have inside := find_eq_some.mp found
      rw [single,mem_singleton] at inside
      rw [← inside]
    exact ⟨fun it begun => (begin?_spec begun).1,fun k other found => ⟨e.1,begins,by rw [unique k other found]⟩⟩
  · rename_i several
    cases begins : m.begin? with
    | some b =>
      obtain ⟨other,present⟩ := (begin?_spec begins).1
      obtain ⟨f,rfl⟩ := windowed.begun present
      exact windowed.add absent
    | none =>
      rw [OrderedMap.begin?,map_eq_none_iff,List.head?_eq_none_iff] at begins
      refine absurd ?_ several
      rw [OrderedMap.size,OrderedMap.insert]
      simp [begins,OrderedMap.insertEntry]

def owner (m : UnackedFrags) (k : UInt64) : Option NetPktId := (m.find k).map UnackedFrag.netPkt

-- lists has the fragments of every network packet that still has some; the list
-- of one that was dropped is left as it was and no longer says anything.
structure Listed (m : UnackedFrags) (netPkts : NetPktId → NetPkt) (nNetPkts : Nat) (lists : NetPktId → List UInt64) : Prop where
  consistent : Forest.Consistent (owner m) lists
  live : ∀ id, lists id ≠ [] → (netPkts id).unackedFrags = lists id
  known : ∀ id, nNetPkts ≤ id → lists id = []
  carried : ∀ id, lists id ≠ [] → (netPkts id).isInterest → (netPkts id).pkt.getFragment.isSome
  sequenced : ∀ k frag, m.find k = some frag → frag.pkt.getSequence.isSome

structure Sound (s : LpReliability) : Prop where
  windowed : WindowSound s
  listed : ∃ lists, Listed s.unackedFrags s.netPkts s.nNetPkts lists
  read : MessagesRead s.messages

theorem owner_insert : owner (m.insert k frag) = update (owner m) k (some frag.netPkt) := by
  funext j
  by_cases same : j = k
  · rw [same,update_self,owner,find_insert_self]
    rfl
  · rw [update_of_ne same,owner,find_insert_ne same]
    rfl

theorem owner_erase : owner (m.erase k) = update (owner m) k none := by
  funext j
  by_cases same : j = k
  · rw [same,update_self,owner,find_erase_self]
    rfl
  · rw [update_of_ne same,owner,find_erase_ne same]
    rfl

theorem owner_of_find (present : m.find k = some frag) : owner m k = some frag.netPkt := by
  rw [owner,present]
  rfl

theorem getSequence_set (pkt : LpPacket) (value : List UInt8) : (pkt.set lpTxSequence value).getSequence = pkt.getSequence := by
  rw [LpPacket.getSequence,LpPacket.get_set_ne (by decide)]
  rfl

theorem sequenced_insert (sequenced : ∀ k frag, m.find k = some frag → frag.pkt.getSequence.isSome)
    (new : frag.pkt.getSequence.isSome) : ∀ j other, (m.insert k frag).find j = some other → other.pkt.getSequence.isSome := by
  intro j other found
  rw [find_insert] at found
  split at found
  · cases found
    exact new
  · exact sequenced j other found

theorem sequenced_erase (sequenced : ∀ k frag, m.find k = some frag → frag.pkt.getSequence.isSome) :
    ∀ j other, (m.erase k).find j = some other → other.pkt.getSequence.isSome :=
  fun j other found => sequenced j other (find_of_erase found).2

variable {netPkts : NetPktId → NetPkt} {n : Nat}

section
variable (listed : Listed m netPkts n lists)
include listed

theorem Listed.mem (present : m.find k = some frag) :
    k ∈ lists frag.netPkt ∧ (netPkts frag.netPkt).unackedFrags = lists frag.netPkt := by
  have inside : k ∈ lists frag.netPkt := (listed.consistent.listed _ k).mpr (owner_of_find present)
  exact ⟨inside,listed.live _ (ne_nil_of_mem inside)⟩

theorem Listed.find (inside : k ∈ lists id) : ∃ frag, m.find k = some frag ∧ frag.netPkt = id :=
  map_eq_some_iff.mp ((listed.consistent.listed id k).mp inside)

theorem Listed.insert (present : m.find k = some old)
    (same : frag.netPkt = old.netPkt) (carries : frag.pkt = old.pkt) : Listed (m.insert k frag) netPkts n lists := by
  refine { listed with consistent := ?_, sequenced := sequenced_insert listed.sequenced ?_ }
  · rw [owner_insert,same,← owner_of_find present,update_eq_self]
    exact listed.consistent
  · rw [carries]
    exact listed.sequenced k old present

end

theorem Sound.write (old frag : UnackedFrag) (sound : Sound s) (present : s.unackedFrags.find k = some old) (same : frag.netPkt = old.netPkt)
    (carries : frag.pkt = old.pkt) : Sound (s.write k frag) ∧ (s.write k frag).unackedFrags.keys = s.unackedFrags.keys := by
  obtain ⟨lists,listed⟩ := sound.listed
  refine ⟨⟨sound.windowed.insert (by rw [present]; rfl),⟨lists,listed.insert present same carries⟩,sound.read⟩,?_⟩
  exact keys_insert (mem_keys.mpr ⟨old,present⟩)

theorem Listed.update (listed : Listed m netPkts n lists)
    (consistent : Forest.Consistent (owner m') (update lists id xs)) (known : id < n) (filled : netPkt.unackedFrags = xs)
    (carried : netPkt.isInterest → netPkt.pkt.getFragment.isSome)
    (sequenced : ∀ k frag, m'.find k = some frag → frag.pkt.getSequence.isSome) :
    Listed m' (update netPkts id netPkt) n (update lists id xs) := by
  refine ⟨consistent,fun i nonempty => ?_,fun i new => ?_,fun i nonempty => ?_,sequenced⟩
  · by_cases here : i = id
    · rw [here,update_self,update_self]
      exact filled
    · rw [update_of_ne here] at nonempty ⊢
      rw [update_of_ne here]
      exact listed.live i nonempty
  · rw [update_of_ne (by rintro rfl; exact absurd known (not_lt.mpr new))]
    exact listed.known i new
  · by_cases here : i = id
    · rw [here,update_self]
      exact carried
    · rw [update_of_ne here] at nonempty ⊢
      exact listed.carried i nonempty

-- While handleOutgoing runs, the network packet it fills may have no fragment yet.
structure Filling (s : LpReliability) (id : NetPktId) : Prop where
  windowed : WindowSound s
  listed : ∃ lists, Listed s.unackedFrags s.netPkts s.nNetPkts lists ∧ (s.netPkts id).unackedFrags = lists id
  known : id < s.nNetPkts
  carried : (s.netPkts id).isInterest → (s.netPkts id).pkt.getFragment.isSome
  read : MessagesRead s.messages

theorem emplace_absent (absent : s.unackedFrags.find k = none) :
    s.emplace k pkt id assign = s.write k (assign ⟨pkt,false,0,0,id⟩) := by
  rw [emplace,absent]
  rfl

theorem handleFrag_yields (filling : Filling s id) (sequenced : pkt.getSequence.isSome) :
    Yields Exceeded (s.handleFrag id pkt) (fun result => Filling result.1 id ∧ result.1.lastTxSeqNo = s.lastTxSeqNo + 1 ∧
      result.2 = pkt.set lpTxSequence (encodeSequence (s.lastTxSeqNo + 1))) := by
  obtain ⟨lists,listed,filled⟩ := filling.listed
  rw [handleFrag,if_neg (isSome_iff_ne_none.mp sequenced)]
  refine (assignTxSequence_yields filling.windowed pkt).bind ?_
  rintro _ ⟨rfl,absent⟩
  simp only [emplace_absent (s := s.advance) absent]
  refine .ok ⟨⟨?_,⟨update lists id (lists id ++ [s.lastTxSeqNo + 1]),?_,?_⟩,?_,?_,?_⟩,?_,rfl⟩
  · exact beginWindow_sound filling.windowed absent
  · simp only [pushFrag,setNetPkt,beginWindow,write,advance,filled]
    refine listed.update ?_ filling.known rfl filling.carried (sequenced_insert listed.sequenced ?_)
    · rw [owner_insert]
      exact listed.consistent.hang (by rw [owner,absent]; rfl) (perm_append_singleton ..)
    · rw [getSequence_set]
      exact sequenced
  · simp [pushFrag,setNetPkt,beginWindow,write,advance,filled]
  · exact filling.known
  · simpa [pushFrag,setNetPkt,beginWindow,write,advance] using filling.carried
  · exact filling.read
  · rfl

theorem handleFrags_yields (filling : Filling s id) (sequenced : ∀ frag ∈ frags, frag.getSequence.isSome) :
    Yields Exceeded (handleFrags id s frags) (fun result => Filling result.1 id ∧ result.2 = assignTxSequences s.lastTxSeqNo frags) := by
  induction frags generalizing s with
  | nil => exact .ok ⟨filling,rfl⟩
  | cons frag frags ih =>
    refine (handleFrag_yields filling (sequenced frag mem_cons_self)).bind ?_
    rintro ⟨t,numbered⟩ ⟨filled,last,rfl⟩
    refine (ih filled (fun other inside => sequenced other (mem_cons_of_mem _ inside))).bind ?_
    rintro ⟨u,later⟩ ⟨done,rfl⟩
    refine .ok ⟨done,?_⟩
    rw [last]
    rfl

theorem Filling.sound (filling : Filling s id) : Sound s := by
  obtain ⟨lists,listed,_⟩ := filling.listed
  exact ⟨filling.windowed,⟨lists,listed⟩,filling.read⟩

theorem newNetPkt_filling (sound : Sound s) (carried : isInterest = true → pkt.getFragment.isSome) :
    Filling (s.newNetPkt ⟨[],pkt,isInterest,false⟩) s.nNetPkts := by
  obtain ⟨lists,listed⟩ := sound.listed
  have free := listed.known s.nNetPkts (le_refl _)
  have placed : (s.newNetPkt ⟨[],pkt,isInterest,false⟩).netPkts s.nNetPkts = ⟨[],pkt,isInterest,false⟩ := update_self ..
  refine ⟨sound.windowed,⟨lists,?_,?_⟩,lt_succ_self _,?_,sound.read⟩
  · have others : ∀ id, lists id ≠ [] → (s.newNetPkt ⟨[],pkt,isInterest,false⟩).netPkts id = s.netPkts id :=
      fun id nonempty => update_of_ne (by rintro rfl; exact nonempty free) ..
    refine ⟨listed.consistent,fun id nonempty => ?_,fun id new => listed.known id (le_of_succ_le new),fun id nonempty => ?_,listed.sequenced⟩
    · rw [others id nonempty]
      exact listed.live id nonempty
    · rw [others id nonempty]
      exact listed.carried id nonempty
  · rw [placed,free]
  · rw [placed]
    exact carried

theorem handleOutgoing_yields (sound : Sound s)
    (permitted : s.Permitted (.handleOutgoing frags pkt isInterest)) :
    Yields Exceeded (s.handleOutgoing frags pkt isInterest) (fun result => Sound result.1 ∧ result.2 = assignTxSequences s.lastTxSeqNo frags) := by
  obtain ⟨enabled,sequenced,carried⟩ := permitted
  rw [handleOutgoing,if_pos enabled]
  exact (handleFrags_yields (newNetPkt_filling sound carried) sequenced).mono (fun _ done => ⟨done.1.sound,done.2⟩)

-- From one fragment to the next the search comes nearer to the acknowledged one.
theorem offset_next {c ack j : UInt64} (before : (c - f).toNat ≤ (ack - f).toNat) (apart : c ≠ ack)
    (follows : c.toNat < j.toNat ∧ (c.toNat < ack.toNat → j.toNat ≤ ack.toNat) ∨ ack.toNat ≤ c.toNat ∧ j.toNat ≤ ack.toNat) :
    (c - f).toNat < (j - f).toNat ∧ (j - f).toNat ≤ (ack - f).toNat := by
  have differ : c.toNat ≠ ack.toNat := fun same => apart (UInt64.toNat_inj.mp same)
  have boundC := c.toNat_lt
  have boundJ := j.toNat_lt
  have boundAck := ack.toNat_lt
  simp only [UInt64.toNat_sub] at *
  omega

theorem next_nearer {c ack : UInt64} (present : m.find ack = some frag) (before : (c - f).toNat ≤ (ack - f).toNat) (apart : c ≠ ack) :
    ∃ j, (m.next? c).or m.begin? = some j ∧ j ∈ m.keys ∧ (c - f).toNat < (j - f).toNat ∧ (j - f).toNat ≤ (ack - f).toNat := by
  cases begins : m.begin? with
  | none => cases (begin?_eq_none.mp begins ack).symm.trans present
  | some b =>
    obtain ⟨j,next,held,follows⟩ := next_cyclic begins c
    exact ⟨j,by rw [or_some,next],mem_keys.mpr held,offset_next before apart (follows ack frag present)⟩

-- The search ends at the acknowledged fragment: the fragments not yet passed get
-- fewer. It changes only how often each was passed.
theorem findLostFrom_yields {ack c : UInt64} {steps : Nat} {it : Option UInt64} (sound : Sound s) (present : ack ∈ s.unackedFrags.keys)
    (at_ : it.or s.unackedFrags.begin? = some c) (held : c ∈ s.unackedFrags.keys) (before : (c - f).toNat ≤ (ack - f).toNat)
    (enough : s.unackedFrags.keys.countP (fun k => (c - f).toNat ≤ (k - f).toNat) ≤ steps) :
    Yields Exceeded (findLostFrom ack steps s it) (fun result => Sound result.1 ∧ result.1.unackedFrags.keys = s.unackedFrags.keys ∧
      ∀ k ∈ result.2, k ∈ s.unackedFrags.keys ∧ k ≠ ack) := by
  induction steps generalizing s it c with
  | zero =>
    have counted : 0 < s.unackedFrags.keys.countP (fun k => (c - f).toNat ≤ (k - f).toNat) :=
      List.countP_pos_iff.mpr ⟨c,held,decide_eq_true (le_refl _)⟩
    omega
  | succ steps ih =>
    obtain ⟨frag,found⟩ := mem_keys.mp held
    simp only [findLostFrom,position,at_,deref_ok found,ok_bind]
    split
    · exact .ok ⟨sound,rfl,nofun⟩
    · rename_i apart
      obtain ⟨acked,ackFound⟩ := mem_keys.mp present
      obtain ⟨soundNext,same⟩ := sound.write _ { frag with nGreaterSeqAcks := frag.nGreaterSeqAcks + 1 } found rfl rfl
      obtain ⟨j,at_j,heldJ,later,nearer⟩ := next_nearer ((find_insert_ne (Ne.symm apart)).trans ackFound) before apart
      have fewer : s.unackedFrags.keys.countP (fun k => (j - f).toNat ≤ (k - f).toNat) <
          s.unackedFrags.keys.countP (fun k => (c - f).toNat ≤ (k - f).toNat) := by
        refine countP_lt (fun k _ counted => ?_) held (decide_eq_true (le_refl _)) (decide_eq_false (not_le.mpr later))
        exact decide_eq_true (le_trans (le_of_lt later) (of_decide_eq_true counted))
      refine (ih soundNext (same ▸ present) at_j heldJ nearer (by rw [same]; omega)).bind ?_
      rintro ⟨t,lost⟩ ⟨soundT,sameT,inside⟩
      refine .ok ⟨soundT,sameT.trans same,fun k lostK => ?_⟩
      have earlier : k = c ∨ k ∈ lost := by
        split at lostK
        · exact List.mem_cons.mp lostK
        · exact .inr lostK
      rcases earlier with rfl | further
      · exact ⟨held,apart⟩
      · rw [← same]
        exact inside k further

theorem findLostLpPackets_yields {ack : UInt64} (sound : Sound s) (present : ack ∈ s.unackedFrags.keys) :
    Yields Exceeded (s.findLostLpPackets ack) (fun result => Sound result.1 ∧ result.1.unackedFrags.keys = s.unackedFrags.keys ∧
      ∀ k ∈ result.2, k ∈ s.unackedFrags.keys ∧ k ≠ ack) := by
  obtain ⟨frag,found⟩ := mem_keys.mp present
  obtain ⟨f,begun⟩ := sound.windowed.begun found
  rw [findLostLpPackets,deref_ok found,ok_bind]
  refine findLostFrom_yields (f := f) sound present (c := f) (by rw [begun]; rfl)
    (mem_keys.mpr (sound.windowed.valid f begun)) (by simp) (le_succ_of_le ?_)
  refine List.countP_le_length.trans ?_
  rw [OrderedMap.keys,List.length_map]
  exact le_refl _

theorem countReceived_eq (s : LpReliability) (remaining : List UInt64) (didRetx : Bool) : ∃ nAcknowledged nRetransmitted,
    s.countReceived remaining didRetx = { s with nAcknowledged := nAcknowledged, nRetransmitted := nRetransmitted } := by
  rw [countReceived]
  split_ifs <;> exact ⟨_,_,rfl⟩

theorem onLpPacketAcknowledged_yields (sound : Sound s) (found : s.unackedFrags.find k = some frag) :
    Yields Exceeded (s.onLpPacketAcknowledged k) (fun t => Sound t ∧ t.unackedFrags = s.unackedFrags.erase k) := by
  obtain ⟨lists,listed⟩ := sound.listed
  obtain ⟨inside,live⟩ := listed.mem found
  rw [onLpPacketAcknowledged,deref_ok found,ok_bind]
  simp only [live]
  rw [if_pos inside]
  obtain ⟨nAcknowledged,nRetransmitted,same⟩ := countReceived_eq
    (s.setNetPkt frag.netPkt { s.netPkts frag.netPkt with unackedFrags := eraseSwap (lists frag.netPkt) k })
    (eraseSwap (lists frag.netPkt) k) (s.netPkts frag.netPkt).didRetx
  rw [same]
  obtain ⟨start,deleted,shorter⟩ := deleteUnackedFrag_exact
    (s := { s.setNetPkt frag.netPkt _ with nAcknowledged := nAcknowledged, nRetransmitted := nRetransmitted }) sound.windowed found
  refine .of_eq deleted ⟨⟨shorter,⟨update lists frag.netPkt (eraseSwap (lists frag.netPkt) k),?_⟩,sound.read⟩,rfl⟩
  refine listed.update ?_ ?_ rfl ?_ (sequenced_erase listed.sequenced)
  · rw [owner_erase]
    exact listed.consistent.unhang (owner_of_find found) (eraseSwap_perm inside)
  · exact Nat.lt_of_not_le (fun new => ne_nil_of_mem inside (listed.known _ new))
  · exact listed.carried _ (ne_nil_of_mem inside)

theorem deleteOthers_yields (windowed : WindowSound s) (distinct : its.Nodup)
    (present : ∀ it ∈ its, ∃ frag, s.unackedFrags.find it = some frag) :
    Yields Exceeded (deleteOthers k s its) (fun result => WindowSound result.1 ∧ result.1.netPkts = s.netPkts ∧ result.1.nNetPkts = s.nNetPkts ∧
      result.1.messages = s.messages ∧
      (∀ j, result.1.unackedFrags.find j = if j ∈ its ∧ j ≠ k then none else s.unackedFrags.find j) ∧ ∀ it ∈ its, it ≠ k → it ∈ result.2) := by
  induction its generalizing s with
  | nil => exact .ok ⟨windowed,rfl,rfl,rfl,fun j => (if_neg (fun both => (nomatch both.1))).symm,nofun⟩
  | cons it its ih =>
    obtain ⟨unlisted,rest⟩ := nodup_cons.mp distinct
    rw [deleteOthers]
    split
    · rename_i same
      subst same
      refine (ih windowed rest (fun other inside => present other (mem_cons_of_mem _ inside))).mono ?_
      rintro ⟨t,removed⟩ ⟨windowedT,netPkts,n,messages,found,listed⟩
      refine ⟨windowedT,netPkts,n,messages,fun j => ?_,fun other inside apart => listed other ((mem_cons.mp inside).resolve_left apart) apart⟩
      rw [found]
      by_cases here : j = it
      · rw [if_neg (fun both => both.2 here),if_neg (fun both => both.2 here)]
      · simp only [mem_cons,here,false_or]
    · rename_i apart
      obtain ⟨frag,held⟩ := present it mem_cons_self
      obtain ⟨start,deleted,shorter⟩ := deleteUnackedFrag_exact windowed held
      rw [deleted,ok_bind]
      have remain : ∀ other ∈ its, ∃ frag, (s.unackedFrags.erase it).find other = some frag := by
        intro other inside
        obtain ⟨kept,found⟩ := present other (mem_cons_of_mem _ inside)
        have apart : other ≠ it := by rintro rfl; exact unlisted inside
        exact ⟨kept,(find_erase_ne apart).trans found⟩
      refine (ih shorter rest remain).bind ?_
      rintro ⟨t,removed⟩ ⟨windowedT,netPkts,n,messages,found,listed⟩
      refine .ok ⟨windowedT,netPkts,n,messages,fun j => ?_,fun other inside differs => ?_⟩
      · rw [found]
        by_cases here : j = it
        · rw [here,find_erase_self,if_neg (fun both => unlisted both.1),if_pos ⟨mem_cons_self,apart⟩]
        · rw [find_erase_ne here]
          simp only [mem_cons,here,false_or]
      · rcases mem_cons.mp inside with rfl | later
        · exact mem_cons_self
        · exact mem_cons_of_mem _ (listed other later differs)

-- What a call of onLpPacketLost leaves: what is no longer in the map is among
-- the TxSequences it returns.
structure Handled (s : LpReliability) (result : LpReliability × List UInt64) : Prop where
  sound : Sound result.1
  recorded : ∀ k ∈ s.unackedFrags.keys, k ∈ result.2 ∨ k ∈ result.1.unackedFrags.keys

theorem notifyDropped_yields (carried : (s.netPkts id).isInterest → (s.netPkts id).pkt.getFragment.isSome) :
    Yields Exceeded (s.notifyDropped id) (fun t => ∃ droppedInterests, t = { s with droppedInterests := droppedInterests }) := by
  rw [notifyDropped]
  split
  · rename_i isInterest
    obtain ⟨octets,read⟩ := isSome_iff_exists.mp (carried isInterest)
    rw [read]
    exact .ok ⟨_,rfl⟩
  · exact .ok ⟨_,rfl⟩

theorem drop_yields (sound : Sound s) (found : s.unackedFrags.find k = some frag) : Yields Exceeded (s.drop k frag.netPkt) (Handled s) := by
  obtain ⟨lists,listed⟩ := sound.listed
  obtain ⟨inside,live⟩ := listed.mem found
  have nonempty := ne_nil_of_mem inside
  rw [drop,live]
  refine (deleteOthers_yields sound.windowed (listed.consistent.distinct _) (fun it listedIt => ?_)).bind ?_
  · obtain ⟨other,held,_⟩ := listed.find listedIt
    exact ⟨other,held⟩
  rintro ⟨t,removed⟩ ⟨windowed,netPkts,n,messages,remaining,recorded⟩
  have carried : (t.netPkts frag.netPkt).isInterest → (t.netPkts frag.netPkt).pkt.getFragment.isSome := by
    rw [netPkts]
    exact listed.carried _ nonempty
  refine (notifyDropped_yields (s := { t with nRetxExhausted := t.nRetxExhausted + 1 }) carried).bind ?_
  rintro _ ⟨dropped,rfl⟩
  have foundT : t.unackedFrags.find k = some frag := by
    rw [remaining,if_neg (fun both => both.2 rfl)]
    exact found
  obtain ⟨start,deleted,shorter⟩ := deleteUnackedFrag_exact
    (s := { t with nRetxExhausted := t.nRetxExhausted + 1, droppedInterests := dropped }) windowed foundT
  have gone : ∀ j, (t.unackedFrags.erase k).find j = if j ∈ lists frag.netPkt then none else s.unackedFrags.find j := by
    intro j
    by_cases here : j = k
    · rw [here,find_erase_self,if_pos inside]
    · rw [find_erase_ne here,remaining]
      exact if_congr (and_iff_left here) rfl rfl
  rw [deleted,ok_bind]
  refine .ok ⟨⟨shorter,⟨update lists frag.netPkt [],?_⟩,messages ▸ sound.read⟩,fun j present => ?_⟩
  · show Listed _ t.netPkts t.nNetPkts _
    rw [netPkts,n]
    have others : ∀ i, update lists frag.netPkt [] i ≠ [] → update lists frag.netPkt [] i = lists i := by
      intro i nonempty
      refine update_of_ne ?_ ..
      rintro rfl
      exact nonempty (update_self ..)
    refine ⟨listed.consistent.dissolve (fun j => ?_),fun i nonempty => ?_,fun i new => ?_,fun i nonempty => ?_,fun j other held => ?_⟩
    · rw [owner,gone]
      split <;> rfl
    · have same := others i nonempty
      rw [same] at nonempty ⊢
      exact listed.live i nonempty
    · by_cases nonempty : update lists frag.netPkt [] i = []
      · exact nonempty
      · rw [others i nonempty]
        exact listed.known i new
    · rw [others i nonempty] at nonempty
      exact listed.carried i nonempty
    · rw [gone] at held
      split at held
      · cases held
      · exact listed.sequenced j other held
  · obtain ⟨other,held⟩ := mem_keys.mp present
    by_cases listedJ : j ∈ lists frag.netPkt
    · refine .inl (mem_append.mpr ?_)
      by_cases here : j = k
      · exact .inr (mem_singleton.mpr here)
      · exact .inl (recorded j listedJ here)
    · exact .inr (mem_keys.mpr ⟨other,(gone j).trans ((if_neg listedJ).trans held)⟩)

theorem hint_yields (valid : ∀ it, s.firstUnackedFrag = some it → ∃ frag, s.unackedFrags.find it = some frag) : Yields Exceeded (s.hint k) (fun _ => True) := by
  rw [hint]
  split
  · exact .ok trivial
  · rename_i it begun
    obtain ⟨frag,held⟩ := valid it begun
    rw [deref_ok held]
    exact .ok trivial

theorem traceRetransmission_erased (erased : s.unackedFrags.find k = none) :
    s.traceRetransmission k = { s with erasedReads := s.erasedReads ++ if s.traced then [k] else [] } := by
  rw [traceRetransmission,erased]
  by_cases traced : s.traced
  · rw [if_pos ⟨traced,rfl⟩,if_pos traced]
  · rw [if_neg (fun both => traced both.1),if_neg traced,append_nil]

theorem MessagesRead.retransmission (read : MessagesRead s.messages) :
    MessagesRead (s.traced,s.erasedReads ++ (if s.traced then [k] else []),s.retransmitted ++ [pkt]) := by
  simp only [MessagesRead,messages,length_append] at *
  cases level : s.traced <;> simp [level] at * <;> omega

section
variable (sound : Sound s)
include sound

theorem retransmit_yields (found : s.unackedFrags.find k = some frag)
    (same : txFrag.netPkt = frag.netPkt) (carries : txFrag.pkt = frag.pkt) : Yields Exceeded (s.retransmit k txFrag) (Handled s) := by
  obtain ⟨lists,listed⟩ := sound.listed
  obtain ⟨inside,live⟩ := listed.mem found
  have nonempty := ne_nil_of_mem inside
  have sequenced := listed.sequenced k frag found
  rw [retransmit,same,carries]
  refine (assignTxSequence_yields sound.windowed frag.pkt).bind ?_
  rintro _ ⟨rfl,absent⟩
  refine (hint_yields (s := s.advance) sound.windowed.valid).bind (fun _ _ => ?_)
  rw [emplace_absent (s := s.advance) absent]
  simp only [show s.advance.netPkts = s.netPkts from rfl,live]
  rw [if_pos inside]
  have apart : k ≠ s.lastTxSeqNo + 1 := by
    rintro same
    rw [← same,found] at absent
    cases absent
  generalize newFrag : UnackedFrag.mk (frag.pkt.set lpTxSequence (encodeSequence (s.lastTxSeqNo + 1))) false (txFrag.retxCount + 1) 0 frag.netPkt = moved
  have movedPkt : moved.netPkt = frag.netPkt ∧ moved.pkt.getSequence.isSome := by
    rw [← newFrag]
    exact ⟨rfl,(congrArg Option.isSome (getSequence_set ..)).trans sequenced⟩
  have windowed : Windowed (s.unackedFrags.insert (s.lastTxSeqNo + 1) moved) s.firstUnackedFrag (s.lastTxSeqNo + 1) := by
    obtain ⟨f,begun⟩ := sound.windowed.begun found
    have old := sound.windowed
    rw [WindowSound,begun] at old
    rw [begun]
    exact old.add absent
  have foundNow : (s.unackedFrags.insert (s.lastTxSeqNo + 1) moved).find k = some frag := (find_insert_ne apart).trans found
  have movedFound : ((s.unackedFrags.insert (s.lastTxSeqNo + 1) moved).erase k).find (s.lastTxSeqNo + 1) = some moved :=
    (find_erase_ne (Ne.symm apart)).trans find_insert_self
  have consistent : Forest.Consistent (owner ((s.unackedFrags.insert (s.lastTxSeqNo + 1) moved).erase k))
      (update lists frag.netPkt ((lists frag.netPkt).replace k (s.lastTxSeqNo + 1))) := by
    have without := listed.consistent.unhang (owner_of_find found) (perm_cons_erase inside)
    rw [owner_erase,owner_insert,movedPkt.1,update_comm (Ne.symm apart)]
    rw [← update_idem (a := frag.netPkt) ((lists frag.netPkt).erase k)]
    refine without.hang ?_ ?_
    · rw [update_of_ne (Ne.symm apart),owner,absent]
      rfl
    · rw [update_self]
      exact replace_perm_erase inside
  generalize received : NetPkt.mk ((lists frag.netPkt).replace k (s.lastTxSeqNo + 1)) (s.netPkts frag.netPkt).pkt
    (s.netPkts frag.netPkt).isInterest true = netPkt
  obtain ⟨start,deleted,shorter⟩ := deleteUnackedFrag_exact (s := (s.advance.write (s.lastTxSeqNo + 1) moved).setNetPkt frag.netPkt netPkt)
    windowed foundNow
  rw [deleted,ok_bind,deref_ok movedFound,ok_bind,traceRetransmission_erased find_erase_self]
  refine .ok ⟨And.left (Sound.write moved _ ⟨shorter,⟨update lists frag.netPkt ((lists frag.netPkt).replace k (s.lastTxSeqNo + 1)),?_⟩,sound.read.retransmission⟩
    movedFound rfl rfl),fun j present => ?_⟩
  · subst received
    exact listed.update consistent (Nat.lt_of_not_le (fun new => nonempty (listed.known _ new))) rfl (listed.carried _ nonempty)
      (sequenced_erase (sequenced_insert listed.sequenced movedPkt.2))
  · by_cases here : j = k
    · exact .inl (mem_singleton.mpr here)
    · obtain ⟨other,held⟩ := mem_keys.mp present
      have different : j ≠ s.lastTxSeqNo + 1 := by
        rintro rfl
        cases absent.symm.trans held
      refine .inr (mem_keys.mpr ⟨other,?_⟩)
      exact (find_insert_ne different).trans ((find_erase_ne here).trans ((find_insert_ne different).trans held))

theorem onLpPacketLost_yields (present : k ∈ s.unackedFrags.keys) : Yields Exceeded (s.onLpPacketLost k) (Handled s) := by
  obtain ⟨frag,found⟩ := mem_keys.mp present
  obtain ⟨lists,listed⟩ := sound.listed
  obtain ⟨stopped,same⟩ := sound.write _ { frag with rtoTimer := false } found rfl rfl
  have foundNow : (s.write k { frag with rtoTimer := false }).unackedFrags.find k = some { frag with rtoTimer := false } :=
    find_insert_self
  have back : ∀ result, Handled (s.write k { frag with rtoTimer := false }) result → Handled s result :=
    fun result handled => ⟨handled.sound,fun j inside => handled.recorded j (same ▸ inside)⟩
  rw [onLpPacketLost,deref_ok found,ok_bind]
  rw [if_neg (isSome_iff_ne_none.mp (listed.sequenced k frag found))]
  split
  · exact (drop_yields stopped foundNow).mono back
  · exact (retransmit_yields stopped foundNow rfl rfl).mono back

theorem handleLost_yields (covered : ∀ k ∈ lost, k ∈ removed ∨ k ∈ s.unackedFrags.keys) :
    Yields Exceeded (handleLost s removed lost) Sound := by
  induction lost generalizing s removed with
  | nil => exact .ok sound
  | cons k lost ih =>
    rw [handleLost]
    split
    · exact ih sound (fun j inside => covered j (mem_cons_of_mem _ inside))
    · rename_i remains
      have present := (covered k mem_cons_self).resolve_left remains
      refine (onLpPacketLost_yields sound present).bind ?_
      rintro ⟨t,gone⟩ handled
      refine ih handled.sound (fun j inside => ?_)
      rcases covered j (mem_cons_of_mem _ inside) with before | there
      · exact .inl (mem_append_left _ before)
      · exact (handled.recorded j there).imp (mem_append_right _) id

theorem processAck_yields (ack : UInt64) : Yields Exceeded (s.processAck ack) Sound := by
  rw [processAck]
  split
  · exact .ok sound
  · rename_i frag found
    obtain ⟨stopped,kept⟩ := sound.write _ { frag with rtoTimer := false } found rfl rfl
    have present := kept ▸ mem_keys.mpr ⟨frag,found⟩
    refine (findLostLpPackets_yields stopped present).bind ?_
    rintro ⟨t,lost⟩ ⟨soundT,same,inside⟩
    obtain ⟨held,foundT⟩ := mem_keys.mp (same ▸ present)
    refine (onLpPacketAcknowledged_yields soundT foundT).bind ?_
    rintro u ⟨soundU,erased⟩
    refine handleLost_yields soundU (fun k lostK => .inr ?_)
    obtain ⟨there,apart⟩ := inside k lostK
    obtain ⟨other,foundK⟩ := mem_keys.mp (same ▸ there)
    rw [erased]
    exact mem_keys.mpr ⟨other,(find_erase_ne apart).trans foundK⟩

theorem processAcks_yields : Yields Exceeded (s.processAcks acks) Sound := by
  induction acks generalizing s with
  | nil => exact .ok sound
  | cons ack acks ih => exact (processAck_yields sound ack).bind (fun _ soundT => ih soundT)

theorem noteReceived_sound (now rto : Nat) (pkt : LpPacket) : Sound (s.noteReceived now rto pkt).1 := by
  obtain ⟨windowed,listed,read⟩ := sound
  rw [noteReceived]
  split
  · split
    · exact ⟨windowed,listed,read⟩
    · split
      · split <;> exact ⟨windowed,listed,read⟩
      · exact ⟨windowed,listed,read⟩
  · exact ⟨windowed,listed,read⟩

theorem processIncomingPacket_yields (enabled : s.options.isEnabled) (now rto : Nat) (pkt : LpPacket) :
    Yields Exceeded (s.processIncomingPacket now rto pkt) (fun result => Sound result.1) := by
  rw [processIncomingPacket,if_pos enabled]
  split
  · exact .ok sound
  · exact (processAcks_yields sound).bind (fun t soundT => .ok (noteReceived_sound soundT now rto pkt))

theorem attempt_yields (permitted : s.Permitted event) : Yields Exceeded (s.attempt event) Sound := by
  cases event with
  | handleOutgoing frags pkt isInterest => exact (handleOutgoing_yields sound permitted).map (fun _ done => done.1)
  | processIncomingPacket pkt now rto => exact (processIncomingPacket_yields sound permitted now rto pkt).map (fun _ done => done)
  | rtoTimer txSeq =>
    refine (onLpPacketLost_yields sound (mem_keys.mpr ?_)).map (fun _ done => done.sound)
    cases found : s.unackedFrags.find txSeq with
    | none =>
      rw [Permitted,found] at permitted
      cases permitted
    | some frag => exact ⟨frag,rfl⟩
  | setOptions options => exact .ok ⟨sound.windowed,sound.listed,sound.read⟩

end

theorem initial_sound (options : ReliabilityOptions) (traced : Bool) : Sound (initial options traced) where
  windowed := ⟨nofun,nofun⟩
  listed := ⟨fun _ => [],⟨⟨fun _ => nodup_nil,fun _ _ => ⟨nofun,nofun⟩⟩,
    fun _ nonempty => absurd rfl nonempty,fun _ _ => rfl,fun _ nonempty => absurd rfl nonempty,nofun⟩⟩
  read := (ite_self 0).symm

theorem Reached.sound (reached : Reached s) : Sound s := by
  refine Transition.Reached.invariant ?_ (fun u event v soundU taken => ?_) reached
  · rintro _ ⟨options,traced,rfl⟩
    exact initial_sound options traced
  · obtain ⟨permitted,ran⟩ := ite_none_right_eq_some.mp taken
    exact (attempt_yields soundU permitted).holds (toOption_parts ran)

-- In every state reached the window starts at the oldest TxSequence, fragments
-- and network packets list each other, and every permitted event ends without
-- the use of an invalid iterator, a failed assertion or an endless search; it
-- may only find that the range of TxSequences is exceeded. An erased fragment is
-- read exactly if trace messages are evaluated and something was retransmitted.
theorem reliability_window (reached : Reached s) :
    (∀ k frag, s.unackedFrags.find k = some frag →
      ∃ f oldest, s.firstUnackedFrag = some f ∧ s.unackedFrags.find f = some oldest ∧ s.age k ≤ s.age f) ∧
    (∀ k frag, s.unackedFrags.find k = some frag → k ∈ (s.netPkts frag.netPkt).unackedFrags ∧ (s.netPkts frag.netPkt).unackedFrags.Nodup ∧
      ∀ j ∈ (s.netPkts frag.netPkt).unackedFrags, ∃ other, s.unackedFrags.find j = some other ∧ other.netPkt = frag.netPkt) ∧
    (∀ event, s.Permitted event → (∃ t, s.attempt event = .ok t) ∨
      ∃ found, s.attempt event = .error (.rangeExceeded found) ∧ 2 ^ 63 ≤ found.outstanding) ∧
    (s.erasedReads = [] ↔ s.traced = false ∨ s.retransmitted = []) := by
  have sound := reached.sound
  obtain ⟨lists,listed⟩ := sound.listed
  refine ⟨fun k frag present => ?_,fun k frag present => ?_,fun event permitted => ?_,?_⟩
  · obtain ⟨f,begun,older⟩ := sound.windowed.oldest k frag present
    obtain ⟨oldest,held⟩ := sound.windowed.valid f begun
    exact ⟨f,oldest,begun,held,older⟩
  · obtain ⟨inside,live⟩ := listed.mem present
    rw [live]
    exact ⟨inside,listed.consistent.distinct _,fun j listedJ => listed.find listedJ⟩
  · rcases attempt_yields sound permitted with ⟨t,computed,_⟩ | ⟨_,computed,found,rfl,exceeded⟩
    · exact .inl ⟨t,computed⟩
    · exact .inr ⟨found,computed,exceeded⟩
  · have count := sound.read
    rw [MessagesRead,messages] at count
    rw [← length_eq_zero_iff,count]
    cases s.traced <;> simp

theorem reliability_window_lost : ∃ s, Reached s ∧ s.unackedFrags.keys = [4] ∧ s.retransmitted.length = 1 ∧ s.erasedReads = [] ∧
    ∃ f oldest, s.firstUnackedFrag = some f ∧ s.unackedFrags.find f = some oldest ∧ s.age 4 ≤ s.age f := by
  obtain ⟨s,taken,keys,sent,quiet⟩ : ∃ s ∈ run step (initial ⟨true,3,3⟩ false)
      [.handleOutgoing ([0,1,2,3].map (fun n => LpPacket.blank.set lpSequence (encodeSequence n))) .blank false,
        .processIncomingPacket ⟨none,[1,2,3].map (fun n => ⟨lpAck,[],encodeSequence n⟩)⟩ 0 0],
    s.unackedFrags.keys = [4] ∧ s.retransmitted.length = 1 ∧ s.traced = false := by decide +kernel
  have reached : Reached s := Transition.run_reached (.start ⟨_,_,rfl⟩) taken
  obtain ⟨frag,present⟩ := mem_keys.mp (by rw [keys]; exact mem_singleton.mpr rfl)
  obtain ⟨oldest,_,_,erased⟩ := reliability_window reached
  exact ⟨s,reached,keys,sent,erased.mpr (.inl quiet),oldest 4 frag present⟩

-- The three fragments sent after the first are acknowledged, so that it counts as
-- lost and is sent again: the trace message is about a fragment that is no more.
theorem erased_fragment_read : ∃ s ∈ run step (initial ⟨true,3,3⟩ true)
    [.handleOutgoing ([0,1,2,3].map (fun n => LpPacket.blank.set lpSequence (encodeSequence n))) .blank false,
      .processIncomingPacket ⟨none,[1,2,3].map (fun n => ⟨lpAck,[],encodeSequence n⟩)⟩ 0 0],
    s.unackedFrags.keys = [4] ∧ s.erasedReads = [0] := by decide +kernel

end LpReliability

end ReflexiveNfd
