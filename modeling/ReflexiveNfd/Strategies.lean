import ReflexiveNfd.Outgoing

namespace ReflexiveNfd

-- What a pipeline run draws at random or reads from measurements. Measurements
-- steer only which of the admissible faces is taken, so any value may occur.
structure Choices where
  words : List UInt32 := []
  shuffled : Nat := 0
  valueForSorting : FaceId → Int := fun _ => 0
  isProbingNeeded : Bool := false
  hasRtt : FaceId → Bool := fun _ => false
  chooseFace : Nat := 0
  refreshedNonce : Nonce := 0
  hasFaceInfo : EntryId → Bool := fun _ => false
  lastNexthop : Option FaceId := none
  rto : Int := 0

namespace BestRouteStrategy

section
variable (env : Env) (s : State) (object : ObjId) (ingress : Face) (id : EntryId)

def afterReceiveNewInterest : State :=
  match (lookupFib s id).nextHops.find?
      (fun n => isNextHopEligible ingress (s.interest object) n (s.entry id) false s.now) with
  | none => sendNoRouteNack s ingress id
  | some nexthop => (sendInterest env s object nexthop.face id).1

def afterReceiveRetxInterest : State :=
  let nexthops := (lookupFib s id).nextHops
  match nexthops.find? (fun n => isNextHopEligible ingress (s.interest object) n (s.entry id) true s.now) with
  | some nexthop => (sendInterest env s object nexthop.face id).1
  | none =>
    match findEligibleNextHopWithEarliestOutRecord ingress (s.interest object) nexthops (s.entry id) s.now with
    | none => s
    | some outFace => (sendInterest env s object outFace id).1

-- A producer Interest goes to the first downstream of the entry handed in,
-- without the eligibility check of the other paths.
def afterReceiveInterest (strategy : Strategy) (s : State) (object : ObjId) (ingress : Face) (id : EntryId) :
    State :=
  if fromProducer env (s.interest object) then
    match (s.entry id).inRecords.head? with
    | none => sendNoRouteNack s ingress id
    | some inRecord => (sendInterest env s object inRecord.face id).1
  else
    match decidePerPitEntry env strategy s id with
    | (.suppress,s) => s
    | (.new,s) => afterReceiveNewInterest env s object ingress id
    | (.forward,s) => afterReceiveRetxInterest env s object ingress id

end

end BestRouteStrategy

-- MulticastStrategy and AsfStrategy enlarge an upstream's interval once the
-- retransmission has gone out.
def sendAndIncrement (env : Env) (strategy : Strategy) (suppressResult : RetxSuppressionResult) (s : State)
    (object : ObjId) (outFace : Face) (id : EntryId) : State :=
  match sendInterest env s object outFace id with
  | (s,none) => s
  | (s,some own) =>
    if suppressResult = .forward then incrementIntervalForOutRecord env strategy s own outFace else s

namespace MulticastStrategy

section
variable (env : Env) (strategy : Strategy) (s : State) (nexthop : NextHop) (object : ObjId) (ingress : Face) (id : EntryId)

def forward (s : State)
    (nexthop : NextHop) : State :=
  match decidePerUpstream strategy s id nexthop.face with
  | (.suppress,s) => s
  | (suppressResult,s) =>
    if !isNextHopEligible ingress (s.interest object) nexthop (s.entry id) false s.now then s
    else sendAndIncrement env strategy suppressResult s object nexthop.face id

def afterReceiveInterest :
    State :=
  (lookupFib s id).nextHops.foldl (forward env strategy object ingress id) s

def afterNewNextHop : State :=
  let e := s.entry id
  if e.inRecords.any (fun r => isNextHopEligible r.face (s.interest e.interest) nexthop e false s.now) then
    (sendInterest env s e.interest nexthop.face id).1
  else s

end

end MulticastStrategy

namespace RandomStrategy

def afterReceiveInterest (env : Env) (s : State) (object : ObjId) (ingress : Face) (id : EntryId) (choices : Choices) :
    State :=
  let nhs := (lookupFib s id).nextHops.filter
    (fun n => isNextHopEligible ingress (s.interest object) n (s.entry id) false s.now)
  match nhs.rotate choices.shuffled with
  | [] => sendNoRouteNack s ingress id
  | front :: _ => (sendInterest env s object front.face id).1

end RandomStrategy

namespace AsfStrategy

section
variable (env : Env) (strategy : Strategy) (s : State) (object : ObjId) (inFace ingress : Face) (id : EntryId) (faceUsed : Face) (choices : Choices)

def better (best : Option NextHop) (nexthop : NextHop) : Option NextHop :=
  match best with
  | none => some nexthop
  | some b =>
    let value := choices.valueForSorting nexthop.face.id
    let least := choices.valueForSorting b.face.id
    if value < least ∨ (value = least ∧ nexthop.cost < b.cost) then some nexthop else best

def getBestFaceForForwarding (isInterestNew : Bool)
    (choices : Choices) : Option NextHop :=
  ((lookupFib s id).nextHops.filter
    (fun n => isNextHopEligible inFace (s.interest object) n (s.entry id) (!isInterestNew) s.now)).foldl (better choices) none

def getFaceToProbe :
    Option NextHop :=
  let hops := (lookupFib s id).nextHops.filter (fun n =>
    !(n.face.id == inFace.id || n.face.id == faceUsed.id || wouldViolateScope inFace (s.interest object) n.face))
  match hops.find? (fun n => !choices.hasRtt n.face.id) with
  | some hop => some hop
  | none => (hops.rotate choices.chooseFace).head?

-- The probe is a copy with a new nonce, its PIT token still on it.
def sendProbe (id : EntryId)
    (choices : Choices) : State :=
  if !choices.isProbingNeeded then s
  else match getFaceToProbe s object ingress id faceUsed choices with
    | none => s
    | some hop =>
      let probe := { s.interest object with nonce := choices.refreshedNonce }
      (sendInterest env (s.allocate probe) s.interests.length hop.face id).1

def resend (outFace : Face) (id : EntryId) : State :=
  match decidePerUpstream strategy s id outFace with
  | (.suppress,s) => s
  | (suppressResult,s) => sendAndIncrement env strategy suppressResult s object outFace id

def afterReceiveInterest : State :=
  if !hasPendingOutRecords s.now (s.entry id) then
    match getBestFaceForForwarding s object ingress id true choices with
    | none => sendNoRouteNack s ingress id
    | some faceToUse =>
      sendProbe env (sendInterest env s object faceToUse.face id).1 object ingress faceToUse.face id choices
  else
    match getBestFaceForForwarding s object ingress id false choices with
    | some faceToUse => resend env strategy s object faceToUse.face id
    | none =>
      match findEligibleNextHopWithEarliestOutRecord ingress (s.interest object) (lookupFib s id).nextHops
          (s.entry id) s.now with
      | none => s
      | some outFace => resend env strategy s object outFace id

end

end AsfStrategy

namespace AccessStrategy

def multicast (env : Env) (s : State) (object : ObjId) (inFace : Face) (id : EntryId) (exceptFace : FaceId) : State × Nat :=
  (lookupFib s id).nextHops.foldl (fun (s,nSent) nexthop =>
    if nexthop.face = inFace ∨ nexthop.face.id = exceptFace ∨ wouldViolateScope inFace (s.interest object) nexthop.face
    then (s,nSent)
    else match sendInterest env s object nexthop.face id with
      | (s,none) => (s,nSent)
      | (s,some _) => (s,nSent + 1)) (s,0)

def lastNexthop (s : State) (object : ObjId) (ingress : Face) (id : EntryId) (choices : Choices) : Option Face :=
  match choices.lastNexthop with
  | none => none
  | some last =>
    if last = 0 ∨ last = ingress.id then none
    else match s.getFace last with
      | none => none
      | some outFace =>
        if !(lookupFib s id).nextHops.any (fun n => n.face == outFace) then none
        else if wouldViolateScope ingress (s.interest object) outFace then none
        else some outFace

section
variable (env : Env) (s : State) (object : ObjId) (ingress : Face) (id : EntryId)

def multicastNew : State :=
  match multicast env s object ingress id 0 with
  | (s,0) => rejectPendingInterest s id
  | (s,_) => s

def afterReceiveNewInterest (choices : Choices) :
    State :=
  match lastNexthop s object ingress id choices with
  | none => multicastNew env s object ingress id
  | some outFace =>
    match sendInterest env s object outFace id with
    | (s,none) => multicastNew env s object ingress id
    | (s,some _) => s.setRtoTimer id choices.rto ingress.id outFace.id

def afterReceiveInterest (choices : Choices) :
    State :=
  match decideFixed s id with
  | .suppress => s
  | .new => afterReceiveNewInterest env s object ingress id choices
  | .forward => (multicast env s object ingress id 0).1

end

def afterRtoTimeout (env : Env) (s : State) (id : EntryId) (inFaceId firstOutFaceId : FaceId) : State :=
  match s.getFace inFaceId with
  | none => s
  | some inFace =>
    match (s.entry id).getInRecord inFace with
    | none => s
    | some inRecord => (multicast env s inRecord.interest inFace id firstOutFaceId).1

end AccessStrategy

namespace SelfLearningStrategy

section
variable (env : Env) (s : State) (data : Data) (object : ObjId) (ingress inFace : Face) (id : EntryId)

def sendMarked (isNonDiscovery : Bool) (s : State) (outFace : Face) : State :=
  match sendInterest env s object outFace id with
  | (s,none) => s
  | (s,some own) =>
    s.modifyEntry own (·.updateOutRecord outFace (fun r => { r with isNonDiscovery := some isNonDiscovery }))

def broadcastInterest : State :=
  (s.faces.reverse.filter (fun outFace =>
    mayForward inFace (s.interest object) outFace && outFace.scope != .local)).foldl (sendMarked env object id false) s

def multicastInterest (nexthops : List NextHop) :
    State :=
  ((nexthops.filter (fun n => isNextHopEligible inFace (s.interest object) n (s.entry id) false s.now)).map
    NextHop.face).foldl (sendMarked env object id true) s

def noteInRecord (face : Face) (isNonDiscovery : Bool) : State :=
  s.modifyEntry id (·.updateInRecord face (fun r => { r with isNonDiscovery := some isNonDiscovery }))

def afterReceiveInterest : State :=
  let nexthops := (lookupFib s id).nextHops
  if (s.interest object).nonDiscovery then
    let s := noteInRecord s id ingress true
    if nexthops.isEmpty then sendNoRouteNack s ingress id else multicastInterest env s object ingress id nexthops
  else
    let s := noteInRecord s id ingress false
    if nexthops.isEmpty then broadcastInterest env s object ingress id
    else
      let s := s.modifyInterest object (fun i => { i with nonDiscovery := true })
      multicastInterest env s object ingress id nexthops

def needPrefixAnn (now : Int) (e : Entry) : Bool :=
  let pending := e.inRecords.filter (fun r => r.expiry > now)
  pending.any (fun r => r.isNonDiscovery == some false) && pending.any (fun r => r.face.scope != .local)

def asyncProcessData (inFace : Face) (data : Data) : State :=
  { s.setExpiryTimer id 1000 with announcing := s.announcing ++ [⟨id,inFace.id,data⟩] }

def afterReceiveData : State :=
  match (s.entry id).getOutRecord ingress with
  | none => s
  | some outRecord =>
    if outRecord.isNonDiscovery = some true ∧ needPrefixAnn s.now (s.entry id) then asyncProcessData s id ingress data
    else sendDataToAll s data id ingress

end

end SelfLearningStrategy

def isLessSevere (x y : NackReason) : Bool :=
  match x,y with
  | .none,_ => false
  | _,.none => true
  | .congestion,.duplicate | .congestion,.noRoute | .duplicate,.noRoute => true
  | _,_ => false

def leastSevereReason (e : Entry) : NackReason :=
  (e.outRecords.filterMap OutRecord.incomingNack).foldl (fun least r => if isLessSevere r least then r else least) .none

section
variable (strategy : Strategy) (s : State) (id : EntryId)

def processNack : State :=
  let e := s.entry id
  match e.outRecords.filter (fun r => r.incomingNack.isNone) with
  | [] => sendNacks s (leastSevereReason e) id
  | [notNacked] =>
    if (e.getInRecord notNacked.face).isSome then onOutgoingNack s (leastSevereReason e) notNacked.face id else s
  | _ => s

def afterReceiveInterest (env : Env) (strategy : Strategy) (s : State) (object : ObjId) (ingress : Face) (id : EntryId)
    (choices : Choices) : State :=
  match strategy.kind with
  | .bestRoute => BestRouteStrategy.afterReceiveInterest env strategy s object ingress id
  | .multicast => MulticastStrategy.afterReceiveInterest env strategy s object ingress id
  | .random => RandomStrategy.afterReceiveInterest env s object ingress id choices
  | .asf => AsfStrategy.afterReceiveInterest env strategy s object ingress id choices
  | .access => AccessStrategy.afterReceiveInterest env s object ingress id choices
  | .selfLearning => SelfLearningStrategy.afterReceiveInterest env s object ingress id

def beforeSatisfyInterest (choices : Choices) : State :=
  match strategy.kind with
  | .asf => if choices.hasFaceInfo id then s.setExpiryTimer id 50 else s
  | .access => s.cancelTimer (s.entry id).rtoTimer
  | _ => s

def afterReceiveData (strategy : Strategy) (s : State) (data : Data) (ingress : Face) (id : EntryId) (choices : Choices) :
    State :=
  match strategy.kind with
  | .selfLearning => SelfLearningStrategy.afterReceiveData s data ingress id
  | _ => sendDataToAll (beforeSatisfyInterest strategy s id choices) data id ingress

def afterContentStoreHit (data : Data) (ingress : Face) (id : EntryId) : State := sendData s data ingress id

def afterReceiveNack (reason : NackReason) (id : EntryId) : State :=
  match strategy.kind with
  | .bestRoute | .random => processNack s id
  | .selfLearning => if reason = .noRoute then sendNacks s reason id else s
  | _ => s

end

def afterNewNextHop (env : Env) (strategy : Strategy) (s : State) (nexthop : NextHop) (id : EntryId) : State :=
  match strategy.kind with
  | .multicast => MulticastStrategy.afterNewNextHop env s nexthop id
  | _ => s

end ReflexiveNfd
