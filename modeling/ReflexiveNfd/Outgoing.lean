import ReflexiveNfd.State

namespace ReflexiveNfd

section
variable (env : Env) (s : State) (reason : NackReason) (data : Data) (object : ObjId) (egress : Face) (id : EntryId) (inFace : Face) (interest : Interest)

-- A name whose classification raises has raised in onIncomingInterest before an
-- in-record was made for it, so past that point the answer is a Boolean.
def fromProducer : Bool :=
  match isReflexiveInterestFromProducer env.convention interest with
  | .ok answer => answer
  | .error _ => false

def transmit : State × Option EntryId :=
  ((s.insertOrUpdateOutRecord id egress object).emit (.interest egress (s.interest object)),some id)

-- The entry handed in is the original Interest's for a producer Interest, whose
-- out-record goes to its own entry. The result says where the out-record is.
def onOutgoingInterest :
    State × Option EntryId :=
  let interest := s.interest object
  if interest.hopLimit = some 0 ∧ egress.scope = .nonLocal then (s,none)
  else if fromProducer env interest then
    let tagged := s.setTag object (setPitToken (s.pitAssist.nameToPrevToken (s.entry id).name).1)
    match tagged.pit.find interest with
    | none => (tagged,none)
    | some own => transmit tagged object egress own.id
  else if isReflexiveInterest env.convention interest then
    transmit (s.setTag object (setPitToken (s.pitAssist.nameToToken interest.name).1)) object egress id
  else transmit s object egress id

def onOutgoingData : State :=
  if egress.id = 0 then s
  else if egress.scope = .nonLocal ∧ localhost.isPrefixOf data.name then s
  else s.emit (.data egress data)

def onOutgoingNack : State :=
  if egress.id = 0 then s
  else match (s.entry id).getInRecord egress with
    | none => s
    | some inRecord =>
      if egress.linkType ≠ .pointToPoint then s
      else (s.deleteInRecord id egress).emit (.nack egress ⟨s.interest inRecord.interest,reason⟩)

-- Actions of the Strategy base class. sendInterest copies an Interest that has a
-- PIT token and takes the token off the copy.
def sendInterest : State × Option EntryId :=
  match (s.interest object).pitToken with
  | some _ =>
    onOutgoingInterest env (s.allocate { s.interest object with pitToken := none }) s.interests.length egress id
  | none => onOutgoingInterest env s object egress id

def downstreamToken (egress : Face) : Option PitToken :=
  ((s.entry id).getInRecord egress).bind (fun inRecord => (s.interest inRecord.interest).pitToken)

def sendData : State :=
  match downstreamToken s id egress with
  | some pitToken => onOutgoingData (s.deleteInRecord id egress) { data with pitToken := some pitToken } egress
  | none => onOutgoingData (s.deleteInRecord id egress) data egress

def pendingDownstreams (now : Int) (e : Entry) (inFace : Face) : List Face :=
  (e.inRecords.filter (fun r => r.expiry > now ∧ ¬ (r.face.id = inFace.id ∧ r.face.linkType ≠ .adHoc))).map InRecord.face

def sendDataToAll : State :=
  (pendingDownstreams s.now (s.entry id) inFace).dedup.foldl (fun s face => sendData s data face id) s

def sendNacks : State :=
  ((s.entry id).inRecords.map InRecord.face).dedup.foldl (fun s face => onOutgoingNack s reason face id) s

def rejectPendingInterest : State := s.setExpiryTimer id 0

def sendNoRouteNack (face : Face) (id : EntryId) : State :=
  rejectPendingInterest (onOutgoingNack s .noRoute face id) id

def lookupFib : FibEntry :=
  let e := s.entry id
  if e.forwardingHint.isEmpty then s.fib.lookup e.name
  else (e.forwardingHint.map s.fib.lookup).find? (fun f => !f.nextHops.isEmpty) |>.getD ⟨[],[]⟩

def wouldViolateScope (outFace : Face) : Bool :=
  if outFace.scope = .local then false
  else if localhost.isPrefixOf interest.name then true
  else if localhop.isPrefixOf interest.name then inFace.scope ≠ .local
  else false

end

structure DuplicateNonceWhere where
  inSame : Bool
  inOther : Bool
  outSame : Bool
  outOther : Bool
  deriving DecidableEq, Repr

section
variable (now : Int) (e : Entry) (inFace : Face) (interest : Interest) (outFace : Face)

def findDuplicateNonce (nonce : Nonce) (face : Face) : DuplicateNonceWhere where
  inSame := e.inRecords.any (fun r => r.lastNonce == nonce && r.face == face)
  inOther := e.inRecords.any (fun r => r.lastNonce == nonce && r.face != face)
  outSame := e.outRecords.any (fun r => r.lastNonce == nonce && r.face == face)
  outOther := e.outRecords.any (fun r => r.lastNonce == nonce && r.face != face)

def DuplicateNonceWhere.isDuplicate (dnw : DuplicateNonceWhere) : Bool :=
  dnw.inSame || dnw.inOther || dnw.outSame || dnw.outOther

def hasPendingOutRecords : Bool :=
  e.outRecords.any (fun r => decide (r.expiry ≥ now) && r.incomingNack.isNone)

def getLastOutgoing : Int := (e.outRecords.map OutRecord.lastRenewed).max?.getD 0

def mayForward : Bool :=
  !((outFace.id == inFace.id && outFace.linkType != .adHoc) || wouldViolateScope inFace interest outFace)

def isUnused : Bool :=
  match e.getOutRecord outFace with
  | some outRecord => !decide (outRecord.expiry > now)
  | none => true

def isNextHopEligible (nexthop : NextHop) (e : Entry)
    (wantUnused : Bool) (now : Int) : Bool :=
  mayForward inFace interest nexthop.face && (!wantUnused || isUnused now e nexthop.face)

def earlier (found : Option (Face × Int)) (face : Face) (lastRenewed : Int) : Option (Face × Int) :=
  match found with
  | some (_,earliestRenewed) => if lastRenewed < earliestRenewed then some (face,lastRenewed) else found
  | none => some (face,lastRenewed)

def findEligibleNextHopWithEarliestOutRecord (nexthops : List NextHop)
    (e : Entry) (now : Int) : Option Face :=
  let scan := fun found nexthop =>
    if isNextHopEligible inFace interest nexthop e false now then
      match e.getOutRecord nexthop.face with
      | some outRecord => earlier found nexthop.face outRecord.lastRenewed
      | none => found
    else found
  (nexthops.foldl scan none).map Prod.fst

end

inductive RetxSuppressionResult where
  | «new»
  | forward
  | suppress
  deriving DecidableEq, Repr

section
variable (env : Env) (strategy : Strategy) (s : State) (id : EntryId) (outFace : Face)

-- RetxSuppressionExponential, with its interval kept on the entry or on an
-- out-record.
def enlarge (interval : Option Int) : Option Int :=
  some (min strategy.maxInterval (env.scaleInterval strategy.multiplier (interval.getD strategy.initialInterval)))

def decidePerPitEntry : RetxSuppressionResult × State :=
  let e := s.entry id
  if !hasPendingOutRecords s.now e then (.new,s)
  else
    let interval := e.suppressionInterval.getD strategy.initialInterval
    if s.now - getLastOutgoing e < nanoseconds interval then
      (.suppress,s.modifyEntry id (fun e => { e with suppressionInterval := some interval }))
    else (.forward,s.modifyEntry id (fun e => { e with suppressionInterval := enlarge env strategy e.suppressionInterval }))

def setOutInterval (interval : Option Int → Option Int) (face : Face) (e : Entry) : Entry :=
  e.updateOutRecord face (fun r => { r with suppressionInterval := interval r.suppressionInterval })

def decidePerUpstream : RetxSuppressionResult × State :=
  match (s.entry id).getOutRecord outFace with
  | none => (.new,s)
  | some outRecord =>
    let interval := outRecord.suppressionInterval.getD strategy.initialInterval
    let noted := s.modifyEntry id (setOutInterval (fun _ => some interval) outFace)
    if s.now - outRecord.lastRenewed < nanoseconds interval then (.suppress,noted) else (.forward,noted)

def incrementIntervalForOutRecord : State :=
  s.modifyEntry id (setOutInterval (enlarge env strategy) outFace)

-- RetxSuppressionFixed, which AccessStrategy uses.
def defaultMinRetxInterval : Int := 100

def decideFixed : RetxSuppressionResult :=
  if !hasPendingOutRecords s.now (s.entry id) then .new
  else if s.now - getLastOutgoing (s.entry id) < nanoseconds defaultMinRetxInterval then .suppress
  else .forward

end

end ReflexiveNfd
