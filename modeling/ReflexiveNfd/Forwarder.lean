import ReflexiveNfd.Strategies

namespace ReflexiveNfd
open Timers

def State.findEffectiveStrategy (s : State) (name : Name) : Strategy := s.strategyChoice.findEffectiveStrategy name

def arrive (interest : Interest) (ingress : Face) : Interest :=
  { interest with incomingFaceId := some ingress.id, hopLimit := interest.hopLimit.map (· - 1) }

def stripForwardingHint (s : State) (interest : Interest) : Interest :=
  if !interest.forwardingHint.isEmpty && isInProducerRegion s.networkRegions interest.forwardingHint
  then { interest with forwardingHint := [] } else interest

inductive Screened where
  | dropped
  | loop (interest : Interest)
  | accepted (interest : Interest)
  deriving DecidableEq, Repr

section
variable (e : Entry) (env : Env) (s : State) (interest : Interest) (object : ObjId) (ingress : Face) (id : EntryId) (data : Data) (choices : Choices)

def screen : Screened :=
  if interest.hopLimit = some 0 then .dropped
  else if ingress.scope = .nonLocal ∧ localhost.isPrefixOf interest.name then .dropped
  else if s.deadNonceList.has env interest.name interest.nonce then .loop (arrive interest ingress)
  else .accepted (stripForwardingHint s (arrive interest ingress))

def onInterestLoop : State :=
  if ingress.linkType ≠ .pointToPoint then s else s.emit (.nack ingress ⟨interest,.duplicate⟩)

def pitInsert : State × EntryId :=
  match s.pit.find (s.interest object) with
  | some e => (s,e.id)
  | none =>
    ({ s with pit := s.pit ++ [Pit.newEntry s.nextEntry object (s.interest object)], nextEntry := s.nextEntry + 1 },
      s.nextEntry)

def attachHopLimit : State :=
  if s.defaultHopLimit > 0 then
    s.modifyInterest object (fun i => { i with hopLimit := some (i.hopLimit.getD s.defaultHopLimit) })
  else s

def lastExpiry : Int := (e.inRecords.map InRecord.expiry).max?.getD 0

-- The steps onSendingRI and onContentStoreMiss share: HopLimit, in-record, and
-- the expiry timer at the last in-record's expiry.
def recordDownstream : State :=
  let s := (attachHopLimit s object).insertOrUpdateInRecord id ingress object
  s.setExpiryTimer id (toMilliseconds (lastExpiry (s.entry id) - s.now))

def contentStoreFaceId : FaceId := 254

def markSatisfied : State :=
  s.modifyEntry id (fun e => { e with isSatisfied := true, dataFreshnessPeriod := data.freshnessPeriod })

def onContentStoreHit : State :=
  let tagged := { data with incomingFaceId := some contentStoreFaceId, pitToken := (s.interest object).pitToken }
  afterContentStoreHit ((markSatisfied s id data).setExpiryTimer id 0) tagged ingress id

def isLoop (nonce : Nonce) (ingress : Face) : Bool :=
  let dnw := findDuplicateNonce e nonce ingress
  dnw.isDuplicate && !(ingress.linkType == .pointToPoint && dnw.inSame)

end

section
variable (env : Env) (s : State)

section
variable (object : ObjId) (interest : Interest) (ingress : Face) (id : EntryId) (choices : Choices)

-- The token block of onIncomingInterest; none while generateToken is looping.
def insertPitToken (words : List UInt32) : Option State :=
  if isReflexiveInterest env.convention interest then
    (s.pitAssist.ensureName interest.name (interestToken env interest) words).map fun pitAssist => { s with pitAssist := pitAssist }
  else some s

-- The incoming Interest pipelines with the strategy left open: calling is what they
-- do at the call of its trigger, leaving where they return without one.
structure Call where
  state : State
  strategy : Strategy
  object : ObjId
  ingress : Face
  entry : EntryId

section
variable {σ : Type} (calling : Call → σ) (leaving : State → σ)

def onSendingRIWith : σ :=
  let interest := s.interest object
  let pitToken := interestToken env interest
  if pitToken = 0 then leaving (s.emit (.nack ingress ⟨interest,.none⟩))
  else match s.pitAssist.tokenToName pitToken with
    | (_,false) => leaving (s.emit (.nack ingress ⟨interest,.noRoute⟩))
    | (originalInterestname,true) =>
      match s.pit.findBasedOnName originalInterestname with
      | none => leaving s
      | some pitEntryOriginal =>
        match s.pitAssist.nameToPrevToken originalInterestname with
        | (_,false) => leaving s
        | (prevPitToken,true) =>
          let s := recordDownstream (s.setTag object (setPitToken prevPitToken)) object ingress id
          calling ⟨s,s.findEffectiveStrategy (s.entry id).name,object,ingress,pitEntryOriginal.id⟩

def onContentStoreMissWith : σ :=
  let s := recordDownstream s object ingress id
  let interest := s.interest object
  match interest.nextHopFaceId with
  | some nextHopTag =>
    match s.getFace nextHopTag with
    | some nextHopFace => leaving (onOutgoingInterest env s object nextHopFace id).1
    | none => leaving s
  | none =>
    let s := if isReflexiveInterest env.convention interest
      then s.setTag object (setPitToken (s.pitAssist.nameToToken interest.name).1) else s
    calling ⟨s,s.findEffectiveStrategy (s.entry id).name,object,ingress,id⟩

def detectAndForwardWith : σ :=
  let interest := s.interest object
  if isLoop (s.entry id) interest.nonce ingress then leaving (onInterestLoop s interest ingress)
  else if (s.entry id).hasInRecords then onContentStoreMissWith env s object ingress id calling leaving
  else match s.cs.find s.now interest with
    | (some data,cs) => leaving (onContentStoreHit { s with cs := cs } object ingress id data)
    | (none,cs) => onContentStoreMissWith env { s with cs := cs } object ingress id calling leaving

-- A raised Component::Error ends the run with the entry already inserted; it is
-- caught in GenericLinkService::decodeNetPacket.
def classifyWith (words : List UInt32) : Option σ :=
  match isReflexiveInterestFromProducer env.convention (s.interest object) with
  | .error _ => some (leaving s)
  | .ok true => some (onSendingRIWith env s object ingress id calling leaving)
  | .ok false =>
    (insertPitToken env s (s.interest object) words).map fun s => detectAndForwardWith env s object ingress id calling leaving

def onIncomingInterestWith (words : List UInt32) : Option σ :=
  match screen env s interest ingress with
  | .dropped => some (leaving s)
  | .loop interest => some (leaving (onInterestLoop s interest ingress))
  | .accepted interest =>
    let (inserted,id) := pitInsert (s.allocate interest) s.interests.length
    classifyWith env inserted s.interests.length ingress id calling leaving words

end

def Call.trigger (c : Call) : State := afterReceiveInterest env c.strategy c.state c.object c.ingress c.entry choices

def onSendingRI : State := onSendingRIWith env s object ingress id (Call.trigger env choices) (fun s => s)

def onContentStoreMiss : State := onContentStoreMissWith env s object ingress id (Call.trigger env choices) (fun s => s)

def onIncomingInterest : Option State := onIncomingInterestWith env s interest ingress (Call.trigger env choices) (fun s => s) choices.words

def addDeadNonces (name : Name) (nonces : List Nonce) : State :=
  { s with deadNonceList := nonces.foldl (fun d nonce => d.add env name nonce) s.deadNonceList }

-- upstream none stands for the null pointer: all outgoing nonces.
def insertDeadNonceList (upstream : Option Face) : State :=
  let e := s.entry id
  if e.isSatisfied ∧ ¬ (e.mustBeFresh ∧ e.dataFreshnessPeriod < s.deadNonceList.lifetime) then s
  else match upstream with
    | none => addDeadNonces env s e.name (e.outRecords.map OutRecord.lastNonce)
    | some face => addDeadNonces env s e.name ((e.getOutRecord face).toList.map OutRecord.lastNonce)

def onInterestFinalize : State :=
  let s := insertDeadNonceList env s id none
  match s.pit.get id with
  | none => s
  | some e => { (s.cancelTimer e.expiryTimer).cancelTimer e.rtoTimer with pit := s.pit.erase e }

end

end

def decideUnsolicited (policy : UnsolicitedDataPolicy) (ingress : Face) : Bool :=
  match policy with
  | .dropAll => false
  | .admitLocal => ingress.scope = .local
  | .admitNetwork => ingress.scope = .nonLocal
  | .admitAll => true

section
variable (env : Env) (s : State) (packet data : Data) (ingress : Face) (id : EntryId) (choices : Choices) (name : Name) (face : Face)

def onDataUnsolicited : State :=
  if decideUnsolicited s.unsolicitedDataPolicy ingress then { s with cs := s.cs.insert s.now data true } else s

def callOfOne : State :=
  let s := s.setExpiryTimer id 0
  markSatisfied (afterReceiveData (s.findEffectiveStrategy (s.entry id).name) s data ingress id choices) id data

def satisfyOne : State :=
  let s := insertDeadNonceList env (callOfOne s data ingress id choices) id (some ingress)
  s.modifyEntry id (·.deleteOutRecord ingress)

def callAmong (s : State) (id : EntryId) : State :=
  let s := s.setExpiryTimer id 0
  markSatisfied (beforeSatisfyInterest (s.findEffectiveStrategy (s.entry id).name) s id choices) id data

def satisfyAmong (s : State) (id : EntryId) : State :=
  let s := insertDeadNonceList env (callAmong data choices s id) id (some ingress)
  s.modifyEntry id (fun e => e.clearInRecords.deleteOutRecord ingress)

-- Several matches: the downstreams are collected first, and each gets the Data
-- as it came, without its own PIT token.
def satisfyMany (pitMatches : List Entry) (choices : Choices) : State :=
  let downstreams := (pitMatches.flatMap (fun e => (e.inRecords.filter (fun r => r.expiry > s.now)).map InRecord.face)).dedup
  let satisfied := (pitMatches.map Entry.id).foldl (satisfyAmong env data ingress choices) s
  (downstreams.filter (fun face => !(face.id == ingress.id && face.linkType != .adHoc))).foldl
    (fun s face => onOutgoingData s data face) satisfied

-- GenericLinkService::decodeData reads no PIT token field.
def decodeData : Data := { packet with pitToken := none }

-- Open in what is done with no, one and several matching entries.
def onIncomingDataWith {σ : Type} (leaving : σ) (unsolicited : Data → σ) (one : State → Data → EntryId → σ)
    (many : State → Data → List Entry → σ) : σ :=
  let data := { decodeData packet with incomingFaceId := some ingress.id }
  if ingress.scope = .nonLocal ∧ localhost.isPrefixOf data.name then leaving
  else match s.pit.findAllDataMatches data with
    | [] => unsolicited data
    | [e] => one { s with cs := s.cs.insert s.now data false } data e.id
    | pitMatches => many { s with cs := s.cs.insert s.now data false } data pitMatches

def onIncomingData : State :=
  onIncomingDataWith s packet ingress s (onDataUnsolicited s · ingress) (satisfyOne env · · ingress · choices)
    (satisfyMany env · · ingress · choices)

def onIncomingNack (nack : Nack) (ingress : Face) : State :=
  if ingress.linkType ≠ .pointToPoint then s
  else match s.pit.find nack.interest with
    | none => s
    | some e =>
      match e.getOutRecord ingress with
      | none => s
      | some outRecord =>
        if nack.interest.nonce ≠ outRecord.lastNonce then s
        else
          let s := s.modifyEntry e.id (·.updateOutRecord ingress (fun r => { r with incomingNack := some nack.reason }))
          let s := if hasPendingOutRecords s.now (s.entry e.id) then s else s.setExpiryTimer e.id 0
          afterReceiveNack (s.findEffectiveStrategy e.name) s nack.reason e.id

def fireWith {σ : Type} (timer : Timer Task) (finalize : State → EntryId → σ) (rto : State → EntryId → FaceId → FaceId → σ) : σ :=
  let s := s.cancelTimer (some timer.id)
  match timer.task with
  | .finalize id => finalize s id
  | .rtoTimeout id inFace firstOutFace => rto s id inFace firstOutFace

def fire (timer : Timer Task) : State := fireWith s timer (onInterestFinalize env) (AccessStrategy.afterRtoTimeout env)

def governed (below : List Name) (name : Name) (e : Entry) : Bool :=
  name.isPrefixOf e.nte && !below.any (fun other => decide (other.length > name.length) && other.isPrefixOf e.nte)

def onNewNextHop (nexthop : NextHop) : State :=
  ((s.pit.filter (governed (s.fib.map FibEntry.name) name)).map Entry.id).foldl
    (fun s id => afterNewNextHop env (s.findEffectiveStrategy (s.entry id).name) s nexthop id) s

def addOrUpdateNextHop (cost : Nat) : State :=
  let updated := { s with fib := s.fib.insertNextHop name face cost }
  if s.fib.hasNextHop name face then updated else onNewNextHop env updated name (s.fib.newNextHop name face cost)

def cleanupOnFaceRemoval : State :=
  { s with
    fib := s.fib.removeNextHop (fun _ => true) face
    pit := s.pit.map (fun e => (e.deleteInRecord face).deleteOutRecord face)
    faces := s.faces.filter (fun f => f ≠ face) }

def clearStrategyInfo (e : Entry) : Entry :=
  { e with
    suppressionInterval := none
    rtoTimer := none
    inRecords := e.inRecords.map (fun r => { r with isNonDiscovery := none })
    outRecords := e.outRecords.map (fun r => { r with suppressionInterval := none, isNonDiscovery := none }) }

def changeStrategy (oldStrategy newStrategy : Strategy) : State :=
  if oldStrategy.kind = newStrategy.kind then s
  else
    let changed := governed (s.strategyChoice.map StrategyChoiceEntry.name) name
    { (s.pit.filter changed).foldl (fun s e => s.cancelTimer e.rtoTimer) s with
      pit := s.pit.map (fun e => if changed e then clearStrategyInfo e else e) }

def setStrategy (strategy : Strategy) : State :=
  match s.strategyChoice.find? (fun c => c.name = name) with
  | some c =>
    if c.strategy = strategy then s
    else { changeStrategy s name c.strategy strategy with
      strategyChoice := s.strategyChoice.map (fun c => if c.name = name then ⟨name,strategy⟩ else c) }
  | none =>
    { changeStrategy s name (s.findEffectiveStrategy name) strategy with
      strategyChoice := s.strategyChoice ++ [⟨name,strategy⟩] }

def unsetStrategy : State :=
  match s.strategyChoice.find? (fun c => c.name = name) with
  | none => s
  | some c =>
    { changeStrategy s name c.strategy (s.findEffectiveStrategy name.dropLast) with
      strategyChoice := s.strategyChoice.filter (fun c => c.name ≠ name) }

def announce (a : Announcing) : State :=
  match s.pit.get a.entry,s.getFace a.inFace with
  | some _,some inFace =>
    (sendDataToAll s { a.data with prefixAnnouncement := true } a.entry inFace).setExpiryTimer a.entry 0
  | _,_ => s

end

inductive Event where
  | interest (packet : Interest) (ingress : Face) (choices : Choices)
  | data (packet : Data) (ingress : Face) (choices : Choices)
  | nack (packet : Nack) (ingress : Face)
  | timer (id : TimerId)
  | advance (duration : Nat)
  | addFace (scope : FaceScope) (linkType : LinkType)
  | removeFace (face : Face)
  | addNextHop (name : Name) (face : Face) (cost : Nat)
  | removeNextHop (name : Name) (face : Face)
  | setStrategy (name : Name) (strategy : Strategy)
  | unsetStrategy (name : Name)
  | announcement (index : Nat)
  | addMark
  | adjustCapacity

-- One pipeline run. none: the event cannot happen in this state, or the words
-- drawn for it keep generateToken looping.
def handle (env : Env) (s : State) : Event → Option State
  | .interest packet ingress choices => if ingress ∈ s.faces then onIncomingInterest env s packet ingress choices else none
  | .data packet ingress choices => if ingress ∈ s.faces then some (onIncomingData env s packet ingress choices) else none
  | .nack packet ingress => if ingress ∈ s.faces then some (onIncomingNack s packet ingress) else none
  | .timer id =>
    match s.scheduler.pending.find? (fun t => t.id = id) with
    | some timer => if timer.due ≤ s.now then some (fire env s timer) else none
    | none => none
  | .advance duration => some { s with now := s.now + duration }
  | .addFace scope linkType =>
    some { s with faces := s.faces ++ [⟨s.lastFaceId + 1,scope,linkType⟩], lastFaceId := s.lastFaceId + 1 }
  | .removeFace face => if face ∈ s.faces then some (cleanupOnFaceRemoval s face) else none
  | .addNextHop name face cost =>
    if face ∈ s.faces ∧ name.length ≤ maxDepth then some (addOrUpdateNextHop env s name face cost) else none
  | .removeNextHop name face => some { s with fib := s.fib.removeNextHop (fun other => other = name) face }
  | .setStrategy name strategy => if name.length ≤ maxDepth then some (setStrategy s name strategy) else none
  | .unsetStrategy name => if name = [] then none else some (unsetStrategy s name)
  | .announcement index =>
    match s.announcing[index]? with
    | some a => some (announce { s with announcing := s.announcing.eraseIdx index } a)
    | none => none
  | .addMark => some { s with deadNonceList := s.deadNonceList.addMark }
  | .adjustCapacity => some { s with deadNonceList := s.deadNonceList.adjustCapacity env }

def step (env : Env) (s : State) (event : Event) : Option State := handle env { s with sent := [] } event

-- A Forwarder as constructed, with any configuration of faces, routes and
-- strategies.
structure Initial (s : State) : Prop where
  pit : s.pit = []
  interests : s.interests = []
  scheduler : s.scheduler = .empty
  pitAssist : s.pitAssist = .empty
  announcing : s.announcing = []
  sent : s.sent = []
  faceIds : (s.faces.map Face.id).Nodup ∧ ∀ f ∈ s.faces, f.id ≠ 0 ∧ f.id ≤ s.lastFaceId

def Reached (env : Env) : State → Prop := Transition.Reached (step env) Initial

-- A node as in the README: two applications on each side, one route for all of
-- /testApp and one for /testApp/2.
namespace Demo

def env : Env where
  convention := .typed
  pastEnd := fun _ => 0
  cityHash := fun name nonce => nonce.toUInt64 + name.length.toUInt64 + 1
  scaleInterval := fun _ interval => 2 * interval
  capacityUp := fun capacity => 2 * capacity
  capacityDown := fun capacity => capacity / 2

def consumer : Face := ⟨256,.nonLocal,.pointToPoint⟩
def producer : Face := ⟨257,.nonLocal,.pointToPoint⟩
def consumer2 : Face := ⟨258,.nonLocal,.pointToPoint⟩
def producer2 : Face := ⟨259,.nonLocal,.pointToPoint⟩

def testApp : Component := ⟨tlvGenericNameComponent,[116,101,115,116,65,112,112]⟩

-- The same component with its TLV-TYPE in three octets.
def longTestApp : Component := ⟨Tlv.invalidType,253 :: 0 :: testApp.octets⟩

section
variable (value : UInt8) (token : UInt32) (nonce : Nonce)

def digit : Component := ⟨tlvGenericNameComponent,[value]⟩
def reflexive : Component := ⟨tlvReflexiveNameComponent,[0,0,0,value]⟩
def rn9999 : Component := ⟨tlvReflexiveNameComponent,[57,57,57,57]⟩

def requestName : Name := [testApp,digit 49,reflexive 1]
def requestName2 : Name := [testApp,digit 50,reflexive 2]
def answerName : Name := [testApp,rn9999]

def request : Interest :=
  { name := requestName, nonce := nonce, pitToken := some (setPitToken token) }
def request2 : Interest :=
  { name := requestName2, nonce := nonce, pitToken := some (setPitToken token) }
def answer : Interest :=
  { name := answerName, nonce := nonce, pitToken := some (setPitToken token) }

end

def node (strategy : StrategyKind) : State where
  now := 0
  defaultHopLimit := 0
  faces := [consumer,producer,consumer2,producer2]
  lastFaceId := 259
  networkRegions := []
  unsolicitedDataPolicy := .dropAll
  fib := [⟨[testApp],[⟨producer,10⟩]⟩,⟨[testApp,digit 50],[⟨producer2,10⟩]⟩]
  strategyChoice := [⟨[],{ kind := strategy }⟩]
  deadNonceList := .new 6000
  cs := .empty 10
  pitAssist := .empty
  nextEntry := 0
  interests := []
  pit := []
  scheduler := .empty
  announcing := []
  sent := []

theorem node_initial : Initial (node strategy) := by
  refine ⟨rfl,rfl,rfl,rfl,rfl,rfl,?_,?_⟩
  · change ([256,257,258,259] : List FaceId).Nodup
    decide
  · change ∀ f ∈ [consumer,producer,consumer2,producer2], f.id ≠ 0 ∧ f.id ≤ 259
    decide

end Demo
end ReflexiveNfd
