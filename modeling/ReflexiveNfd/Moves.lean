import ReflexiveNfd.Expiry
import ReflexiveNfd.Scope

namespace ReflexiveNfd
open Actions Timers List State Pit

abbrev Key := Name × Bool × Bool

def Interest.key (i : Interest) : Key := (i.name,i.canBePrefix,i.mustBeFresh)
def Entry.key (e : Entry) : Key := (e.name,e.canBePrefix,e.mustBeFresh)

theorem Entry.canMatch_key {e : Entry} : e.canMatch i 0 ↔ i.key = e.key := by
  simp only [Entry.canMatch,drop_zero,Bool.and_eq_true,decide_eq_true_eq,beq_iff_eq,Interest.key,Entry.key,Prod.mk.injEq,and_assoc]
  constructor
  · rintro ⟨name,canBePrefix,mustBeFresh⟩
    exact ⟨name.symm,canBePrefix.symm,mustBeFresh.symm⟩
  · rintro ⟨name,canBePrefix,mustBeFresh⟩
    exact ⟨name.symm,canBePrefix.symm,mustBeFresh.symm⟩

def State.kindOf (s : State) (name : Name) : StrategyKind := (s.findEffectiveStrategy name).kind

-- The changes pipeline runs are made of. Tables that hold nothing of an entry
-- are changed aside.
inductive Move where
  | aside (t : State)
  | copy (i : Interest)
  | rewrite (object : ObjId) (f : Interest → Interest)
  | insert (object : ObjId)
  | insertInRecord (id : EntryId) (face : Face) (object : ObjId)
  | transmit (object : ObjId) (egress : Face) (id : EntryId)
  | deleteInRecord (id : EntryId) (face : Face)
  | clearInRecords (id : EntryId)
  | setIncomingNack (id : EntryId) (face : Face) (reason : NackReason)
  | satisfy (id : EntryId) (data : Data)
  | retire (id : EntryId) (face : Face)
  | finalize (id : EntryId)
  | setExpiryTimer (id : EntryId) (duration : Int)
  | setRtoTimer (id : EntryId) (delay : Int) (inFace firstOutFace : FaceId)
  | cancelTimer (handle : Option TimerId)
  | jot (id : EntryId) (f : Entry → Entry)
  | hold (held : Announcing)
  | addFace (scope : FaceScope) (linkType : LinkType)
  | removeFace (face : Face)
  | setStrategy (name : Name) (strategy : Strategy)
  | unsetStrategy (name : Name)
  | upkeep (d : DeadNonceList)

def enact (env : Env) (s : State) : Move → State
  | .aside t => t
  | .copy i => s.allocate i
  | .rewrite object f => s.modifyInterest object f
  | .insert object =>
    { s with pit := s.pit ++ [newEntry s.nextEntry object (s.interest object)], nextEntry := s.nextEntry + 1 }
  | .insertInRecord id face object => s.insertOrUpdateInRecord id face object
  | .transmit object egress id => (transmit s object egress id).1
  | .deleteInRecord id face => s.deleteInRecord id face
  | .clearInRecords id => s.modifyEntry id Entry.clearInRecords
  | .setIncomingNack id face reason => s.modifyEntry id (·.updateOutRecord face (fun r => { r with incomingNack := some reason }))
  | .satisfy id data => markSatisfied s id data
  | .retire id face => (insertDeadNonceList env s id (some face)).modifyEntry id (·.deleteOutRecord face)
  | .finalize id => onInterestFinalize env s id
  | .setExpiryTimer id duration => s.setExpiryTimer id duration
  | .setRtoTimer id delay inFace firstOutFace => s.setRtoTimer id delay inFace firstOutFace
  | .cancelTimer handle => s.cancelTimer handle
  | .jot id f => s.modifyEntry id f
  | .hold held => { s with announcing := s.announcing ++ [held] }
  | .addFace scope linkType =>
    { s with faces := s.faces ++ [⟨s.lastFaceId + 1,scope,linkType⟩], lastFaceId := s.lastFaceId + 1 }
  | .removeFace face => cleanupOnFaceRemoval s face
  | .setStrategy name strategy => setStrategy s name strategy
  | .unsetStrategy name => unsetStrategy s name
  | .upkeep d => { s with deadNonceList := d }

def Event.brings : Event → Option Data
  | .data packet _ _ => some packet
  | _ => none

-- The freshness is that of a Data in the store or of the one that arrives.
def Sourced (event : Event) (store : List CsEntry) (data : Data) : Prop :=
  (∃ c ∈ store, c.data.freshnessPeriod = data.freshnessPeriod) ∨ ∃ d ∈ event.brings, d.freshnessPeriod = data.freshnessPeriod

structure Aside (event : Event) (s t : State) : Prop where
  pit : t.pit = s.pit
  interests : t.interests = s.interests
  nextEntry : t.nextEntry = s.nextEntry
  scheduler : t.scheduler = s.scheduler
  strategyChoice : t.strategyChoice = s.strategyChoice
  faces : t.faces = s.faces
  lastFaceId : t.lastFaceId = s.lastFaceId
  deadNonceList : t.deadNonceList = s.deadNonceList
  announcing : ∀ a ∈ t.announcing, a ∈ s.announcing
  sent : ∃ answers, t.sent = s.sent ++ answers ∧ ∀ w ∈ answers, ∀ f p, w ≠ .interest f p
  stored : ∀ c ∈ t.cs.table, Sourced event s.cs.table c.data

section
variable (env : Env) (s : State) (i : Interest) (event : Event) (id : EntryId)

def Meets (object : ObjId) (id : EntryId) : Prop :=
  object < s.interests.length ∧ ∃ e ∈ s.pit, e.id = id ∧ (s.interest object).key = e.key

def Onward (e : Entry) (face : Face) : Prop :=
  match i.nextHopFaceId with
  | some nextHop => s.getFace nextHop = some face
  | none => (∃ n ∈ (lookupFib s e.id).nextHops, n.face = face) ∨
      (s.kindOf e.name = .selfLearning ∧ (lookupFib s e.id).nextHops = [] ∧ face ∈ s.faces)

def Withheld : Prop :=
  match s.kindOf (s.entry id).name with
  | .bestRoute => (decidePerPitEntry env (s.findEffectiveStrategy (s.entry id).name) s id).1 = .suppress
  | .access => decideFixed s id = .suppress
  | _ => False

def Heads (ingress : Face) (e : Entry) (face : Face) : Prop :=
  if fromProducer env i then ∃ original prev, Selected env s i original prev ∧ Target s (s.kindOf i.name) original face
  else Onward s i e face ∧ isLoop e i.nonce ingress = false ∧ (i.nextHopFaceId = none → ¬ Withheld env s e.id)

def Sends (face : Face) : Prop :=
  match event with
  | .interest packet ingress _ => ∃ i, screen env s packet ingress = .accepted i ∧ id = (admitted s i).2 ∧
      ∀ e, s.pit.find i = some e → Heads env s i ingress e face
  | .timer timerId => ∃ timer inFace firstOutFace, s.scheduler.pending.find? (fun t => t.id = timerId) = some timer ∧
      timer.task = .rtoTimeout id inFace firstOutFace ∧ ∃ n ∈ (lookupFib s id).nextHops, n.face = face
  | .addNextHop name added cost => face = (s.fib.newNextHop name added cost).face ∧ ∃ e ∈ s.pit, e.id = id ∧ name.isPrefixOf e.nte
  | _ => False

def Misdirected : Prop :=
  match event with
  | .interest packet ingress _ => ∃ i original prev, screen env s packet ingress = .accepted i ∧ IsProducer env i.name ∧
      Selected env s i original prev ∧ s.kindOf i.name ≠ .bestRoute
  | _ => False

def Disarmed : Prop := ∀ t ∈ s.scheduler.pending, (s.entry id).rtoTimer ≠ some t.id

end

inductive Drops (env : Env) (s : State) (event : Event) (u : State) (id : EntryId) (face : Face) : Prop where
  | absent : (∀ r ∈ (u.entry id).inRecords, r.face ≠ face) → Drops env s event u id face
  | governed : u.kindOf (u.entry id).name ≠ .access → Drops env s event u id face
  | disarmed : Disarmed u id → Drops env s event u id face
  | misdirected : Misdirected env s event → Drops env s event u id face
  | announced : a ∈ s.announcing → a.entry = id → Drops env s event u id face

inductive Rearms (env : Env) (s : State) (event : Event) (u : State) (id : EntryId) (inFace : FaceId) : Prop where
  | expected : u.kindOf (u.entry id).name = .access → (∃ r ∈ (u.entry id).inRecords, r.face.id = inFace) →
      Rearms env s event u id inFace
  | misdirected : Misdirected env s event → Rearms env s event u id inFace

def NotedNack (event : Event) (u : State) (id : EntryId) (face : Face) (reason : NackReason) : Prop :=
  ∃ nack, event = .nack nack face ∧ nack.reason = reason ∧ face.linkType = .pointToPoint ∧
    ∃ e r, u.pit.find nack.interest = some e ∧ e.id = id ∧ e.getOutRecord face = some r ∧ r.lastNonce = nack.interest.nonce

inductive Permitted (env : Env) (s : State) (event : Event) : State → Move → Prop where
  | aside : Aside event u t → Permitted env s event u (.aside t)
  | copy : Permitted env s event u (.copy i)
  | rewrite : (∀ i, Rewritten i (f i)) → Permitted env s event u (.rewrite object f)
  | insert : object < u.interests.length → u.pit.find (u.interest object) = none → Permitted env s event u (.insert object)
  | insertInRecord : Meets u object own → face ∈ u.faces → Permitted env s event u (.insertInRecord own face object)
  | transmit : Meets u object own → Sends env s event own egress → Permitted env s event u (.transmit object egress own)
  | deleteInRecord : Drops env s event u own face → Permitted env s event u (.deleteInRecord own face)
  | clearInRecords : u.kindOf (u.entry own).name ≠ .access ∨ Disarmed u own → Permitted env s event u (.clearInRecords own)
  | setIncomingNack : NotedNack event u own face reason → Permitted env s event u (.setIncomingNack own face reason)
  | satisfy : Sourced event u.cs.table data → Permitted env s event u (.satisfy own data)
  | retire : event = .data packet face choices → (u.entry own).isSatisfied →
      (u.entry own).dataFreshnessPeriod = packet.freshnessPeriod → Permitted env s event u (.retire own face)
  | finalize : Alive u own → event = .timer timerId → u.pit = s.pit → u.deadNonceList = s.deadNonceList →
      Permitted env s event u (.finalize own)
  | setExpiryTimer : Alive u own → Permitted env s event u (.setExpiryTimer own duration)
  | setRtoTimer : Alive u own → Rearms env s event u own inFace → Permitted env s event u (.setRtoTimer own delay inFace firstOutFace)
  | cancelTimer : Permitted env s event u (.cancelTimer timerId)
  | jot : Jot f → Permitted env s event u (.jot own f)
  | hold : Alive u held.entry → u.kindOf (u.entry held.entry).name = .selfLearning → Permitted env s event u (.hold held)
  | addFace : Permitted env s event u (.addFace scope linkType)
  | removeFace : event = .removeFace face → Permitted env s event u (.removeFace face)
  | setStrategy : event = .setStrategy name strategy → u.announcing = s.announcing → u.pit = s.pit →
      u.strategyChoice = s.strategyChoice → Permitted env s event u (.setStrategy name strategy)
  | unsetStrategy : event = .unsetStrategy name → name ≠ [] → u.announcing = s.announcing → u.pit = s.pit →
      u.strategyChoice = s.strategyChoice → Permitted env s event u (.unsetStrategy name)
  | upkeep : event = .addMark ∨ event = .adjustCapacity → Permitted env s event u (.upkeep d)

def Moves (env : Env) (s : State) (event : Event) : State → State → Prop :=
  Performs (enact env) (Permitted env s event)

variable {env : Env} {strategy : Strategy} {s t u v : State} {e e' original : Entry} {id : EntryId} {face : Face}
  {choices : Choices} {packet i j : Interest} {name : Name} {pit : Pit} {p : Powers}

namespace Moves

theorem done : Moves env s event u u := Performs.done

theorem one (permitted : Permitted env s event u move) : Moves env s event u (enact env u move) := Performs.one permitted

theorem trans (first : Moves env s event t u) (second : Moves env s event u v) : Moves env s event t v :=
  Performs.trans first second

theorem aside (changed : Aside event u t) : Moves env s event u t := one (.aside changed)

theorem rewrite (same : ∀ i, Rewritten i (f i)) : Moves env s event u (u.modifyInterest object f) := one (.rewrite same)

theorem setTag : Moves env s event u (u.setTag object pitToken) := rewrite (fun _ => rfl)

theorem loop (xs : List β)
    (each : ∀ u x, x ∈ xs → Moves env s event t u → Moves env s event u (body u x))
    (before : Moves env s event t u) : Moves env s event t (xs.foldl body u) :=
  Performs.loop xs each before

end Moves

theorem Aside.of_tables
    (same : (t.pit,t.interests,t.nextEntry,t.scheduler,t.strategyChoice,t.faces,t.lastFaceId,t.deadNonceList,t.announcing,t.sent,t.cs) =
      (s.pit,s.interests,s.nextEntry,s.scheduler,s.strategyChoice,s.faces,s.lastFaceId,s.deadNonceList,s.announcing,s.sent,s.cs)) :
    Aside event s t := by
  simp only [Prod.mk.injEq] at same
  obtain ⟨pit,interests,nextEntry,scheduler,strategyChoice,faces,lastFaceId,deadNonceList,announcing,sent,cs⟩ := same
  exact ⟨pit,interests,nextEntry,scheduler,strategyChoice,faces,lastFaceId,deadNonceList,fun _ listed => announcing ▸ listed,
    ⟨[],by simp [sent],by simp⟩,fun c listed => .inl ⟨c,cs ▸ listed,rfl⟩⟩

theorem Aside.emit (answer : ∀ f p, w ≠ .interest f p) : Aside event s (s.emit w) := by
  refine ⟨rfl,rfl,rfl,rfl,rfl,rfl,rfl,rfl,fun _ listed => listed,⟨[w],rfl,fun x listed => ?_⟩,fun c listed => .inl ⟨c,listed,rfl⟩⟩
  cases mem_singleton.mp listed
  exact answer

theorem Aside.cache (stored : ∀ c ∈ store.table, Sourced event s.cs.table c.data) : Aside event s { s with cs := store } :=
  ⟨rfl,rfl,rfl,rfl,rfl,rfl,rfl,rfl,fun _ listed => listed,⟨[],by simp,by simp⟩,stored⟩

theorem Aside.lookedUp (same : store.table = s.cs.table) : Aside event s { s with cs := store } :=
  .cache (fun c listed => .inl ⟨c,same ▸ listed,rfl⟩)

theorem Rewritten.key (same : Rewritten i j) : j.key = i.key := by rw [show j = _ from same]; rfl

theorem Trimmed.key (trimmed : Trimmed e e') : e'.key = e.key := by
  simp [Entry.key,trimmed.name,trimmed.canBePrefix,trimmed.mustBeFresh]

theorem Pit.find_key (same : i.key = j.key) : Pit.find pit i = Pit.find pit j := by
  obtain ⟨name,canBePrefix,mustBeFresh⟩ : i.name = j.name ∧ i.canBePrefix = j.canBePrefix ∧ i.mustBeFresh = j.mustBeFresh := by
    simpa [Interest.key] using same
  simp [Pit.find,Entry.canMatch,name,canBePrefix,mustBeFresh]

theorem Pit.find_none (missing : Pit.find pit i = none) (present : e ∈ pit) : e.key ≠ i.key := by
  intro same
  obtain ⟨name,canBePrefix,mustBeFresh⟩ : e.name = i.name ∧ e.canBePrefix = i.canBePrefix ∧ e.mustBeFresh = i.mustBeFresh := by
    simpa [Entry.key,Interest.key] using same
  have listed : e ∈ pitEntries pit (i.name.take (nteDepth i.name)) :=
    mem_filter.mpr ⟨present,by simp [Entry.nte,name]⟩
  have refused := List.find?_eq_none.mp missing e listed
  simp [Entry.canMatch,name,canBePrefix,mustBeFresh] at refused

theorem Pit.find_found (found : Pit.find pit i = some e) : e ∈ pit ∧ e.key = i.key := by
  obtain ⟨present,name,canBePrefix,mustBeFresh⟩ := find_spec found
  exact ⟨present,by simp [Entry.key,Interest.key,name,canBePrefix,mustBeFresh]⟩

def Persists (s t : State) : Prop :=
  ∃ f, t.pit = s.pit.map f ∧ ∀ e : Entry, (f e).id = e.id ∧ (f e).key = e.key ∧ (f e).forwardingHint = e.forwardingHint

namespace Persists

theorem quiet (quiet : Quiet s t) : Persists s t := by
  obtain ⟨f,mapped,trimmed⟩ := quiet.entries
  exact ⟨f,mapped,fun e => ⟨(trimmed e).id,(trimmed e).key,(trimmed e).forwardingHint⟩⟩

theorem trans (one : Persists s t) (two : Persists t u) : Persists s u := by
  obtain ⟨f,mapped,kept⟩ := one
  obtain ⟨g,remapped,again⟩ := two
  refine ⟨g ∘ f,by rw [remapped,mapped,map_map],fun e => ?_⟩
  exact ⟨(again _).1.trans (kept e).1,(again _).2.1.trans (kept e).2.1,(again _).2.2.trans (kept e).2.2⟩

theorem modifyEntry (kept : ∀ e : Entry, (f e).id = e.id ∧ (f e).key = e.key ∧ (f e).forwardingHint = e.forwardingHint) :
    Persists s (s.modifyEntry id f) := by
  refine ⟨fun e => if e.id = id then f e else e,rfl,fun e => ?_⟩
  dsimp only
  split
  · exact kept e
  · exact ⟨rfl,rfl,rfl⟩

theorem recordDownstream : Persists s (recordDownstream s object ingress id) :=
  recordDownstream_rule trans (fun _ => ⟨fun e => e,by simp,fun _ => ⟨rfl,rfl,rfl⟩⟩) (fun _ => modifyEntry (fun _ => ⟨rfl,rfl,rfl⟩))
    (fun _ _ => quiet Frame.setExpiryTimer.toQuiet)

theorem entry (persists : Persists s t) :
    (t.entry id).name = (s.entry id).name ∧ (t.entry id).forwardingHint = (s.entry id).forwardingHint := by
  obtain ⟨f,mapped,kept⟩ := persists
  unfold State.entry
  rw [mapped,get_map (fun e => (kept e).1)]
  cases s.pit.get id with
  | none => exact ⟨rfl,rfl⟩
  | some e => exact ⟨congrArg Prod.fst (kept e).2.1,(kept e).2.2⟩

theorem find (persists : Persists s t) (same : j.key = i.key) (found : ∃ e, s.pit.find i = some e ∧ e.id = own) :
    ∃ e, t.pit.find j = some e ∧ e.id = own := by
  obtain ⟨e,found,named⟩ := found
  obtain ⟨f,mapped,kept⟩ := persists
  have keys : ∀ e, (f e).name = e.name ∧ (f e).canBePrefix = e.canBePrefix ∧ (f e).mustBeFresh = e.mustBeFresh := by
    intro e
    simpa [Entry.key] using (kept e).2.1
  refine ⟨f e,?_,(kept e).1.trans named⟩
  rw [find_key same,mapped,find_map (fun e => (keys e).1) (fun e => (keys e).2),found,Option.map_some]

theorem lookupFib (persists : Persists s t) (fib : t.fib = s.fib) : lookupFib t id = lookupFib s id := by
  obtain ⟨name,hint⟩ : (t.entry id).name = (s.entry id).name ∧ _ := persists.entry
  simp [ReflexiveNfd.lookupFib,name,hint,fib]

end Persists

def Steady (s t : State) : Prop :=
  t.now = s.now ∧ ∃ f, t.pit = s.pit.map f ∧ ∀ e : Entry, (f e).id = e.id ∧ (f e).name = e.name ∧ (f e).outRecords = e.outRecords ∧
    (f e).suppressionInterval = e.suppressionInterval

theorem decidePerPitEntry_result : (decidePerPitEntry env strategy s id).1 =
    if !hasPendingOutRecords s.now (s.entry id) then .new
    else if s.now - getLastOutgoing (s.entry id) < nanoseconds ((s.entry id).suppressionInterval.getD strategy.initialInterval)
      then .suppress else .forward := by
  unfold decidePerPitEntry
  dsimp only
  split
  · rfl
  · split <;> rfl

namespace Steady

theorem same (same : (t.now,t.pit) = (s.now,s.pit)) : Steady s t := by
  obtain ⟨now,pit⟩ := Prod.mk.inj same
  exact ⟨now,fun e => e,by simp [pit],fun _ => ⟨rfl,rfl,rfl,rfl⟩⟩

theorem trans (one : Steady s t) (two : Steady t u) : Steady s u := by
  obtain ⟨now,f,mapped,kept⟩ := one
  obtain ⟨later,g,remapped,again⟩ := two
  refine ⟨later.trans now,g ∘ f,by rw [remapped,mapped,map_map],fun e => ?_⟩
  obtain ⟨id,name,outRecords,interval⟩ := kept e
  obtain ⟨id',name',outRecords',interval'⟩ := again (f e)
  exact ⟨id'.trans id,name'.trans name,outRecords'.trans outRecords,interval'.trans interval⟩

theorem modifyEntry (kept : ∀ e : Entry, (f e).id = e.id ∧ (f e).name = e.name ∧ (f e).outRecords = e.outRecords ∧
    (f e).suppressionInterval = e.suppressionInterval) : Steady s (s.modifyEntry id f) := by
  refine ⟨rfl,fun e => if e.id = id then f e else e,rfl,fun e => ?_⟩
  dsimp only
  split
  · exact kept e
  · exact ⟨rfl,rfl,rfl,rfl⟩

theorem setExpiryTimer : Steady s (s.setExpiryTimer id duration) := by
  have armed : Steady s (s.modifyEntry id (fun e => { e with expiryTimer := some s.scheduler.nextId })) :=
    modifyEntry (fun _ => ⟨rfl,rfl,rfl,rfl⟩)
  exact armed.trans (same rfl)

theorem recordDownstream : Steady s (recordDownstream s object ingress id) :=
  recordDownstream_rule trans (fun _ => same rfl) (fun _ => modifyEntry (fun _ => ⟨rfl,rfl,rfl,rfl⟩)) (fun _ _ => setExpiryTimer)

theorem entry (steady : Steady s t) : (t.entry id).name = (s.entry id).name ∧ (t.entry id).outRecords = (s.entry id).outRecords ∧
    (t.entry id).suppressionInterval = (s.entry id).suppressionInterval := by
  obtain ⟨_,f,mapped,kept⟩ := steady
  unfold State.entry
  rw [mapped,get_map (fun e => (kept e).1)]
  cases s.pit.get id with
  | none => exact ⟨rfl,rfl,rfl⟩
  | some e => exact (kept e).2

theorem withheld (steady : Steady s t) (chosen : t.strategyChoice = s.strategyChoice) : Withheld env t id ↔ Withheld env s id := by
  obtain ⟨name,outRecords,interval⟩ := steady.entry
  have effective : t.findEffectiveStrategy (t.entry id).name = s.findEffectiveStrategy (s.entry id).name := by
    rw [State.findEffectiveStrategy,State.findEffectiveStrategy,chosen,name]
  have pending : hasPendingOutRecords t.now (t.entry id) = hasPendingOutRecords s.now (s.entry id) := by
    rw [hasPendingOutRecords,hasPendingOutRecords,outRecords,steady.1]
  have last : getLastOutgoing (t.entry id) = getLastOutgoing (s.entry id) := by rw [getLastOutgoing,getLastOutgoing,outRecords]
  have perEntry : ∀ strategy, (decidePerPitEntry env strategy t id).1 = (decidePerPitEntry env strategy s id).1 := by
    intro strategy
    rw [decidePerPitEntry_result,decidePerPitEntry_result,pending,last,interval,steady.1]
  unfold Withheld
  rw [State.kindOf,State.kindOf,effective,perEntry,decideFixed,decideFixed,pending,last,steady.1]

end Steady

theorem Sends.uncleared (sends : Sends env { s with sent := [] } event id face) : Sends env s event id face := by
  cases event with
  | interest packet ingress choices =>
    obtain ⟨i,accepted,named,heads⟩ := sends
    refine ⟨i,accepted,by rw [named,admitted_id,admitted_id],fun e found => ?_⟩
    have headed := heads e found
    unfold Heads at headed ⊢
    split at headed
    · rename_i producer
      obtain ⟨original,prev,selected,target⟩ := headed
      rw [if_pos producer]
      exact ⟨original,prev,selected.same rfl,target⟩
    · rename_i ordinary
      rw [if_neg ordinary]
      have steady : Steady { s with sent := [] } s := .same rfl
      exact ⟨headed.1,headed.2.1,fun direct withheld => headed.2.2 direct ((steady.withheld rfl).mp withheld)⟩
  | _ => exact sends

-- The entry whose out-record is written when an object is sent for an entry: its
-- own, which only for a producer Interest need not be the one it is sent for.
structure Bearer (env : Env) (s : State) (object : ObjId) (id own : EntryId) : Prop where
  bound : object < s.interests.length
  found : ∃ e, s.pit.find (s.interest object) = some e ∧ e.id = own
  direct : fromProducer env (s.interest object) = false → own = id

namespace Bearer

section
variable (bearer : Bearer env s object id own)
include bearer

theorem meets : Meets s object own := by
  obtain ⟨e,found,named⟩ := bearer.found
  obtain ⟨present,same⟩ := find_found found
  exact ⟨bearer.bound,e,present,named,same.symm⟩

theorem quiet (quiet : Quiet s t) : Bearer env t object id own := by
  have same := quiet.heap object bearer.bound
  refine ⟨Nat.lt_of_lt_of_le bearer.bound quiet.grown,(Persists.quiet quiet).find same.key bearer.found,fun ordinary => ?_⟩
  rw [fromProducer_name same.name] at ordinary
  exact bearer.direct ordinary

theorem copied (same : i.key = (s.interest object).key) :
    Bearer env (s.allocate i) s.interests.length id own := by
  have made : (s.allocate i).interest s.interests.length = i := interest_allocated
  refine ⟨by simp,?_,fun ordinary => bearer.direct ?_⟩
  · rw [made,find_key same]
    exact bearer.found
  · rw [made] at ordinary
    rw [← fromProducer_name (congrArg Prod.fst same)]
    exact ordinary

end

end Bearer

theorem onOutgoingInterest_moves (bearer : Bearer env u object id own) (sends : Sends env s event own egress) :
    Moves env s event u (onOutgoingInterest env u object egress id).1 := by
  have tagged : ∀ pitToken, Bearer env (u.setTag object pitToken) object id own := fun _ => bearer.quiet Frame.setTag.toQuiet
  unfold onOutgoingInterest
  dsimp only
  split
  · exact .done
  · split
    · split
      · exact .setTag
      · rename_i own' found
        obtain ⟨e,first,named⟩ := bearer.found
        cases first.symm.trans found
        subst named
        exact Moves.setTag.trans (.one (.transmit (tagged _).meets sends))
    · rename_i ordinary
      cases bearer.direct (by simpa using ordinary)
      split
      · exact Moves.setTag.trans (.one (.transmit (tagged _).meets sends))
      · exact .one (.transmit bearer.meets sends)

theorem sendInterest_moves (bearer : Bearer env u object id own) (sends : Sends env s event own egress) :
    Moves env s event u (sendInterest env u object egress id).1 := by
  unfold sendInterest
  split
  · exact Moves.trans (.one .copy) (onOutgoingInterest_moves (bearer.copied rfl) sends)
  · exact onOutgoingInterest_moves bearer sends

theorem onOutgoingData_moves : Moves env s event u (onOutgoingData u data egress) := by
  unfold onOutgoingData
  split
  · exact .done
  · split
    · exact .done
    · exact .aside (.emit (by simp))

theorem sendData_moves (drops : Drops env s event u id egress) : Moves env s event u (sendData u data egress id) := by
  unfold sendData
  split
  · exact Moves.trans (.one (.deleteInRecord drops)) onOutgoingData_moves
  · exact Moves.trans (.one (.deleteInRecord drops)) onOutgoingData_moves

theorem onOutgoingNack_moves (drops : Drops env s event u id egress) :
    Moves env s event u (onOutgoingNack u reason egress id) := by
  unfold onOutgoingNack
  split
  · exact .done
  · split
    · exact .done
    · split
      · exact .done
      · exact Moves.trans (.one (.deleteInRecord drops)) (.aside (.emit (by simp)))

structure Warranted (env : Env) (s : State) (event : Event) (v : State) (id : EntryId) (p : Powers) : Prop where
  alive : Alive v id
  sends : ∀ o f, p.sends o f → ∃ own, Bearer env v o id own ∧ Sends env s event own f
  returns : ∀ u d f, Conducts env id p v u → p.returns d f → Drops env s event u id f
  nacks : ∀ u f, Conducts env id p v u → p.nacks f → Drops env s event u id f
  arms : ∀ u f, Conducts env id p v u → p.arms f → Rearms env s event u id f
  holds : ∀ a, ¬ p.holds a

theorem Conducts.moves (conducts : Conducts env id p v t) (warranted : Warranted env s event v id p) : Moves env s event v t := by
  refine Performs.refine (fun u act before entitled => ?_) conducts
  change Moves env s event u (perform env u act)
  have frame : Frame v u := Conducts.frame before
  have alive : Alive u id := warranted.alive.quiet frame.toQuiet
  cases entitled with
  | sendInterest chosen =>
    obtain ⟨own,bearer,sends⟩ := warranted.sends _ _ chosen
    exact sendInterest_moves (bearer.quiet frame.toQuiet) sends
  | sendProbe chosen =>
    obtain ⟨own,bearer,sends⟩ := warranted.sends _ _ chosen
    exact Moves.trans (.one .copy) (sendInterest_moves ((bearer.quiet frame.toQuiet).copied rfl) sends)
  | sendData chosen => exact sendData_moves (warranted.returns u _ _ before chosen)
  | sendNack chosen => exact onOutgoingNack_moves (warranted.nacks u _ before chosen)
  | setExpiryTimer => exact Moves.one (Permitted.setExpiryTimer alive)
  | setRtoTimer chosen => exact Moves.one (Permitted.setRtoTimer alive (warranted.arms u _ before chosen))
  | cancelRtoTimer => exact Moves.one Permitted.cancelTimer
  | note jot => exact Moves.one (Permitted.jot jot)
  | setNonDiscovery => exact .rewrite (fun _ => rfl)
  | hold chosen => exact (warranted.holds _ chosen).elim

theorem Frame.kindOf (frame : Frame s t) : t.kindOf (t.entry id).name = s.kindOf (s.entry id).name := by
  rw [State.kindOf,State.kindOf,State.findEffectiveStrategy,State.findEffectiveStrategy,frame.strategyChoice,frame.entry.name]

def Faithful (s t : State) : Prop :=
  ∃ f, t.pit = s.pit.map f ∧ ∀ e : Entry, (f e).id = e.id ∧ (f e).inRecords.map InRecord.facts = e.inRecords.map InRecord.facts

namespace Faithful

theorem same (pit : t.pit = s.pit) : Faithful s t := ⟨fun e => e,by simp [pit],fun _ => ⟨rfl,rfl⟩⟩

theorem trans (one : Faithful s t) (two : Faithful t u) : Faithful s u := by
  obtain ⟨f,mapped,kept⟩ := one
  obtain ⟨g,remapped,again⟩ := two
  refine ⟨g ∘ f,by rw [remapped,mapped,map_map],fun e => ?_⟩
  exact ⟨(again _).1.trans (kept e).1,(again _).2.trans (kept e).2⟩

theorem modifyEntry (kept : ∀ e, (f e).id = e.id ∧ (f e).inRecords.map InRecord.facts = e.inRecords.map InRecord.facts) :
    Faithful s (s.modifyEntry id f) := by
  refine ⟨fun e => if e.id = id then f e else e,rfl,fun e => ?_⟩
  dsimp only
  split
  · exact kept e
  · exact ⟨rfl,rfl⟩

theorem entry (faithful : Faithful s t) : (t.entry id).inRecords.map InRecord.facts = (s.entry id).inRecords.map InRecord.facts := by
  obtain ⟨f,mapped,kept⟩ := faithful
  unfold State.entry
  rw [mapped,get_map (fun e => (kept e).1)]
  cases s.pit.get id with
  | none => rfl
  | some e => exact (kept e).2

theorem downstream (faithful : Faithful s t) (held : ∃ r ∈ (s.entry id).inRecords, r.face = face) :
    ∃ r ∈ (t.entry id).inRecords, r.face = face := by
  obtain ⟨r,listed,named⟩ := held
  have kept : r.facts ∈ (t.entry id).inRecords.map InRecord.facts := by
    rw [faithful.entry]
    exact mem_map_of_mem listed
  obtain ⟨r',there,same⟩ := mem_map.mp kept
  exact ⟨r',there,(congrArg Prod.fst same).trans named⟩

theorem outgoing : Outgoing Faithful := ⟨fun _ => same rfl,trans,same rfl,same rfl,modifyEntry (fun _ => ⟨rfl,rfl⟩),same rfl⟩

end Faithful

theorem Conducts.faithful (conducts : Conducts env id p s t) (kept : ∀ d f, ¬ p.returns d f) (silent : ∀ f, ¬ p.nacks f) :
    Faithful s t := by
  refine Performs.related (fun _ => .same rfl) (fun _ _ _ => .trans) (fun u act entitled => ?_) conducts
  cases entitled with
  | sendInterest => exact Faithful.outgoing.sendInterest
  | sendProbe => exact Faithful.outgoing.allocate.trans Faithful.outgoing.sendInterest
  | sendData chosen => exact (kept _ _ chosen).elim
  | sendNack chosen => exact (silent _ chosen).elim
  | note jot => exact .modifyEntry (fun e => ⟨(jot.trimmed e).id,jot.inRecords e⟩)
  | setExpiryTimer => exact Faithful.modifyEntry (s := u) (fun _ => ⟨rfl,rfl⟩)
  | setRtoTimer => exact Faithful.modifyEntry (s := u) (fun _ => ⟨rfl,rfl⟩)
  | cancelRtoTimer | setNonDiscovery | hold => exact .same rfl

theorem Meets.quiet (meets : Meets s object id) (quiet : Quiet s t) : Meets t object id := by
  obtain ⟨bound,e,present,named,same⟩ := meets
  obtain ⟨e',there,trimmed⟩ := quiet.survives present
  exact ⟨Nat.lt_of_lt_of_le bound quiet.grown,e',there,trimmed.id.trans named,
    (quiet.heap object bound).key.trans (same.trans trimmed.key.symm)⟩

theorem Meets.alive (meets : Meets s object id) : Alive s id := by
  obtain ⟨_,e,present,rfl,_⟩ := meets
  exact alive_of_mem present

theorem recordDownstream_moves (meets : Meets u object id) (here : ingress ∈ u.faces) :
    Moves env s event u (recordDownstream u object ingress id) := by
  have attached : Moves env s event u (attachHopLimit u object) := by
    unfold attachHopLimit
    split
    · exact .rewrite (fun _ => rfl)
    · exact .done
  have frame : Frame u (attachHopLimit u object) := attachHopLimit_frame
  have later := meets.quiet frame.toQuiet
  have recorded : Moves env s event (attachHopLimit u object) ((attachHopLimit u object).insertOrUpdateInRecord id ingress object) :=
    .one (.insertInRecord later (frame.faces ▸ here))
  exact (attached.trans recorded).trans (.one (.setExpiryTimer (recorded_alive later.alive)))

theorem insertInRecord_holds (alive : Alive s id) :
    ∃ r ∈ ((s.insertOrUpdateInRecord id ingress object).entry id).inRecords, r.face = ingress ∧ r.interest = object := by
  obtain ⟨e,found⟩ := alive
  have recorded : (s.insertOrUpdateInRecord id ingress object).pit.get id =
      some (e.insertOrUpdateInRecord ingress s.now object (s.interest object)) := get_modifyEntry (fun _ => rfl) found
  obtain ⟨old,facing,listed⟩ : ∃ old : InRecord, old.face = ingress ∧ old.update s.now object (s.interest object) ∈
      (e.insertOrUpdateInRecord ingress s.now object (s.interest object)).inRecords := Keyed.upsert_has rfl
  rw [entry_of_get recorded]
  exact ⟨_,listed,facing,rfl⟩

theorem recordDownstream_holds (alive : Alive s id) :
    ∃ r ∈ ((recordDownstream s object ingress id).entry id).inRecords, r.face = ingress ∧ r.interest = object := by
  have armed : Faithful ((attachHopLimit s object).insertOrUpdateInRecord id ingress object)
      (recordDownstream s object ingress id) := Faithful.modifyEntry (fun _ => ⟨rfl,rfl⟩)
  have attached : Alive (attachHopLimit s object) id := alive.quiet attachHopLimit_frame.toQuiet
  obtain ⟨old,listed,facing,named⟩ := insertInRecord_holds attached
  obtain ⟨r,there,same⟩ := mem_map.mp (armed.entry ▸ mem_map_of_mem listed)
  simp only [InRecord.facts,Prod.mk.injEq] at same
  exact ⟨r,there,same.1.trans facing,same.2.2.2.2.trans named⟩

theorem admitted_moves : Moves env s event s (admitted s i).1 := by
  rcases admitted_cases s i with ⟨e,_,equal⟩ | ⟨missing,equal⟩
  · rw [equal]
    exact .one .copy
  · have made : (s.allocate i).interest s.interests.length = i := interest_allocated
    have copied : Moves env s event s (s.allocate i) := .one .copy
    have inserting : Moves env s event (s.allocate i) (enact env (s.allocate i) (.insert s.interests.length)) := by
      refine .one (.insert (by simp) ?_)
      rw [made]
      exact missing
    simp only [enact,made] at inserting
    rw [equal]
    exact copied.trans inserting

theorem insertPitToken_moves (ensured : insertPitToken env u i words = some t) : Moves env s event u t := by
  rcases insertPitToken_cases ensured with ⟨_,rfl⟩ | ⟨_,_,rfl,_⟩
  · exact .done
  · exact .aside (.of_tables rfl)

theorem onInterestLoop_moves : Moves env s event u (onInterestLoop u i ingress) := by
  unfold onInterestLoop
  split
  · exact .done
  · exact .aside (.emit (by simp))

theorem trigger_moves (bearer : Bearer env v object id id) (kind : strategy.kind = v.kindOf (v.entry id).name)
    (held : ∃ r ∈ (v.entry id).inRecords, r.face = ingress)
    (sends : ∀ f, Egress env v strategy.kind object ingress id f → Sends env s event id f) :
    Moves env s event v (afterReceiveInterest env strategy v object ingress id choices) := by
  refine (afterReceiveInterest_conducts bearer.bound).moves ⟨bearer.meets.alive,?_,?_,?_,?_,?_⟩
  · rintro o f ⟨rfl,target⟩
    exact ⟨id,bearer,sends f target⟩
  · exact fun _ _ _ _ never => never.elim
  · rintro u f before ⟨_,other,_⟩
    refine .governed ?_
    rw [before.frame.kindOf,← kind]
    exact other
  · rintro u f before ⟨rfl,access⟩
    -- AccessStrategy has deleted nothing by now
    have faithful : Faithful v u := before.faithful (fun _ _ never => never) (fun _ refusal => refusal.2.1 access)
    obtain ⟨r,listed,named⟩ := faithful.downstream held
    refine .expected ?_ ⟨r,listed,congrArg Face.id named⟩
    rw [before.frame.kindOf,← kind]
    exact access
  · exact fun _ never => never

theorem withheld_conducts (withheld : Withheld env v id) (ordinary : fromProducer env (v.interest object) = false) :
    Conducts env id p v
      (afterReceiveInterest env (v.findEffectiveStrategy (v.entry id).name) v object ingress id choices) := by
  unfold Withheld State.kindOf at withheld
  unfold afterReceiveInterest
  split at withheld
  · rename_i kind
    have noted : Conducts env id p v (decidePerPitEntry env (v.findEffectiveStrategy (v.entry id).name) v id).2 :=
      decidePerPitEntry_conducts
    simp only [kind,BestRouteStrategy.afterReceiveInterest,ordinary,Bool.false_eq_true,if_false]
    generalize decidePerPitEntry env (v.findEffectiveStrategy (v.entry id).name) v id = decided at withheld noted
    obtain ⟨result,after⟩ := decided
    cases withheld
    exact noted
  · rename_i kind
    simp only [kind,AccessStrategy.afterReceiveInterest,withheld]
    exact .done
  · exact withheld.elim

structure Underway (s : State) (i : Interest) (v : State) : Prop where
  persists : Persists (admitted s i).1 v
  bound : s.interests.length < v.interests.length
  object : Rewritten i (v.interest s.interests.length)
  fib : v.fib = s.fib
  faces : v.faces = s.faces
  strategyChoice : v.strategyChoice = s.strategyChoice

theorem admitted_underway : Underway s i (admitted s i).1 := by
  refine ⟨.quiet (.refl _),admitted_bound,?_,admitted_same State.fib (fun _ _ _ => rfl),admitted_same State.faces (fun _ _ _ => rfl),
    admitted_strategyChoice⟩
  rw [admitted_interest]
  exact .refl i

namespace Underway

section
variable (underway : Underway s i v)
include underway

theorem frame (frame : Frame v t) : Underway s i t :=
  ⟨underway.persists.trans (.quiet frame.toQuiet),Nat.lt_of_lt_of_le underway.bound frame.grown,
    underway.object.trans (frame.heap _ underway.bound),frame.fib.trans underway.fib,frame.faces.trans underway.faces,
    frame.strategyChoice.trans underway.strategyChoice⟩

theorem enrolled (ensured : insertPitToken env v j words = some t) : Underway s i t := by
  rcases insertPitToken_cases ensured with ⟨_,rfl⟩ | ⟨_,_,rfl,_⟩
  · exact underway
  · exact { underway with }

theorem objectName : (v.interest s.interests.length).name = i.name := underway.object.name

theorem found :
    ∃ e, v.pit.find (v.interest s.interests.length) = some e ∧ e.id = (admitted s i).2 := by
  refine underway.persists.find underway.object.key ?_
  rcases admitted_cases s i with ⟨e,found,equal⟩ | ⟨missing,equal⟩
  · rw [equal]
    exact ⟨e,found,rfl⟩
  · obtain ⟨e,found⟩ := admitted_find
    refine ⟨e,found,?_⟩
    obtain ⟨present,same⟩ := find_found found
    rcases admitted_origin present with old | ⟨_,rfl⟩
    · exact absurd same (find_none missing old)
    · rw [equal]
      rfl

theorem bearer (direct : fromProducer env i = false → id = (admitted s i).2) :
    Bearer env v s.interests.length id (admitted s i).2 := by
  refine ⟨underway.bound,underway.found,fun ordinary => (direct ?_).symm⟩
  rwa [fromProducer_name underway.objectName] at ordinary

theorem meets : Meets v s.interests.length (admitted s i).2 := by
  obtain ⟨e,found,named⟩ := underway.found
  obtain ⟨present,same⟩ := find_found found
  exact ⟨underway.bound,e,present,named,same.symm⟩

theorem recorded :
    Underway s i (recordDownstream v s.interests.length ingress (admitted s i).2) := by
  have settled : (recordDownstream v s.interests.length ingress (admitted s i).2).settings = v.settings := recordDownstream_settings
  have attached : Frame v (attachHopLimit v s.interests.length) := attachHopLimit_frame
  refine ⟨underway.persists.trans .recordDownstream,Nat.lt_of_lt_of_le underway.bound recordDownstream_length,?_,
    (congrArg State.fib settled :).trans underway.fib,(congrArg State.faces settled :).trans underway.faces,
    (congrArg State.strategyChoice settled :).trans underway.strategyChoice⟩
  exact underway.object.trans (attached.heap _ underway.bound)

theorem held (ingress : Face) :
    ∃ r ∈ ((recordDownstream v s.interests.length ingress (admitted s i).2).entry (admitted s i).2).inRecords,
      r.face = ingress ∧ r.interest = s.interests.length := recordDownstream_holds underway.meets.alive

theorem kindOf : v.kindOf name = s.kindOf name := by
  rw [State.kindOf,State.kindOf,State.findEffectiveStrategy,State.findEffectiveStrategy,underway.strategyChoice]

theorem entryName : (v.entry (admitted s i).2).name = ((admitted s i).1.entry (admitted s i).2).name :=
  underway.persists.entry.1

theorem onward (found : s.pit.find i = some e) (direct : i.nextHopFaceId = none)
    (ordinary : fromProducer env (v.interest s.interests.length) = false) (same : (v.entry (admitted s i).2).name = e.name)
    (egress : Egress env v (v.kindOf (v.entry (admitted s i).2).name) s.interests.length ingress (admitted s i).2 face) :
    Onward s i e face := by
  have routes : ReflexiveNfd.lookupFib v (admitted s i).2 = ReflexiveNfd.lookupFib s e.id := by
    rcases admitted_cases s i with ⟨e',found',equal⟩ | ⟨missing,_⟩
    · cases found.symm.trans found'
      have persists : Persists s v := by
        have started := underway.persists
        rw [equal] at started
        exact started
      rw [equal]
      exact persists.lookupFib underway.fib
    · cases found.symm.trans missing
  have kind : v.kindOf (v.entry (admitted s i).2).name = s.kindOf e.name := by rw [underway.kindOf,same]
  rw [kind] at egress
  unfold Onward
  rw [direct]
  cases effective : s.kindOf e.name with
  | bestRoute =>
    simp only [effective,Egress,ordinary,Bool.false_eq_true,if_false] at egress
    obtain ⟨n,listed,same,_⟩ := egress
    exact .inl ⟨n,routes ▸ listed,same⟩
  | access =>
    rw [effective] at egress
    obtain ⟨⟨n,listed,same⟩,_⟩ := egress
    exact .inl ⟨n,routes ▸ listed,same⟩
  | selfLearning =>
    rw [effective] at egress
    rcases egress with ⟨n,listed,same,_⟩ | ⟨none,listed,_⟩
    · exact .inl ⟨n,routes ▸ listed,same⟩
    · exact .inr ⟨rfl,routes ▸ none,underway.faces ▸ listed⟩
  | multicast | random | asf =>
    rw [effective] at egress
    obtain ⟨n,listed,same,_⟩ := egress
    exact .inl ⟨n,routes ▸ listed,same⟩

end

end Underway

theorem admitted_entryName (found : s.pit.find i = some e) (sound : Sound env s) :
    ((admitted s i).1.entry (admitted s i).2).name = e.name := by
  have handling : Handling (admitted s i).1 s.interests.length (admitted s i).2 i.name := admitted_handling sound
  rw [handling.entryName,← (find_spec found).2.1]

section
variable (sound : Sound env s) (accepted : screen env s packet ingress = .accepted i)
include sound accepted

theorem onward_moves (ordinary : fromProducer env i = false) (direct : i.nextHopFaceId = none)
    (unlooped : ∀ e, s.pit.find i = some e → isLoop e i.nonce ingress = false) (underway : Underway s i v)
    (steady : ∀ e, s.pit.find i = some e → Steady s v)
    (held : ∃ r ∈ (v.entry (admitted s i).2).inRecords, r.face = ingress) :
    Moves env s (.interest packet ingress choices) v (afterReceiveInterest env
      (v.findEffectiveStrategy (v.entry (admitted s i).2).name) v s.interests.length ingress (admitted s i).2 choices) := by
  have plain := (fromProducer_name underway.objectName).trans ordinary
  have bearer : Bearer env v s.interests.length (admitted s i).2 (admitted s i).2 := underway.bearer (fun _ => rfl)
  by_cases withheld : Withheld env v (admitted s i).2
  · refine Conducts.moves (p := {}) (withheld_conducts withheld plain) ⟨bearer.meets.alive,?_,?_,?_,?_,?_⟩
    · exact fun _ _ => False.elim
    · exact fun _ _ _ _ => False.elim
    · exact fun _ _ _ => False.elim
    · exact fun _ _ _ => False.elim
    · exact fun _ never => never
  · refine trigger_moves bearer rfl held (fun f target => ⟨i,accepted,rfl,fun e found => ?_⟩)
    have same := underway.entryName.trans (admitted_entryName found sound)
    rw [Heads,if_neg (by simp [ordinary])]
    refine ⟨underway.onward found direct plain same target,unlooped e found,fun _ suppressed => withheld ?_⟩
    rw [(steady e found).withheld underway.strategyChoice]
    rcases admitted_cases s i with ⟨e',found',equal⟩ | ⟨missing,_⟩
    · cases found.symm.trans found'
      rwa [equal]
    · cases found.symm.trans missing

theorem onContentStoreMiss_moves (other : i.name.hasRN9999 env.convention = .ok false) (here : ingress ∈ s.faces)
    (unlooped : ∀ e, s.pit.find i = some e → isLoop e i.nonce ingress = false) (underway : Underway s i v)
    (steady : ∀ e, s.pit.find i = some e → Steady s v) :
    Moves env s (.interest packet ingress choices) v
      (onContentStoreMiss env v s.interests.length ingress (admitted s i).2 choices) := by
  have recorded : Underway s i (recordDownstream v s.interests.length ingress (admitted s i).2) := underway.recorded
  have started : Moves env s (.interest packet ingress choices) v (recordDownstream v s.interests.length ingress (admitted s i).2) :=
    recordDownstream_moves underway.meets (underway.faces ▸ here)
  have even : ∀ e, s.pit.find i = some e → Steady s (recordDownstream v s.interests.length ingress (admitted s i).2) :=
    fun e found => (steady e found).trans .recordDownstream
  have ordinary := other_fromProducer other
  have nextHop : ((recordDownstream v s.interests.length ingress (admitted s i).2).interest s.interests.length).nextHopFaceId =
      i.nextHopFaceId := by rw [show State.interest _ _ = _ from recorded.object]
  obtain ⟨r,listed,facing,_⟩ := underway.held ingress
  refine started.trans ?_
  unfold onContentStoreMiss onContentStoreMissWith Call.trigger
  simp only [nextHop]
  split
  · rename_i nextHopTag tagged
    split
    · rename_i nextHopFace known
      refine onOutgoingInterest_moves (recorded.bearer (fun _ => rfl)) ⟨i,accepted,rfl,fun e found => ?_⟩
      rw [Heads,if_neg (by simp [ordinary])]
      refine ⟨?_,unlooped e found,fun none => by simp [none] at tagged⟩
      unfold Onward
      rw [tagged]
      rwa [getFace,recorded.faces] at known
    · exact .done
  · rename_i direct
    split
    · refine Moves.setTag.trans (onward_moves sound accepted ordinary direct unlooped (recorded.frame .setTag)
        (fun e found => (even e found).trans (.same rfl)) ⟨r,listed,facing⟩)
    · exact onward_moves sound accepted ordinary direct unlooped recorded even ⟨r,listed,facing⟩

theorem reflect_moves (producer : IsProducer env i.name) (here : ingress ∈ s.faces) (selected : Selected env s i original prevPitToken) :
    Moves env s (.interest packet ingress choices) (admitted s i).1
      (reflect env (admitted s i).1 s.interests.length ingress (admitted s i).2 original prevPitToken choices) := by
  have tagged : Underway s i ((admitted s i).1.setTag s.interests.length (setPitToken prevPitToken)) :=
    admitted_underway.frame .setTag
  have recorded : Underway s i (reflecting s i ingress prevPitToken) := tagged.recorded
  have started : Moves env s (.interest packet ingress choices) (admitted s i).1 (reflecting s i ingress prevPitToken) :=
    Moves.setTag.trans (recordDownstream_moves tagged.meets (tagged.faces ▸ here))
  have reflexive : fromProducer env i := producer_fromProducer producer
  have astray : s.kindOf i.name ≠ .bestRoute → Misdirected env s (.interest packet ingress choices) :=
    fun other => ⟨i,original,prevPitToken,accepted,producer,selected,other⟩
  have held : (reflecting s i ingress prevPitToken).entry original.id = original := reflecting_original sound producer selected
  have alive : Alive (reflecting s i ingress prevPitToken) original.id := by
    have still := (admitted_selected sound producer).mpr selected
    exact recordDownstream_alive ((alive_of_mem (findBasedOnName_spec still.entry).1).quiet Frame.setTag.toQuiet)
  rw [reflect_trigger sound]
  refine started.trans ((afterReceiveInterest_conducts recorded.bound).moves ⟨alive,?_,?_,?_,?_,?_⟩)
  · rintro o f ⟨rfl,target⟩
    refine ⟨_,recorded.bearer (fun ordinary => by simp [reflexive] at ordinary),i,accepted,rfl,fun e _ => ?_⟩
    rw [Heads,if_pos reflexive]
    exact ⟨original,prevPitToken,selected,egress_target sound producer selected target⟩
  · exact fun _ _ _ _ never => never.elim
  · rintro u f before ⟨_,_,idle⟩
    by_cases best : s.kindOf i.name = .bestRoute
    · have empty := idle best (reflecting_producer producer)
      refine .absent (fun r listed => ?_)
      obtain ⟨old,there,_⟩ := before.frame.entry.inRecord listed
      rw [empty] at there
      cases there
    · exact .misdirected (astray best)
  · rintro u f _ ⟨_,access⟩
    exact .misdirected (astray (by rw [State.kindOf,access]; simp))
  · exact fun _ never => never

end

theorem onContentStoreHit_moves (alive : Alive v id) (idle : (v.entry id).hasInRecords = false) (sourced : Sourced event v.cs.table data) :
    Moves env s event v (onContentStoreHit v object ingress id data) := by
  have marked : Moves env s event v (markSatisfied v id data) := .one (.satisfy sourced)
  have armed : Moves env s event (markSatisfied v id data) ((markSatisfied v id data).setExpiryTimer id 0) :=
    .one (.setExpiryTimer (alive.quiet markSatisfied_frame.toQuiet))
  have frame : Frame v ((markSatisfied v id data).setExpiryTimer id 0) := markSatisfied_frame.trans .setExpiryTimer
  refine (marked.trans armed).trans (sendData_moves (.absent (fun r listed => ?_)))
  obtain ⟨old,there,_⟩ := frame.entry.inRecord listed
  simp only [Entry.hasInRecords,Bool.not_eq_false',List.isEmpty_iff] at idle
  rw [idle] at there
  cases there

theorem interest_moves (sound : Sound env s) (here : ingress ∈ s.faces)
    (arrived : onIncomingInterest env s packet ingress choices = some t) : Moves env s (.interest packet ingress choices) s t := by
  have known : ∀ {i u}, insertPitToken env (admitted s i).1 i choices.words = some u →
      Moves env s (.interest packet ingress choices) s u := fun ensured => admitted_moves.trans (insertPitToken_moves ensured)
  cases interest_outcome arrived with
  | dropped => exact .done
  | looped => exact onInterestLoop_moves
  | raised => exact admitted_moves
  | unanswered _ _ _ left =>
    rcases left with rfl | ⟨_,rfl⟩
    · exact admitted_moves
    · exact admitted_moves.trans (.aside (.emit (by simp)))
  | reflected accepted producer selected =>
    exact admitted_moves.trans (reflect_moves sound accepted producer here ((admitted_selected sound producer).mp selected))
  | duplicate _ _ ensured _ => exact (known ensured).trans onInterestLoop_moves
  | @hit i u cached store accepted other ensured _ idle found =>
    obtain ⟨same,held⟩ := ContentStore.find_table found
    obtain ⟨c,listed,rfl⟩ := held _ rfl
    have alive : Alive u (admitted s i).2 := insertPitToken_alive (admitted_alive sound) ensured
    exact ((known ensured).trans (.aside (.lookedUp same))).trans
      (onContentStoreHit_moves (v := { u with cs := store }) alive idle (.inl ⟨c,same ▸ listed,rfl⟩))
  | @miss i u store accepted other ensured unlooped searched =>
    have same : store.table = u.cs.table := searched.elim (congrArg _) (fun missed => (ContentStore.find_table missed).1)
    have stored : Frame u { u with cs := store } := frame_tables _ _ _
    have unchanged : ∀ e, s.pit.find i = some e → u.now = s.now ∧ u.pit = s.pit ∧ (admitted s i).2 = e.id := by
      intro e found
      rcases admitted_cases s i with ⟨e',found',equal⟩ | ⟨missing,_⟩
      · cases found.symm.trans found'
        rw [insertPitToken_same State.now (fun _ => rfl) ensured,insertPitToken_same State.pit (fun _ => rfl) ensured,equal]
        exact ⟨rfl,rfl,rfl⟩
      · cases found.symm.trans missing
    have fresh : ∀ e, s.pit.find i = some e → isLoop e i.nonce ingress = false := by
      intro e found
      obtain ⟨_,pit,entry⟩ := unchanged e found
      rw [entry,State.entry,pit,sound.get (find_spec found).1] at unlooped
      exact unlooped
    exact ((known ensured).trans (.aside (.lookedUp same))).trans
      (onContentStoreMiss_moves sound accepted other here fresh ((admitted_underway.enrolled ensured).frame stored)
        (fun e found => .same (by rw [(unchanged e found).1,(unchanged e found).2.1])))

end ReflexiveNfd
