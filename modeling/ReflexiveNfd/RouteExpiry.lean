import ReflexiveNfd.RibRoutes

namespace ReflexiveNfd
open List Option Transition Results

structure ExpirationTimer where
  event : EventId
  due : Int
  name : Name
  route : Route
  deriving DecidableEq, Repr

structure RibManager where
  queue : RibQueue
  now : Int
  nextEvent : EventId
  timers : List ExpirationTimer
  fired : List (Nat × Int)

inductive RibManagerEvent where
  | addRoute (name : Name) (route : Route) (expires : Option Int)
  | removeRoute (name : Name) (route : Route)
  | removeFaces (routes : List (Name × Route))
  | respond (command : FibCommand) (response : FibResponse)
  | expire (timer : ExpirationTimer)
  | advance (now : Int)

def Route.expiredBy (route : Route) (time : Int) : Bool := route.expires.any (fun expires => expires ≤ time)

namespace RibManager

def initial (now : Int) : RibManager := ⟨.initial,now,0,[],[]⟩

section
variable (second : SecondLowest) (m : RibManager) (name : Name) (route : Route)

def handle (event : RibEvent) : Except RibFault RibManager :=
  (m.queue.attempt second event).map (fun queue => { m with queue := queue })

def onRouteExpiration : Except RibFault RibManager :=
  m.handle second (.apply [(⟨.unregister,name,route⟩,false)])

def schedule (due : Int) : RibManager :=
  { m with timers := m.timers ++ [⟨m.nextEvent,due,name,route⟩], nextEvent := m.nextEvent + 1 }

end

section
variable (second : SecondLowest) (m : RibManager)

def beginRibUpdate (update : RibUpdate) : Except RibFault RibManager := m.handle second (.apply [(update,true)])

-- The time comes from the command, or else from the route.
def beginAddRoute (name : Name) (route : Route) (expires : Option Int) : Except RibFault RibManager :=
  match expires.elim route.expires (fun period => some (m.now + period)) with
  | none => m.beginRibUpdate second ⟨.register,name,route⟩
  | some due =>
    if due ≤ m.now then m.onRouteExpiration second name { route with expires := some due }
    else (m.schedule name { route with expires := some due } due).beginRibUpdate second
      ⟨.register,name,{ route with expires := some due, expirationEvent := some m.nextEvent }⟩

def beginRemoveRoute (name : Name) (route : Route) : Except RibFault RibManager :=
  m.beginRibUpdate second ⟨.unregister,name,route⟩

end

def fire (m : RibManager) (timer : ExpirationTimer) : RibManager :=
  { m with timers := m.timers.erase timer, fired := m.fired ++ [(m.queue.nextId,m.now)] }

def attempt (second : SecondLowest) (m : RibManager) : RibManagerEvent → Except RibFault RibManager
  | .addRoute name route expires => m.beginAddRoute second name route expires
  | .removeRoute name route => m.beginRemoveRoute second name route
  | .removeFaces routes => m.handle second (.apply (routes.map (fun e => (⟨.removeFace,e.1,e.2⟩,false))))
  | .respond command response => m.handle second (.respond command response)
  | .expire timer => (m.fire timer).onRouteExpiration second timer.name timer.route
  | .advance now => .ok { m with now := now }

-- A new route has no event yet. An event that is not cancelled is called when it is
-- due or later.
def Enabled (m : RibManager) : RibManagerEvent → Prop
  | .addRoute _ route _ => route.expirationEvent = none
  | .removeRoute .. => True
  | .removeFaces _ => True
  | .respond command _ => command ∈ m.queue.outstanding
  | .expire timer => timer ∈ m.timers ∧ timer.event ∉ m.queue.rib.cancelled ∧ timer.due ≤ m.now
  | .advance now => m.now ≤ now

instance (m : RibManager) (event : RibManagerEvent) : Decidable (m.Enabled event) := by
  cases event <;> unfold Enabled <;> infer_instance

def step (second : SecondLowest) (m : RibManager) (event : RibManagerEvent) : Option RibManager :=
  if m.Enabled event then (m.attempt second event).toOption else none

def Initial (m : RibManager) : Prop := ∃ now, m = initial now

def OnlyExpired (m : RibManager) : Prop := ∀ id time, (id,time) ∈ m.fired → ∀ route, (id,route) ∈ m.queue.erased →
  ∃ expires, route.expires = some expires ∧ expires ≤ time

-- A timer fires when no registration of its route that lasts longer is pending,
-- and no registration with an expiration fails.
def Unrenewed (m : RibManager) : RibManagerEvent → Prop
  | .expire timer => ∀ item ∈ m.queue.pending, item.update.action = .register → item.update.name = timer.name →
      item.update.route.key = timer.route.key → item.update.route.expiredBy m.now
  | .respond command response => m.queue.Last (.respond command response) ∧
      (response = .error errorFaceNotFound → command.update.faceId = m.queue.fibUpdater.batchFaceId →
        command.item.update.action = .register → command.item.update.route.expires = none)
  | _ => True

instance (m : RibManager) (event : RibManagerEvent) : Decidable (m.Unrenewed event) := by
  cases event <;> unfold Unrenewed <;> infer_instance

def Bears (route : Route) (timer : ExpirationTimer) : Prop :=
  route.key = timer.route.key ∧ route.expirationEvent = some timer.event ∧ route.expires = some timer.due

def Renews (other : UpdateQueueItem) (name : Name) (route : Route) : Prop :=
  other.update.action = .register ∧ other.update.name = name ∧ other.update.route.key = route.key

-- A timer is cancelled, or it belongs to a registration that is pending or to a
-- route of the RIB.
def Accounted (q : RibQueue) (timer : ExpirationTimer) : Prop :=
  timer.event ∈ q.rib.cancelled ∨
  (∃ item ∈ q.pending, Renews item timer.name timer.route ∧ Bears item.update.route timer) ∨
  ∃ route, q.rib.stored timer.name timer.route = some route ∧ Bears route timer

-- What a timer has queued erases a route that had expired: registrations before
-- it had, and so had the route in the RIB unless one of them takes its place.
structure Overdue (q : RibQueue) (item : UpdateQueueItem) (time : Int) : Prop where
  action : item.update.action = .unregister
  before : ∀ other ∈ q.pending, other.id < item.id → Renews other item.update.name item.update.route → other.update.route.expiredBy time
  there : (∃ other ∈ q.pending, other.id < item.id ∧ Renews other item.update.name item.update.route) ∨
    ∀ route, q.rib.stored item.update.name item.update.route = some route → route.expiredBy time

structure Timely (q : RibQueue) (timers : List ExpirationTimer) (fired : List (Nat × Int)) : Prop where
  phase : q.Phase
  numbered : q.Numbered
  sound : q.rib.Sound
  distinct : q.rib.Distinct
  accounted : ∀ timer ∈ timers, Accounted q timer
  known : ∀ p ∈ fired, p.1 < q.nextId
  overdue : ∀ item ∈ q.pending, ∀ time, (item.id,time) ∈ fired → Overdue q item time
  past : ∀ p ∈ q.erased, p.1 ∈ q.changes
  expired : ∀ id time, (id,time) ∈ fired → ∀ route, (id,route) ∈ q.erased → route.expiredBy time

variable {q r : RibQueue} {timers : List ExpirationTimer} {fired : List (Nat × Int)} {item : UpdateQueueItem}

def Harmless (item : UpdateQueueItem) : Prop := item.update.action = .register → item.update.route.expires = none

theorem expiredBy_iff {route : Route} : route.expiredBy time ↔ ∃ expires, route.expires = some expires ∧ expires ≤ time := by
  rw [Route.expiredBy]
  cases route.expires with
  | none => simp
  | some expires => simp

theorem Accounted.mono (accounted : Accounted q timer) (cancelled : ∀ event ∈ q.rib.cancelled, event ∈ r.rib.cancelled)
    (waiting : ∀ item ∈ q.pending, item ∈ r.pending) (stored : r.rib.stored = q.rib.stored) : Accounted r timer := by
  rcases accounted with gone | ⟨item,member,renews,bears⟩ | ⟨route,found,bears⟩
  · exact .inl (cancelled _ gone)
  · exact .inr (.inl ⟨item,waiting item member,renews,bears⟩)
  · exact .inr (.inr ⟨route,stored ▸ found,bears⟩)

theorem Overdue.congr (overdue : Overdue q item time) (waiting : r.pending = q.pending) (stored : r.rib.stored = q.rib.stored) :
    Overdue r item time := by
  obtain ⟨action,before,there⟩ := overdue
  rw [← waiting] at before there
  rw [← stored] at there
  exact ⟨action,before,there⟩

theorem sound_cancelled {rib : Rib} (sound : rib.Sound) (cancelled : List EventId) : Rib.Sound { rib with cancelled := cancelled } :=
  ⟨sound.linked.congr rfl,sound.counted,sound.occupied⟩

theorem Timely.congr (timely : Timely q timers fired) (phase : r.Phase) (numbered : r.Numbered) (rib : r.rib = { q.rib with cancelled := cancelled })
    (grows : q.rib.cancelled ⊆ cancelled) (same : (r.pending,r.nextId,r.changes,r.erased) = (q.pending,q.nextId,q.changes,q.erased)) :
    Timely r timers fired := by
  simp only [Prod.mk.injEq] at same
  obtain ⟨waiting,next,changes,erased⟩ := same
  have stored : r.rib.stored = q.rib.stored := by rw [rib]; rfl
  refine ⟨phase,numbered,?_,?_,fun timer member => ?_,next ▸ timely.known,fun item member time since => ?_,?_,erased ▸ timely.expired⟩
  · rw [rib]
    exact sound_cancelled timely.sound _
  · rw [rib]
    exact timely.distinct
  · exact (timely.accounted timer member).mono (by rw [rib]; exact fun _ gone => grows gone) (by rw [waiting]; exact fun _ same => same) stored
  · exact (timely.overdue item (waiting ▸ member) time since).congr waiting stored
  · rw [erased,changes]
    exact timely.past

theorem start_timely {u : RibQueue} (timely : Timely q timers fired) (free : q.inProgress = none)
    (front : q.updateBatches = item :: later) (taken : q.take second item later = .ok u) : Timely (u.launch item) timers fired := by
  have move : RibQueue.Move second Harmless q (u.launch item) := .start free front taken
  obtain ⟨current,queue,_,_,_,changes,erased,next,_,_,cancelled,_,rib⟩ := RibQueue.take_parts taken
  refine timely.congr (move.phase timely.phase) (move.numbered timely.numbered) rib (subset_append_left ..) ?_
  simp only [RibQueue.pending,RibQueue.launch,RibQueue.sendUpdates,current,queue,free,front,next,changes,erased]
  rfl

theorem pending_of_current (own : q.inProgress = some item) : q.pending = item :: q.updateBatches := by
  rw [RibQueue.pending,own]
  rfl

theorem stored_key {rib : Rib} (same : a.key = b.key) : rib.stored name a = rib.stored name b := by
  have match_ : (compareFaceIdAndOrigin · a) = (compareFaceIdAndOrigin · b) := by
    rw [compareFaceIdAndOrigin_key,same,compareFaceIdAndOrigin_key]
  rw [Rib.stored,Rib.stored]
  exact congrArg (rib.find name).bind (funext fun e => congrArg (fun p => e.routes.find? p) match_)

theorem mem_erasedBy (member : p ∈ RibQueue.erasedBy rib item) :
    p.1 = item.id ∧ rib.stored item.update.name item.update.route = some p.2 := by
  rw [RibQueue.erasedBy] at member
  split at member
  · cases member
  · obtain ⟨route,inside,rfl⟩ := mem_map.mp member
    exact ⟨rfl,mem_toList.mp inside⟩

theorem change_timely (timely : Timely q timers fired) (own : q.inProgress = some item) (changed : q.change item = .ok r) (phase : r.Phase)
    (numbered : r.Numbered) : Timely r timers fired := by
  obtain ⟨middle,rib,applied,modified,rfl⟩ := RibQueue.change_parts changed
  obtain ⟨soundM,distinctM,cancelledM,storedM⟩ := Rib.applyUpdate_stored timely.sound timely.distinct applied
  obtain ⟨soundR,distinctR,cancelledR,storedR⟩ := Rib.modifyInheritedRoutes_stored soundM distinctM modified
  have stored : ∀ place other, rib.stored place other = if place = item.update.name ∧ other.key = item.update.route.key then
      (if item.update.action = .register then some item.update.route else none) else q.rib.stored place other := by
    intro place other
    rw [storedR]
    exact storedM place other
  have cancelled := cancelledR.trans cancelledM
  have waiting := pending_of_current own
  have ascending := timely.numbered.ascending
  rw [waiting] at ascending
  have first := (pairwise_cons.mp ascending).1
  refine ⟨phase,numbered,soundR,distinctR,fun timer member => ?_,timely.known,fun other member time since => ?_,fun p member => ?_,
    fun id time since route member => ?_⟩
  · rcases timely.accounted timer member with gone | ⟨other,inside,renews,bears⟩ | ⟨route,found,bears⟩
    · refine .inl ?_
      show timer.event ∈ rib.cancelled
      rw [cancelled]
      exact mem_append_left _ gone
    · rw [waiting] at inside
      rcases mem_cons.mp inside with rfl | behind
      · refine .inr (.inr ⟨other.update.route,?_,bears⟩)
        show rib.stored timer.name timer.route = _
        rw [stored,if_pos ⟨renews.2.1.symm,bears.1.symm⟩,if_pos renews.1]
      · exact .inr (.inl ⟨other,behind,renews,bears⟩)
    · by_cases here : timer.name = item.update.name ∧ timer.route.key = item.update.route.key
      · refine .inl ?_
        show timer.event ∈ rib.cancelled
        rw [cancelled,← here.1,← stored_key here.2,found,bind_some,bears.2.1]
        exact mem_append_right _ (mem_singleton.mpr rfl)
      · refine .inr (.inr ⟨route,?_,bears⟩)
        show rib.stored timer.name timer.route = _
        rw [stored,if_neg here]
        exact found
  · have inside : other ∈ q.pending := by
      rw [waiting]
      exact mem_cons_of_mem _ member
    have overdue := timely.overdue other inside time since
    refine ⟨overdue.action,fun another behind => overdue.before another ?_,?_⟩
    · rw [waiting]
      exact mem_cons_of_mem _ behind
    · by_cases renews : Renews item other.update.name other.update.route
      · refine .inr (fun route found => ?_)
        have found : rib.stored other.update.name other.update.route = some route := found
        rw [stored,if_pos ⟨renews.2.1.symm,renews.2.2.symm⟩,if_pos renews.1] at found
        cases found
        exact overdue.before item (waiting ▸ mem_cons_self ..) (first other member) renews
      · rcases overdue.there with ⟨another,listed,less,does⟩ | old
        · rw [waiting] at listed
          rcases mem_cons.mp listed with rfl | behind
          · exact absurd does renews
          · exact .inl ⟨another,behind,less,does⟩
        · refine .inr (fun route found => ?_)
          have found : rib.stored other.update.name other.update.route = some route := found
          rw [stored] at found
          split at found
          · rename_i same
            split at found
            · rename_i registers
              exact absurd ⟨registers,same.1.symm,same.2.symm⟩ renews
            · cases found
          · exact old route found
  · rcases mem_append.mp member with before | new
    · exact mem_append_left _ (timely.past p before)
    · rw [(mem_erasedBy new).1]
      exact mem_append_right _ (mem_singleton.mpr rfl)
  · rcases mem_append.mp member with before | new
    · exact timely.expired id time since route before
    · obtain ⟨same,found⟩ := mem_erasedBy new
      have overdue := timely.overdue item (waiting ▸ mem_cons_self ..) time (same ▸ since)
      rcases overdue.there with ⟨another,listed,less,_⟩ | old
      · rw [waiting] at listed
        rcases mem_cons.mp listed with rfl | behind
        · exact absurd less (Nat.lt_irrefl _)
        · exact absurd less (Nat.lt_asymm (first another behind))
      · exact old route found

theorem fail_timely {command : FibCommand} (timely : Timely q timers fired) (may : Harmless command.item) (own : q.inProgress = some command.item)
    (phase : (((q.receive command (.error errorFaceNotFound)).conclude command.item false)).Phase)
    (numbered : (((q.receive command (.error errorFaceNotFound)).conclude command.item false)).Numbered) :
    Timely ((q.receive command (.error errorFaceNotFound)).conclude command.item false) timers fired := by
  have waiting := pending_of_current own
  have inside : ∀ other, other ∈ q.updateBatches → other ∈ q.pending := by
    intro other behind
    rw [waiting]
    exact mem_cons_of_mem _ behind
  refine { timely with phase,numbered,accounted := fun timer member => ?_,overdue := fun other member time since => ?_ }
  · rcases timely.accounted timer member with gone | ⟨other,listed,renews,bears⟩ | there
    · exact .inl gone
    · rw [waiting] at listed
      rcases mem_cons.mp listed with rfl | behind
      · cases (may renews.1).symm.trans bears.2.2
      · exact .inr (.inl ⟨other,behind,renews,bears⟩)
    · exact .inr (.inr there)
  · have overdue := timely.overdue other (inside other member) time since
    refine ⟨overdue.action,fun another behind => overdue.before another (inside another behind),?_⟩
    rcases overdue.there with ⟨another,listed,less,renews⟩ | old
    · have expired := overdue.before another listed less renews
      rw [waiting] at listed
      rcases mem_cons.mp listed with rfl | behind
      · obtain ⟨expires,given,_⟩ := expiredBy_iff.mp expired
        cases (may renews.1).symm.trans given
      · exact .inl ⟨another,behind,less,renews⟩
    · exact .inr old

theorem moves_timely (moves : RibQueue.Moves second Harmless q r) (timely : Timely q timers fired) : Timely r timers fired := by
  induction moves with
  | refl => exact timely
  | tail _ move ih =>
    have phase := move.phase ih.phase
    have numbered := move.numbered ih.numbered
    cases move with
    | start free front taken => exact start_timely ih free front taken
    | remove pending own face => exact ih.congr phase numbered rfl (Subset.refl _) rfl
    | removeOther pending own face => exact ih.congr phase numbered rfl (Subset.refl _) rfl
    | proceed own done silent => exact ih.congr phase numbered rfl (Subset.refl _) rfl
    | change own done silent changed => exact change_timely ih own changed phase numbered
    | fail may own alone => exact fail_timely ih may own phase numbered

theorem queue_timely (more : List (Nat × Int)) (timely : Timely q timers fired) (entry : RibUpdate × Bool)
    (made : ∀ p ∈ more, p.1 = q.nextId ∧ Overdue (q.addUpdateToQueue entry) ⟨q.nextId,entry.1,entry.2⟩ p.2) :
    Timely (q.addUpdateToQueue entry) timers (fired ++ more) := by
  have waiting : (q.addUpdateToQueue entry).pending = q.pending ++ [⟨q.nextId,entry.1,entry.2⟩] := (append_assoc ..).symm
  have inside : ∀ other ∈ q.pending, other ∈ (q.addUpdateToQueue entry).pending := by
    intro other old
    rw [waiting]
    exact mem_append_left _ old
  have cases_ : ∀ other ∈ (q.addUpdateToQueue entry).pending, other ∈ q.pending ∨ other = ⟨q.nextId,entry.1,entry.2⟩ := by
    intro other member
    rw [waiting] at member
    exact (mem_append.mp member).imp_right mem_singleton.mp
  refine ⟨RibQueue.addUpdateToQueue_phase timely.phase entry,RibQueue.addUpdateToQueue_numbered timely.numbered entry,timely.sound,timely.distinct,
    fun timer member => (timely.accounted timer member).mono (fun _ gone => gone) inside rfl,fun p member => ?_,fun other member time since => ?_,
    timely.past,fun id time since route member => ?_⟩
  · rcases mem_append.mp member with old | new
    · exact Nat.lt_succ_of_lt (timely.known p old)
    · rw [(made p new).1]
      exact Nat.lt_succ_self _
  · rcases cases_ other member with old | rfl
    · have less := timely.numbered.bounded other old
      rcases mem_append.mp since with before | new
      · have overdue := timely.overdue other old time before
        refine ⟨overdue.action,fun another listed below => ?_,?_⟩
        · rcases cases_ another listed with there | rfl
          · exact overdue.before another there below
          · exact absurd below (Nat.lt_asymm less)
        · exact overdue.there.imp_left (fun ⟨another,listed,rest⟩ => ⟨another,inside another listed,rest⟩)
      · exact absurd (made _ new).1 (Nat.ne_of_lt less)
    · rcases mem_append.mp since with before | new
      · exact absurd (timely.known _ before) (Nat.lt_irrefl _)
      · exact (made _ new).2
  · rcases mem_append.mp since with before | new
    · exact timely.expired id time before route member
    · have less := (timely.numbered.changed id (timely.past _ member)).1
      exact absurd (made _ new).1 (Nat.ne_of_lt less)

theorem queue_all_timely (timely : Timely q timers fired) (entries : List (RibUpdate × Bool)) :
    Timely (entries.foldl RibQueue.addUpdateToQueue q) timers fired := by
  induction entries generalizing q with
  | nil => exact timely
  | cons entry later ih =>
    have queued := queue_timely [] timely entry nofun
    rw [append_nil] at queued
    exact ih queued

theorem fire_overdue {timer : ExpirationTimer} (timely : Timely q timers fired) (member : timer ∈ timers)
    (alive : timer.event ∉ q.rib.cancelled) (due : timer.due ≤ time)
    (unrenewed : ∀ item ∈ q.pending, item.update.action = .register → item.update.name = timer.name → item.update.route.key = timer.route.key →
      item.update.route.expiredBy time) :
    Overdue (q.addUpdateToQueue (⟨.unregister,timer.name,timer.route⟩,false)) ⟨q.nextId,⟨.unregister,timer.name,timer.route⟩,false⟩ time := by
  have waiting : (q.addUpdateToQueue (⟨.unregister,timer.name,timer.route⟩,false)).pending =
      q.pending ++ [⟨q.nextId,⟨.unregister,timer.name,timer.route⟩,false⟩] := (append_assoc ..).symm
  refine ⟨rfl,fun other listed less renews => ?_,?_⟩
  · rw [waiting] at listed
    rcases mem_append.mp listed with old | new
    · exact unrenewed other old renews.1 renews.2.1 renews.2.2
    · rw [mem_singleton.mp new] at less
      exact absurd less (Nat.lt_irrefl _)
  · rcases timely.accounted timer member with gone | ⟨other,listed,renews,_⟩ | ⟨route,found,bears⟩
    · exact absurd gone alive
    · refine .inl ⟨other,?_,timely.numbered.bounded other listed,renews⟩
      rw [waiting]
      exact mem_append_left _ listed
    · refine .inr (fun other stored => ?_)
      cases found.symm.trans stored
      exact expiredBy_iff.mpr ⟨timer.due,bears.2.2,due⟩

theorem apply_moves (timely : Timely (entries.foldl RibQueue.addUpdateToQueue q) timers fired)
    (attempted : q.attempt second (.apply entries) = .ok r) : Timely r timers fired :=
  moves_timely (RibQueue.sendBatchFromQueue_moves timely.phase attempted) timely

theorem respond_timely (timely : Timely q timers fired) (pending : command ∈ q.outstanding)
    (last : q.Last (.respond command response))
    (harmless : response = .error errorFaceNotFound → command.update.faceId = q.fibUpdater.batchFaceId → Harmless command.item)
    (attempted : q.attempt second (.respond command response) = .ok r) : Timely r timers fired := by
  cases response with
  | success => exact moves_timely (RibQueue.onUpdateSuccess_moves timely.phase pending attempted) timely
  | error code =>
    rcases RibQueue.onUpdateError_moves Harmless timely.phase pending last (fun code410 => harmless (by rw [code410])) attempted with ⟨_,rfl⟩ | moves
    · exact timely.congr (RibQueue.sendAgain_phase timely.phase pending) (timely.numbered.congr rfl) rfl (Subset.refl _) rfl
    · exact moves_timely moves timely

variable {m : RibManager}

abbrev Sound (m : RibManager) : Prop := Timely m.queue m.timers m.fired

theorem handle_parts (done : m.handle second event = .ok n) :
    ∃ queue, m.queue.attempt second event = .ok queue ∧ n = { m with queue := queue } := by
  obtain ⟨queue,attempted,rfl⟩ := map_parts done
  exact ⟨queue,attempted,rfl⟩

theorem handle_apply_sound (timely : Timely (entries.foldl RibQueue.addUpdateToQueue m.queue) m.timers m.fired)
    (done : m.handle second (.apply entries) = .ok n) : Sound n := by
  obtain ⟨queue,attempted,rfl⟩ := handle_parts done
  exact apply_moves timely attempted

theorem schedule_timely (name : Name) (route : Route) (due : Int) (timely : Timely q timers fired) (event : EventId) :
    Timely (q.addUpdateToQueue (⟨.register,name,{ route with expires := some due, expirationEvent := some event }⟩,true))
      (timers ++ [⟨event,due,name,{ route with expires := some due }⟩]) fired := by
  have queued := queue_all_timely timely [(⟨.register,name,{ route with expires := some due, expirationEvent := some event }⟩,true)]
  refine { queued with accounted := fun timer member => ?_ }
  rcases mem_append.mp member with old | new
  · exact queued.accounted timer old
  · rw [mem_singleton.mp new]
    refine .inr (.inl ⟨_,mem_append_right _ (mem_append_right _ (mem_singleton.mpr rfl)),⟨rfl,rfl,rfl⟩,rfl,rfl,rfl⟩)

theorem beginAddRoute_sound (sound : Sound m)
    (done : m.beginAddRoute second name route expires = .ok n) : Sound n := by
  rw [beginAddRoute] at done
  split at done
  · exact handle_apply_sound (queue_all_timely sound _) done
  · rename_i due _
    split at done
    · exact handle_apply_sound (queue_all_timely sound _) done
    · have queued := schedule_timely name route due sound m.nextEvent
      refine handle_apply_sound (m := m.schedule name { route with expires := some due } due) ?_ done
      exact queued

theorem expire_sound (sound : Sound m) (enabled : m.Enabled (.expire timer)) (unrenewed : m.Unrenewed (.expire timer))
    (done : (m.fire timer).onRouteExpiration second timer.name timer.route = .ok n) : Sound n := by
  obtain ⟨member,alive,due⟩ := enabled
  have queued := queue_timely [(m.queue.nextId,m.now)] sound (⟨.unregister,timer.name,timer.route⟩,false) (fun p new => by
    rw [mem_singleton.mp new]
    exact ⟨rfl,fire_overdue sound member alive due unrenewed⟩)
  refine handle_apply_sound (m := m.fire timer) ?_ done
  exact { queued with accounted := fun other listed => queued.accounted other (mem_of_mem_erase listed) }

theorem step_sound (sound : Sound m) (unrenewed : m.Unrenewed event) (taken : m.step second event = some n) : Sound n := by
  obtain ⟨enabled,toOption⟩ := ite_none_right_eq_some.mp taken
  have done := toOption_parts toOption
  cases event with
  | addRoute name route expires => exact beginAddRoute_sound sound done
  | removeRoute name route => exact handle_apply_sound (queue_all_timely sound _) done
  | removeFaces routes => exact handle_apply_sound (queue_all_timely sound _) done
  | respond command response =>
    obtain ⟨queue,attempted,rfl⟩ := handle_parts done
    exact respond_timely sound enabled unrenewed.1 unrenewed.2 attempted
  | expire timer => exact expire_sound sound enabled unrenewed done
  | advance now =>
    cases done
    exact sound

theorem initial_sound (now : Int) : Sound (initial now) := by
  have queue := RibQueue.initial_sound
  refine ⟨queue.phase,queue.numbered,Rib.Reached.sound (.start rfl),nofun,?_,?_,?_,?_,nofun⟩
  all_goals exact nofun

-- While no timer fires with a longer registration of its route pending and no
-- registration with an expiration fails, timers erase what had expired.
theorem unrenewed_only_expired (second : SecondLowest) (path : Guarded (step second) Initial Unrenewed m) : OnlyExpired m := by
  have sound : Sound m := by
    refine path.invariant ?_ ?_
    · rintro m ⟨now,rfl⟩
      exact initial_sound now
    · intro m event n _ sound unrenewed taken
      exact step_sound sound unrenewed taken
  intro id time since route member
  exact expiredBy_iff.mp (sound.expired id time since route member)

def sampleName : Name := [⟨8,[97]⟩]

def sampleRoute (cost : Nat) (due : Int) (event : EventId) : Route := ⟨1,0,cost,0,some due,some event⟩

def sampleTimer : ExpirationTimer := ⟨0,10,sampleName,⟨1,0,10,0,some 10,none⟩⟩

def sampleStart : List RibManagerEvent := [.addRoute sampleName ⟨1,0,10,0,none,none⟩ (some 10),
  .respond ⟨⟨0,⟨.register,sampleName,sampleRoute 10 10 0⟩,true⟩,.createAddUpdate sampleName 1 10,.addNextHop,0⟩ .success]

theorem unrenewed_only_expired_once : ∃ m, Guarded (step .stable) Initial Unrenewed m ∧ m.fired = [(1,10)] ∧
    m.queue.erased = [(1,sampleRoute 10 10 0)] ∧ OnlyExpired m := by
  obtain ⟨m,taken,fired,erased⟩ : ∃ m ∈ run (checked (step .stable) Unrenewed) (initial 0) (sampleStart ++ [.advance 10,.expire sampleTimer,
      .respond ⟨⟨1,⟨.unregister,sampleName,sampleTimer.route⟩,false⟩,.createRemoveUpdate sampleName 1,.removeNextHop,0⟩ .success]),
    m.fired = [(1,10)] ∧ m.queue.erased = [(1,sampleRoute 10 10 0)] := by decide
  have path : Guarded (step .stable) Initial Unrenewed m := checked_guarded (.start ⟨0,rfl⟩) taken
  exact ⟨m,path,fired,erased,unrenewed_only_expired .stable path⟩

-- The route is renewed with another cost; its old timer fires while the FIB is
-- being updated, and what it has queued erases the renewed route.
theorem renewed_erased : ∃ m, Reached (step .stable) Initial m ∧ m.fired = [(2,10)] ∧
    m.queue.erased = [(2,sampleRoute 20 109 1)] ∧ ¬OnlyExpired m := by
  obtain ⟨m,taken,fired,erased⟩ : ∃ m ∈ run (step .stable) (initial 0) (sampleStart ++ [.advance 9,
      .addRoute sampleName ⟨1,0,20,0,none,none⟩ (some 100),.advance 10,.expire sampleTimer,
      .respond ⟨⟨1,⟨.register,sampleName,sampleRoute 20 109 1⟩,true⟩,.createAddUpdate sampleName 1 20,.addNextHop,0⟩ .success,
      .respond ⟨⟨2,⟨.unregister,sampleName,sampleTimer.route⟩,false⟩,.createRemoveUpdate sampleName 1,.removeNextHop,0⟩ .success]),
    m.fired = [(2,10)] ∧ m.queue.erased = [(2,sampleRoute 20 109 1)] := by decide
  refine ⟨m,run_reached (.start ⟨0,rfl⟩) taken,fired,erased,fun only => ?_⟩
  obtain ⟨expires,given,notLater⟩ := only 2 10 (by rw [fired]; decide) (sampleRoute 20 109 1) (by rw [erased]; decide)
  cases given
  exact absurd notLater (by decide)

end RibManager

end ReflexiveNfd
