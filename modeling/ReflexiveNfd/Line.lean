import Mathlib.Logic.Function.Basic
import ReflexiveNfd.Hop

namespace ReflexiveNfd
open List Option Function Transition

-- Forwarders 0 to last in a row, with the consumers at forwarder 0 and the
-- producer above the last one.
structure Line where
  last : Nat
  up : Nat → Face
  down : Nat → Face
  consumers : List Face
  apart : ∀ k, up k ≠ down k
  below : ∀ c ∈ consumers, c ≠ up 0
  pointToPoint : (∀ k, (up k).linkType = .pointToPoint ∧ (down k).linkType = .pointToPoint) ∧
    ∀ c ∈ consumers, c.linkType = .pointToPoint

inductive Destination where
  | forwarder (k : Nat) (ingress : Face)
  | consumer (face : Face)
  | producer
  deriving DecidableEq, Repr

-- An Interest in flight. The origin is the consumer Interest it is, or that it
-- answers; nothing on the way reads it.
structure Flight where
  origin : Name
  destination : Destination
  packet : Interest
  deriving DecidableEq, Repr

structure Asked where
  consumer : Face
  name : Name
  token : PitToken
  deriving DecidableEq, Repr

structure Heard where
  place : Nat
  name : Name
  token : Option PitToken
  deriving DecidableEq, Repr

structure Network where
  nodes : Nat → State
  flights : List Flight
  asked : List Asked
  heard : List Heard

structure Network.Initial (net : Network) : Prop where
  nodes : ∀ k, ReflexiveNfd.Initial (net.nodes k)
  bestRoute : ∀ k name, ((net.nodes k).findEffectiveStrategy name).kind = .bestRoute
  flights : net.flights = []
  asked : net.asked = []
  heard : net.heard = []

-- GenericLinkService sends no NextHopFaceId, and ignores an IncomingFaceId.
def overLink (packet : Interest) : Interest := { packet with incomingFaceId := none, nextHopFaceId := none }

inductive NetworkEvent where
  | express (consumer : Face) (packet : Interest)
  | reflect (index : Nat) (packet : Interest)
  | deliver (index : Nat) (choices : Choices)
  | advance (k : Nat) (duration : Nat)

instance : Decidable (IsProducer env name) := inferInstanceAs (Decidable (_ = _))
instance : Decidable (IsConsumer env name) := inferInstanceAs (Decidable (_ ∧ _))

namespace Line
variable (line : Line) (env : Env)

section
variable (k : Nat) (net : Network) (index : Nat)

def link (face : Face) : Option Destination :=
  if face = line.up k then some (if k < line.last then .forwarder (k + 1) (line.down (k + 1)) else .producer)
  else match k with
    | 0 => if face ∈ line.consumers then some (.consumer face) else none
    | k + 1 => if face = line.down (k + 1) then some (.forwarder k (line.up k)) else none

def launch (origin : Name) : Effect → Option Flight
  | .interest face packet => (line.link k face).map (fun destination => ⟨origin,destination,overLink packet⟩)
  | _ => none

def hear (place : Nat) (packet : Interest) (heard : List Heard) : List Heard :=
  if IsConsumer env packet.name then ⟨place,packet.name,packet.pitToken⟩ :: heard else heard

-- Each reflexive name is sent once, by one consumer, with a token of four octets
-- that is not zero.
def express (consumer : Face) (packet : Interest) : Option Network :=
  match packet.pitToken with
  | none => none
  | some token =>
    if consumer ∈ line.consumers ∧ IsConsumer env packet.name ∧ packet.name ∉ net.asked.map Asked.name ∧
        token.octets.length = 4 ∧ readPitToken token ≠ some 0 then
      some { net with
        flights := net.flights ++ [⟨packet.name,.forwarder 0 consumer,overLink packet⟩]
        asked := ⟨consumer,packet.name,token⟩ :: net.asked }
    else none

def reflect (packet : Interest) : Option Network :=
  match net.heard[index]? with
  | none => none
  | some a =>
    if a.place = line.last + 1 ∧ IsProducer env packet.name ∧ packet.pitToken = a.token then
      some { net with flights := net.flights ++ [⟨a.name,.forwarder line.last (line.up line.last),overLink packet⟩] }
    else none

def handled (index k : Nat) (m : Flight) (t : State) : Network :=
  { net with
    nodes := update net.nodes k t
    flights := net.flights.eraseIdx index ++ t.sent.filterMap (line.launch k m.origin)
    heard := hear env k m.packet net.heard }

def deliver (choices : Choices) : Option Network :=
  match net.flights[index]? with
  | none => none
  | some m =>
    match m.destination with
    | .consumer _ => some { net with flights := net.flights.eraseIdx index }
    | .producer =>
      some { net with
        flights := net.flights.eraseIdx index
        heard := hear env (line.last + 1) m.packet net.heard }
    | .forwarder k ingress =>
      (ReflexiveNfd.step env (net.nodes k) (.interest m.packet ingress choices)).map (line.handled env net index k m)

end

def step (net : Network) : NetworkEvent → Option Network
  | .express consumer packet => line.express env net consumer packet
  | .reflect index packet => line.reflect env net index packet
  | .deliver index choices => line.deliver env net index choices
  | .advance k duration =>
    (ReflexiveNfd.step env (net.nodes k) (.advance duration)).map fun t => { net with nodes := update net.nodes k t }

variable {line} {env} {net after : Network} {m : Flight} {k j : Nat} {name : Name} {face ingress : Face} {token : Option PitToken}

section
variable (line : Line) (net : Network) (m : Flight)

-- The token a consumer Interest has on its way to a place: the consumer's own,
-- then the one in the table of the forwarder below.
def Issued : Nat → Name → Option PitToken → Prop
  | 0,name,token => ∃ a ∈ net.asked, a.name = name ∧ token = some a.token
  | k + 1,name,token => ∃ value, (net.nodes k).pitAssist.nameToToken name = (value,true) ∧ token = some (setPitToken value)

def Below : Nat → Name → Face → Prop
  | 0,name,face => ∃ a ∈ net.asked, a.name = name ∧ a.consumer = face ∧ face ∈ line.consumers
  | k + 1,_,face => face = line.down (k + 1)

def Outbound : Prop :=
  match m.destination with
  | .forwarder k ingress => k ≤ line.last ∧ line.Below net k m.packet.name ingress ∧
      Issued net k m.packet.name m.packet.pitToken
  | .producer => Issued net (line.last + 1) m.packet.name m.packet.pitToken
  | .consumer _ => True

-- A producer Interest on its way down: from above, under the token that the
-- place above has heard with the consumer Interest it answers.
def Inbound : Prop :=
  match m.destination with
  | .forwarder k ingress => ingress = line.up k ∧
      ∃ b ∈ net.heard, b.place = k + 1 ∧ b.name = m.origin ∧ m.packet.pitToken = b.token
  | .consumer face => (∃ a ∈ net.asked, a.name = m.origin ∧ a.consumer = face ∧ m.packet.pitToken = some a.token) ∧
      ∃ b ∈ net.heard, b.place = 0 ∧ b.name = m.origin ∧ m.packet.pitToken = b.token
  | .producer => False

end

inductive Aloft (line : Line) (env : Env) (net : Network) (m : Flight) : Prop where
  | request : IsConsumer env m.packet.name → m.origin = m.packet.name → m.packet.nextHopFaceId = none →
      line.Outbound net m → Aloft line env net m
  | answer : IsProducer env m.packet.name → line.Inbound net m → Aloft line env net m

structure Coherent (line : Line) (env : Env) (net : Network) : Prop where
  nodes : ∀ k, Reached env (net.nodes k)
  bestRoute : ∀ k name, ((net.nodes k).findEffectiveStrategy name).kind = .bestRoute
  once : (net.asked.map Asked.name).Nodup
  octets : ∀ a ∈ net.asked, a.token.octets.length = 4
  heard : ∀ b ∈ net.heard, Issued net b.place b.name b.token
  prevToken : ∀ k name value, (net.nodes k).pitAssist.nameToPrevToken name = (value,true) →
    ∃ b ∈ net.heard, b.place = k ∧ b.name = name ∧ value = receivedToken env b.token
  downstreams : ∀ k, ∀ e ∈ (net.nodes k).pit, IsConsumer env e.name → ∀ r ∈ e.inRecords, line.Below net k e.name r.face
  flights : ∀ m ∈ net.flights, line.Aloft env net m

structure Grows (net after : Network) : Prop where
  asked : ∀ a ∈ net.asked, a ∈ after.asked
  heard : ∀ b ∈ net.heard, b ∈ after.heard
  tables : ∀ k, (net.nodes k).pitAssist.Extends (after.nodes k).pitAssist

theorem Issued.grows (issued : Issued net k name token) (grows : Grows net after) : Issued after k name token := by
  cases k with
  | zero =>
    obtain ⟨a,listed,named,same⟩ := issued
    exact ⟨a,grows.asked a listed,named,same⟩
  | succ k =>
    obtain ⟨value,known,same⟩ := issued
    exact ⟨value,(grows.tables k).token known,same⟩

theorem Below.grows (below : line.Below net k name face) (grows : Grows net after) : line.Below after k name face := by
  cases k with
  | zero =>
    obtain ⟨a,listed,rest⟩ := below
    exact ⟨a,grows.asked a listed,rest⟩
  | succ k => exact below

theorem Outbound.grows (outbound : line.Outbound net m) (grows : Grows net after) : line.Outbound after m := by
  unfold Outbound at outbound ⊢
  split at outbound
  · obtain ⟨within,below,issued⟩ := outbound
    exact ⟨within,below.grows grows,issued.grows grows⟩
  · exact Issued.grows outbound grows
  · trivial

theorem Inbound.grows (inbound : line.Inbound net m) (grows : Grows net after) : line.Inbound after m := by
  unfold Inbound at inbound ⊢
  split at inbound
  · obtain ⟨facing,b,listed,rest⟩ := inbound
    exact ⟨facing,b,grows.heard b listed,rest⟩
  · obtain ⟨⟨a,asked,rest⟩,b,listed,others⟩ := inbound
    exact ⟨⟨a,grows.asked a asked,rest⟩,b,grows.heard b listed,others⟩
  · exact inbound

theorem Aloft.grows (aloft : line.Aloft env net m) (grows : Grows net after) : line.Aloft env after m := by
  cases aloft with
  | request consumer origin direct outbound => exact .request consumer origin direct (outbound.grows grows)
  | answer producer inbound => exact .answer producer (inbound.grows grows)

theorem launch_parts {sent : List Effect} (launched : x ∈ sent.filterMap (line.launch k origin)) :
    ∃ f p d, Effect.interest f p ∈ sent ∧ line.link k f = some d ∧ x = ⟨origin,d,overLink p⟩ := by
  obtain ⟨w,inside,made⟩ := mem_filterMap.mp launched
  cases w with
  | data | nack => cases made
  | interest f p =>
    obtain ⟨d,linked,rfl⟩ := map_eq_some_iff.mp made
    exact ⟨f,p,d,inside,linked,rfl⟩

theorem Issued.octets (coherent : line.Coherent env net) (issued : Issued net k name token) :
    ∃ pitToken, token = some pitToken ∧ FourOctets token := by
  cases k with
  | zero =>
    obtain ⟨a,listed,_,rfl⟩ := issued
    exact ⟨_,rfl,fun other same => some.inj same ▸ coherent.octets a listed⟩
  | succ k =>
    obtain ⟨value,_,rfl⟩ := issued
    exact ⟨_,rfl,fun other same => some.inj same ▸ rfl⟩

theorem launch_request (coherent : line.Coherent env net) (consumer : IsConsumer env m.packet.name)
    (direct : m.packet.nextHopFaceId = none) (same : m.origin = m.packet.name) (within : k ≤ line.last)
    (below : line.Below net k m.packet.name ingress)
    (taken : ReflexiveNfd.step env (net.nodes k) (.interest m.packet ingress choices) = some t) (now : after.nodes k = t)
    (launched : x ∈ t.sent.filterMap (line.launch k m.origin)) : line.Aloft env after x := by
  obtain ⟨f,p,d,sent,linked,rfl⟩ := launch_parts launched
  obtain ⟨named,horizon,value,carried,known⟩ :=
    step_request (coherent.nodes k) taken consumer direct (coherent.bestRoute k _) sent
  have issued : Issued after (k + 1) p.name p.pitToken := ⟨value,by rw [now,named]; exact known,carried⟩
  refine .request (named ▸ consumer) (same.trans named.symm) rfl ?_
  unfold link at linked
  split at linked
  · cases linked
    split
    · rename_i inner
      exact ⟨inner,rfl,issued⟩
    · rename_i outer
      obtain rfl : k = line.last := Nat.le_antisymm within (Nat.not_lt.mp outer)
      exact issued
  · cases k with
    | zero =>
      simp only at linked
      split at linked
      · cases linked
        trivial
      · cases linked
    | succ k =>
      simp only at linked
      split at linked
      · rename_i back
        have adHoc := horizon (by rw [back,show ingress = _ from below])
        rw [back,(line.pointToPoint.1 (k + 1)).2] at adHoc
        cases adHoc
      · cases linked

theorem launch_answer (coherent : line.Coherent env net) (producer : IsProducer env m.packet.name) (grows : Grows net after)
    (above : ∃ b ∈ net.heard, b.place = k + 1 ∧ b.name = m.origin ∧ m.packet.pitToken = b.token)
    (taken : ReflexiveNfd.step env (net.nodes k) (.interest m.packet ingress choices) = some t)
    (launched : x ∈ t.sent.filterMap (line.launch k m.origin)) : line.Aloft env after x := by
  have sound := reached_sound (coherent.nodes k)
  obtain ⟨f,p,d,sent,linked,rfl⟩ := launch_parts launched
  obtain ⟨b,listed,place,origin,token⟩ := above
  have issued := coherent.heard b listed
  rw [place,origin] at issued
  obtain ⟨value,known,written⟩ := issued
  obtain ⟨named,⟨e,present,entry,r,downstream,facing⟩,prev,carried,stored⟩ :=
    step_reflected (coherent.nodes k) taken producer (coherent.bestRoute k _) (token.trans written) known sent
  obtain ⟨c,heard,here,about,received⟩ := coherent.prevToken k _ _ stored
  have before := coherent.heard c heard
  rw [here,about] at before
  obtain ⟨pitToken,some,four⟩ := before.octets coherent
  have same : p.pitToken = c.token := by rw [carried,received,set_received four,some,getD_some]
  have consumer : IsConsumer env e.name := by
    rw [entry]
    exact tokenToName_consumer sound ((sound.assist.inverse _ _).mp known)
  have below := coherent.downstreams k e present consumer r downstream
  rw [entry,facing] at below
  refine Aloft.grows (.answer (named ▸ producer) ?_) grows
  unfold link at linked
  cases k with
  | zero =>
    obtain ⟨a,asked,mine,face,attached⟩ := below
    simp only [if_neg (line.below f attached),if_pos attached] at linked
    cases linked
    obtain ⟨a',asked',mine',written'⟩ := before
    obtain rfl : a = a' := inj_on_of_nodup_map coherent.once asked asked' (mine.trans mine'.symm)
    exact ⟨⟨a,asked,mine,face,same.trans written'⟩,c,heard,here,about,same⟩
  | succ k =>
    obtain rfl : f = line.down (k + 1) := below
    simp only [if_neg (line.apart (k + 1)).symm,if_true] at linked
    cases linked
    exact ⟨rfl,c,heard,here,about,same⟩

theorem mem_hear (listed : b ∈ hear env k packet heard) :
    b ∈ heard ∨ (IsConsumer env packet.name ∧ b = ⟨k,packet.name,packet.pitToken⟩) := by
  unfold hear at listed
  split at listed
  · rename_i consumer
    rcases mem_cons.mp listed with rfl | old
    · exact .inr ⟨consumer,rfl⟩
    · exact .inl old
  · exact .inl listed

theorem hear_old (listed : b ∈ heard) : b ∈ hear env k packet heard := by
  unfold hear
  split
  · exact mem_cons_of_mem _ listed
  · exact listed

theorem hear_new (consumer : IsConsumer env packet.name) :
    ⟨k,packet.name,packet.pitToken⟩ ∈ hear env k packet heard := by
  rw [hear,if_pos consumer]
  exact mem_cons_self

theorem Coherent.moved (coherent : line.Coherent env net) (nodes : after.nodes = update net.nodes k t)
    (grows : Grows net after) (once : (after.asked.map Asked.name).Nodup) (octets : ∀ a ∈ after.asked, a.token.octets.length = 4)
    (heard : ∀ b ∈ after.heard, b ∈ net.heard ∨ Issued after b.place b.name b.token)
    (flights : ∀ x ∈ after.flights, x ∈ net.flights ∨ line.Aloft env after x)
    (reached : Reached env t) (choice : t.strategyChoice = (net.nodes k).strategyChoice)
    (prevToken : ∀ name value, t.pitAssist.nameToPrevToken name = (value,true) →
      (net.nodes k).pitAssist.nameToPrevToken name = (value,true) ∨
        ∃ b ∈ after.heard, b.place = k ∧ b.name = name ∧ value = receivedToken env b.token)
    (downstreams : ∀ e ∈ t.pit, IsConsumer env e.name → ∀ r ∈ e.inRecords, line.Below after k e.name r.face) :
    line.Coherent env after := by
  have old : ∀ j name value, (net.nodes j).pitAssist.nameToPrevToken name = (value,true) →
      ∃ b ∈ after.heard, b.place = j ∧ b.name = name ∧ value = receivedToken env b.token := by
    intro j name value stored
    obtain ⟨b,listed,rest⟩ := coherent.prevToken j name value stored
    exact ⟨b,grows.heard b listed,rest⟩
  refine ⟨?_,?_,once,octets,fun b listed => ?_,?_,?_,fun x listed => ?_⟩
  · rw [nodes]
    exact (forall_update_iff net.nodes (p := fun _ s => Reached env s)).mpr ⟨reached,fun j _ => coherent.nodes j⟩
  · rw [nodes]
    refine (forall_update_iff net.nodes (p := fun _ s => ∀ name, (s.findEffectiveStrategy name).kind = .bestRoute)).mpr
      ⟨fun name => ?_,fun j _ => coherent.bestRoute j⟩
    rw [State.findEffectiveStrategy,choice]
    exact coherent.bestRoute k name
  · rcases heard b listed with before | new
    · exact (coherent.heard b before).grows grows
    · exact new
  · rw [nodes]
    refine (forall_update_iff net.nodes (p := fun j s => ∀ name value, s.pitAssist.nameToPrevToken name = (value,true) →
      ∃ b ∈ after.heard, b.place = j ∧ b.name = name ∧ value = receivedToken env b.token)).mpr ⟨?_,fun j _ => old j⟩
    intro name value stored
    rcases prevToken name value stored with before | new
    · exact old k name value before
    · exact new
  · rw [nodes]
    refine (forall_update_iff net.nodes (p := fun j s => ∀ e ∈ s.pit, IsConsumer env e.name → ∀ r ∈ e.inRecords,
      line.Below after j e.name r.face)).mpr ⟨downstreams,fun j _ e present consumer r listed => ?_⟩
    exact (coherent.downstreams j e present consumer r listed).grows grows
  · rcases flights x listed with before | new
    · exact (coherent.flights x before).grows grows
    · exact new

theorem Coherent.outside (coherent : line.Coherent env net) (nodes : after.nodes = net.nodes) (grows : Grows net after)
    (once : (after.asked.map Asked.name).Nodup) (octets : ∀ a ∈ after.asked, a.token.octets.length = 4)
    (heard : ∀ b ∈ after.heard, b ∈ net.heard ∨ Issued after b.place b.name b.token)
    (flights : ∀ x ∈ after.flights, x ∈ net.flights ∨ line.Aloft env after x) : line.Coherent env after :=
  coherent.moved (k := 0) (t := net.nodes 0) (nodes.trans (update_eq_self 0 net.nodes).symm) grows once octets heard flights
    (coherent.nodes 0) rfl (fun _ _ => .inl)
    (fun e present consumer r listed => (coherent.downstreams 0 e present consumer r listed).grows grows)

theorem update_grows (extended : (net.nodes k).pitAssist.Extends t.pitAssist) (nodes : after.nodes = update net.nodes k t)
    (asked : after.asked = net.asked) (heard : ∀ b ∈ net.heard, b ∈ after.heard) : Grows net after := by
  refine ⟨by rw [asked]; exact fun _ listed => listed,heard,?_⟩
  rw [nodes]
  exact (forall_update_iff net.nodes (p := fun j s => (net.nodes j).pitAssist.Extends s.pitAssist)).mpr
    ⟨extended,fun _ _ => .refl _⟩

section
variable (coherent : line.Coherent env net) (taken : ReflexiveNfd.step env (net.nodes k) (.interest m.packet ingress choices) = some t)
include coherent taken

theorem handled_grows :
    Grows net (line.handled env net index k m t) :=
  update_grows (step_extends (reached_sound (coherent.nodes k)) taken) rfl rfl (fun _ => hear_old)

theorem handled_coherent
    (own : IsConsumer env m.packet.name →
      line.Below net k m.packet.name ingress ∧ Issued net k m.packet.name m.packet.pitToken)
    (launched : ∀ x ∈ t.sent.filterMap (line.launch k m.origin), line.Aloft env (line.handled env net index k m t) x) :
    line.Coherent env (line.handled env net index k m t) := by
  have grows : Grows net (line.handled env net index k m t) := handled_grows coherent taken
  refine coherent.moved rfl grows coherent.once coherent.octets (fun b listed => ?_) (fun x listed => ?_)
    (Reached.next (coherent.nodes k) taken) (step_strategyChoice taken) (fun name value stored => ?_)
    (fun e present consumer r listed => ?_)
  · rcases mem_hear listed with old | ⟨consumer,rfl⟩
    · exact .inl old
    · exact .inr ((own consumer).2.grows grows)
  · rcases mem_append.mp listed with old | new
    · exact .inl (mem_of_mem_eraseIdx old)
    · exact .inr (launched x new)
  · rcases step_prevToken taken stored with old | ⟨consumer,rfl,rfl⟩
    · exact .inl old
    · exact .inr ⟨_,hear_new consumer,rfl,rfl,rfl⟩
  · rcases step_downstreams (reached_sound (coherent.nodes k)) taken present listed with
      ⟨e',inside,names,r',held,facing⟩ | ⟨names,facing⟩
    · rw [← names] at consumer
      have below := coherent.downstreams k e' inside consumer r' held
      rw [names,facing] at below
      exact below.grows grows
    · rw [names] at consumer ⊢
      rw [facing]
      exact (own consumer).1.grows grows

end

theorem grows_outside (nodes : after.nodes = net.nodes) (asked : ∀ a ∈ net.asked, a ∈ after.asked)
    (heard : ∀ b ∈ net.heard, b ∈ after.heard) : Grows net after :=
  ⟨asked,heard,fun k => by rw [nodes]; exact .refl _⟩

section
variable (coherent : line.Coherent env net)
include coherent

theorem express_coherent (expressed : line.express env net consumer packet = some after) :
    line.Coherent env after := by
  unfold express at expressed
  split at expressed
  · cases expressed
  · rename_i token carried
    split at expressed
    · rename_i enabled
      obtain ⟨attached,reflexive,unasked,four,_⟩ := enabled
      cases expressed
      refine coherent.outside rfl (grows_outside rfl (fun _ => mem_cons_of_mem _) (fun _ listed => listed)) ?_ ?_
        (fun _ => .inl) ?_
      · exact nodup_cons.mpr ⟨unasked,coherent.once⟩
      · intro a listed
        rcases mem_cons.mp listed with rfl | old
        · exact four
        · exact coherent.octets a old
      · intro x listed
        rcases mem_append.mp listed with old | new
        · exact .inl old
        · cases mem_singleton.mp new
          refine .inr (.request reflexive rfl rfl ⟨Nat.zero_le _,?_,?_⟩)
          · exact ⟨_,mem_cons_self,rfl,rfl,attached⟩
          · exact ⟨_,mem_cons_self,rfl,carried⟩
    · cases expressed

theorem reflect_coherent (reflected : line.reflect env net index packet = some after) :
    line.Coherent env after := by
  unfold reflect at reflected
  split at reflected
  · cases reflected
  · rename_i b found
    split at reflected
    · rename_i enabled
      obtain ⟨place,producer,token⟩ := enabled
      cases reflected
      refine coherent.outside rfl (grows_outside rfl (fun _ listed => listed) (fun _ listed => listed)) coherent.once
        coherent.octets (fun _ => .inl) (fun x listed => ?_)
      rcases mem_append.mp listed with old | new
      · exact .inl old
      · cases mem_singleton.mp new
        exact .inr (.answer producer ⟨rfl,b,mem_of_getElem? found,place,rfl,token⟩)
    · cases reflected

theorem deliver_coherent (delivered : line.deliver env net index choices = some after) :
    line.Coherent env after := by
  unfold deliver at delivered
  split at delivered
  · cases delivered
  · rename_i m found
    have aloft := coherent.flights m (mem_of_getElem? found)
    have left : ∀ x ∈ net.flights.eraseIdx index, x ∈ net.flights := fun x => mem_of_mem_eraseIdx
    split at delivered
    · cases delivered
      exact coherent.outside rfl (grows_outside rfl (fun _ listed => listed) (fun _ listed => listed)) coherent.once
        coherent.octets (fun _ => .inl) (fun x listed => .inl (left x listed))
    · rename_i landing
      cases delivered
      have grows : Grows net { net with
          flights := net.flights.eraseIdx index, heard := hear env (line.last + 1) m.packet net.heard } :=
        grows_outside rfl (fun _ listed => listed) (fun _ => hear_old)
      refine coherent.outside rfl grows coherent.once coherent.octets (fun b listed => ?_) (fun x listed => .inl (left x listed))
      rcases mem_hear listed with old | ⟨consumer,rfl⟩
      · exact .inl old
      · cases aloft with
        | answer producer => simp [IsProducer,consumer.2] at producer
        | request _ _ _ outbound =>
          simp only [Outbound,landing] at outbound
          exact .inr (outbound.grows grows)
    · rename_i k ingress landing
      obtain ⟨t,taken,rfl⟩ := map_eq_some_iff.mp delivered
      cases aloft with
      | request consumer same direct outbound =>
        simp only [Outbound,landing] at outbound
        obtain ⟨within,below,issued⟩ := outbound
        refine handled_coherent coherent taken (fun _ => ⟨below,issued⟩) (fun x launched => ?_)
        exact launch_request coherent consumer direct same within below taken (update_self ..) launched
      | answer producer inbound =>
        simp only [Inbound,landing] at inbound
        refine handled_coherent coherent taken (fun consumer => ?_) (fun x launched => ?_)
        · simp [IsProducer,consumer.2] at producer
        · exact launch_answer coherent producer (handled_grows coherent taken) inbound.2 taken launched

theorem advance_coherent
    (taken : ReflexiveNfd.step env (net.nodes k) (.advance duration) = some t) :
    line.Coherent env { net with nodes := update net.nodes k t } := by
  have tables : t.pitAssist = (net.nodes k).pitAssist ∧ t.pit = (net.nodes k).pit ∧
      t.strategyChoice = (net.nodes k).strategyChoice := by
    cases taken
    exact ⟨rfl,rfl,rfl⟩
  obtain ⟨assist,pit,choice⟩ := tables
  have grows : Grows net { net with nodes := update net.nodes k t } :=
    update_grows (by rw [assist]; exact .refl _) rfl rfl (fun _ listed => listed)
  refine coherent.moved rfl grows coherent.once coherent.octets (fun _ => .inl) (fun _ => .inl)
    (Reached.next (coherent.nodes k) taken) choice (fun name value stored => ?_) (fun e present consumer r listed => ?_)
  · rw [assist] at stored
    exact .inl stored
  · rw [pit] at present
    exact (coherent.downstreams k e present consumer r listed).grows grows

theorem step_coherent (taken : line.step env net event = some after) :
    line.Coherent env after := by
  cases event with
  | express => exact express_coherent coherent taken
  | reflect => exact reflect_coherent coherent taken
  | deliver => exact deliver_coherent coherent taken
  | advance =>
    simp only [step] at taken
    obtain ⟨t,advanced,rfl⟩ := map_eq_some_iff.mp taken
    exact advance_coherent coherent advanced

end

theorem initial_coherent (initial : net.Initial) : line.Coherent env net := by
  refine ⟨fun k => .start (initial.nodes k),initial.bestRoute,by simp [initial.asked],by simp [initial.asked],
    by simp [initial.heard],fun k name value stored => ?_,fun k e present => ?_,by simp [initial.flights]⟩
  · rw [(initial.nodes k).pitAssist,PitAssist.nameToPrevToken_exact] at stored
    cases stored
  · rw [(initial.nodes k).pit] at present
    cases present

-- Every producer Interest in flight carries the token that the place above has
-- heard with the consumer Interest it answers, and one that gets to an end host
-- gets to the consumer that sent it, with the consumer's own token.
theorem delivery (path : Transition.Reached (line.step env) Network.Initial net) :
    (net.asked.map Asked.name).Nodup ∧ ∀ m ∈ net.flights, IsProducer env m.packet.name →
      match m.destination with
      | .producer => False
      | .consumer face => (∃ a ∈ net.asked, a.name = m.origin ∧ a.consumer = face ∧ m.packet.pitToken = some a.token) ∧
          ∃ b ∈ net.heard, b.place = 0 ∧ b.name = m.origin ∧ m.packet.pitToken = b.token
      | .forwarder k ingress => ingress = line.up k ∧
          ∃ b ∈ net.heard, b.place = k + 1 ∧ b.name = m.origin ∧ m.packet.pitToken = b.token := by
  have coherent : line.Coherent env net :=
    Reached.invariant (fun _ => initial_coherent) (fun _ _ _ => (step_coherent · ·)) path
  refine ⟨coherent.once,fun m listed producer => ?_⟩
  cases coherent.flights m listed with
  | request consumer => simp [IsProducer,consumer.2] at producer
  | answer _ inbound =>
    unfold Inbound at inbound
    cases landing : m.destination with
    | forwarder k ingress => simpa only [landing] using inbound
    | consumer face => simpa only [landing] using inbound
    | producer => simp only [landing] at inbound

end Line

namespace Demo

def line : Line where
  last := 1
  up := fun _ => producer
  down := fun _ => consumer
  consumers := [consumer]
  apart := fun _ => by decide
  below := by decide
  pointToPoint := ⟨fun _ => ⟨rfl,rfl⟩,by decide⟩

def network : Network := ⟨fun _ => node .bestRoute,[],[],[]⟩

theorem node_bestRoute (name : Name) : ((node .bestRoute).findEffectiveStrategy name).kind = .bestRoute := by
  unfold State.findEffectiveStrategy StrategyChoice.findEffectiveStrategy
  cases found : findLongestPrefixMatch StrategyChoiceEntry.name (node .bestRoute).strategyChoice name with
  | none => rfl
  | some record =>
    obtain ⟨depth,_,here⟩ := exists_of_findSome?_eq_some found
    have listed := mem_of_find?_eq_some here
    rw [mem_singleton.mp listed]
    rfl

theorem network_initial : network.Initial := ⟨fun _ => node_initial,fun _ => node_bestRoute,rfl,rfl,rfl⟩

end Demo

theorem delivery_demo : ∃ net m, Transition.Reached (Demo.line.step Demo.env) Network.Initial net ∧ m ∈ net.flights ∧
    m.origin = Demo.requestName ∧ m.destination = .consumer Demo.consumer ∧ IsProducer Demo.env m.packet.name ∧
    ∃ a ∈ net.asked, a.name = Demo.requestName ∧ a.consumer = Demo.consumer ∧ m.packet.pitToken = some a.token := by
  obtain ⟨net,before,listed⟩ : ∃ net ∈ run (Demo.line.step Demo.env) Demo.network
      [.express Demo.consumer (Demo.request 7 1),.deliver 0 { words := [42] },.deliver 0 { words := [43] },.deliver 0 {},
        .reflect 0 (Demo.answer 43 9),.deliver 0 {},.deliver 0 {}],
    ⟨Demo.requestName,.consumer Demo.consumer,Demo.answer 7 9⟩ ∈ net.flights := by decide
  have path := run_reached (.start Demo.network_initial) before
  have reflexive : IsProducer Demo.env (Demo.answer 7 9).name := rfl
  obtain ⟨a,asked,named,face,token⟩ := ((Line.delivery path).2 _ listed reflexive).1
  exact ⟨net,_,path,listed,rfl,rfl,reflexive,a,asked,named,face,token⟩

end ReflexiveNfd
