import ReflexiveNfd.Reflection

namespace ReflexiveNfd
open List Option Transition
open Demo hiding env
variable {env : Env} {s t : State} {e : Entry} {ingress face : Face} {choices : Choices} {packet i p : Interest} {h : History}

def FourOctets (token : Option PitToken) : Prop := ∀ pitToken, token = some pitToken → pitToken.octets.length = 4

def receivedToken (env : Env) (token : Option PitToken) : UInt32 :=
  match token with
  | none => 0
  | some pitToken => tokenValue env pitToken

theorem four_read (four : pitToken.octets.length = 4) : ∃ value, readPitToken pitToken = some value := by
  obtain ⟨a,b,c,d,same⟩ := four_octets pitToken.octets four
  exact ⟨joinOctets a b c d,by simp [readPitToken,same]⟩

theorem set_received (four : FourOctets token) : setPitToken (receivedToken env token) = token.getD (setPitToken 0) := by
  cases token with
  | none => rfl
  | some pitToken =>
    have length := four pitToken rfl
    obtain ⟨value,read⟩ := four_read length
    simp only [receivedToken,tokenValue,read,getD_some]
    exact set_read length read

-- Tokens have four octets, and an Interest for a name already in the token
-- table repeats the token that came with the first one.
def Agreeing (env : Env) (h : History) : Event → Prop
  | .interest packet ingress _ => ∀ i, screen env h.current packet ingress = .accepted i →
      FourOctets i.pitToken ∧
      (IsConsumer env i.name → h.current.pitAssist.existName i.name →
        h.current.pitAssist.nameToPrevToken i.name = (interestToken env i,true))
  | _ => True

def Agreed (env : Env) (h : History) : Prop :=
  ∀ a ∈ h.records, FourOctets a.token ∧
    (IsConsumer env a.name → h.current.pitAssist.nameToPrevToken a.name = (receivedToken env a.token,true))

theorem handle_extends (sound : Sound env s) (handled : handle env s event = some t) : s.pitAssist.Extends t.pitAssist := by
  obtain ⟨calls,ran⟩ := handle_calls sound handled
  exact (PitAssist.calls_bijective sound.assist ran).2

theorem step_extends (sound : Sound env s) (taken : step env s event = some t) : s.pitAssist.Extends t.pitAssist := by
  have extended := handle_extends sound.cleared taken
  exact extended

theorem step_enrols (taken : step env s (.interest packet ingress choices) = some t)
    (accepted : screen env s packet ingress = .accepted i) (consumer : IsConsumer env i.name) :
    s.pitAssist.ensureName i.name (interestToken env i) choices.words = some t.pitAssist := by
  have arrived := step_arrives taken
  cases arrival_enrolment (interest_arrival arrived) with
  | unchanged others => exact (others i accepted consumer).elim
  | consumer again _ made =>
    cases accepted.symm.trans again
    exact made

theorem observe_agreed (sound : Sound env h.current) (agreed : Agreed env h) (guard : Agreeing env h event)
    (taken : observe env h event = some k) : Agreed env k := by
  obtain ⟨next,records⟩ := record_parts taken
  intro a listed
  rw [records] at listed
  rcases mem_append.mp listed with new | old
  · -- the Interest that has just arrived
    cases event with
    | interest packet ingress choices =>
      cases screened : screen env h.current packet ingress with
      | accepted i =>
        rw [receive_accepted screened] at new
        cases mem_singleton.mp new
        obtain ⟨four,repeated⟩ := guard i screened
        refine ⟨four,fun consumer => ?_⟩
        cases known : h.current.pitAssist.existName i.name with
        | true => exact (step_extends sound next).prevToken (repeated consumer known)
        | false => exact PitAssist.ensureName_prevToken known (step_enrols next screened consumer)
      | _ =>
        rw [receive_refused (by simp [screened])] at new
        cases new
    | _ => cases new
  · obtain ⟨four,same⟩ := agreed a old
    exact ⟨four,fun consumer => (step_extends sound next).prevToken (same consumer)⟩

theorem guarded_agreed (path : Guarded (observe env) Started (Agreeing env) h) : Agreed env h := by
  refine path.invariant ?_ ?_
  · rintro h ⟨_,empty⟩
    simp [Agreed,empty]
  · intro h event k prior agreed guard taken
    exact observe_agreed (observed_sound prior) agreed guard taken

-- A producer Interest that BestRoute sends goes to a downstream of the entry its
-- token was made for. It carries that downstream's latest token if no Interest
-- for the name ever came with a token other than the first.
theorem agreement (path : Transition.Reached (observe env) Started h)
    (taken : step env h.current (.interest packet ingress choices) = some t)
    (accepted : screen env h.current packet ingress = .accepted i) (producer : IsProducer env i.name)
    (best : (h.current.findEffectiveStrategy i.name).kind = .bestRoute) (present : Effect.interest face p ∈ t.sent) :
    ∃ e ∈ h.current.pit, h.current.pitAssist.tokenToName (interestToken env i) = (e.name,true) ∧
      (∃ r ∈ e.inRecords, r.face = face) ∧
      (Guarded (observe env) Started (Agreeing env) h →
        ∃ a, newest h.records e.id face = some a ∧ p.pitToken = some (a.token.getD (setPitToken 0))) := by
  have sound := observed_sound path
  have logged := observed_logged path
  obtain ⟨e,prev,selected,target,_,token⟩ := producer_sent (recorded_reached path) taken accepted producer present
  rw [best] at target
  obtain ⟨r,first,rfl⟩ := target
  have inside := (Pit.findBasedOnName_spec selected.entry).1
  have listed := mem_of_head? first
  refine ⟨e,inside,selected.name,⟨r,listed,rfl⟩,fun guarded => ?_⟩
  obtain ⟨a,logged',entry,facing,_⟩ := logged.downstreams e inside r listed
  obtain ⟨b,kept,found,same,_⟩ := newest_exists logged'
  rw [entry,facing] at found
  have named : e.name = b.name := logged.names b kept e inside (by rw [same,entry])
  obtain ⟨four,agreed⟩ := guarded_agreed guarded b kept
  have stored := agreed (named ▸ tokenToName_consumer sound selected.name)
  rw [← named,selected.prevToken] at stored
  obtain ⟨rfl,_⟩ := Prod.mk.inj stored
  exact ⟨b,found,by rw [token,set_received four]⟩

def Demo.asked (further : List Event) : Option History :=
  run (observe Demo.env) ⟨node .bestRoute,[]⟩
    (.interest (request 7 1) consumer { words := [42] } :: further)

theorem agreement_once : ∃ h t a p, Transition.Guarded (observe Demo.env) Started (Agreeing Demo.env) h ∧
    step Demo.env h.current (.interest (answer 42 9) producer {}) = some t ∧
    Effect.interest consumer p ∈ t.sent ∧ a ∈ h.records ∧ p.pitToken = some (a.token.getD (setPitToken 0)) := by
  obtain ⟨h,before,accepted,best,t,taken,present⟩ : ∃ h ∈ Demo.asked [],
      screen Demo.env h.current (answer 42 9) producer = .accepted (arrive (answer 42 9) producer) ∧
      (h.current.findEffectiveStrategy answerName).kind = .bestRoute ∧ ∃ t ∈ step Demo.env h.current (.interest (answer 42 9) producer {}),
        .interest consumer { answer 7 9 with incomingFaceId := some 257 } ∈ t.sent := by decide
  obtain ⟨h,first,rest⟩ := run_parts before
  cases some.inj rest
  have path : Guarded (observe Demo.env) Started (Agreeing Demo.env) h := by
    refine .next (.start ⟨node_initial,rfl⟩) ?_ first
    intro i again
    obtain rfl : arrive (request 7 1) consumer = i := Screened.accepted.inj again
    refine ⟨fun pitToken same => ?_,fun _ known => (by cases known)⟩
    cases same
    rfl
  obtain ⟨e,_,_,_,agreed⟩ := agreement path.reached taken accepted rfl best present
  obtain ⟨a,found,token⟩ := agreed path
  exact ⟨h,t,a,_,path,taken,present,mem_of_find?_eq_some found,token⟩

-- The token in the table is that of the first Interest. After a retransmission
-- with a new one, the producer Interest still carries the old.
theorem agreement_retransmitted : ∃ h t p e a, Transition.Reached (observe Demo.env) Started h ∧
    step Demo.env h.current (.interest (answer 42 9) producer {}) = some t ∧
    (h.current.findEffectiveStrategy answerName).kind = .bestRoute ∧
    Effect.interest consumer p ∈ t.sent ∧ p.pitToken = some (setPitToken 7) ∧
    h.current.pit = [e] ∧ h.current.pitAssist.tokenToName 42 = (e.name,true) ∧
    newest h.records e.id consumer = some a ∧ a.token = some (setPitToken 8) := by
  obtain ⟨h,before,best,⟨t,taken,present⟩,e,_,only,known,a,last,token⟩ : ∃ h ∈ Demo.asked [.interest (request 8 2) consumer {}],
      (h.current.findEffectiveStrategy answerName).kind = .bestRoute ∧
      (∃ t ∈ step Demo.env h.current (.interest (answer 42 9) producer {}),
        .interest consumer { answer 7 9 with incomingFaceId := some 257 } ∈ t.sent) ∧
      ∃ e ∈ h.current.pit, h.current.pit = [e] ∧ h.current.pitAssist.tokenToName 42 = (e.name,true) ∧
        ∃ a ∈ newest h.records e.id consumer, a.token = some (setPitToken 8) := by decide
  exact ⟨h,t,_,e,a,run_reached (.start ⟨node_initial,rfl⟩) before,taken,best,present,rfl,only,known,last,token⟩

end ReflexiveNfd
