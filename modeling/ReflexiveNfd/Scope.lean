import ReflexiveNfd.Tags

namespace ReflexiveNfd
open Actions Timers
open Demo hiding env
variable {env : Env} {strategy : Strategy} {s t u : State} {original : Entry} {id : EntryId} {face ingress : Face}
  {choices : Choices} {packet i : Interest} {name : Name}

structure Legal (ingress : Face) (i : Interest) (face : Face) : Prop where
  horizon : face.id = ingress.id → face.linkType = .adHoc
  scope : wouldViolateScope ingress i face = false

theorem mayForward_legal : mayForward ingress i face ↔ Legal ingress i face := by
  unfold mayForward
  constructor
  · intro may
    simp only [Bool.not_eq_true',Bool.or_eq_false_iff] at may
    refine ⟨fun same => ?_,may.2⟩
    simpa [same] using may.1
  · intro legal
    by_cases same : face.id = ingress.id
    · simp [legal.horizon same,legal.scope]
    · simp [same,legal.scope]

theorem Legal.named (legal : Legal ingress i face) (same : i'.name = i.name) : Legal ingress i' face :=
  mayForward_legal.mp ((mayForward_name same).trans (mayForward_legal.mpr legal))

theorem screen_accepted (accepted : screen env s packet ingress = .accepted i) :
    i.name = packet.name ∧ i.nonce = packet.nonce ∧ i.canBePrefix = packet.canBePrefix ∧ i.mustBeFresh = packet.mustBeFresh ∧
      i.pitToken = packet.pitToken ∧ i.nextHopFaceId = packet.nextHopFaceId := by
  unfold screen at accepted
  split at accepted
  · cases accepted
  · split at accepted
    · cases accepted
    · split at accepted
      · cases accepted
      · cases accepted
        unfold stripForwardingHint
        split <;> exact ⟨rfl,rfl,rfl,rfl,rfl,rfl⟩

def Lawful (ingress : Face) (i : Interest) (w : Effect) : Prop :=
  ∀ f p, w = .interest f p → p.name = i.name ∧ Legal ingress i f

theorem nack_lawful : Lawful ingress i (.nack f n) := fun _ _ other => by cases other

theorem trigger_lawful (bound : object < s.interests.length) (other : fromProducer env (s.interest object) = false)
    (best : strategy.kind = .bestRoute) (name : (s.interest object).name = i.name) :
    Emits (Lawful ingress i) s (afterReceiveInterest env strategy s object ingress id choices) := by
  refine ((afterReceiveInterest_acts bound).emits ?_).mono ?_
  · rintro o f ⟨rfl,_⟩
    exact bound
  · intro w emitted
    cases emitted with
    | data impossible => exact impossible.elim
    | nack => exact nack_lawful
    | interest chosen named _ =>
      obtain ⟨rfl,egress⟩ := chosen
      simp only [Egress,best,other,Bool.false_eq_true,if_false] at egress
      obtain ⟨_,_,_,may⟩ := egress
      intro f p equal
      cases equal
      exact ⟨named.trans name,(mayForward_legal.mp may).named name.symm⟩

theorem recordDownstream_strategyChoice : (recordDownstream s object ingress id).strategyChoice = s.strategyChoice :=
  recordDownstream_same State.strategyChoice (fun _ _ _ => rfl)

theorem admitted_strategyChoice : (admitted s i).1.strategyChoice = s.strategyChoice := admitted_same State.strategyChoice (fun _ _ _ => rfl)

theorem insertPitToken_strategyChoice (ensured : insertPitToken env (admitted s i).1 i words = some u) :
    u.strategyChoice = s.strategyChoice :=
  (insertPitToken_same State.strategyChoice (fun _ => rfl) ensured).trans admitted_strategyChoice

theorem onContentStoreMiss_lawful (handling : Handling s object id i.name) (same : s.interest object = i)
    (other : fromProducer env i = false) (direct : i.nextHopFaceId = none)
    (best : (s.findEffectiveStrategy i.name).kind = .bestRoute) :
    Emits (Lawful ingress i) s (onContentStoreMiss env s object ingress id choices) := by
  obtain ⟨holds,nextHop⟩ := recordDownstream_own handling.bound same
  have choice : (recordDownstream s object ingress id).strategyChoice = s.strategyChoice := recordDownstream_strategyChoice
  have named : ((recordDownstream s object ingress id).entry id).name = i.name := (recordDownstream_handling handling).entryName
  have effective : ∀ u : State, u.strategyChoice = s.strategyChoice → (u.findEffectiveStrategy i.name).kind = .bestRoute := by
    intro u same
    rw [State.findEffectiveStrategy,same]
    exact best
  have ordinary : fromProducer env ((recordDownstream s object ingress id).interest object) = false :=
    (fromProducer_name holds.name).trans other
  unfold onContentStoreMiss onContentStoreMissWith Call.trigger
  simp only [nextHop,direct]
  refine Emits.trans (t := recordDownstream s object ingress id) (.silent recordDownstream_sent) ?_
  split
  · refine Emits.trans (t := (recordDownstream s object ingress id).setTag object _) (.silent rfl) (trigger_lawful ?_ ?_ ?_ ?_)
    · simpa [State.setTag] using holds.bound
    · rw [interest_setTag holds.bound]
      exact ordinary
    · change (State.findEffectiveStrategy _ ((recordDownstream s object ingress id).entry id).name).kind = _
      rw [named]
      exact effective _ choice
    · rw [interest_setTag holds.bound]
      exact holds.name
  · refine trigger_lawful holds.bound ordinary ?_ holds.name
    rw [named]
    exact effective _ choice

theorem reflect_sent (sound : Sound env s) (producer : IsProducer env i.name)
    (selected : Selected env s i original prevPitToken) (best : (s.findEffectiveStrategy i.name).kind = .bestRoute)
    (first : original.inRecords.head? = some r) : ∃ hopLimit,
      (reflect env (admitted s i).1 s.interests.length ingress (admitted s i).2 original prevPitToken choices).sent =
        s.sent ++ (if i.hopLimit = some 0 ∧ r.face.scope = .nonLocal then []
          else [.interest r.face { i with hopLimit := hopLimit, pitToken := some (setPitToken prevPitToken) }]) := by
  obtain ⟨hopLimit,equal,zero⟩ := reflecting_interest s i ingress prevPitToken
  obtain ⟨e,found⟩ : ∃ e, (reflecting s i ingress prevPitToken).pit.find i = some e := reflecting_find
  have sent : (reflect env (admitted s i).1 s.interests.length ingress (admitted s i).2 original prevPitToken choices).sent =
      (sendInterest env (reflecting s i ingress prevPitToken) s.interests.length r.face original.id).1.sent := by
    rw [reflect_trigger sound,afterReceiveInterest,best]
    simp only [BestRouteStrategy.afterReceiveInterest,reflecting_producer producer,if_true,
      reflecting_original sound producer selected,first]
  rw [sent,sendInterest_sent reflecting_length,reflecting_sent,equal]
  have here : ∀ j : Interest, j.name = i.name → j.canBePrefix = i.canBePrefix → j.mustBeFresh = i.mustBeFresh →
      (reflecting s i ingress prevPitToken).pit.find j = some e := by
    intro j name canBePrefix mustBeFresh
    rw [← found]
    simp [Pit.find,Entry.canMatch,name,canBePrefix,mustBeFresh]
  refine ⟨hopLimit,?_⟩
  unfold forwarded
  simp only [zero]
  split
  · rfl
  · have stamped : ∀ j : Interest, j.name = i.name →
        forwardedToken env (reflecting s i ingress prevPitToken) j original.id = some (setPitToken prevPitToken) :=
      fun _ => reflecting_stamped sound producer selected
    rw [if_neg (by simp [here])]
    simp [stamped]

-- A producer Interest whose original Interest came first from a face it may
-- not leave on. It is sent there unless HopLimit stops it.
def Unchecked (env : Env) (s : State) (packet : Interest) (ingress : Face) : Prop :=
  ∃ i original prev r, screen env s packet ingress = .accepted i ∧ IsProducer env i.name ∧ Selected env s i original prev ∧
    original.inRecords.head? = some r ∧ ¬ Legal ingress packet r.face ∧ ¬ (i.hopLimit = some 0 ∧ r.face.scope = .nonLocal)

theorem loop_lawful : Emits (Lawful ingress i) s (onInterestLoop s j ingress) :=
  onInterestLoop_emits.mono (fun _ ⟨_,equal⟩ => equal ▸ nack_lawful)

theorem reflect_lawful (sound : Sound env s) (accepted : screen env s packet ingress = .accepted i)
    (producer : IsProducer env i.name) (selected : Selected env s i original prevPitToken)
    (best : (s.findEffectiveStrategy i.name).kind = .bestRoute) (checked : ¬ Unchecked env s packet ingress) :
    Emits (Lawful ingress packet) s
      (reflect env (admitted s i).1 s.interests.length ingress (admitted s i).2 original prevPitToken choices) := by
  intro w present
  rcases reflect_emits sound producer selected w present with old | reflected
  · exact .inl old
  · cases w with
    | data | nack => exact .inr (fun _ _ other => by cases other)
    | interest f p =>
      obtain ⟨chosen,prev,again,target,named,_⟩ := reflected
      obtain ⟨rfl,rfl⟩ := selected.unique again
      rw [best] at target
      obtain ⟨r,first,rfl⟩ := target
      obtain ⟨hopLimit,sent⟩ := reflect_sent sound producer selected best first
      rw [sent] at present
      rcases List.mem_append.mp present with old | new
      · exact .inl old
      · split at new
        · cases new
        · rename_i alive
          refine .inr (fun f' p' equal => ?_)
          obtain ⟨rfl,rfl⟩ := Effect.interest.inj equal
          refine ⟨named.trans (screen_accepted accepted).1,?_⟩
          exact not_not.mp (fun illegal => checked ⟨i,original,prevPitToken,r,accepted,producer,selected,first,illegal,alive⟩)

theorem interest_lawful (sound : Sound env s) (arrived : onIncomingInterest env s packet ingress choices = some t)
    (direct : packet.nextHopFaceId = none) (best : (s.findEffectiveStrategy packet.name).kind = .bestRoute)
    (checked : ¬ Unchecked env s packet ingress) : Emits (Lawful ingress packet) s t := by
  have silent : ∀ {i known}, insertPitToken env (admitted s i).1 i choices.words = some known → known.sent = s.sent :=
    fun ensured => (insertPitToken_sent ensured).trans admitted_sent
  cases interest_outcome arrived with
  | dropped => exact .refl s
  | looped => exact loop_lawful
  | raised => exact .silent admitted_sent
  | unanswered _ _ _ left =>
    rcases left with rfl | ⟨_,rfl⟩
    · exact .silent admitted_sent
    · exact Emits.trans (.silent admitted_sent) (.emit nack_lawful)
  | reflected accepted producer selected =>
    rw [← (screen_accepted accepted).1] at best
    exact reflect_lawful sound accepted producer ((admitted_selected sound producer).mp selected) best checked
  | duplicate _ _ ensured _ => exact Emits.trans (.silent (silent ensured)) loop_lawful
  | hit _ _ ensured _ _ _ =>
    refine Emits.trans (.silent (silent ensured)) (onContentStoreHit_emits.mono ?_)
    rintro w ⟨d,rfl⟩ f p other
    cases other
  | @miss i known store accepted other ensured _ =>
    obtain ⟨name,_,_,_,_,nextHop⟩ := screen_accepted accepted
    have handling := insertPitToken_handling (admitted_handling sound) ensured
    have stored : Quiet known { known with cs := store } := (frame_tables _ _ _).toQuiet
    have same := insertPitToken_strategyChoice ensured
    have before : known.sent = s.sent := silent ensured
    refine Emits.trans (t := { known with cs := store }) (.silent before) ?_
    refine (onContentStoreMiss_lawful (handling.quiet stored) ?_ (other_fromProducer other) (nextHop.trans direct) ?_).mono ?_
    · exact (insertPitToken_interest ensured).trans admitted_interest
    · change (known.findEffectiveStrategy i.name).kind = .bestRoute
      rw [State.findEffectiveStrategy,same,name]
      exact best
    · intro w lawful f p equal
      obtain ⟨named,legal⟩ := lawful f p equal
      exact ⟨named.trans name,legal.named name.symm⟩

-- Split horizon and scope control hold for an Interest on BestRoute exactly
-- when it does not take the unchecked way to a downstream.
theorem scope_exact (path : Reached env s) (taken : step env s (.interest packet ingress choices) = some t)
    (direct : packet.nextHopFaceId = none) (best : (s.findEffectiveStrategy packet.name).kind = .bestRoute) :
    (∀ f p, Effect.interest f p ∈ t.sent → (f.id = ingress.id → f.linkType = .adHoc) ∧ wouldViolateScope ingress packet f = false) ↔
      ¬ Unchecked env s packet ingress := by
  have sound := reached_sound path
  have cleared := sound.cleared
  have arrived := step_arrives taken
  constructor
  · rintro legal ⟨i,original,prev,r,accepted,producer,selected,first,illegal,alive⟩
    have kind : (s.findEffectiveStrategy i.name).kind = .bestRoute := by rw [(screen_accepted accepted).1]; exact best
    have still : Selected env { s with sent := [] } i original prev := selected.same rfl
    have reflected := selected_reflects cleared arrived accepted producer still
    obtain ⟨hopLimit,sent⟩ := reflect_sent cleared producer still kind first
    rw [← reflected,if_neg alive] at sent
    have present : Effect.interest r.face { i with hopLimit := hopLimit, pitToken := some (setPitToken prev) } ∈ t.sent := by
      rw [sent]
      exact List.mem_cons_self
    exact illegal ⟨(legal _ _ present).1,(legal _ _ present).2⟩
  · intro checked f p present
    have same : ¬ Unchecked env { s with sent := [] } packet ingress := by
      rintro ⟨i,original,prev,r,accepted,producer,selected,rest⟩
      exact checked ⟨i,original,prev,r,accepted,producer,selected.same rfl,rest⟩
    rcases interest_lawful cleared arrived direct best same _ present with old | lawful
    · cases old
    · obtain ⟨_,legal⟩ := lawful f p rfl
      exact ⟨legal.horizon,legal.scope⟩

theorem scope_request : ∃ s t, Reached Demo.env s ∧
    step Demo.env s (.interest (request 7 1) consumer { words := [42] }) = some t ∧
    (∃ p, Effect.interest producer p ∈ t.sent) ∧
    ∀ f p, Effect.interest f p ∈ t.sent → (f.id = consumer.id → f.linkType = .adHoc) ∧
      wouldViolateScope consumer (request 7 1) f = false := by
  obtain ⟨t,taken,sent⟩ : ∃ t ∈ step Demo.env (node .bestRoute) (.interest (request 7 1) consumer { words := [42] }),
    .interest producer { request 42 1 with incomingFaceId := some 256 } ∈ t.sent := by decide
  have path : Reached Demo.env (node .bestRoute) := .start node_initial
  refine ⟨_,t,path,taken,⟨_,sent⟩,(scope_exact path taken rfl rfl).mpr ?_⟩
  rintro ⟨i,_,_,_,accepted,producer,_⟩
  obtain rfl : arrive (request 7 1) consumer = i := Screened.accepted.inj accepted
  exact absurd producer (by simp only [IsProducer]; decide)

-- The consumer sends its own token's producer Interest: it goes back out on the
-- point-to-point face it came from.
theorem scope_returned : ∃ s t p, Reached Demo.env s ∧
    step Demo.env s (.interest (answer 42 9) consumer {}) = some t ∧
    (s.findEffectiveStrategy answerName).kind = .bestRoute ∧
    Effect.interest consumer p ∈ t.sent ∧ consumer.linkType = .pointToPoint := by
  obtain ⟨s,before,best,t,taken,sent⟩ : ∃ s ∈ step Demo.env (node .bestRoute) (.interest (request 7 1) consumer { words := [42] }),
    (s.findEffectiveStrategy answerName).kind = .bestRoute ∧ ∃ t ∈ step Demo.env s (.interest (answer 42 9) consumer {}),
      .interest consumer { answer 7 9 with incomingFaceId := some 256 } ∈ t.sent := by decide
  exact ⟨s,t,_,Transition.Reached.next (.start node_initial) before,taken,best,sent,rfl⟩

end ReflexiveNfd
