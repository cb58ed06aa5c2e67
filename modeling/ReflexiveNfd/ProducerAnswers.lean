import ReflexiveNfd.Scope

namespace ReflexiveNfd
open Demo hiding env
variable {env : Env} {s t : State} {original : Entry} {ingress : Face} {packet i : Interest}

inductive Responded (packet : Interest) (ingress : Face) (t : State) : Prop where
  | sent (face : Face) (p : Interest) : Effect.interest face p ∈ t.sent → p.name = packet.name → p.nonce = packet.nonce → Responded packet ingress t
  | nacked (p : Interest) (reason : NackReason) : t.sent = [.nack ingress ⟨p,reason⟩] → p.name = packet.name → p.nonce = packet.nonce → Responded packet ingress t

theorem silent_unanswered (silent : t.sent = []) : ¬ Responded packet ingress t := by
  rintro (⟨_,_,present,_,_⟩ | ⟨_,_,only,_,_⟩)
  · rw [silent] at present
    cases present
  · rw [silent] at only
    cases only

-- Without a token, or with one that is not known, the Interest is Nacked from
-- onSendingRI itself. From there on it takes an entry with a downstream.
def Reflectable (env : Env) (s : State) (packet : Interest) : Prop :=
  interestToken env packet = 0 ∨ (s.pitAssist.tokenToName (interestToken env packet)).2 = false ∨
    ∃ original, s.pit.findBasedOnName (s.pitAssist.tokenToName (interestToken env packet)).1 = some original ∧ original.inRecords ≠ []

theorem known_prevToken (sound : Sound env s) (known : s.pitAssist.tokenToName token = (name,true)) :
    ∃ prevPitToken, s.pitAssist.nameToPrevToken name = (prevPitToken,true) :=
  (sound.assist.domain name).mpr (PitAssist.existName_exact.mpr ⟨token,(sound.assist.inverse _ _).mpr known⟩)

theorem accepted_hopLimit (accepted : screen env s packet ingress = .accepted i) (unlimited : packet.hopLimit = none) : i.hopLimit = none := by
  unfold screen at accepted
  rw [if_neg (by rw [unlimited]; exact nofun)] at accepted
  split at accepted
  · cases accepted
  · split at accepted
    · cases accepted
    · cases accepted
      unfold stripForwardingHint
      split <;> simp [arrive,unlimited]

-- BestRoute's own Nack goes through the entry handed in. With nothing left of that
-- entry's downstreams the producer has no in-record there either.
theorem reflect_silent (sound : Sound env s) (producer : IsProducer env i.name) (best : (s.findEffectiveStrategy i.name).kind = .bestRoute)
    (selected : Selected env s i original prevPitToken) (idle : original.inRecords = []) :
    (reflect env (admitted s i).1 s.interests.length ingress (admitted s i).2 original prevPitToken choices).sent = s.sent := by
  have entry : (reflecting s i ingress prevPitToken).entry original.id = original := reflecting_original sound producer selected
  have before : (reflecting s i ingress prevPitToken).sent = s.sent := reflecting_sent
  have bare : onOutgoingNack (reflecting s i ingress prevPitToken) .noRoute ingress original.id = reflecting s i ingress prevPitToken := by
    unfold onOutgoingNack
    rw [entry,Entry.getInRecord,idle]
    split <;> rfl
  rw [reflect_trigger sound,afterReceiveInterest,best]
  simp only [BestRouteStrategy.afterReceiveInterest,reflecting_producer producer,if_true,entry,idle,List.head?_nil,sendNoRouteNack,bare]
  exact before

theorem incoming_answered (choices : Choices) (sound : Sound env s) (quiet : s.sent = []) (accepted : screen env s packet ingress = .accepted i)
    (producer : IsProducer env packet.name) (unlimited : packet.hopLimit = none)
    (bestRoute : (s.findEffectiveStrategy packet.name).kind = .bestRoute) :
    ∃ t, onIncomingInterest env s packet ingress choices = some t ∧ (Responded packet ingress t ↔ Reflectable env s packet) := by
  obtain ⟨name,nonce,_,_,pitToken,_⟩ := screen_accepted accepted
  have token : interestToken env i = interestToken env packet := by simp only [interestToken,pitToken]
  have unlimited := accepted_hopLimit accepted unlimited
  rw [← name] at producer bestRoute
  have before : (admitted s i).1.sent = [] := admitted_sent.trans quiet
  have ran : onIncomingInterest env s packet ingress choices =
      some (onSendingRI env (admitted s i).1 s.interests.length ingress (admitted s i).2 choices) := by
    unfold onIncomingInterest onIncomingInterestWith
    rw [accepted]
    change classifyWith env (admitted s i).1 s.interests.length ingress (admitted s i).2 (Call.trigger env choices) (fun s => s) choices.words = _
    unfold classifyWith
    have classified : i.name.hasRN9999 env.convention = .ok true := producer
    simp only [isReflexiveInterestFromProducer,admitted_interest,classified,onSendingRI]
  refine ⟨_,ran,?_⟩
  rw [Reflectable,← token]
  by_cases zero : interestToken env i = 0
  · refine iff_of_true (.nacked i .none ?_ name nonce) (.inl zero)
    simp only [onSendingRI,onSendingRIWith,admitted_interest,zero,if_true,State.emit,before]
    rfl
  rcases known : s.pitAssist.tokenToName (interestToken env i) with ⟨originalName,present⟩
  have still : (admitted s i).1.pitAssist.tokenToName (interestToken env i) = (originalName,present) := by rw [admitted_pitAssist,known]
  cases present with
  | false =>
    refine iff_of_true (.nacked i .noRoute ?_ name nonce) (.inr (.inl rfl))
    simp only [onSendingRI,onSendingRIWith,admitted_interest,if_neg zero,still,State.emit,before]
    rfl
  | true =>
    have apart : originalName ≠ i.name := by
      rintro rfl
      have consumer := tokenToName_consumer sound known
      simp [IsProducer,consumer.2] at producer
    have settled : ∀ original, s.pit.findBasedOnName originalName = some original →
        (Responded packet ingress (onSendingRI env (admitted s i).1 s.interests.length ingress (admitted s i).2 choices) ↔ original.inRecords ≠ []) := by
      intro original found
      obtain ⟨_,rfl⟩ := Pit.findBasedOnName_spec found
      obtain ⟨prev,stored⟩ := known_prevToken sound known
      have selected : Selected env s i original prev := ⟨zero,known,found,stored⟩
      have cases := onSendingRI_cases env (admitted s i).1 s.interests.length ingress (admitted s i).2 choices
      rw [admitted_interest] at cases
      have chosen := (admitted_selected sound producer).mpr selected
      obtain ⟨other,token,also,equal⟩ := cases.resolve_right (fun unselected => unselected.1 _ _ chosen)
      obtain ⟨rfl,rfl⟩ := chosen.unique also
      rw [equal]
      constructor
      · intro answered idle
        exact silent_unanswered ((reflect_silent sound producer bestRoute selected idle).trans quiet) answered
      · intro waiting
        obtain ⟨r,rest,records⟩ := List.exists_cons_of_ne_nil waiting
        obtain ⟨hopLimit,sent⟩ := reflect_sent sound producer selected bestRoute (by rw [records]; rfl)
        rw [if_neg (by rw [unlimited]; exact fun both => by cases both.1)] at sent
        refine .sent r.face { i with hopLimit := hopLimit, pitToken := some (setPitToken prev) } ?_ name nonce
        rw [sent]
        exact List.mem_append_right _ List.mem_cons_self
    cases found : s.pit.findBasedOnName originalName with
    | none =>
      have silent : onSendingRI env (admitted s i).1 s.interests.length ingress (admitted s i).2 choices = (admitted s i).1 := by
        simp only [onSendingRI,onSendingRIWith,admitted_interest,if_neg zero,still,admitted_findBasedOnName apart,found]
      rw [silent]
      exact iff_of_false (silent_unanswered before) (by simp [zero])
    | some original =>
      rw [settled original found]
      simp [zero]

def Demo.Ignored (events : List Event) : Prop := ∃ s t, Transition.run (step Demo.env) (node .bestRoute) events = some s ∧ Reached Demo.env s ∧
  screen Demo.env s (answer 42 9) producer = .accepted (arrive (answer 42 9) producer) ∧
  (s.findEffectiveStrategy answerName).kind = .bestRoute ∧
  step Demo.env s (.interest (answer 42 9) producer {}) = some t ∧ ¬ Responded (answer 42 9) producer t

theorem Demo.ignored (silent : ∃ s ∈ Transition.run (step Demo.env) (node .bestRoute) events,
      screen Demo.env s (answer 42 9) producer = .accepted (arrive (answer 42 9) producer) ∧ (s.findEffectiveStrategy answerName).kind = .bestRoute ∧
        ∃ t ∈ step Demo.env s (.interest (answer 42 9) producer {}), t.sent = []) : Demo.Ignored events := by
  obtain ⟨s,ran,accepted,kind,t,taken,nothing⟩ := silent
  exact ⟨s,t,ran,Transition.run_reached (.start node_initial) ran,accepted,kind,taken,silent_unanswered nothing⟩

end ReflexiveNfd
