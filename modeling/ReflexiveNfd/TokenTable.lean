import ReflexiveNfd.Emissions

namespace ReflexiveNfd
open Actions Timers Transition PitAssist
open Demo hiding env
variable {env : Env} {strategy : Strategy} {s t : State} {e : Entry} {id : EntryId} {object : ObjId} {ingress : Face}
  {choices : Choices} {packet i : Interest} {a : PitAssist}

def Tokened (env : Env) (a : PitAssist) : Effect → Prop
  | .interest _ packet => IsConsumer env packet.name →
      ∃ token, packet.pitToken = some (setPitToken token) ∧ a.tokenToName token = (packet.name,true)
  | _ => True

theorem other_fromProducer (other : i.name.hasRN9999 env.convention = .ok false) : fromProducer env i = false := by
  simp [fromProducer,isReflexiveInterestFromProducer,other]

theorem producer_fromProducer (producer : IsProducer env i.name) : fromProducer env i := by
  unfold IsProducer at producer
  simp [fromProducer,isReflexiveInterestFromProducer,producer]

section
variable (assist : s.pitAssist.Bijective)
include assist

-- The fallback value 0 of nameToToken cannot be taken for a registered name.
theorem consumer_token (known : s.pitAssist.existName i.name)
    (consumer : IsConsumer env i.name) :
    ∃ token, forwardedToken env s i id = some (setPitToken token) ∧ s.pitAssist.tokenToName token = (i.name,true) := by
  obtain ⟨token,found⟩ := existName_exact.mp known
  refine ⟨token,?_,(assist.inverse _ _).mp found⟩
  have reflexive : isReflexiveInterest env.convention i := consumer.1
  simp [forwardedToken,other_fromProducer consumer.2,reflexive,found]

theorem emitted_tokened (known : ∀ o f, sends o f → IsConsumer env (s.interest o).name → s.pitAssist.existName (s.interest o).name)
    (emitted : Emitted env s id sends returns w) : Tokened env s.pitAssist w := by
  cases emitted with
  | @interest o f packet chosen named token =>
    intro consumer
    rw [named] at consumer ⊢
    have found : ∃ value, forwardedToken env s { s.interest o with pitToken := none } id = some (setPitToken value) ∧
        s.pitAssist.tokenToName value = ((s.interest o).name,true) :=
      consumer_token assist (known _ _ chosen consumer) consumer
    obtain ⟨value,written,stored⟩ := found
    exact ⟨value,token.trans written,stored⟩
  | data => exact trivial
  | nack => exact trivial

section
variable (bound : object < s.interests.length) (known : IsConsumer env (s.interest object).name → s.pitAssist.existName (s.interest object).name)
include bound known

theorem trigger_tokened :
    Emits (Tokened env s.pitAssist) s (afterReceiveInterest env strategy s object ingress id choices) := by
  refine ((afterReceiveInterest_acts bound).emits ?_).mono (fun w => emitted_tokened assist ?_)
  · rintro o f ⟨rfl,_⟩
    exact bound
  · rintro o f ⟨rfl,_⟩
    exact known

theorem onOutgoingInterest_tokened :
    Emits (Tokened env s.pitAssist) s (onOutgoingInterest env s object egress id).1 := by
  intro w present
  rw [onOutgoingInterest_sent bound] at present
  rcases List.mem_append.mp present with old | new
  · exact .inl old
  · refine .inr ?_
    unfold forwarded at new
    split at new
    · simp at new
    · split at new
      · simp at new
      · obtain rfl : w = _ := by simpa using new
        intro consumer
        exact consumer_token assist (known consumer) consumer

end

end

theorem Handling.registered (handling : Handling s object id name) (cleared : Cleared env s name)
    (consumer : IsConsumer env (s.interest object).name) : s.pitAssist.existName (s.interest object).name := by
  rw [handling.object] at consumer ⊢
  exact cleared.registered consumer

theorem miss_tokened (assist : s.pitAssist.Bijective) (handling : Handling s object id name) (cleared : Cleared env s name) :
    Emits (Tokened env s.pitAssist) s (onContentStoreMiss env s object ingress id choices) := by
  have same : (recordDownstream s object ingress id).pitAssist = s.pitAssist := recordDownstream_pitAssist
  have later : Handling (recordDownstream s object ingress id) object id name := recordDownstream_handling handling
  have still : Cleared env (recordDownstream s object ingress id) name := ⟨cleared.classified,by rw [same]; exact cleared.registered⟩
  have silent : Emits (Tokened env s.pitAssist) s (recordDownstream s object ingress id) := .silent recordDownstream_sent
  refine silent.trans ?_
  rw [← same] at assist ⊢
  unfold onContentStoreMiss onContentStoreMissWith Call.trigger
  dsimp only
  split
  · split
    · exact onOutgoingInterest_tokened assist later.bound (later.registered still)
    · exact .refl _
  · split
    · -- writing the next hop's token changes neither the table nor the name
      have tagged : ∀ pitToken, Quiet (recordDownstream s object ingress id)
          ((recordDownstream s object ingress id).setTag object pitToken) := fun _ => Frame.setTag.toQuiet
      have marked := fun pitToken => later.quiet (tagged pitToken)
      exact Emits.trans (t := (recordDownstream s object ingress id).setTag object _) (.silent rfl)
        (trigger_tokened assist (marked _).bound ((marked _).registered (still.quiet (tagged _))))
    · exact trigger_tokened assist later.bound (later.registered still)

theorem reflect_tokened (assist : s.pitAssist.Bijective) (handling : Handling s object id name) (producer : IsProducer env name) :
    Emits (Tokened env s.pitAssist) s (reflect env s object ingress id original prevPitToken choices) := by
  have tagged : Frame s (s.setTag object (setPitToken prevPitToken)) := .setTag
  have later : Handling (recordDownstream (s.setTag object (setPitToken prevPitToken)) object ingress id) object id name :=
    recordDownstream_handling (handling.quiet tagged.toQuiet)
  have same : (recordDownstream (s.setTag object (setPitToken prevPitToken)) object ingress id).pitAssist = s.pitAssist :=
    recordDownstream_pitAssist
  have silent : Emits (Tokened env s.pitAssist) s
      (recordDownstream (s.setTag object (setPitToken prevPitToken)) object ingress id) := .silent recordDownstream_sent
  refine silent.trans ?_
  rw [← same] at assist ⊢
  exact trigger_tokened assist later.bound (later.registered (producer_cleared producer))

theorem insertPitToken_sent (ensured : insertPitToken env s interest words = some t) : t.sent = s.sent :=
  insertPitToken_same State.sent (fun _ => rfl) ensured

theorem admitted_sent : (admitted s interest).1.sent = s.sent := admitted_same State.sent (fun _ _ _ => rfl)

theorem onContentStoreHit_emits :
    Emits (fun w => ∃ d, w = .data ingress d) s (onContentStoreHit s object ingress id data) := by
  unfold onContentStoreHit afterContentStoreHit
  intro w present
  rw [sendData_sent] at present
  rcases List.mem_append.mp present with old | new
  · exact .inl old
  · split at new
    · cases new
    · exact .inr ⟨_,List.mem_singleton.mp new⟩

theorem onInterestLoop_tokened : Emits (Tokened env a) s (onInterestLoop s interest ingress) := by
  refine onInterestLoop_emits.mono ?_
  rintro w ⟨nack,rfl⟩
  exact trivial

theorem interest_tokened (sound : Sound env s) (arrived : onIncomingInterest env s packet ingress choices = some t) :
    Emits (Tokened env t.pitAssist) s t := by
  have fresh : ∀ i, Sound env (admitted s i).1 := fun _ => admitted_sound sound
  have handled : ∀ i, Handling (admitted s i).1 s.interests.length (admitted s i).2 i.name := fun _ => admitted_handling sound
  cases interest_outcome arrived with
  | dropped => exact .refl _
  | looped => exact onInterestLoop_tokened
  | raised => exact .silent admitted_sent
  | unanswered _ _ _ left =>
    rcases left with rfl | ⟨_,rfl⟩
    · exact .silent admitted_sent
    · exact Emits.trans (.silent admitted_sent) (.emit trivial)
  | @reflected i selected prev _ producer _ =>
    have same : (reflect env (admitted s i).1 s.interests.length ingress (admitted s i).2 selected prev choices).pitAssist =
        (admitted s i).1.pitAssist := (reflect_frame admitted_bound).pitAssist.trans recordDownstream_pitAssist
    rw [same]
    exact Emits.trans (.silent admitted_sent) (reflect_tokened (fresh i).assist (handled i) producer)
  | duplicate _ _ ensured _ =>
    exact Emits.trans (.silent ((insertPitToken_sent ensured).trans admitted_sent)) onInterestLoop_tokened
  | hit _ _ ensured _ _ _ =>
    refine Emits.trans (.silent ((insertPitToken_sent ensured).trans admitted_sent)) (onContentStoreHit_emits.mono ?_)
    rintro w ⟨d,rfl⟩
    exact trivial
  | @miss i known store _ other ensured _ =>
    obtain ⟨good,cleared⟩ := insertPitToken_sound (fresh i) other ensured
    have handling := insertPitToken_handling (handled i) ensured
    have stored : Quiet known { known with cs := store } := (frame_tables _ _ _).toQuiet
    have same : (onContentStoreMiss env { known with cs := store } s.interests.length ingress (admitted s i).2 choices).pitAssist =
        known.pitAssist := (onContentStoreMiss_frame (handling.quiet stored).bound).pitAssist.trans recordDownstream_pitAssist
    rw [same]
    exact Emits.trans (.silent ((insertPitToken_sent ensured).trans admitted_sent))
      (miss_tokened good.assist (handling.quiet stored) (cleared.quiet stored))

theorem resends_known (sound : Sound env s) (resends : Resends s id object face) :
    object < s.interests.length ∧
      (IsConsumer env (s.interest object).name → s.pitAssist.existName (s.interest object).name) := by
  obtain ⟨e,found,some,kept⟩ := resends
  have good := sound.entries e (Pit.get_id found).1
  have object : object < s.interests.length ∧ (s.interest object).name = e.name := by
    rcases kept with rfl | ⟨r,listed,rfl⟩
    · exact good.representative
    · exact good.downstreams r listed
  rw [object.2]
  exact ⟨object.1,good.registered some⟩

theorem trace_tokened (sound : Sound env s) (trace : Trace env s t) : Emits (Tokened env s.pitAssist) s t := by
  induction trace with
  | plain plain =>
    intro w present
    rcases plain.sent w present with old | other
    · exact .inl old
    · refine .inr ?_
      cases w with
      | interest f p => exact (other f p rfl).elim
      | data => exact trivial
      | nack => exact trivial
  | acts _ acts =>
    exact (acts.emits (fun _ _ resends => (resends_known sound resends).1)).mono
      (fun w => emitted_tokened sound.assist (fun _ _ resends => (resends_known sound resends).2))
  | retune changed => exact .silent (by rw [cancelTimers_form])
  | spend => exact .silent rfl
  | trans one _ first second =>
    have later := second (sound.quiet one.quiet)
    rw [one.quiet.pitAssist] at later
    exact (first sound).trans later

theorem handle_tokened (sound : Sound env s) (handled : handle env s event = some t) : Emits (Tokened env t.pitAssist) s t := by
  cases handle_cases sound handled with
  | interest _ arrived => exact interest_tokened sound arrived
  | finalize => exact .silent finalize_sent
  | routine _ trace =>
    rw [trace.quiet.pitAssist]
    exact trace_tokened sound trace

theorem finalize_pitAssist : (onInterestFinalize env s id).pitAssist = s.pitAssist := by
  unfold onInterestFinalize
  dsimp only
  split <;> exact insertDeadNonceList_frame.pitAssist

theorem handle_calls (sound : Sound env s) (handled : handle env s event = some t) :
    ∃ calls, run call s.pitAssist calls = some t.pitAssist := by
  cases handle_cases sound handled with
  | @interest _ _ choices _ _ arrived =>
    cases arrival_enrolment (interest_arrival arrived) with
    | unchanged _ same _ => exact ⟨[],by rw [same]; rfl⟩
    | @consumer i _ _ made _ =>
      exact ⟨[⟨i.name,interestToken env i,choices.words⟩],by simp [run,call,made]⟩
  | finalize => exact ⟨[],by rw [finalize_pitAssist]; rfl⟩
  | routine _ trace => exact ⟨[],by rw [trace.quiet.pitAssist]; rfl⟩

theorem reached_calls (path : Reached env s) : ∃ calls, run call .empty calls = some s.pitAssist := by
  refine (Guarded.invariant (P := fun s => ∃ calls, run call .empty calls = some s.pitAssist)
    ?_ ?_ path)
  · intro s initial
    exact ⟨[],by rw [initial.pitAssist]; rfl⟩
  · rintro s event t prior ⟨calls,ran⟩ _ taken
    obtain ⟨more,later⟩ := handle_calls (reached_sound prior).cleared taken
    exact ⟨calls ++ more,by rw [run_append,ran]; exact later⟩

-- The table, whatever calls built it; the calls a forwarder makes; and the
-- tokens a forwarder puts on consumer Interests.
theorem tokenTable_exact :
    (∀ calls a, run call .empty calls = some a →
      (∀ name token, a.nameToToken name = (token,true) ↔ a.tokenToName token = (name,true)) ∧
      (∀ name, a.nameToToken name ≠ (0,true)) ∧
      (∀ name, (∃ token, a.nameToPrevToken name = (token,true)) ↔ ∃ token, a.nameToToken name = (token,true)) ∧
      ∀ more b, run call a more = some b →
        ∀ name token, a.nameToToken name = (token,true) → b.nameToToken name = (token,true)) ∧
    (∀ env s, Reached env s → ∃ calls, run call .empty calls = some s.pitAssist) ∧
    (∀ env s event t, Reached env s → step env s event = some t →
      ∀ face packet, Effect.interest face packet ∈ t.sent → IsConsumer env packet.name →
        ∃ token, packet.pitToken = some (setPitToken token) ∧ t.pitAssist.tokenToName token = (packet.name,true)) := by
  refine ⟨?_,fun _ _ => reached_calls,?_⟩
  · intro calls a ran
    have valid := (calls_bijective empty_bijective ran).1
    refine ⟨valid.inverse,valid.nonzero,?_,?_⟩
    · intro name
      rw [valid.domain,existName_exact]
    · intro more b later name token
      exact (calls_bijective valid later).2.token
  · intro env s event t path taken face packet present
    have tokened := handle_tokened (reached_sound path).cleared taken
    rcases tokened _ present with old | good
    · cases old
    · exact good

theorem tokenTable_request :
    ∃ t token, step Demo.env (node .bestRoute) (.interest (request 7 1) consumer { words := [0,42] }) = some t ∧
      some (setPitToken 42) = some (setPitToken token) ∧ t.pitAssist.tokenToName token = (requestName,true) := by
  obtain ⟨t,taken,sent⟩ : ∃ t ∈ step Demo.env (node .bestRoute) (.interest (request 7 1) consumer { words := [0,42] }),
    .interest producer { request 42 1 with incomingFaceId := some 256 } ∈ t.sent := by decide
  obtain ⟨token,carried,known⟩ := tokenTable_exact.2.2 _ _ _ _ (.start node_initial) taken producer _ sent ⟨by decide,rfl⟩
  exact ⟨t,token,taken,carried,known⟩

end ReflexiveNfd
