import ReflexiveNfd.Isolation

namespace ReflexiveNfd
variable {s t : State} {e e' original : Entry} {ingress face : Face} {packet i p : Interest} {r r' : InRecord}

-- What one forwarder on the path does with an Interest, in terms of the packets
-- that come and go and of its own token table.

theorem interestToken_accepted (accepted : screen env s packet ingress = .accepted i) :
    interestToken env i = interestToken env packet := by
  simp only [interestToken,(screen_accepted accepted).2.2.2.2.1]

theorem step_prevToken (taken : step env s (.interest packet ingress choices) = some t)
    (stored : t.pitAssist.nameToPrevToken name = (token,true)) :
    s.pitAssist.nameToPrevToken name = (token,true) ∨
      (IsConsumer env packet.name ∧ name = packet.name ∧ token = interestToken env packet) := by
  cases arrival_enrolment (interest_arrival (step_arrives taken)) with
  | unchanged _ same _ =>
    rw [same] at stored
    exact .inl stored
  | consumer accepted consumer made _ =>
    rcases PitAssist.ensureName_prevOrigin made stored with old | ⟨rfl,rfl⟩
    · exact .inl old
    · rw [(screen_accepted accepted).1] at consumer ⊢
      exact .inr ⟨consumer,rfl,interestToken_accepted accepted⟩

theorem step_downstreams (sound : Sound env s) (taken : step env s (.interest packet ingress choices) = some t)
    (present : e' ∈ t.pit) (listed : r' ∈ e'.inRecords) :
    (∃ e ∈ s.pit, e.name = e'.name ∧ ∃ r ∈ e.inRecords, r.face = r'.face) ∨ (e'.name = packet.name ∧ r'.face = ingress) := by
  have cleared := sound.cleared
  have arrival := interest_arrival (step_arrives taken)
  cases screened : screen env { s with sent := [] } packet ingress with
  | accepted i =>
    obtain ⟨e,inside,ids,names,records⟩ := (arrival_follows cleared arrival screened).origin e' present
    rcases records r' listed with ⟨r,held,same⟩ | ⟨mine,facing,_⟩
    · rcases admitted_origin inside with old | ⟨_,rfl⟩
      · exact .inl ⟨e,old,names.symm,r,held,congrArg Prod.fst same⟩
      · cases held
    · have fresh : Sound env (admitted { s with sent := [] } i).1 := admitted_sound cleared
      have handling : Handling (admitted { s with sent := [] } i).1 _ (admitted { s with sent := [] } i).2 i.name :=
        admitted_handling cleared
      have own := fresh.entry inside
      rw [mine] at own
      rw [names,← own,handling.entryName,(screen_accepted screened).1]
      exact .inr ⟨rfl,facing⟩
  | _ =>
    obtain ⟨e,inside,trimmed⟩ := (arrival.quiet (by simp [screened])).origin present
    obtain ⟨r,held,same⟩ := trimmed.inRecord listed
    exact .inl ⟨e,inside,trimmed.name.symm,r,held,congrArg Prod.fst same⟩

theorem interest_strategyChoice (arrived : onIncomingInterest env s packet ingress choices = some t) :
    t.strategyChoice = s.strategyChoice := by
  cases interest_outcome arrived with
  | dropped => rfl
  | looped => exact onInterestLoop_frame.strategyChoice
  | raised => exact admitted_strategyChoice
  | unanswered _ _ _ left =>
    rcases left with rfl | ⟨_,rfl⟩
    · exact admitted_strategyChoice
    · exact admitted_strategyChoice
  | reflected =>
    refine (reflect_frame admitted_bound).strategyChoice.trans ?_
    exact recordDownstream_strategyChoice.trans admitted_strategyChoice
  | duplicate _ _ ensured _ =>
    have before := insertPitToken_strategyChoice ensured
    exact onInterestLoop_frame.strategyChoice.trans before
  | hit _ _ ensured _ _ _ =>
    have before := insertPitToken_strategyChoice ensured
    exact onContentStoreHit_frame.strategyChoice.trans before
  | @miss i known store _ _ ensured _ =>
    have before := insertPitToken_strategyChoice ensured
    refine (onContentStoreMiss_frame (s := { known with cs := store }) (insertPitToken_bound (t := known) ensured)).strategyChoice.trans ?_
    exact recordDownstream_strategyChoice.trans before

theorem step_strategyChoice (taken : step env s (.interest packet ingress choices) = some t) :
    t.strategyChoice = s.strategyChoice := by
  have same := interest_strategyChoice (step_arrives taken)
  exact same

theorem step_request (path : Reached env s) (taken : step env s (.interest packet ingress choices) = some t)
    (consumer : IsConsumer env packet.name) (direct : packet.nextHopFaceId = none)
    (best : (s.findEffectiveStrategy packet.name).kind = .bestRoute) (present : Effect.interest face p ∈ t.sent) :
    p.name = packet.name ∧ (face.id = ingress.id → face.linkType = .adHoc) ∧
      ∃ token, p.pitToken = some (setPitToken token) ∧ t.pitAssist.nameToToken packet.name = (token,true) := by
  have cleared := (reached_sound path).cleared
  have arrived := step_arrives taken
  have checked : ¬ Unchecked env { s with sent := [] } packet ingress := by
    rintro ⟨i,_,_,_,accepted,producer,_⟩
    rw [(screen_accepted accepted).1] at producer
    simp [IsProducer,consumer.2] at producer
  rcases interest_lawful cleared arrived direct best checked _ present with old | lawful
  · cases old
  · obtain ⟨named,legal⟩ := lawful face p rfl
    rcases interest_tokened cleared arrived _ present with old | tokened
    · cases old
    · rw [← named] at consumer ⊢
      obtain ⟨token,carried,known⟩ := tokened consumer
      have after : Sound env t := step_sound (reached_sound path) taken
      exact ⟨rfl,legal.horizon,token,carried,(after.assist.inverse _ _).mpr known⟩

theorem interestToken_set (carried : packet.pitToken = some (setPitToken token)) : interestToken env packet = token := by
  simp [interestToken,carried,tokenValue,read_set]

theorem refused_emits (refused : ∀ i, screen env s packet ingress ≠ .accepted i)
    (arrived : onIncomingInterest env s packet ingress choices = some t) :
    Emits (fun w => ∃ nack, w = .nack ingress nack) s t := by
  cases interest_outcome arrived with
  | dropped => exact .refl s
  | looped => exact onInterestLoop_emits
  | raised accepted | unanswered accepted | reflected accepted | duplicate accepted | hit accepted | miss _ accepted =>
    exact (refused _ accepted).elim

theorem step_reflected (path : Reached env s) (taken : step env s (.interest packet ingress choices) = some t)
    (producer : IsProducer env packet.name) (best : (s.findEffectiveStrategy packet.name).kind = .bestRoute)
    (carried : packet.pitToken = some (setPitToken token)) (known : s.pitAssist.nameToToken name = (token,true))
    (present : Effect.interest face p ∈ t.sent) :
    p.name = packet.name ∧ (∃ e ∈ s.pit, e.name = name ∧ ∃ r ∈ e.inRecords, r.face = face) ∧
      ∃ prev, p.pitToken = some (setPitToken prev) ∧ s.pitAssist.nameToPrevToken name = (prev,true) := by
  have arrived := step_arrives taken
  cases screened : screen env s packet ingress with
  | accepted i =>
    obtain ⟨named,_⟩ := screen_accepted screened
    rw [← named] at producer best
    obtain ⟨original,prev,selected,target,packetName,token'⟩ := producer_sent path taken screened producer present
    rw [best] at target
    obtain ⟨r,first,facing⟩ := target
    have origin : original.name = name := by
      have stored := selected.name
      rw [interestToken_accepted screened,interestToken_set carried,
        ((reached_sound path).assist.inverse _ _).mp known] at stored
      exact (congrArg Prod.fst stored).symm
    have inside := (Pit.findBasedOnName_spec selected.entry).1
    exact ⟨packetName.trans named,⟨original,inside,origin,r,List.mem_of_head? first,facing⟩,prev,token',
      origin ▸ selected.prevToken⟩
  | _ =>
    rcases refused_emits (fun i accepted => by cases screened.symm.trans accepted) arrived _ present with old | ⟨_,other⟩
    · cases old
    · cases other

end ReflexiveNfd
