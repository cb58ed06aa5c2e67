import ReflexiveNfd.Watch

namespace ReflexiveNfd
open Actions Timers Option Transition
open Demo hiding env

def dispatched (env : Env) (s : State) : Event → Option Call
  | .interest packet ingress choices =>
    if ingress ∈ s.faces then (onIncomingInterestWith env s packet ingress some (fun _ => none) choices.words).join else none
  | _ => none

variable {env : Env} {s t : State} {e original : Entry} {id : EntryId} {face : Face} {choices : Choices} {i : Interest} {c : Call}

theorem onSendingRI_called (called : onSendingRIWith env s object ingress id some (fun _ => none) = some c) :
    ∃ original prevPitToken, Selected env s (s.interest object) original prevPitToken ∧
      c.state = recordDownstream (s.setTag object (setPitToken prevPitToken)) object ingress id ∧
      c.strategy = c.state.findEffectiveStrategy (c.state.entry id).name ∧ c.object = object ∧ c.ingress = ingress ∧
      c.entry = original.id := by
  unfold onSendingRIWith at called
  dsimp only at called
  split at called
  · cases called
  · rename_i nonzero
    split at called
    · cases called
    · rename_i originalInterestname known
      split at called
      · cases called
      · rename_i original found
        split at called
        · cases called
        · rename_i prevPitToken stored
          cases called
          obtain ⟨_,rfl⟩ := Pit.findBasedOnName_spec found
          exact ⟨original,prevPitToken,⟨nonzero,known,found,stored⟩,rfl,by dsimp only,rfl,rfl,rfl⟩

theorem onContentStoreMiss_called (called : onContentStoreMissWith env s object ingress id some (fun _ => none) = some c) :
    (c.state = recordDownstream s object ingress id ∨
      ∃ pitToken, c.state = (recordDownstream s object ingress id).setTag object pitToken) ∧
      c.strategy = c.state.findEffectiveStrategy (c.state.entry id).name ∧ c.object = object ∧ c.ingress = ingress ∧
      c.entry = id := by
  unfold onContentStoreMissWith at called
  dsimp only at called
  split at called
  · split at called
    · cases called
    · cases called
  · cases called
    refine ⟨?_,by dsimp only,rfl,rfl,rfl⟩
    split
    · exact .inr ⟨_,rfl⟩
    · exact .inl rfl

theorem detectAndForward_called (called : detectAndForwardWith env s object ingress id some (fun _ => none) = some c) :
    ∃ store, store.table = s.cs.table ∧ onContentStoreMissWith env { s with cs := store } object ingress id some (fun _ => none) = some c := by
  unfold detectAndForwardWith at called
  dsimp only at called
  split at called
  · cases called
  · split at called
    · exact ⟨s.cs,rfl,called⟩
    · split at called
      · cases called
      · rename_i searched
        exact ⟨_,(ContentStore.find_table searched).1,called⟩

structure Dispatch (env : Env) (s : State) (event : Event) (i : Interest) (c : Call) : Prop where
  underway : Underway s i c.state
  moves : Moves env s event s c.state
  object : c.object = s.interests.length
  held : ∃ r ∈ (c.state.entry (admitted s i).2).inRecords, r.face = c.ingress ∧ r.interest = c.object
  strategy : c.strategy = c.state.findEffectiveStrategy (c.state.entry (admitted s i).2).name

theorem dispatched_cases (sound : Sound env s) (called : dispatched env s event = some c) :
    ∃ packet choices i, event = .interest packet c.ingress choices ∧ screen env s packet c.ingress = .accepted i ∧
      Dispatch env s event i c ∧
      ((i.name.hasRN9999 env.convention = .ok false ∧ c.entry = (admitted s i).2) ∨
        (IsProducer env i.name ∧ ∃ original prev, Selected env s i original prev ∧ c.entry = original.id)) := by
  cases event with
  | interest packet ingress choices =>
    obtain ⟨here,called⟩ := ite_none_right_eq_some.mp called
    rw [join_eq_some_iff] at called
    unfold onIncomingInterestWith at called
    split at called
    · cases called
    · cases called
    · rename_i i accepted
      change classifyWith env (admitted s i).1 s.interests.length ingress (admitted s i).2 some (fun _ => none) choices.words =
        some (some c) at called
      unfold classifyWith at called
      simp only [isReflexiveInterestFromProducer,admitted_interest] at called
      split at called
      · cases called
      · rename_i producer
        obtain ⟨original,prev,selected,state,strategy,object,facing,entry⟩ := onSendingRI_called (some.inj called)
        rw [admitted_interest] at selected
        have tagged : Underway s i ((admitted s i).1.setTag s.interests.length (setPitToken prev)) := admitted_underway.frame .setTag
        have recorded : Moves env s (.interest packet ingress choices) _
            (recordDownstream ((admitted s i).1.setTag s.interests.length (setPitToken prev)) s.interests.length ingress
              (admitted s i).2) := recordDownstream_moves tagged.meets (tagged.faces ▸ here)
        refine ⟨packet,choices,i,by rw [facing],by rw [facing]; exact accepted,⟨?_,?_,object,?_,strategy⟩,
          .inr ⟨producer,original,prev,(admitted_selected sound producer).mp selected,entry⟩⟩
        · rw [state]
          exact tagged.recorded
        · rw [state]
          exact (admitted_moves.trans .setTag).trans recorded
        · rw [state,facing,object]
          exact tagged.held ingress
      · rename_i other
        obtain ⟨known,ensured,called⟩ := map_eq_some_iff.mp called
        obtain ⟨store,same,called⟩ := detectAndForward_called called
        obtain ⟨state,strategy,object,facing,entry⟩ := onContentStoreMiss_called called
        have looked : Underway s i { known with cs := store } := (admitted_underway.enrolled ensured).frame (frame_tables _ _ _)
        have stored : Moves env s (.interest packet ingress choices) known { known with cs := store } := .aside (.lookedUp same)
        have started := ((admitted_moves.trans (insertPitToken_moves ensured)).trans stored).trans
            (recordDownstream_moves looked.meets (looked.faces ▸ here))
        have ready : Underway s i c.state ∧ Moves env s (.interest packet ingress choices) s c.state ∧
            ∃ r ∈ (c.state.entry (admitted s i).2).inRecords, r.face = ingress ∧ r.interest = s.interests.length := by
          rcases state with same | ⟨pitToken,same⟩
          · rw [same]
            exact ⟨looked.recorded,started,looked.held ingress⟩
          · rw [same]
            exact ⟨looked.recorded.frame .setTag,started.trans .setTag,looked.held ingress⟩
        refine ⟨packet,choices,i,by rw [facing],by rw [facing]; exact accepted,⟨ready.1,ready.2.1,object,?_,strategy⟩,.inl ⟨other,entry⟩⟩
        rw [facing,object]
        exact ready.2.2
  | _ => cases called

def Presented (s : State) (object : ObjId) (ingress : Face) (id : EntryId) : Prop :=
  ∃ r, (s.entry id).getInRecord ingress = some r ∧ r.interest = object ∧ (s.entry id).canMatch (s.interest object) 0

theorem Dispatch.presented (dispatch : Dispatch env s event i c) (represented : Represented s) :
    Presented c.state c.object c.ingress (admitted s i).2 := by
  have after : Represented c.state := Performs.invariant (fun _ _ => permitted_represented) dispatch.moves represented
  obtain ⟨_,e,present,named,same⟩ := dispatch.underway.meets
  have entry : c.state.entry (admitted s i).2 = e := by
    rw [← named,State.entry,Pit.get_of_mem after.ids present,getD_some]
  obtain ⟨r,listed,facing,holds⟩ := dispatch.held
  rw [entry] at listed
  refine ⟨r,?_,holds,?_⟩
  · rw [entry,← facing]
    exact Keyed.lookup_distinct (after.entries e present).inRecords listed
  · rw [entry,dispatch.object]
    exact Entry.canMatch_key.mpr same

-- In every state reached, a call for an Interest that is not a producer's is made
-- with its own entry, where it is recorded; a producer's is recorded in its own
-- entry too, but the call is made with the original one that its token selects.
-- In orderly runs SelfLearningStrategy finds its in-record, and every pending RTO
-- timeout its entry and, if the face is still there, the in-record.
theorem dispatch_presented :
    (∀ s event c, Reached env s → dispatched env s event = some c →
      ∃ packet choices i own, event = .interest packet c.ingress choices ∧ screen env s packet c.ingress = .accepted i ∧
        Presented c.state c.object c.ingress own ∧
        (fromProducer env i = false → c.entry = own) ∧
        (fromProducer env i → ∃ original prev, Selected env s i original prev ∧ c.entry = original.id)) ∧
    ∀ s, Guarded (step env) Initial (Orderly env) s →
      (∀ event c, Orderly env s event → dispatched env s event = some c → c.strategy.kind = .selfLearning →
        ((c.state.entry c.entry).getInRecord c.ingress).isSome) ∧
      ∀ x ∈ s.scheduler.pending, ∀ id inFace firstOutFace, x.task = .rtoTimeout id inFace firstOutFace →
        ∃ e, s.pit.get id = some e ∧ ∀ face, s.getFace inFace = some face → (e.getInRecord face).isSome := by
  have presented : ∀ s event c, Reached env s → dispatched env s event = some c →
      ∃ packet choices i, event = .interest packet c.ingress choices ∧ screen env s packet c.ingress = .accepted i ∧
        Dispatch env s event i c ∧ Presented c.state c.object c.ingress (admitted s i).2 ∧
        ((i.name.hasRN9999 env.convention = .ok false ∧ c.entry = (admitted s i).2) ∨
          (IsProducer env i.name ∧ ∃ original prev, Selected env s i original prev ∧ c.entry = original.id)) := by
    intro s event c path called
    obtain ⟨packet,choices,i,arrived,accepted,dispatch,cases⟩ := dispatched_cases (reached_sound path) called
    exact ⟨packet,choices,i,arrived,accepted,dispatch,dispatch.presented (reached_represented path),cases⟩
  refine ⟨fun s event c path called => ?_,fun s path => ⟨fun event c orderly called learning => ?_,?_⟩⟩
  · obtain ⟨packet,choices,i,arrived,accepted,_,there,other | ⟨producer,reflected⟩⟩ := presented s event c path called
    · have ordinary := other_fromProducer other.1
      exact ⟨packet,choices,i,_,arrived,accepted,there,fun _ => other.2,fun reflexive => by simp [ordinary] at reflexive⟩
    · have reflexive : fromProducer env i := producer_fromProducer producer
      exact ⟨packet,choices,i,_,arrived,accepted,there,fun ordinary => by simp [reflexive] at ordinary,fun _ => reflected⟩
  · obtain ⟨packet,choices,i,rfl,accepted,dispatch,there,other | ⟨producer,original,prev,selected,_⟩⟩ :=
      presented s event c path.reached called
    · obtain ⟨r,found,_⟩ := there
      rw [other.2,found]
      rfl
    · -- an orderly run gives such an Interest to no other strategy
      have best : s.kindOf i.name = .bestRoute := by
        by_contra astray
        exact orderly.directed ⟨i,original,prev,accepted,producer,selected,astray⟩
      have handling : Handling (admitted s i).1 s.interests.length (admitted s i).2 i.name :=
        admitted_handling (reached_sound path.reached)
      have kind : c.strategy.kind = s.kindOf i.name := by
        rw [dispatch.strategy,dispatch.underway.entryName,handling.entryName]
        exact dispatch.underway.kindOf
      rw [kind,best] at learning
      cases learning
  · intro x pending id inFace firstOutFace task
    have timely := reached_timely path.reached
    obtain ⟨e,present,rfl,_⟩ := timely.rto.covered x pending id (by rw [task]; rfl)
    refine ⟨e,Pit.get_of_mem timely.ids present,fun face known => ?_⟩
    have listed : face ∈ s.faces := List.mem_of_find?_eq_some known
    have number : face.id = inFace := by simpa using List.find?_some known
    have facing := (((orderly_watched path).timers x pending e.id inFace firstOutFace task).2 e present rfl).2 face listed number
    obtain ⟨r,inside,same⟩ := List.mem_map.mp facing
    exact Keyed.lookup_isSome.mpr ⟨r,inside,same⟩

theorem dispatch_request : ∃ c, dispatched Demo.env (node .selfLearning)
    (.interest (request2 7 1) consumer { words := [42] }) = some c ∧
    c.strategy.kind = .selfLearning ∧ Presented c.state c.object c.ingress c.entry := by
  obtain ⟨c,called,learning⟩ : ∃ c ∈ dispatched Demo.env (node .selfLearning) (.interest (request2 7 1) consumer { words := [42] }),
    c.strategy.kind = .selfLearning := by decide
  obtain ⟨packet,choices,i,own,arrived,accepted,there,ordinary,_⟩ :=
    dispatch_presented.1 (node .selfLearning) _ c (.start node_initial) called
  obtain ⟨rfl,facing,_⟩ := Event.interest.inj arrived
  have screened : screen Demo.env (node .selfLearning) (request2 7 1) consumer =
      .accepted (arrive (request2 7 1) consumer) := by decide
  rw [← facing,screened] at accepted
  cases accepted
  refine ⟨c,called,learning,?_⟩
  rw [ordinary (by decide)]
  exact there

-- The call for a producer Interest: with an entry that has no in-record on the
-- face and does not match.
def Demo.Misplaced (kind : StrategyKind) : Prop := ∃ s c, Reached Demo.env s ∧
  dispatched Demo.env s (.interest (answer 42 9) producer {}) = some c ∧ c.strategy.kind = kind ∧
  (c.state.entry c.entry).getInRecord c.ingress = none ∧ (c.state.entry c.entry).canMatch (c.state.interest c.object) 0 = false

theorem Demo.misplaced (kind : StrategyKind) : Demo.Misplaced kind := by
  obtain ⟨s,before,c,called,facts⟩ : ∃ s ∈ outstanding kind, ∃ c ∈ dispatched Demo.env s (.interest (answer 42 9) producer {}),
    c.strategy.kind = kind ∧ (c.state.entry c.entry).getInRecord c.ingress = none ∧
      (c.state.entry c.entry).canMatch (c.state.interest c.object) 0 = false := by cases kind <;> decide
  exact ⟨s,c,run_reached (.start node_initial) before,called,facts⟩

-- Under BestRouteStrategy this is meant; SelfLearningStrategy goes on to read the
-- in-record, and AccessStrategy sets a timer that will expect it.
theorem dispatch_misplaced : Demo.Misplaced .bestRoute ∧ Demo.Misplaced .selfLearning ∧
    ∃ t, Reached Demo.env t ∧ ∃ x ∈ t.scheduler.pending, ∃ id, x.task = .rtoTimeout id producer.id producer2.id ∧
      t.getFace producer.id = some producer ∧ (t.entry id).getInRecord producer = none := by
  refine ⟨misplaced _,misplaced _,?_⟩
  obtain ⟨t,before,x,pending,task,known,missing⟩ : ∃ t ∈ run (step Demo.env) (node .access)
      [.interest (request2 7 1) consumer { words := [42] },.nack ⟨request2 42 1,.noRoute⟩ producer2,
        .interest (answer 42 9) producer { lastNexthop := some producer2.id }],
    ∃ x ∈ t.scheduler.pending, x.task = .rtoTimeout 0 producer.id producer2.id ∧
      t.getFace producer.id = some producer ∧ (t.entry 0).getInRecord producer = none := by decide
  exact ⟨t,run_reached (.start node_initial) before,x,pending,0,task,known,missing⟩

theorem rto_entry (path : Reached env s) (armed : ⟨h,due,.rtoTimeout id inFace outFace⟩ ∈ s.scheduler.pending) :
    ∃ e ∈ s.pit, e.id = id ∧ e.rtoTimer = some h :=
  (reached_timely path).rto.covered _ armed id rfl

theorem rto_entry_sent : ∃ s : State, ∃ e ∈ s.pit, e.id = 0 ∧ e.rtoTimer = some 1 := by
  obtain ⟨s,before,armed⟩ : ∃ s ∈ run (step Demo.env) (node .access) [.interest (request 7 1) consumer { words := [42],lastNexthop := some 257 }],
    ⟨1,0,.rtoTimeout 0 256 257⟩ ∈ s.scheduler.pending := by decide
  exact ⟨s,rto_entry (run_reached (.start node_initial) before) armed⟩

end ReflexiveNfd
