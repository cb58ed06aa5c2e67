import ReflexiveNfd.History

namespace ReflexiveNfd
open Actions List Option
open Demo hiding env
variable {env : Env} {s t u : State} {e original : Entry} {id : EntryId} {face ingress : Face} {choices : Choices}
  {packet i p : Interest}

def reflecting (s : State) (i : Interest) (ingress : Face) (prevPitToken : UInt32) : State :=
  recordDownstream ((admitted s i).1.setTag s.interests.length (setPitToken prevPitToken)) s.interests.length ingress
    (admitted s i).2

theorem modifyEntry_get (same : ∀ e, (f e).id = e.id) (other : own ≠ id) :
    (s.modifyEntry id f).pit.get own = s.pit.get own := by
  have equal : (s.modifyEntry id f).pit.get own = (s.pit.get own).map (fun e => if e.id = id then f e else e) :=
    Pit.modify_get same
  rw [equal]
  cases found : s.pit.get own with
  | none => rfl
  | some e =>
    have apart : e.id ≠ id := by
      rw [(Pit.get_id found).2]
      exact other
    simp [apart]

theorem attachHopLimit_pit : (attachHopLimit s object).pit = s.pit := by
  unfold attachHopLimit
  split <;> rfl

theorem recordDownstream_get (other : own ≠ id) : (recordDownstream s object ingress id).pit.get own = s.pit.get own := by
  have armed : ∀ u : State, ∀ duration, (u.setExpiryTimer id duration).pit.get own = u.pit.get own := fun u _ =>
    modifyEntry_get (s := u) (fun _ => rfl) other
  have recorded : ((attachHopLimit s object).insertOrUpdateInRecord id ingress object).pit.get own =
      (attachHopLimit s object).pit.get own := modifyEntry_get (fun _ => rfl) other
  unfold recordDownstream
  rw [armed,recorded,attachHopLimit_pit]

theorem attachHopLimit_interest (bound : object < s.interests.length) :
    ∃ hopLimit, (attachHopLimit s object).interest object = { s.interest object with hopLimit := hopLimit } ∧
      (hopLimit = some 0 ↔ (s.interest object).hopLimit = some 0) := by
  unfold attachHopLimit
  split
  · rename_i configured
    refine ⟨_,by rw [State.interest_modify bound,if_pos rfl],?_⟩
    cases (s.interest object).hopLimit with
    | none => simp; omega
    | some hops => simp
  · exact ⟨_,rfl,Iff.rfl⟩

-- The arriving object as the strategy sees it: with the previous hop's token,
-- and a HopLimit that is zero only if it was.
theorem reflecting_interest (s : State) (i : Interest) (ingress : Face) (prevPitToken : UInt32) : ∃ hopLimit,
    (reflecting s i ingress prevPitToken).interest s.interests.length =
      { i with hopLimit := hopLimit, pitToken := some (setPitToken prevPitToken) } ∧
    (hopLimit = some 0 ↔ i.hopLimit = some 0) := by
  have wide : s.interests.length < (admitted s i).1.interests.length := admitted_bound
  have bound : s.interests.length < ((admitted s i).1.setTag s.interests.length (setPitToken prevPitToken)).interests.length := by
    simpa [State.setTag] using wide
  obtain ⟨hopLimit,equal,zero⟩ := attachHopLimit_interest bound
  rw [interest_setTag admitted_bound,admitted_interest] at equal zero
  exact ⟨hopLimit,equal,zero⟩

theorem reflecting_pitAssist : (reflecting s i ingress prevPitToken).pitAssist = s.pitAssist :=
  recordDownstream_pitAssist.trans admitted_pitAssist

theorem reflecting_sent : (reflecting s i ingress prevPitToken).sent = s.sent := recordDownstream_sent.trans admitted_sent

theorem reflecting_length : s.interests.length < (reflecting s i ingress prevPitToken).interests.length := by
  have wide : s.interests.length < (admitted s i).1.interests.length := admitted_bound
  exact Nat.lt_of_lt_of_le (by simpa [State.setTag] using wide) recordDownstream_length

theorem reflecting_tables : (reflecting s i ingress prevPitToken).fib = s.fib ∧
    (reflecting s i ingress prevPitToken).faces = s.faces ∧
    (reflecting s i ingress prevPitToken).strategyChoice = s.strategyChoice := by
  have settled : (reflecting s i ingress prevPitToken).settings = (admitted s i).1.settings := recordDownstream_settings
  have before : (admitted s i).1.fib = s.fib ∧ (admitted s i).1.faces = s.faces ∧
      (admitted s i).1.strategyChoice = s.strategyChoice := by
    rcases admitted_cases s i with ⟨e,_,equal⟩ | ⟨_,equal⟩ <;> rw [equal] <;> exact ⟨rfl,rfl,rfl⟩
  exact ⟨(congrArg State.fib settled :).trans before.1,(congrArg State.faces settled :).trans before.2.1,
    (congrArg State.strategyChoice settled :).trans before.2.2⟩

theorem reflecting_handling (sound : Sound env s) :
    Handling (reflecting s i ingress prevPitToken) s.interests.length (admitted s i).2 i.name :=
  recordDownstream_handling ((admitted_handling sound).quiet Frame.setTag.toQuiet)

theorem reflect_trigger (sound : Sound env s) :
    reflect env (admitted s i).1 s.interests.length ingress (admitted s i).2 original prevPitToken choices =
      afterReceiveInterest env (s.findEffectiveStrategy i.name) (reflecting s i ingress prevPitToken) s.interests.length
        ingress original.id choices := by
  have strategy : (reflecting s i ingress prevPitToken).findEffectiveStrategy
      ((reflecting s i ingress prevPitToken).entry (admitted s i).2).name = s.findEffectiveStrategy i.name := by
    rw [(reflecting_handling sound).entryName,State.findEffectiveStrategy,reflecting_tables.2.2]
    rfl
  rw [← strategy]
  rfl

theorem selected_apart (sound : Sound env s) (producer : IsProducer env i.name)
    (selected : Selected env s i original prevPitToken) : original.id ≠ (admitted s i).2 := by
  intro same
  have fresh : Sound env (admitted s i).1 := admitted_sound sound
  have handling : Handling (admitted s i).1 s.interests.length (admitted s i).2 i.name := admitted_handling sound
  have still := (admitted_selected sound producer).mpr selected
  have held := fresh.entry (Pit.findBasedOnName_spec still.entry).1
  rw [same] at held
  have consumer := tokenToName_consumer sound selected.name
  rw [← held,handling.entryName] at consumer
  simp [IsProducer,consumer.2] at producer

theorem reflecting_original (sound : Sound env s) (producer : IsProducer env i.name)
    (selected : Selected env s i original prevPitToken) :
    (reflecting s i ingress prevPitToken).entry original.id = original := by
  have still := (admitted_selected sound producer).mpr selected
  have fresh : Sound env (admitted s i).1 := admitted_sound sound
  have found : (reflecting s i ingress prevPitToken).pit.get original.id = (admitted s i).1.pit.get original.id :=
    recordDownstream_get (selected_apart sound producer selected)
  exact State.entry_of_get (found.trans (fresh.get (Pit.findBasedOnName_spec still.entry).1))

theorem admitted_find : ∃ e, (admitted s i).1.pit.find i = some e := by
  rcases admitted_cases s i with ⟨e,found,equal⟩ | ⟨_,equal⟩
  · rw [equal]
    exact ⟨e,found⟩
  · rw [equal,← isSome_iff_exists,Pit.find,List.find?_isSome]
    refine ⟨Pit.newEntry s.nextEntry s.interests.length i,?_,by simp [Entry.canMatch,Pit.newEntry]⟩
    exact mem_filter.mpr ⟨mem_append_right _ mem_cons_self,by simp [Entry.nte,Pit.newEntry]⟩

theorem modifyEntry_find
    (same : ∀ e, (f e).name = e.name ∧ (f e).canBePrefix = e.canBePrefix ∧ (f e).mustBeFresh = e.mustBeFresh)
    (known : ∃ e, s.pit.find i = some e) : ∃ e, (s.modifyEntry id f).pit.find i = some e := by
  obtain ⟨e,found⟩ := known
  have mapped : (s.modifyEntry id f).pit.find i = (s.pit.find i).map (fun e => if e.id = id then f e else e) := by
    refine Pit.find_map (fun e => ?_) (fun e => ?_)
    · split
      · exact (same e).1
      · rfl
    · split
      · exact (same e).2
      · exact ⟨rfl,rfl⟩
  exact ⟨_,by rw [mapped,found]; rfl⟩

theorem reflecting_find : ∃ e, (reflecting s i ingress prevPitToken).pit.find i = some e := by
  have attached : ∃ e, (attachHopLimit ((admitted s i).1.setTag s.interests.length (setPitToken prevPitToken))
      s.interests.length).pit.find i = some e := by
    rw [attachHopLimit_pit]
    exact admitted_find
  have recorded : ∃ e, ((attachHopLimit ((admitted s i).1.setTag s.interests.length (setPitToken prevPitToken))
      s.interests.length).insertOrUpdateInRecord (admitted s i).2 ingress s.interests.length).pit.find i = some e :=
    modifyEntry_find (fun _ => ⟨rfl,rfl,rfl⟩) attached
  have armed : ∀ (u : State) duration, (∃ e, u.pit.find i = some e) →
      ∃ e, (u.setExpiryTimer (admitted s i).2 duration).pit.find i = some e :=
    fun u _ known => modifyEntry_find (s := u) (fun _ => ⟨rfl,rfl,rfl⟩) known
  exact armed _ _ recorded

def Target (s : State) (kind : StrategyKind) (original : Entry) (face : Face) : Prop :=
  match kind with
  | .bestRoute => ∃ r, original.inRecords.head? = some r ∧ r.face = face
  | .selfLearning => (∃ n ∈ (lookupFib s original.id).nextHops, n.face = face) ∨
      ((lookupFib s original.id).nextHops = [] ∧ face ∈ s.faces)
  | _ => ∃ n ∈ (lookupFib s original.id).nextHops, n.face = face

def Reflected (env : Env) (s : State) (i : Interest) : Effect → Prop
  | .interest face packet => ∃ original prevPitToken, Selected env s i original prevPitToken ∧
      Target s (s.findEffectiveStrategy i.name).kind original face ∧ packet.name = i.name ∧
      packet.pitToken = some (setPitToken prevPitToken)
  | _ => True

theorem reflecting_lookupFib (sound : Sound env s) (producer : IsProducer env i.name)
    (selected : Selected env s i original prevPitToken) :
    lookupFib (reflecting s i ingress prevPitToken) original.id = lookupFib s original.id := by
  have held := sound.entry (Pit.findBasedOnName_spec selected.entry).1
  unfold lookupFib
  rw [reflecting_original sound producer selected,held,reflecting_tables.1]

theorem reflecting_producer (producer : IsProducer env i.name) :
    fromProducer env ((reflecting s i ingress prevPitToken).interest s.interests.length) := by
  obtain ⟨hopLimit,equal,_⟩ := reflecting_interest s i ingress prevPitToken
  rw [equal]
  exact producer_fromProducer producer

section
variable (sound : Sound env s)
include sound

section
variable (producer : IsProducer env i.name) (selected : Selected env s i original prevPitToken)
include producer selected

theorem egress_target
    (egress : Egress env (reflecting s i ingress prevPitToken) kind s.interests.length ingress original.id face) :
    Target s kind original face := by
  have routes : lookupFib (reflecting s i ingress prevPitToken) original.id = lookupFib s original.id :=
    reflecting_lookupFib sound producer selected
  cases kind with
  | bestRoute =>
    simp only [Egress,reflecting_producer producer,if_true,reflecting_original sound producer selected] at egress
    exact egress
  | access =>
    obtain ⟨⟨n,listed,same⟩,_⟩ := egress
    exact ⟨n,routes ▸ listed,same⟩
  | selfLearning =>
    rcases egress with ⟨n,listed,same,_⟩ | ⟨none,listed,_⟩
    · exact .inl ⟨n,routes ▸ listed,same⟩
    · exact .inr ⟨routes ▸ none,reflecting_tables.2.1 ▸ listed⟩
  | multicast | random | asf =>
    obtain ⟨n,listed,same,_⟩ := egress
    exact ⟨n,routes ▸ listed,same⟩

theorem reflecting_stamped (same : j.name = i.name) :
    forwardedToken env (reflecting s i ingress prevPitToken) j original.id = some (setPitToken prevPitToken) := by
  have reflexive : fromProducer env j := (fromProducer_name same).trans (producer_fromProducer producer)
  simp [forwardedToken,reflexive,reflecting_original sound producer selected,reflecting_pitAssist,selected.prevToken]

theorem reflect_emits :
    Emits (Reflected env s i) s
      (reflect env (admitted s i).1 s.interests.length ingress (admitted s i).2 original prevPitToken choices) := by
  rw [reflect_trigger sound]
  refine Emits.trans (.silent reflecting_sent) (((afterReceiveInterest_acts reflecting_length).emits ?_).mono ?_)
  · rintro o f ⟨rfl,_⟩
    exact reflecting_length
  · intro w emitted
    cases emitted with
    | data impossible => exact impossible.elim
    | nack => exact trivial
    | interest chosen name token =>
      obtain ⟨rfl,egress⟩ := chosen
      obtain ⟨hopLimit,equal,_⟩ := reflecting_interest s i ingress prevPitToken
      rw [equal] at name token
      refine ⟨original,prevPitToken,selected,egress_target sound producer selected egress,name,?_⟩
      exact token.trans (reflecting_stamped sound producer selected rfl)

end

section
variable (arrived : onIncomingInterest env s packet ingress choices = some t) (accepted : screen env s packet ingress = .accepted i) (producer : IsProducer env i.name)
include arrived accepted producer

theorem selected_reflects
    (selected : Selected env s i original prevPitToken) :
    t = reflect env (admitted s i).1 s.interests.length ingress (admitted s i).2 original prevPitToken choices := by
  have still := (admitted_selected sound producer).mpr selected
  cases interest_outcome arrived with
  | dropped dropped => cases dropped.symm.trans accepted
  | looped looped => cases looped.symm.trans accepted
  | raised again raised =>
    cases accepted.symm.trans again
    cases raised.symm.trans producer
  | unanswered again _ unselected _ =>
    cases accepted.symm.trans again
    exact (unselected _ _ still).elim
  | reflected again _ chosen =>
    cases accepted.symm.trans again
    obtain ⟨rfl,rfl⟩ := still.unique chosen
    rfl
  | duplicate again other | hit again other | miss _ again other =>
    cases accepted.symm.trans again
    cases other.symm.trans producer

theorem producer_emits :
    Emits (Reflected env s i) s t := by
  cases interest_outcome arrived with
  | dropped dropped => cases dropped.symm.trans accepted
  | looped looped => cases looped.symm.trans accepted
  | raised again raised =>
    cases accepted.symm.trans again
    cases raised.symm.trans producer
  | unanswered again _ _ left =>
    cases accepted.symm.trans again
    rcases left with rfl | ⟨_,rfl⟩
    · exact .silent admitted_sent
    · exact Emits.trans (.silent admitted_sent) (.emit trivial)
  | reflected again producer selected =>
    cases accepted.symm.trans again
    exact reflect_emits sound producer ((admitted_selected sound producer).mp selected)
  | duplicate again other | hit again other | miss _ again other =>
    cases accepted.symm.trans again
    cases other.symm.trans producer

end

end

theorem producer_sent (path : Reached env s) (taken : step env s (.interest packet ingress choices) = some t)
    (accepted : screen env s packet ingress = .accepted i) (producer : IsProducer env i.name)
    (present : Effect.interest face p ∈ t.sent) : Reflected env s i (.interest face p) := by
  have sound := reached_sound path
  have arrived := step_arrives taken
  rcases producer_emits sound.cleared arrived accepted producer _ present with old | reflected
  · cases old
  · obtain ⟨original,prev,selected,target,rest⟩ := reflected
    exact ⟨original,prev,selected.same rfl,target,rest⟩

-- BestRoute sends a producer Interest to a downstream of the entry its token
-- selects. The other strategies were left as they are and use the routes of
-- that entry.
theorem reflected_faces (path : Reached env s) (taken : step env s (.interest packet ingress choices) = some t)
    (accepted : screen env s packet ingress = .accepted i) (producer : IsProducer env i.name)
    (selected : Selected env s i original prevPitToken) (present : Effect.interest face p ∈ t.sent) :
    ((s.findEffectiveStrategy i.name).kind = .bestRoute → ∃ r ∈ original.inRecords, r.face = face) ∧
    ((s.findEffectiveStrategy i.name).kind ≠ .bestRoute →
      (∃ n ∈ (lookupFib s original.id).nextHops, n.face = face) ∨
      ((s.findEffectiveStrategy i.name).kind = .selfLearning ∧ (lookupFib s original.id).nextHops = [] ∧ face ∈ s.faces)) := by
  obtain ⟨chosen,prev,again,target,_⟩ := producer_sent path taken accepted producer present
  obtain ⟨rfl,_⟩ := selected.unique again
  cases kind : (s.findEffectiveStrategy i.name).kind with
  | bestRoute =>
    rw [kind] at target
    obtain ⟨r,first,same⟩ := target
    exact ⟨fun _ => ⟨r,mem_of_head? first,same⟩,fun other => (other rfl).elim⟩
  | selfLearning =>
    rw [kind] at target
    refine ⟨fun other => (by cases other),fun _ => ?_⟩
    rcases target with hop | ⟨none,listed⟩
    · exact .inl hop
    · exact .inr ⟨rfl,none,listed⟩
  | multicast | random | asf | access =>
    rw [kind] at target
    exact ⟨fun other => (by cases other),fun _ => .inl target⟩

def Demo.outstanding (kind : StrategyKind) : Option State :=
  Transition.run (step Demo.env) (node kind)
    [.interest (request2 7 1) consumer { words := [42] },.advance 1000000000]

theorem Demo.answered (kind : StrategyKind) : ∃ s t original p, Reached Demo.env s ∧
    step Demo.env s (.interest (answer 42 9) producer {}) = some t ∧
    screen Demo.env s (answer 42 9) producer = .accepted (arrive (answer 42 9) producer) ∧
    (s.findEffectiveStrategy answerName).kind = kind ∧
    Selected Demo.env s (arrive (answer 42 9) producer) original 7 ∧
    original.inRecords.map InRecord.face = [consumer] ∧
    Effect.interest (if kind = .bestRoute then consumer else producer2) p ∈ t.sent := by
  obtain ⟨s,before,accepted,same,t,taken,present,original,found,faces,known,prev⟩ : ∃ s ∈ outstanding kind,
      screen Demo.env s (answer 42 9) producer = .accepted (arrive (answer 42 9) producer) ∧ (s.findEffectiveStrategy answerName).kind = kind ∧
      ∃ t ∈ step Demo.env s (.interest (answer 42 9) producer {}),
        .interest (if kind = .bestRoute then consumer else producer2)
          { answer 7 9 with incomingFaceId := some 257, nonDiscovery := kind == .selfLearning } ∈ t.sent ∧
        ∃ original ∈ s.pit.findBasedOnName requestName2, original.inRecords.map InRecord.face = [consumer] ∧
          s.pitAssist.tokenToName 42 = (original.name,true) ∧ s.pitAssist.nameToPrevToken original.name = (7,true) := by cases kind <;> decide
  have named := (Pit.findBasedOnName_spec found).2
  have token : interestToken Demo.env (arrive (answer 42 9) producer) = 42 := by decide
  refine ⟨s,t,original,_,Transition.run_reached (.start node_initial) before,taken,accepted,same,?_,faces,present⟩
  exact ⟨by rw [token]; decide,by rw [token,known],by rw [named]; exact found,prev⟩

theorem reflected_downstream : ∃ s t original, Reached Demo.env s ∧
    step Demo.env s (.interest (answer 42 9) producer {}) = some t ∧
    Selected Demo.env s (arrive (answer 42 9) producer) original 7 ∧
    ∃ r ∈ original.inRecords, r.face = consumer := by
  obtain ⟨s,t,original,p,path,taken,accepted,kind,selected,_,present⟩ := answered .bestRoute
  exact ⟨s,t,original,path,taken,selected,(reflected_faces path taken accepted rfl selected present).1 kind⟩

def Demo.Strays (kind : StrategyKind) : Prop := ∃ s t original p, Reached Demo.env s ∧
  step Demo.env s (.interest (answer 42 9) producer {}) = some t ∧
  (s.findEffectiveStrategy answerName).kind = kind ∧
  Selected Demo.env s (arrive (answer 42 9) producer) original 7 ∧
  Effect.interest producer2 p ∈ t.sent ∧ ∀ r ∈ original.inRecords, r.face ≠ producer2

theorem Demo.strays (other : kind ≠ .bestRoute) : Demo.Strays kind := by
  obtain ⟨s,t,original,p,path,taken,_,same,selected,faces,present⟩ := answered kind
  rw [if_neg other] at present
  refine ⟨s,t,original,p,path,taken,same,selected,present,fun r listed => ?_⟩
  have only : r.face ∈ [consumer] := faces ▸ mem_map_of_mem listed
  rw [mem_singleton.mp only]
  decide

theorem reflected_elsewhere :
    Demo.Strays .multicast ∧ Demo.Strays .random ∧ Demo.Strays .asf ∧ Demo.Strays .access ∧ Demo.Strays .selfLearning :=
  ⟨strays (by decide),strays (by decide),strays (by decide),strays (by decide),strays (by decide)⟩

end ReflexiveNfd
