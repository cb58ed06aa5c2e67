import ReflexiveNfd.Agreement

namespace ReflexiveNfd
open Actions Timers List Option Transition State
open Demo hiding env
variable {env : Env} {s t u : State} {e e' : Entry} {id : EntryId} {choices : Choices} {data : Data} {i : Interest} {name : Name}
  {h : History}

-- Objects whose token forwarding never writes: sendInterest copies an object
-- that has one, and an ordinary Interest gets none.
def Firm (env : Env) (i : Interest) : Prop :=
  i.pitToken.isSome ∨ (fromProducer env i = false ∧ isReflexiveInterest env.convention i = false)

structure Retains (env : Env) (s t : State) : Prop where
  grown : s.interests.length ≤ t.interests.length
  kept : ∀ o < s.interests.length, Firm env (s.interest o) →
    (t.interest o).name = (s.interest o).name ∧ (t.interest o).pitToken = (s.interest o).pitToken

theorem Firm.same (firm : Firm env i) (name : i'.name = i.name) (token : i'.pitToken = i.pitToken) : Firm env i' := by
  rcases firm with tagged | ⟨producer,reflexive⟩
  · exact .inl (token ▸ tagged)
  · exact .inr ⟨(fromProducer_name name).trans producer,(isReflexiveInterest_name name).trans reflexive⟩

namespace Retains

theorem same (interests : t.interests = s.interests) : Retains env s t :=
  ⟨Nat.le_of_eq (congrArg List.length interests.symm),fun o _ _ => by simp [State.interest,interests]⟩

theorem refl (s : State) : Retains env s s := same rfl

theorem trans (one : Retains env s t) (two : Retains env t u) : Retains env s u := by
  refine ⟨Nat.le_trans one.grown two.grown,fun o bound firm => ?_⟩
  obtain ⟨name,token⟩ := one.kept o bound firm
  obtain ⟨later,again⟩ := two.kept o (Nat.lt_of_lt_of_le bound one.grown) (firm.same name token)
  exact ⟨later.trans name,again.trans token⟩

theorem allocate : Retains env s (s.allocate i) :=
  ⟨by simp,fun o bound _ => by simp [interest_allocate bound]⟩

theorem modifyInterest (loose : ∀ i, Firm env i → (f i).name = i.name ∧ (f i).pitToken = i.pitToken) :
    Retains env s (s.modifyInterest object f) := by
  refine ⟨by simp,fun o bound firm => ?_⟩
  rw [State.interest_modify bound]
  split
  · exact loose _ firm
  · exact ⟨rfl,rfl⟩

theorem setTag (loose : ¬ Firm env (s.interest object)) : Retains env s (s.setTag object pitToken) := by
  refine ⟨by simp [State.setTag],fun o bound firm => ?_⟩
  have other : o ≠ object := fun equal => loose (equal ▸ firm)
  simp [State.setTag,State.interest_modify bound,other]

end Retains

theorem transmit_retains : Retains env s (transmit s object egress id).1 := .same rfl

theorem onOutgoingInterest_retains (untagged : (s.interest object).pitToken = none) :
    Retains env s (onOutgoingInterest env s object egress id).1 := by
  have loose : fromProducer env (s.interest object) ∨ isReflexiveInterest env.convention (s.interest object) →
      ¬ Firm env (s.interest object) := by
    rintro reflexive (tagged | ⟨producer,ordinary⟩)
    · simp [untagged] at tagged
    · simp [producer,ordinary] at reflexive
  unfold onOutgoingInterest
  dsimp only
  split
  · exact .refl s
  · split
    · rename_i producer
      split
      · exact .setTag (loose (.inl producer))
      · exact (Retains.setTag (loose (.inl producer))).trans transmit_retains
    · split
      · rename_i reflexive
        exact (Retains.setTag (loose (.inr reflexive))).trans transmit_retains
      · exact transmit_retains

theorem sendInterest_retains : Retains env s (sendInterest env s object egress id).1 := by
  unfold sendInterest
  split
  · exact Retains.allocate.trans (onOutgoingInterest_retains (by simp))
  · rename_i untagged
    exact onOutgoingInterest_retains untagged

theorem onOutgoingData_interests : (onOutgoingData s data egress).interests = s.interests := by
  unfold onOutgoingData
  split
  · rfl
  · split <;> rfl

theorem sendData_interests : (sendData s data egress id).interests = s.interests := by
  unfold sendData
  split <;> exact onOutgoingData_interests

theorem onOutgoingNack_interests : (onOutgoingNack s reason egress id).interests = s.interests := by
  unfold onOutgoingNack
  split
  · rfl
  · split
    · rfl
    · split <;> rfl

theorem perform_retains (permitted : Permit id sends returns act) : Retains env s (perform env s act) := by
  cases permitted with
  | sendInterest _ => exact sendInterest_retains
  | sendProbe _ => exact Retains.allocate.trans sendInterest_retains
  | sendData _ => exact .same sendData_interests
  | sendNack => exact .same onOutgoingNack_interests
  | setNonDiscovery => exact .modifyInterest (fun _ _ => ⟨rfl,rfl⟩)
  | setExpiryTimer | setRtoTimer | cancelRtoTimer | note | hold => exact .same rfl

theorem Acts.retains (acts : Acts env id sends returns s t) : Retains env s t :=
  acts.related .refl (fun _ _ _ => .trans) (fun _ _ => perform_retains)

theorem Trace.retains (trace : Trace env s t) : Retains env s t := by
  induction trace with
  | plain plain => exact .same plain.interests
  | acts _ acts => exact acts.retains
  | retune => exact .same (by rw [cancelTimers_form])
  | spend => exact .same rfl
  | trans _ _ one two => exact one.trans two

theorem trigger_retains (bound : object < s.interests.length) :
    Retains env s (afterReceiveInterest env strategy s object ingress id choices) :=
  (afterReceiveInterest_acts bound).retains

theorem Retains.tagNew (retains : Retains env s t) (fresh : s.interests.length ≤ object) :
    Retains env s (t.setTag object pitToken) := by
  refine ⟨by simpa [State.setTag] using retains.grown,fun o bound firm => ?_⟩
  have other : o ≠ object := Nat.ne_of_lt (Nat.lt_of_lt_of_le bound fresh)
  have later : o < t.interests.length := Nat.lt_of_lt_of_le bound retains.grown
  simpa [State.setTag,State.interest_modify later,other] using retains.kept o bound firm

theorem Retains.sendNew (retains : Retains env s t) (fresh : s.interests.length ≤ object) :
    Retains env s (onOutgoingInterest env t object egress id).1 := by
  unfold onOutgoingInterest
  dsimp only
  split
  · exact retains
  · split
    · split
      · exact retains.tagNew fresh
      · exact (retains.tagNew fresh).trans transmit_retains
    · split
      · exact (retains.tagNew fresh).trans transmit_retains
      · exact retains.trans transmit_retains

theorem admitted_retains : Retains env s (admitted s i).1 := by
  rcases admitted_cases s i with ⟨e,_,equal⟩ | ⟨_,equal⟩ <;> rw [equal]
  · exact .allocate
  · exact Retains.allocate.trans (.same rfl)

theorem attachHopLimit_retains : Retains env s (attachHopLimit s object) := by
  unfold attachHopLimit
  split
  · exact .modifyInterest (fun _ _ => ⟨rfl,rfl⟩)
  · exact .refl s

theorem recordDownstream_retains : Retains env s (recordDownstream s object ingress id) :=
  attachHopLimit_retains.trans (.same rfl)

theorem onInterestLoop_interests : (onInterestLoop s i ingress).interests = s.interests := by
  unfold onInterestLoop
  split <;> rfl

theorem onContentStoreMiss_retains (retains : Retains env s t) (fresh : s.interests.length ≤ object)
    (bound : object < t.interests.length) : Retains env s (onContentStoreMiss env t object ingress id choices) := by
  have recorded : Retains env s (recordDownstream t object ingress id) := retains.trans recordDownstream_retains
  have inside : object < (recordDownstream t object ingress id).interests.length :=
    Nat.lt_of_lt_of_le bound recordDownstream_length
  unfold onContentStoreMiss onContentStoreMissWith Call.trigger
  dsimp only
  split
  · split
    · exact recorded.sendNew fresh
    · exact recorded
  · split
    · exact (recorded.tagNew fresh).trans (trigger_retains (by simpa [State.setTag] using inside))
    · exact recorded.trans (trigger_retains inside)

theorem reflect_retains : Retains env s
    (reflect env (admitted s i).1 s.interests.length ingress (admitted s i).2 original prevPitToken choices) := by
  have tagged : Retains env s ((admitted s i).1.setTag s.interests.length (setPitToken prevPitToken)) :=
    admitted_retains.tagNew (Nat.le_refl _)
  exact (tagged.trans recordDownstream_retains).trans (trigger_retains reflecting_length)

theorem interest_retains (arrived : onIncomingInterest env s packet ingress choices = some t) : Retains env s t := by
  have noted : ∀ {i known}, insertPitToken env (admitted s i).1 i choices.words = some known → Retains env s known :=
    fun ensured => admitted_retains.trans (.same (insertPitToken_interests ensured))
  cases interest_outcome arrived with
  | dropped => exact .refl s
  | looped => exact .same onInterestLoop_interests
  | raised => exact admitted_retains
  | unanswered _ _ _ left =>
    rcases left with rfl | ⟨_,rfl⟩
    · exact admitted_retains
    · exact admitted_retains.trans (.same rfl)
  | reflected => exact reflect_retains
  | duplicate _ _ ensured _ => exact (noted ensured).trans (.same onInterestLoop_interests)
  | hit _ _ ensured _ _ _ => exact (noted ensured).trans (.same sendData_interests)
  | @miss i known store _ _ ensured _ =>
    have stored : Retains env s { known with cs := store } := (noted ensured).trans (.same rfl)
    exact onContentStoreMiss_retains stored (Nat.le_refl _) (insertPitToken_bound (t := known) ensured)

-- The object keeps the token it came with if the forwarder is about to write
-- the same one, or has no use for the object.
def Unwritten (env : Env) (s : State) (assist : PitAssist) (i : Interest) : Prop :=
  isReflexiveInterest env.convention i →
    i.pitToken = some (setPitToken (assist.nameToToken i.name).1) ∨
    (i.pitToken.isSome ∧ ∃ f, i.nextHopFaceId = some f ∧ s.getFace f = none)

theorem Unwritten.firm (unwritten : Unwritten env s assist i) (other : fromProducer env i = false) : Firm env i := by
  cases reflexive : isReflexiveInterest env.convention i with
  | false => exact .inr ⟨other,reflexive⟩
  | true =>
    rcases unwritten reflexive with same | ⟨tagged,_⟩
    · exact .inl (by rw [same]; rfl)
    · exact .inl tagged

structure Holds (s : State) (object : ObjId) (i : Interest) : Prop where
  bound : object < s.interests.length
  name : (s.interest object).name = i.name
  token : (s.interest object).pitToken = i.pitToken

section
variable (holds : Holds s object i)
include holds

theorem Holds.firm (firm : Firm env i) : Firm env (s.interest object) :=
  firm.same holds.name holds.token

theorem Holds.retained (firm : Firm env i) (retains : Retains env s t) : Holds t object i := by
  obtain ⟨name,token⟩ := retains.kept object holds.bound (holds.firm firm)
  exact ⟨Nat.lt_of_lt_of_le holds.bound retains.grown,name.trans holds.name,token.trans holds.token⟩

theorem Holds.tagged (same : i.pitToken = some pitToken) : Holds (s.setTag object pitToken) object i := by
  refine ⟨by simpa [State.setTag] using holds.bound,?_,?_⟩
  · rw [interest_setTag holds.bound]
    exact holds.name
  · rw [interest_setTag holds.bound,same]

theorem onOutgoingInterest_own (other : fromProducer env i = false)
    (same : isReflexiveInterest env.convention i → i.pitToken = some (setPitToken (s.pitAssist.nameToToken i.name).1)) :
    Holds (onOutgoingInterest env s object egress id).1 object i := by
  have ordinary := (fromProducer_name holds.name).trans other
  unfold onOutgoingInterest
  simp only [ordinary,isReflexiveInterest_name holds.name,holds.name]
  split
  · exact holds
  · rw [if_neg (by simp)]
    split
    · rename_i reflexive
      exact { holds.tagged (same reflexive) with }
    · exact { holds with }

end

theorem recordDownstream_own (bound : object < s.interests.length) (same : s.interest object = i) :
    Holds (recordDownstream s object ingress id) object i ∧
      ((recordDownstream s object ingress id).interest object).nextHopFaceId = i.nextHopFaceId := by
  obtain ⟨hopLimit,equal,_⟩ := attachHopLimit_interest bound
  have after : (recordDownstream s object ingress id).interest object = { i with hopLimit := hopLimit } := by
    rw [← same,← equal]
    rfl
  exact ⟨⟨Nat.lt_of_lt_of_le bound recordDownstream_length,by rw [after],by rw [after]⟩,by rw [after]⟩

theorem onContentStoreMiss_own (bound : object < s.interests.length) (same : s.interest object = i)
    (other : fromProducer env i = false) (unwritten : Unwritten env s s.pitAssist i) :
    Holds (onContentStoreMiss env s object ingress id choices) object i := by
  have recorded : Holds (recordDownstream s object ingress id) object i ∧ _ := recordDownstream_own bound same
  obtain ⟨holds,nextHop⟩ := recorded
  have faces : ∀ f, (recordDownstream s object ingress id).getFace f = s.getFace f := by
    have settled : (recordDownstream s object ingress id).settings = s.settings := recordDownstream_settings
    have listed : (recordDownstream s object ingress id).faces = s.faces := (congrArg State.faces settled :)
    intro f
    rw [getFace,getFace,listed]
  have firm := unwritten.firm other
  unfold onContentStoreMiss onContentStoreMissWith Call.trigger
  simp only [nextHop,recordDownstream_pitAssist,holds.name,faces,isReflexiveInterest_name holds.name]
  split
  · rename_i nextHopTag tagged
    split
    · rename_i nextHopFace found
      refine onOutgoingInterest_own holds other (fun reflexive => ?_)
      rw [recordDownstream_pitAssist]
      rcases unwritten reflexive with written | ⟨_,f,named,missing⟩
      · exact written
      · cases named.symm.trans tagged
        cases missing.symm.trans found
    · exact holds
  · rename_i untagged
    split
    · rename_i reflexive
      rcases unwritten reflexive with written | ⟨_,f,named,_⟩
      · exact (holds.tagged written).retained firm (trigger_retains (holds.tagged written).bound)
      · cases named.symm.trans untagged
    · exact holds.retained firm (trigger_retains holds.bound)

theorem reflect_own (written : i.pitToken = some (setPitToken prevPitToken)) :
    Holds (reflect env (admitted s i).1 s.interests.length ingress (admitted s i).2 original prevPitToken choices)
      s.interests.length i := by
  obtain ⟨hopLimit,equal,_⟩ := reflecting_interest s i ingress prevPitToken
  have holds : Holds (reflecting s i ingress prevPitToken) s.interests.length i :=
    ⟨reflecting_length,by rw [equal],by rw [equal,written]⟩
  exact holds.retained (.inl (by rw [written]; rfl)) (trigger_retains reflecting_length)

def Kept (env : Env) (s : State) (log : List Received) : Prop :=
  ∀ e ∈ s.pit, ∀ r ∈ e.inRecords, ∃ a ∈ log, a.entry = e.id ∧ a.face = r.face ∧ a.object = r.interest ∧
    (s.interest r.interest).pitToken = a.token ∧ Firm env (s.interest r.interest)

section
variable (sound : Sound env s) (kept : Kept env s log)
include sound kept

theorem Kept.record {r r' : InRecord} (retains : Retains env s t) (present : e ∈ s.pit)
    (listed : r ∈ e.inRecords) (same : r.facts = r'.facts) : ∃ a ∈ log, a.entry = e.id ∧ a.face = r'.face ∧
      a.object = r'.interest ∧ (t.interest r'.interest).pitToken = a.token ∧ Firm env (t.interest r'.interest) := by
  obtain ⟨a,logged,entry,facing,object,token,firm⟩ := kept e present r listed
  simp only [InRecord.facts,Prod.mk.injEq] at same
  have bound := ((sound.entries e present).downstreams r listed).1
  rw [same.2.2.2.2] at object token firm bound
  obtain ⟨name,again⟩ := retains.kept _ bound firm
  exact ⟨a,logged,entry,facing.trans same.1,object,again.trans token,firm.same name again⟩

theorem Kept.inherited (retains : Retains env s t)
    (origin : ∀ e' ∈ t.pit, ∀ r' ∈ e'.inRecords, ∃ e ∈ s.pit, ∃ r ∈ e.inRecords, e'.id = e.id ∧ r.facts = r'.facts) :
    Kept env t log := by
  intro e' present r' listed
  obtain ⟨e,inside,r,held,ids,same⟩ := origin e' present r' listed
  rw [ids]
  exact kept.record sound retains inside held same

theorem Kept.quiet (quiet : Quiet s t) (retains : Retains env s t) :
    Kept env t log := by
  refine kept.inherited sound retains (fun e' present r' listed => ?_)
  obtain ⟨e,inside,trimmed⟩ := quiet.origin present
  obtain ⟨r,held,same⟩ := trimmed.inRecord listed
  exact ⟨e,inside,r,held,trimmed.id,same⟩

theorem Kept.unrecorded (retains : Retains env s t)
    (pit : u.pit = (admitted s i).1.pit) (quiet : Quiet u t) : Kept env t log := by
  refine kept.inherited sound retains (fun e' present r' listed => ?_)
  obtain ⟨e,inside,trimmed⟩ := quiet.origin present
  obtain ⟨r,held,same⟩ := trimmed.inRecord listed
  rw [pit] at inside
  rcases admitted_origin inside with old | ⟨_,rfl⟩
  · exact ⟨e,old,r,held,trimmed.id,same⟩
  · cases held

end

theorem Kept.grow (kept : Kept env s log) : Kept env s (a :: log) := by
  intro e present r listed
  obtain ⟨a,logged,rest⟩ := kept e present r listed
  exact ⟨a,mem_cons_of_mem _ logged,rest⟩

theorem Kept.arrive (sound : Sound env s) (kept : Kept env s log) (follows : Follows s i ingress t)
    (retains : Retains env s t) (holds : Holds t s.interests.length i) (firm : Firm env i) :
    Kept env t (⟨(admitted s i).2,ingress,s.interests.length,i.name,i.pitToken⟩ :: log) := by
  intro e' present r' listed
  obtain ⟨e,inside,ids,_,records⟩ := follows.origin e' present
  rw [ids]
  rcases records r' listed with ⟨r,held,same⟩ | ⟨mine,facing,object⟩
  · rcases admitted_origin inside with old | ⟨_,rfl⟩
    · exact kept.grow.record sound retains old held same
    · cases held
  · rw [object]
    exact ⟨_,mem_cons_self,mine.symm,facing.symm,rfl,holds.token,holds.firm firm⟩

-- The tokens an arriving Interest may carry so that what the forwarder writes
-- for the next hop is what it received.
def Unaltered (env : Env) (s : State) : Event → Prop
  | .interest packet ingress choices => ∀ i, screen env s packet ingress = .accepted i →
      (IsProducer env i.name → ∀ original prev, Selected env s i original prev → i.pitToken = some (setPitToken prev)) ∧
      (IsConsumer env i.name → ∀ assist, s.pitAssist.ensureName i.name (interestToken env i) choices.words = some assist →
        Unwritten env s assist i)
  | _ => True

theorem admitted_faces : (admitted s i).1.faces = s.faces := admitted_same State.faces (fun _ _ _ => rfl)

theorem insertPitToken_unwritten (guard : IsConsumer env i.name → ∀ assist,
      s.pitAssist.ensureName i.name (interestToken env i) words = some assist → Unwritten env s assist i)
    (other : i.name.hasRN9999 env.convention = .ok false)
    (ensured : insertPitToken env (admitted s i).1 i words = some u) : Unwritten env u u.pitAssist i := by
  rcases insertPitToken_cases ensured with ⟨ordinary,rfl⟩ | ⟨assist,reflexive,rfl,made⟩
  · exact fun reflexive => (Bool.false_ne_true (ordinary.symm.trans reflexive)).elim
  · rw [admitted_pitAssist] at made
    have unwritten := guard ⟨reflexive,other⟩ assist made
    simpa only [Unwritten,getFace,admitted_faces] using unwritten

theorem accepted_kept (sound : Sound env s) (kept : Kept env s log)
    (guard : Unaltered env s (.interest packet ingress choices)) (accepted : screen env s packet ingress = .accepted i)
    (arrived : onIncomingInterest env s packet ingress choices = some t) :
    Kept env t (⟨(admitted s i).2,ingress,s.interests.length,i.name,i.pitToken⟩ :: log) := by
  have retains := interest_retains arrived
  have follows := arrival_follows sound (interest_arrival arrived) accepted
  cases interest_outcome arrived with
  | dropped dropped => cases dropped.symm.trans accepted
  | looped looped => cases looped.symm.trans accepted
  | raised again _ =>
    cases accepted.symm.trans again
    exact (kept.unrecorded sound retains rfl (.refl _)).grow
  | unanswered again _ _ left =>
    cases accepted.symm.trans again
    rcases left with rfl | ⟨_,rfl⟩
    · exact (kept.unrecorded sound retains rfl (.refl _)).grow
    · exact (kept.unrecorded sound retains rfl Frame.emit.toQuiet).grow
  | reflected again producer selected =>
    cases accepted.symm.trans again
    have written := (guard _ accepted).1 producer _ _ ((admitted_selected sound producer).mp selected)
    exact kept.arrive sound follows retains (reflect_own written) (.inl (by rw [written]; rfl))
  | duplicate again _ ensured _ =>
    cases accepted.symm.trans again
    exact (kept.unrecorded sound retains (insertPitToken_pit ensured) onInterestLoop_frame.toQuiet).grow
  | @hit _ known _ store again _ ensured _ _ _ =>
    cases accepted.symm.trans again
    have stored : Frame known { known with cs := store } := frame_tables _ _ _
    exact (kept.unrecorded sound retains (insertPitToken_pit ensured) (stored.trans onContentStoreHit_frame).toQuiet).grow
  | @miss _ known store again other ensured _ =>
    cases accepted.symm.trans again
    have unwritten := insertPitToken_unwritten (guard _ accepted).2 other ensured
    refine kept.arrive sound follows retains ?_ (unwritten.firm (other_fromProducer other))
    refine onContentStoreMiss_own (insertPitToken_bound (t := known) ensured) ?_ (other_fromProducer other) unwritten
    exact (insertPitToken_interest ensured).trans admitted_interest

theorem handle_kept (sound : Sound env s) (kept : Kept env s log) (guard : Unaltered env s event)
    (handled : handle env s event = some t) : Kept env t ((receive env s event).toList ++ log) := by
  cases handle_cases sound handled with
  | @interest ingress packet choices _ _ arrived =>
    cases screened : screen env s packet ingress with
    | accepted i =>
      rw [receive_accepted screened]
      exact accepted_kept sound kept guard screened arrived
    | _ =>
      have refused : ∀ i, screen env s packet ingress ≠ .accepted i := by simp [screened]
      rw [receive_refused refused]
      exact kept.quiet sound ((interest_arrival arrived).quiet refused) (interest_retains arrived)
  | finalize =>
    refine kept.inherited sound (.same finalize_interests) (fun e present r listed => ?_)
    have inside := finalize_subset (sound.quiet Frame.cancelTimer.toQuiet) present
    exact ⟨e,inside,r,listed,rfl,rfl⟩
  | routine usual trace =>
    rw [receive_routine usual]
    exact kept.quiet sound trace.quiet trace.retains

theorem unaltered_clear : Unaltered env s event → Unaltered env { s with sent := [] } event := by
  cases event with
  | interest packet ingress choices =>
    intro guard i accepted
    refine ⟨fun producer original prev selected => ?_,(guard i accepted).2⟩
    exact (guard i accepted).1 producer original prev (selected.same rfl)
  | _ => exact fun guard => guard

theorem guarded_kept (path : Guarded (observe env) Started (fun h => Unaltered env h.current) h) :
    Kept env h.current h.records := by
  refine path.invariant (P := fun h => Kept env h.current h.records) ?_ ?_
  · rintro h ⟨initial,_⟩ e present
    simp [initial.pit] at present
  · intro h event k prior kept guard taken
    obtain ⟨next,records⟩ := record_parts taken
    have sound := observed_sound prior
    have cleared := kept.quiet sound clear_quiet (.same rfl)
    have after := handle_kept sound.cleared cleared (unaltered_clear guard) next
    rw [receive_clear] at after
    rw [records]
    exact after

theorem sendData_pit : (sendData s data egress id).pit = (s.deleteInRecord id egress).pit := by
  unfold sendData onOutgoingData
  split
  · split
    · rfl
    · split <;> rfl
  · split
    · rfl
    · split <;> rfl

theorem sendData_downstreamToken (other : face ≠ egress) :
    downstreamToken (sendData s data egress id) id face = downstreamToken s id face := by
  have records : ((sendData s data egress id).entry id).getInRecord face = (s.entry id).getInRecord face := by
    unfold State.entry
    rw [sendData_pit]
    cases found : s.pit.get id with
    | none =>
      have missing : (s.deleteInRecord id egress).pit.get id = none := by
        have mapped : (s.pit.modify id (·.deleteInRecord egress)).get id = _ := Pit.modify_get (fun _ => rfl)
        rw [found] at mapped
        exact mapped
      rw [missing]
    | some e =>
      have left : (s.deleteInRecord id egress).pit.get id = some (e.deleteInRecord egress) :=
        get_modifyEntry (fun _ => rfl) found
      rw [left]
      exact Keyed.lookup_remove other
  unfold downstreamToken
  rw [records]
  simp only [State.interest,sendData_interests]

def Returned (s : State) (id : EntryId) (data : Data) (w : Effect) : Prop :=
  ∃ f, Downstream s id f ∧ w = .data f { data with pitToken := (downstreamToken s id f).or data.pitToken }

theorem sendDataToAll_returns : Emits (Returned s id data) s (sendDataToAll s data id ingress) := by
  unfold sendDataToAll
  have listed : ∀ f ∈ (pendingDownstreams s.now (s.entry id) ingress).dedup, Downstream s id f := by
    intro f inside
    obtain ⟨r,pending,rfl⟩ := mem_map.mp (mem_dedup.mp inside)
    exact ⟨r,(mem_filter.mp pending).1,rfl⟩
  have distinct := nodup_dedup (pendingDownstreams s.now (s.entry id) ingress)
  generalize (pendingDownstreams s.now (s.entry id) ingress).dedup = faces at listed distinct
  -- the faces still to come have their tokens as they were at the start
  suffices rest : ∀ u, (∀ f ∈ faces, downstreamToken u id f = downstreamToken s id f) →
      Emits (Returned s id data) u (faces.foldl (fun s face => sendData s data face id) u) from rest s (fun _ _ => rfl)
  induction faces with
  | nil => exact fun u _ => .refl u
  | cons f faces ih =>
    intro u tokens
    obtain ⟨unlisted,tail⟩ := nodup_cons.mp distinct
    refine Emits.trans ?_ (ih (fun g inside => listed g (mem_cons_of_mem _ inside)) tail (sendData u data f id) ?_)
    · intro w present
      rw [sendData_sent] at present
      rcases mem_append.mp present with old | new
      · exact .inl old
      · split at new
        · cases new
        · cases mem_singleton.mp new
          exact .inr ⟨f,listed f mem_cons_self,by rw [tokens f mem_cons_self]⟩
    · intro g inside
      have apart : g ≠ f := fun equal => unlisted (equal ▸ inside)
      rw [sendData_downstreamToken apart]
      exact tokens g (mem_cons_of_mem _ inside)

theorem returned_same (records : (t.entry id).inRecords = (s.entry id).inRecords) (interests : t.interests = s.interests)
    (returned : Returned t id data w) : Returned s id data w := by
  obtain ⟨f,⟨r,listed,facing⟩,rfl⟩ := returned
  have tokens : downstreamToken t id f = downstreamToken s id f := by
    simp only [downstreamToken,Entry.getInRecord,records,State.interest,interests]
  exact ⟨f,⟨r,records ▸ listed,facing⟩,by rw [tokens]⟩

theorem setExpiryTimer_inRecords : ((s.setExpiryTimer id duration).entry id).inRecords = (s.entry id).inRecords := by
  have mapped : (s.pit.modify id (fun e => { e with expiryTimer := some s.scheduler.nextId })).get id = _ :=
    Pit.modify_get (fun _ => rfl)
  simp only [State.entry,setExpiryTimer,mapped]
  cases s.pit.get id with
  | none => rfl
  | some e =>
    simp only [map_some,getD_some]
    split <;> rfl

theorem afterReceiveData_returns : Emits (Returned s id data) s (afterReceiveData strategy s data ingress id choices) := by
  unfold afterReceiveData
  split
  · unfold SelfLearningStrategy.afterReceiveData
    split
    · exact .refl s
    · split
      · exact .silent rfl
      · exact sendDataToAll_returns
  · have before : ((beforeSatisfyInterest strategy s id choices).entry id).inRecords = (s.entry id).inRecords ∧
        (beforeSatisfyInterest strategy s id choices).interests = s.interests ∧
        (beforeSatisfyInterest strategy s id choices).sent = s.sent := by
      unfold beforeSatisfyInterest
      split
      · split
        · exact ⟨setExpiryTimer_inRecords,rfl,rfl⟩
        · exact ⟨rfl,rfl,rfl⟩
      · exact ⟨rfl,rfl,rfl⟩
      · exact ⟨rfl,rfl,rfl⟩
    obtain ⟨records,interests,sent⟩ := before
    exact Emits.trans (.silent sent) (sendDataToAll_returns.mono (fun _ => returned_same records interests))

theorem satisfyOne_returns : Emits (Returned s id data) s (satisfyOne env s data ingress id choices) := by
  refine Emits.trans (t := s.setExpiryTimer id 0) (.silent rfl) (Emits.trans ?_ (.silent settled_sent))
  exact afterReceiveData_returns.mono (fun _ => returned_same setExpiryTimer_inRecords rfl)

theorem onIncomingData_returns (only : s.pit.findAllDataMatches (received data ingress) = [e]) :
    Emits (Returned s e.id (received data ingress)) s (onIncomingData env s data ingress choices) := by
  obtain ⟨_,equal,outcome⟩ := data_outcome env s data ingress choices
  rw [equal]
  cases outcome with
  | dropped => exact .refl s
  | unsolicited => exact .silent rfl
  | one again =>
    cases only.symm.trans again
    refine Emits.trans (t := { s with cs := s.cs.insert s.now (received data ingress) false }) (.silent rfl) ?_
    exact satisfyOne_returns.mono (fun _ => returned_same rfl rfl)
  | many again => cases only.symm.trans again

theorem downstreamToken_own (sound : Sound env s) (present : e ∈ s.pit) (listed : r ∈ e.inRecords) :
    downstreamToken s e.id r.face = (s.interest r.interest).pitToken := by
  have found : e.getInRecord r.face = some r := Keyed.lookup_distinct (sound.entries e present).distinct listed
  simp [downstreamToken,sound.entry present,found]

theorem onIncomingData_own (sound : Sound env s) (only : s.pit.findAllDataMatches (received data ingress) = [e])
    (sent : Effect.data f d ∈ (onIncomingData env { s with sent := [] } data ingress choices).sent) :
    ∃ r ∈ e.inRecords, r.face = f ∧ d.pitToken = (s.interest r.interest).pitToken := by
  rcases onIncomingData_returns (s := { s with sent := [] }) only _ sent with old | ⟨_,⟨r,listed,rfl⟩,equal⟩
  · cases old
  · obtain ⟨rfl,rfl⟩ := Effect.data.inj equal
    have inside : e ∈ s.pit := (Pit.findAllDataMatches_mem (only ▸ mem_cons_self)).1
    change r ∈ (s.entry e.id).inRecords at listed
    rw [sound.entry inside] at listed
    refine ⟨r,listed,rfl,?_⟩
    change (downstreamToken s e.id r.face).or none = _
    rw [or_none,downstreamToken_own sound inside listed]

-- While every arriving Interest carries the token the forwarder is about to
-- write, in-records keep their downstream's token and returned Data carries it.
theorem downstream_tokens (path : Guarded (observe env) Started (fun h => Unaltered env h.current) h) :
    (∀ e ∈ h.current.pit, ∀ r ∈ e.inRecords, ∃ a ∈ h.records, a.entry = e.id ∧ a.face = r.face ∧ a.object = r.interest ∧
      (h.current.interest r.interest).pitToken = a.token ∧
      ∀ data, data.pitToken = none → ¬ closedTo r.face data →
        (sendData h.current data r.face e.id).sent = h.current.sent ++ [.data r.face { data with pitToken := a.token }]) ∧
    (∀ data ingress choices t e, step env h.current (.data data ingress choices) = some t →
      h.current.pit.findAllDataMatches (received data ingress) = [e] → ∀ f d, Effect.data f d ∈ t.sent →
        ∃ r ∈ e.inRecords, r.face = f ∧ ∃ a ∈ h.records, a.entry = e.id ∧ a.face = f ∧ a.object = r.interest ∧
          d.pitToken = a.token) := by
  have sound := observed_sound path.reached
  have kept := guarded_kept path
  refine ⟨fun e present r listed => ?_,fun data ingress choices t e taken only f d sent => ?_⟩
  · obtain ⟨a,logged,entry,facing,object,token,_⟩ := kept e present r listed
    refine ⟨a,logged,entry,facing,object,token,fun data untagged openTo => ?_⟩
    rw [sendData_sent,if_neg openTo,downstreamToken_own sound present listed,token,untagged,or_none]
  · cases step_satisfies taken
    obtain ⟨r,listed,facing,carried⟩ := onIncomingData_own sound only sent
    obtain ⟨a,logged,entry,same,object,token,_⟩ := kept e (Pit.findAllDataMatches_mem (only ▸ mem_cons_self)).1 r listed
    exact ⟨r,listed,facing,a,logged,entry,same.trans facing,object,carried.trans token⟩

def Demo.ordinary : Interest := { name := [testApp,Demo.digit 51], nonce := 3, pitToken := some (setPitToken 5) }

theorem downstream_tokens_ordinary : ∃ h t, Guarded (observe Demo.env) Started (fun h => Unaltered Demo.env h.current) h ∧
    step Demo.env h.current (.data { name := Demo.ordinary.name } producer {}) = some t ∧
    ∃ d a, Effect.data consumer d ∈ t.sent ∧ a ∈ h.records ∧ d.pitToken = a.token := by
  obtain ⟨h,before,⟨t,taken,present⟩,e,_,only⟩ : ∃ h ∈ observe Demo.env ⟨node .bestRoute,[]⟩ (.interest Demo.ordinary consumer {}),
      (∃ t ∈ step Demo.env h.current (.data { name := Demo.ordinary.name } producer {}), .data consumer
        { name := Demo.ordinary.name, incomingFaceId := some 257, pitToken := some (setPitToken 5) } ∈ t.sent) ∧
      ∃ e ∈ h.current.pit, h.current.pit.findAllDataMatches (received { name := Demo.ordinary.name } producer) = [e] := by decide
  have path : Guarded (observe Demo.env) Started (fun h => Unaltered Demo.env h.current) h := by
    refine .next (.start ⟨node_initial,rfl⟩) ?_ before
    intro i again
    obtain rfl : arrive Demo.ordinary consumer = i := Screened.accepted.inj again
    exact ⟨fun producer => absurd producer (by simp only [IsProducer]; decide),fun consumer => absurd consumer.1 (by decide)⟩
  obtain ⟨_,_,_,a,logged,_,_,_,token⟩ := (downstream_tokens path).2 _ _ _ t e taken only _ _ present
  exact ⟨h,t,path,taken,_,a,present,logged,token⟩

-- A consumer's request: its in-record ends up with the token made for the next
-- hop, and so does the Data that comes back.
theorem downstream_tokens_overwritten : ∃ h t e r a, Transition.Reached (observe Demo.env) Started h ∧
    h.current.pit = [e] ∧ e.inRecords = [r] ∧ h.records = [a] ∧ a.entry = e.id ∧ a.face = r.face ∧ a.object = r.interest ∧
    a.token = some (setPitToken 7) ∧ (h.current.interest r.interest).pitToken = some (setPitToken 42) ∧
    step Demo.env h.current (.data { name := requestName } producer {}) = some t ∧
    t.sent = [.data consumer
      { name := requestName, incomingFaceId := some 257, pitToken := some (setPitToken 42) }] := by
  obtain ⟨h,before,⟨t,taken,sent⟩,e,_,only,r,_,single,tag,a,_,log,id,facing,object,token⟩ : ∃ h ∈ Demo.asked [],
      (∃ t ∈ step Demo.env h.current (.data { name := requestName } producer {}), t.sent = [.data consumer
        { name := requestName, incomingFaceId := some 257, pitToken := some (setPitToken 42) }]) ∧
      ∃ e ∈ h.current.pit, h.current.pit = [e] ∧ ∃ r ∈ e.inRecords, e.inRecords = [r] ∧
        (h.current.interest r.interest).pitToken = some (setPitToken 42) ∧ ∃ a ∈ h.records, h.records = [a] ∧
          a.entry = e.id ∧ a.face = r.face ∧ a.object = r.interest ∧ a.token = some (setPitToken 7) := by decide
  exact ⟨h,t,e,r,a,Transition.run_reached (.start ⟨node_initial,rfl⟩) before,only,single,log,id,facing,object,token,tag,taken,sent⟩

end ReflexiveNfd
