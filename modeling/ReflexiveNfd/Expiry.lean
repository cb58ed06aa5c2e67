import ReflexiveNfd.Lifecycle

namespace ReflexiveNfd
open Actions Timers Option Transition Scheduler
open Demo hiding env
open List hiding after
variable {env : Env} {s t u : State} {e e' original : Entry} {id : EntryId} {ingress : Face} {choices : Choices} {i : Interest}
  {timer : Timer Task}

def ends : Task → Option EntryId
  | .finalize id => some id
  | .rtoTimeout _ _ _ => none

def retries : Task → Option EntryId
  | .finalize _ => none
  | .rtoTimeout id _ _ => some id

theorem retries_not_ends (retrying : retries task = some id) : ends task ≠ some k := by
  cases task with
  | finalize => simp [retries] at retrying
  | rtoTimeout => simp [ends]

structure Timely (s : State) : Prop where
  valid : s.scheduler.Valid
  ids : (s.pit.map Entry.id).Nodup
  expiry : Owned Entry.id Entry.expiryTimer ends s.scheduler s.pit
  rto : Owned Entry.id Entry.rtoTimer retries s.scheduler s.pit

structure Punctual (s t : State) : Prop where
  timely : Timely s → Timely t
  armed : Timely s → ∀ k, Armed ends s.scheduler k → Armed ends t.scheduler k

namespace Punctual

theorem refl (s : State) : Punctual s s := ⟨fun timely => timely,fun _ _ armed => armed⟩

theorem trans (one : Punctual s t) (two : Punctual t u) : Punctual s u :=
  ⟨fun timely => two.timely (one.timely timely),fun timely k armed => two.armed (one.timely timely) k (one.armed timely k armed)⟩

end Punctual

structure Idle (s t : State) : Prop where
  scheduler : t.scheduler = s.scheduler
  entries : ∃ f, (∀ e : Entry, (f e).id = e.id ∧ (f e).expiryTimer = e.expiryTimer ∧ (f e).rtoTimer = e.rtoTimer) ∧
    t.pit = s.pit.map f

namespace Idle

theorem of_tables (same : (t.scheduler,t.pit) = (s.scheduler,s.pit)) : Idle s t := by
  obtain ⟨scheduler,pit⟩ := Prod.mk.inj same
  exact ⟨scheduler,fun e => e,fun _ => ⟨rfl,rfl,rfl⟩,by simp [pit]⟩

theorem refl (s : State) : Idle s s := of_tables rfl

theorem trans (one : Idle s t) (two : Idle t u) : Idle s u := by
  obtain ⟨f,same,mapped⟩ := one.entries
  obtain ⟨g,again,remapped⟩ := two.entries
  refine ⟨two.scheduler.trans one.scheduler,g ∘ f,fun e => ?_,by rw [remapped,mapped,List.map_map]⟩
  exact ⟨(again _).1.trans (same _).1,(again _).2.1.trans (same _).2.1,(again _).2.2.trans (same _).2.2⟩

theorem modifyEntry (same : ∀ e, (f e).id = e.id ∧ (f e).expiryTimer = e.expiryTimer ∧ (f e).rtoTimer = e.rtoTimer) :
    Idle s (s.modifyEntry id f) := by
  refine ⟨rfl,fun e => if e.id = id then f e else e,fun e => ?_,rfl⟩
  dsimp only
  split
  · exact same e
  · exact ⟨rfl,rfl,rfl⟩

theorem plain (plain : Plain s t) : Idle s t := by
  obtain ⟨f,remark,mapped⟩ := plain.entries
  exact ⟨plain.scheduler,f,fun e => ⟨(remark.trimmed e).id,remark.expiryTimer e,remark.rtoTimer e⟩,mapped⟩

theorem outgoing : Outgoing Idle :=
  ⟨refl,trans,of_tables rfl,of_tables rfl,modifyEntry (fun _ => ⟨rfl,rfl,rfl⟩),of_tables rfl⟩

theorem deleteInRecord : Idle s (s.deleteInRecord id face) := modifyEntry (fun _ => ⟨rfl,rfl,rfl⟩)

theorem sendData : Idle s (sendData s data egress id) := outgoing.sendData deleteInRecord

theorem punctual (idle : Idle s t) : Punctual s t := by
  obtain ⟨f,same,mapped⟩ := idle.entries
  refine ⟨fun timely => ⟨?_,?_,?_,?_⟩,fun _ k armed => by rwa [idle.scheduler]⟩
  · rw [idle.scheduler]
    exact timely.valid
  · have ids : t.pit.map Entry.id = s.pit.map Entry.id := by simp [mapped,Function.comp_def,(same _).1]
    rw [ids]
    exact timely.ids
  · rw [idle.scheduler,mapped]
    exact timely.expiry.map (fun e => (same e).1) (fun e => (same e).2.1)
  · rw [idle.scheduler,mapped]
    exact timely.rto.map (fun e => (same e).1) (fun e => (same e).2.2)

end Idle

theorem Alive.entry (alive : Alive s id) : s.entry id ∈ s.pit ∧ (s.entry id).id = id := by
  obtain ⟨e,found⟩ := alive
  rw [State.entry_of_get found]
  exact Pit.get_id found

theorem setExpiryTimer_armed (timely : Timely s) (alive : Alive s id) :
    Armed ends (s.setExpiryTimer id duration).scheduler id ∧
      ∀ k, Armed ends s.scheduler k → Armed ends (s.setExpiryTimer id duration).scheduler k := by
  obtain ⟨inside,named⟩ := alive.entry
  have mine : Armed ends (s.setExpiryTimer id duration).scheduler id :=
    ⟨_,mem_schedule.mpr (.inl rfl),rfl⟩
  refine ⟨mine,fun k armed => ?_⟩
  by_cases same : k = id
  · rw [same]
    exact mine
  · refine (armed.cancel (fun t pending held => ?_)).schedule
    rw [timely.expiry.agrees _ inside t pending held,named]
    exact fun equal => same (some.inj equal).symm

theorem setExpiryTimer_punctual (alive : Alive s id) : Punctual s (s.setExpiryTimer id duration) := by
  obtain ⟨inside,named⟩ := alive.entry
  refine ⟨fun timely => ⟨schedule_valid (cancel_valid timely.valid),?_,?_,?_⟩,
    fun timely => (setExpiryTimer_armed timely alive).2⟩
  · rw [Frame.setExpiryTimer.ids]
    exact timely.ids
  · refine timely.expiry.rearm timely.valid timely.ids inside (by rw [named]; rfl) (fun e => by split <;> rfl) ?_ ?_
    · simp [named]
    · intro e other
      rw [named] at other
      simp [other]
  · refine Owned.map (timely.rto.cancel.schedule_other rfl) (fun e => by split <;> rfl) (fun e => by split <;> rfl)

theorem setRtoTimer_punctual (alive : Alive s id) : Punctual s (s.setRtoTimer id delay inFace firstOutFace) := by
  obtain ⟨inside,named⟩ := alive.entry
  refine ⟨fun timely => ⟨schedule_valid (cancel_valid timely.valid),?_,?_,?_⟩,fun timely k armed => ?_⟩
  · rw [Frame.setRtoTimer.ids]
    exact timely.ids
  · refine Owned.map (timely.expiry.cancel.schedule_other rfl) (fun e => by split <;> rfl) (fun e => by split <;> rfl)
  · refine timely.rto.rearm timely.valid timely.ids inside (by rw [named]; rfl) (fun e => by split <;> rfl) ?_ ?_
    · simp [named]
    · intro e other
      rw [named] at other
      simp [other]
  · refine (armed.cancel (fun t pending held => ?_)).schedule
    exact retries_not_ends (timely.rto.agrees _ inside t pending held)

theorem Timely.cancelTimer (timely : Timely s) : Timely (s.cancelTimer h) :=
  ⟨cancel_valid timely.valid,timely.ids,timely.expiry.cancel,timely.rto.cancel⟩

theorem cancelRtoTimer_punctual (present : e ∈ s.pit) : Punctual s (s.cancelTimer e.rtoTimer) :=
  ⟨Timely.cancelTimer,fun timely _ armed => armed.cancel (fun t pending held =>
    retries_not_ends (timely.rto.agrees e present t pending held))⟩

theorem perform_punctual (alive : Alive s id) (permitted : Permit id sends returns act) : Punctual s (perform env s act) := by
  cases permitted with
  | sendInterest => exact Idle.outgoing.sendInterest.punctual
  | sendProbe =>
    have copied : ∀ copy, Idle s (s.allocate copy) := fun _ => .of_tables rfl
    exact ((copied _).trans Idle.outgoing.sendInterest).punctual
  | sendData => exact Idle.sendData.punctual
  | sendNack => exact (Idle.outgoing.onOutgoingNack Idle.deleteInRecord).punctual
  | setExpiryTimer => exact setExpiryTimer_punctual alive
  | setRtoTimer => exact setRtoTimer_punctual alive
  | cancelRtoTimer => exact cancelRtoTimer_punctual alive.entry.1
  | note remark =>
    exact (Idle.modifyEntry (fun e => ⟨(remark.trimmed e).id,remark.expiryTimer e,remark.rtoTimer e⟩)).punctual
  | setNonDiscovery | hold => exact Idle.punctual (.of_tables rfl)

theorem Acts.punctual (acts : Acts env id sends returns s t) (alive : Alive s id) : Punctual s t :=
  acts.relatedWhile (I := fun u => Alive u id) .refl (fun _ _ _ => .trans)
    (fun _ _ here permitted => here.quiet (perform_frame permitted).toQuiet)
    (fun _ _ here permitted => perform_punctual here permitted) alive

theorem cancelTimers_punctual (entries : List Entry) (present : ∀ e ∈ entries, e ∈ s.pit) :
    Punctual s (entries.foldl (fun s e => s.cancelTimer e.rtoTimer) s) := by
  induction entries generalizing s with
  | nil => exact .refl s
  | cons e entries ih =>
    have first := cancelRtoTimer_punctual (present e mem_cons_self)
    exact first.trans (ih (fun x listed => present x (mem_cons_of_mem _ listed)))

theorem cancelTimers_pending (entries : List Entry)
    (pending : timer ∈ (entries.foldl (fun s e => s.cancelTimer e.rtoTimer) s).scheduler.pending) :
    timer ∈ s.scheduler.pending ∧ ∀ e ∈ entries, e.rtoTimer ≠ some timer.id := by
  induction entries generalizing s with
  | nil => exact ⟨pending,by simp⟩
  | cons e entries ih =>
    obtain ⟨earlier,spared⟩ := ih pending
    obtain ⟨old,mine⟩ := mem_cancel.mp earlier
    refine ⟨old,?_⟩
    intro x listed
    rcases mem_cons.mp listed with rfl | later
    · exact Ne.symm mine
    · exact spared x later

theorem retune_punctual (changed : Entry → Bool) : Punctual s
    { (s.pit.filter changed).foldl (fun s e => s.cancelTimer e.rtoTimer) s with
      pit := s.pit.map (fun e => if changed e then clearStrategyInfo e else e) } := by
  have cancelled := cancelTimers_punctual (s := s) (s.pit.filter changed) (fun e listed => (mem_filter.mp listed).1)
  have same : ((s.pit.filter changed).foldl (fun s e => s.cancelTimer e.rtoTimer) s).pit = s.pit := by rw [cancelTimers_form]
  refine ⟨fun timely => ?_,cancelled.armed⟩
  have after := cancelled.timely timely
  have key : ∀ e, Entry.id (if changed e then clearStrategyInfo e else e) = e.id := fun e => by split <;> rfl
  refine ⟨after.valid,?_,?_,?_⟩
  · have ids : (s.pit.map (fun e => if changed e then clearStrategyInfo e else e)).map Entry.id = s.pit.map Entry.id := by
      simp [Function.comp_def,key]
    exact ids ▸ timely.ids
  · exact (same ▸ after.expiry).map key (fun e => by split <;> rfl)
  · refine (same ▸ after.rto).release key (fun e inside => ?_)
    by_cases chosen : changed e
    · refine .inr ⟨by simp [chosen,clearStrategyInfo],fun t pending => ?_⟩
      exact (cancelTimers_pending _ pending).2 e (mem_filter.mpr ⟨inside,chosen⟩)
    · exact .inl (by simp [chosen])

theorem Trace.punctual (trace : Trace env s t) : Punctual s t := by
  induction trace with
  | plain plain => exact (Idle.plain plain).punctual
  | acts alive acts => exact acts.punctual alive
  | retune changed => exact retune_punctual changed
  | spend pending task =>
    refine ⟨Timely.cancelTimer,fun timely k armed => armed.cancel (fun t listed held => ?_)⟩
    rw [timely.valid.unique listed pending (some.inj held).symm,task]
    simp [ends]
  | trans _ _ one two => exact one.trans two

theorem finalize_scheduler (found : s.pit.get id = some e) :
    (onInterestFinalize env s id).scheduler = (s.scheduler.cancel e.expiryTimer).cancel e.rtoTimer := by
  have same : (insertDeadNonceList env s id none).scheduler = s.scheduler := insertDeadNonceList_plain.scheduler
  unfold onInterestFinalize
  simp only [insertDeadNonceList_pit,found,State.cancelTimer,same]

theorem finalize_timely (timely : Timely s) (found : s.pit.get id = some e) : Timely (onInterestFinalize env s id) := by
  obtain ⟨inside,rfl⟩ := Pit.get_id found
  have left : ∀ x, x ∈ s.pit.erase e ↔ x ∈ s.pit ∧ x.id ≠ e.id := fun x => Pit.mem_erase timely.ids inside
  have gone : ∀ o ∈ s.pit, o ∉ s.pit.erase e → o = e := by
    intro o here out
    refine inj_on_of_nodup_map timely.ids here inside ?_
    by_contra apart
    exact out ((left o).mpr ⟨here,apart⟩)
  have pending : ∀ t ∈ ((s.scheduler.cancel e.expiryTimer).cancel e.rtoTimer).pending,
      e.expiryTimer ≠ some t.id ∧ e.rtoTimer ≠ some t.id := by
    intro t listed
    obtain ⟨earlier,one⟩ := mem_cancel.mp listed
    exact ⟨Ne.symm (mem_cancel.mp earlier).2,Ne.symm one⟩
  refine ⟨?_,?_,?_,?_⟩
  · rw [finalize_scheduler found]
    exact cancel_valid (cancel_valid timely.valid)
  · rw [finalize_pit found]
    exact Pit.erase_ids timely.ids
  · rw [finalize_scheduler found,finalize_pit found]
    refine timely.expiry.cancel.cancel.leave (fun o listed => ((left o).mp listed).1) ?_
    intro o here out t listed
    rw [gone o here out]
    exact (pending t listed).1
  · rw [finalize_scheduler found,finalize_pit found]
    refine timely.rto.cancel.cancel.leave (fun o listed => ((left o).mp listed).1) ?_
    intro o here out t listed
    rw [gone o here out]
    exact (pending t listed).2

theorem finalize_armed (timely : Timely s) (found : s.pit.get id = some e) (other : k ≠ id) (armed : Armed ends s.scheduler k) :
    Armed ends (onInterestFinalize env s id).scheduler k := by
  obtain ⟨inside,rfl⟩ := Pit.get_id found
  rw [finalize_scheduler found]
  have spared : Armed ends (s.scheduler.cancel e.expiryTimer) k := by
    refine armed.cancel (fun t pending held => ?_)
    rw [timely.expiry.agrees e inside t pending held]
    exact fun equal => other (some.inj equal).symm
  refine spared.cancel (fun t pending held => ?_)
  exact retries_not_ends (timely.rto.agrees e inside t (mem_cancel.mp pending).1 held)

structure Arms (id : EntryId) (s t : State) : Prop extends Punctual s t where
  own : Timely s → Armed ends t.scheduler id

theorem Arms.before (punctual : Punctual s t) (arms : Arms id t u) : Arms id s u :=
  ⟨punctual.trans arms.toPunctual,fun timely => arms.own (punctual.timely timely)⟩

theorem Arms.after (arms : Arms id s t) (punctual : Punctual t u) : Arms id s u :=
  ⟨arms.toPunctual.trans punctual,fun timely => punctual.armed (arms.timely timely) id (arms.own timely)⟩

theorem setExpiryTimer_arms (alive : Alive s id) : Arms id s (s.setExpiryTimer id duration) :=
  ⟨setExpiryTimer_punctual alive,fun timely => (setExpiryTimer_armed timely alive).1⟩

theorem attachHopLimit_idle : Idle s (attachHopLimit s object) := by
  unfold attachHopLimit
  split
  · exact .of_tables rfl
  · exact .refl s

theorem recorded_idle : Idle s (s.insertOrUpdateInRecord id face object) := .modifyEntry (fun _ => ⟨rfl,rfl,rfl⟩)

theorem recorded_alive (alive : Alive s own) : Alive (s.insertOrUpdateInRecord id face object) own := by
  obtain ⟨e,found⟩ := alive
  have later : (s.insertOrUpdateInRecord id face object).pit.get own =
      (s.pit.get own).map (fun e => if e.id = id then e.insertOrUpdateInRecord face s.now object (s.interest object) else e) :=
    Pit.modify_get (fun _ => rfl)
  exact ⟨_,by rw [later,found]; rfl⟩

theorem recordDownstream_alive (alive : Alive s own) : Alive (recordDownstream s object ingress id) own :=
  (recorded_alive (alive.quiet attachHopLimit_frame.toQuiet)).quiet recordDownstream_frame.toQuiet

theorem recordDownstream_arms (alive : Alive s id) : Arms id s (recordDownstream s object ingress id) := by
  have recorded : Idle s ((attachHopLimit s object).insertOrUpdateInRecord id ingress object) :=
    attachHopLimit_idle.trans recorded_idle
  exact .before recorded.punctual (setExpiryTimer_arms (recorded_alive (alive.quiet attachHopLimit_frame.toQuiet)))

section
variable (bound : object < s.interests.length) (alive : Alive s id)
include bound alive

theorem trigger_punctual :
    Punctual s (afterReceiveInterest env strategy s object ingress id choices) :=
  (afterReceiveInterest_acts bound).punctual alive

theorem reflect_arms (target : Alive s original.id) :
    Arms id s (reflect env s object ingress id original prevPitToken choices) := by
  have tagged : Frame s (s.setTag object (setPitToken prevPitToken)) := .setTag
  have idle : Idle s (s.setTag object (setPitToken prevPitToken)) := .of_tables rfl
  have recorded : Arms id s (recordDownstream (s.setTag object (setPitToken prevPitToken)) object ingress id) :=
    .before idle.punctual (recordDownstream_arms (alive.quiet tagged.toQuiet))
  refine recorded.after (trigger_punctual ?_ (recordDownstream_alive (target.quiet tagged.toQuiet)))
  exact Nat.lt_of_lt_of_le (Nat.lt_of_lt_of_le bound tagged.grown) recordDownstream_length

theorem onContentStoreMiss_arms :
    Arms id s (onContentStoreMiss env s object ingress id choices) := by
  have recorded : Arms id s (recordDownstream s object ingress id) := recordDownstream_arms alive
  have later : Alive (recordDownstream s object ingress id) id := recordDownstream_alive alive
  have grown : object < (recordDownstream s object ingress id).interests.length := Nat.lt_of_lt_of_le bound recordDownstream_length
  refine recorded.after ?_
  unfold onContentStoreMiss onContentStoreMissWith Call.trigger
  dsimp only
  split
  · split
    · exact Idle.outgoing.onOutgoingInterest.punctual
    · exact .refl _
  · split
    · have tagged : ∀ token, Frame (recordDownstream s object ingress id)
          ((recordDownstream s object ingress id).setTag object token) := fun _ => .setTag
      have idle : ∀ token, Idle (recordDownstream s object ingress id)
          ((recordDownstream s object ingress id).setTag object token) := fun _ => .of_tables rfl
      exact (idle _).punctual.trans
        (trigger_punctual (Nat.lt_of_lt_of_le grown (tagged _).grown) (later.quiet (tagged _).toQuiet))
    · exact trigger_punctual grown later

end

theorem onContentStoreHit_arms (alive : Alive s id) : Arms id s (onContentStoreHit s object ingress id data) := by
  have marked : Idle s (markSatisfied s id data) := .modifyEntry (fun _ => ⟨rfl,rfl,rfl⟩)
  exact .after (.before marked.punctual (setExpiryTimer_arms (alive.quiet markSatisfied_frame.toQuiet))) Idle.sendData.punctual

theorem onInterestLoop_idle : Idle s (onInterestLoop s interest ingress) := by
  unfold onInterestLoop
  split
  · exact .refl s
  · exact .of_tables rfl

def Answerable (env : Env) (s : State) (i : Interest) : Prop :=
  (∃ answer, i.name.hasRN9999 env.convention = .ok answer) ∧
    (IsProducer env i.name → ∃ original prevPitToken, Selected env s i original prevPitToken)

-- What an accepted Interest comes to for its entry. A duplicate nonce sets no
-- timer either, but needs records that a new entry does not have.
inductive Settled (env : Env) (s : State) (i : Interest) : State → Prop where
  | armed : Arms (admitted s i).2 (admitted s i).1 after → Answerable env s i → Settled env s i after
  | looped : Punctual (admitted s i).1 after → s.pit.find i = some held → Answerable env s i → Settled env s i after
  | left : Punctual (admitted s i).1 after → after.scheduler = (admitted s i).1.scheduler → ¬ Answerable env s i →
      Settled env s i after

theorem insertPitToken_idle (ensured : insertPitToken env s interest words = some t) : Idle s t := by
  rcases insertPitToken_cases ensured with ⟨_,rfl⟩ | ⟨_,_,rfl,_⟩
  · exact .refl _
  · exact .of_tables rfl

theorem insertPitToken_alive (alive : Alive s id) (ensured : insertPitToken env s interest words = some t) : Alive t id := by
  unfold Alive
  rw [insertPitToken_pit ensured]
  exact alive

theorem admitted_alive (sound : Sound env s) : Alive (admitted s i).1 (admitted s i).2 := by
  have handling : Handling (admitted s i).1 s.interests.length (admitted s i).2 i.name := admitted_handling sound
  obtain ⟨e,found,_⟩ := handling.entry
  exact ⟨e,found⟩

theorem loop_known (sound : Sound env s) (ensured : insertPitToken env (admitted s i).1 i words = some u)
    (loop : isLoop (u.entry (admitted s i).2) i.nonce ingress) : ∃ e, s.pit.find i = some e := by
  rcases admitted_cases s i with ⟨e,found,_⟩ | ⟨_,equal⟩
  · exact ⟨e,found⟩
  · have present : Pit.newEntry s.nextEntry s.interests.length i ∈ (inserted s i).pit :=
      mem_append_right _ mem_cons_self
    have made := (inserted_sound sound).entry present
    have blank : u.entry (admitted s i).2 = Pit.newEntry s.nextEntry s.interests.length i := by
      rw [State.entry,insertPitToken_pit ensured,equal]
      exact made
    rw [blank] at loop
    cases loop

theorem outcome_settled (sound : Sound env s) (outcome : Outcome env s packet ingress choices t)
    (accepted : screen env s packet ingress = .accepted i) : Settled env s i t := by
  have alive : Alive (admitted s i).1 (admitted s i).2 := admitted_alive sound
  have ordinary : i.name.hasRN9999 env.convention = .ok false → Answerable env s i :=
    fun other => ⟨⟨_,other⟩,fun producer => by simp [IsProducer,other] at producer⟩
  have ready : ∀ {known} store, insertPitToken env (admitted s i).1 i choices.words = some known →
      Idle (admitted s i).1 { known with cs := store } ∧ Alive { known with cs := store } (admitted s i).2 := by
    intro known store ensured
    have held := insertPitToken_alive alive ensured
    exact ⟨(insertPitToken_idle ensured).trans (.of_tables rfl),held⟩
  cases outcome with
  | dropped dropped => cases dropped.symm.trans accepted
  | looped looped => cases looped.symm.trans accepted
  | raised again raised =>
    cases accepted.symm.trans again
    refine .left (.refl _) rfl ?_
    rintro ⟨⟨answer,classified⟩,_⟩
    simp [raised] at classified
  | unanswered again producer unselected left =>
    cases accepted.symm.trans again
    have unanswerable : ¬ Answerable env s i := by
      rintro ⟨_,answered⟩
      obtain ⟨original,prev,selected⟩ := answered producer
      exact unselected original prev ((admitted_selected sound producer).mpr selected)
    rcases left with rfl | ⟨_,rfl⟩
    · exact .left (.refl _) rfl unanswerable
    · exact .left (Idle.punctual (.of_tables rfl)) rfl unanswerable
  | reflected again producer selected =>
    cases accepted.symm.trans again
    have target := alive_of_mem (Pit.findBasedOnName_spec selected.entry).1
    exact .armed (reflect_arms admitted_bound alive target)
      ⟨⟨_,producer⟩,fun _ => ⟨_,_,(admitted_selected sound producer).mp selected⟩⟩
  | duplicate again other ensured loop =>
    cases accepted.symm.trans again
    obtain ⟨e,found⟩ := loop_known sound ensured loop
    exact .looped ((insertPitToken_idle ensured).trans onInterestLoop_idle).punctual found (ordinary other)
  | @hit _ known _ store again other ensured _ _ _ =>
    cases accepted.symm.trans again
    obtain ⟨stored,still⟩ := ready store ensured
    exact .armed (.before stored.punctual (onContentStoreHit_arms still)) (ordinary other)
  | @miss _ known store again other ensured _ =>
    cases accepted.symm.trans again
    obtain ⟨stored,still⟩ := ready store ensured
    exact .armed (.before stored.punctual (onContentStoreMiss_arms (insertPitToken_bound (t := known) ensured) still)) (ordinary other)

def AllArmed (s : State) : Prop := ∀ e ∈ s.pit, Armed ends s.scheduler e.id

theorem admitted_scheduler : (admitted s i).1.scheduler = s.scheduler := admitted_same State.scheduler (fun _ _ _ => rfl)

section
variable (sound : Sound env s) (timely : Timely s)
include sound timely

theorem admitted_timely : Timely (admitted s i).1 := by
  have ids : ((admitted s i).1.pit.map Entry.id).Nodup := (admitted_sound sound).ids
  rcases admitted_cases s i with ⟨e,_,equal⟩ | ⟨_,equal⟩
  · rw [equal] at ids ⊢
    exact { timely with ids }
  · rw [equal] at ids ⊢
    exact ⟨timely.valid,ids,timely.expiry.add rfl,timely.rto.add rfl⟩

theorem inserted_unarmed (missing : s.pit.find i = none) :
    ¬ Armed ends s.scheduler (admitted s i).2 := by
  rw [admitted_new missing]
  rintro ⟨timer,pending,mine⟩
  obtain ⟨o,inside,named,_⟩ := timely.expiry.covered timer pending _ mine
  exact Nat.lt_irrefl _ (named ▸ sound.fresh o inside)

theorem settled_timely (settled : Settled env s i t) : Timely t := by
  have started : Timely (admitted s i).1 := admitted_timely sound timely
  cases settled with
  | armed arms => exact arms.timely started
  | looped punctual => exact punctual.timely started
  | left punctual => exact punctual.timely started

theorem settled_armed (all : AllArmed s)
    (ids : t.pit.map Entry.id = (admitted s i).1.pit.map Entry.id) (settled : Settled env s i t) :
    AllArmed t ↔ (s.pit.find i = none → Answerable env s i) := by
  have started : Timely (admitted s i).1 := admitted_timely sound timely
  have origin : ∀ e ∈ t.pit, ∃ a ∈ (admitted s i).1.pit, a.id = e.id := by
    intro e present
    have listed := ids ▸ mem_map_of_mem present
    exact mem_map.mp listed
  -- Old entries stay armed; what is left is the new entry, if there is one.
  have rest : Punctual (admitted s i).1 t → (s.pit.find i = none → Armed ends t.scheduler (admitted s i).2) → AllArmed t := by
    intro punctual new e present
    obtain ⟨a,inside,same⟩ := origin e present
    rw [← same]
    rcases admitted_origin inside with old | ⟨missing,made⟩
    · exact punctual.armed started a.id (by rw [admitted_scheduler]; exact all a old)
    · rw [made,← admitted_new missing]
      exact new missing
  cases settled with
  | armed arms answerable =>
    exact ⟨fun _ _ => answerable,fun _ => rest arms.toPunctual (fun _ => arms.own started)⟩
  | looped punctual found answerable =>
    exact ⟨fun _ _ => answerable,fun _ => rest punctual (fun missing => by simp [missing] at found)⟩
  | left punctual same unanswerable =>
    refine ⟨fun every missing => ?_,fun answered => rest punctual (fun missing => ?_)⟩
    · obtain ⟨e,found⟩ := admitted_alive sound
      obtain ⟨inside,named⟩ := Pit.get_id found
      have listed : (admitted s i).2 ∈ t.pit.map Entry.id := ids ▸ named ▸ mem_map_of_mem inside
      obtain ⟨e',present,same'⟩ := mem_map.mp listed
      have armed := every e' present
      rw [same',same,admitted_scheduler] at armed
      exact (inserted_unarmed sound timely missing armed).elim
    · exact (unanswerable (answered missing)).elim

end

def Expiring (env : Env) (s : State) : Prop :=
  ∀ e ∈ s.pit, ∃ timer, s.scheduler.armed (.finalize e.id) = [timer] ∧ ∀ e' ∈ (fire env s timer).pit, e'.id ≠ e.id

theorem ends_exact : ends task = some id ↔ task = .finalize id := by
  cases task with
  | finalize other => simp [ends]
  | rtoTimeout => simp [ends]

theorem fire_ends (timely : Timely s) (found : s.pit.get id = some e) (task : timer.task = .finalize id) :
    ∀ e' ∈ (fire env s timer).pit, e'.id ≠ id := by
  intro e' present
  have fired : fire env s timer = onInterestFinalize env (s.cancelTimer (some timer.id)) id := by
    unfold fire fireWith
    rw [task]
  have still : (s.cancelTimer (some timer.id)).pit.get id = some e := found
  obtain ⟨inside,rfl⟩ := Pit.get_id found
  rw [fired,finalize_pit still] at present
  exact ((Pit.mem_erase timely.ids inside).mp present).2

theorem expiring_armed (timely : Timely s) : Expiring env s ↔ AllArmed s := by
  constructor
  · intro expiring e present
    obtain ⟨timer,single,_⟩ := expiring e present
    have listed := single ▸ mem_cons_self
    obtain ⟨pending,task⟩ := mem_filter.mp listed
    exact ⟨timer,pending,ends_exact.mpr (of_decide_eq_true task)⟩
  · intro all e present
    obtain ⟨timer,pending,mine⟩ := all e present
    have task := ends_exact.mp mine
    obtain ⟨held,found⟩ := alive_of_mem present
    refine ⟨timer,armed_single timely.valid pending task ?_,fire_ends timely found task⟩
    intro other listed same
    exact timely.expiry.unique timely.valid timely.ids listed pending (ends_exact.mpr same) mine

def Answered (env : Env) (s : State) : Event → Prop
  | .interest packet ingress _ => ∀ i, screen env s packet ingress = .accepted i → s.pit.find i = none → Answerable env s i
  | _ => True

theorem outcome_refused (refused : ∀ i, screen env s packet ingress ≠ .accepted i)
    (outcome : Outcome env s packet ingress choices t) : Idle s t := by
  cases outcome with
  | dropped => exact .refl _
  | looped => exact onInterestLoop_idle
  | raised accepted | unanswered accepted | reflected accepted | duplicate accepted | hit accepted | miss _ accepted =>
    exact (refused _ accepted).elim

theorem Idle.allArmed (idle : Idle s t) (all : AllArmed s) : AllArmed t := by
  obtain ⟨f,same,mapped⟩ := idle.entries
  intro e' present
  rw [mapped] at present
  obtain ⟨e,inside,rfl⟩ := mem_map.mp present
  rw [idle.scheduler,(same e).1]
  exact all e inside

theorem fired_alive (timely : Timely s) (pending : timer ∈ s.scheduler.pending) (task : timer.task = .finalize id) :
    ∃ e, (s.cancelTimer (some timer.id)).pit.get id = some e := by
  obtain ⟨o,inside,rfl,_⟩ := timely.expiry.covered timer pending id (by rw [task]; rfl)
  exact alive_of_mem inside

theorem fired_armed (timely : Timely s) (all : AllArmed s) (pending : timer ∈ s.scheduler.pending) (task : timer.task = .finalize id) :
    AllArmed (onInterestFinalize env (s.cancelTimer (some timer.id)) id) := by
  obtain ⟨e,found⟩ := fired_alive timely pending task
  obtain ⟨here,rfl⟩ := Pit.get_id found
  intro e' present
  rw [finalize_pit found] at present
  obtain ⟨old,apart⟩ := (Pit.mem_erase timely.ids here).mp present
  refine finalize_armed timely.cancelTimer found apart ((all e' old).cancel (fun t listed held => ?_))
  -- the fired event was the ending entry's
  rw [timely.valid.unique listed pending (some.inj held).symm,task]
  exact fun equal => apart (some.inj equal).symm

theorem handle_timely (sound : Sound env s) (timely : Timely s) (handled : handle env s event = some t) : Timely t := by
  cases handle_cases sound handled with
  | @interest ingress packet choices _ _ arrived =>
    have outcome := interest_outcome arrived
    cases screened : screen env s packet ingress with
    | accepted i => exact settled_timely sound timely (outcome_settled sound outcome screened)
    | _ => exact (outcome_refused (by simp [screened]) outcome).punctual.timely timely
  | finalize found task =>
    obtain ⟨e,present⟩ := fired_alive timely (mem_of_find?_eq_some found) task
    exact finalize_timely timely.cancelTimer present
  | routine _ trace => exact trace.punctual.timely timely

theorem handle_armed (sound : Sound env s) (timely : Timely s) (all : AllArmed s) (handled : handle env s event = some t) :
    AllArmed t ↔ Answered env s event := by
  cases handle_cases sound handled with
  | @interest ingress packet choices _ _ arrived =>
    have outcome := interest_outcome arrived
    cases screened : screen env s packet ingress with
    | accepted i =>
      refine (settled_armed sound timely all (arrival_follows sound (interest_arrival arrived) screened).ids
        (outcome_settled sound outcome screened)).trans ⟨fun answered j again => ?_,fun answered => answered i screened⟩
      cases screened.symm.trans again
      exact answered
    | _ =>
      have idle := outcome_refused (by simp [screened]) outcome
      exact ⟨fun _ j accepted => by simp [screened] at accepted,fun _ => idle.allArmed all⟩
  | finalize found task => exact ⟨fun _ => trivial,fun _ => fired_armed timely all (mem_of_find?_eq_some found) task⟩
  | routine usual trace =>
    refine ⟨fun _ => ?_,fun _ e' present => ?_⟩
    · cases event with
      | interest => exact usual.elim
      | _ => exact trivial
    · obtain ⟨e,inside,trimmed⟩ := trace.quiet.origin present
      rw [trimmed.id]
      exact trace.punctual.armed timely e.id (all e inside)

theorem Answerable.same (answerable : Answerable env s i) (same : (t.pitAssist,t.pit) = (s.pitAssist,s.pit)) :
    Answerable env t i := by
  refine ⟨answerable.1,fun producer => ?_⟩
  obtain ⟨original,prev,selected⟩ := answerable.2 producer
  exact ⟨original,prev,selected.same same⟩

theorem step_timely (sound : Sound env s) (timely : Timely s) (taken : step env s event = some t) : Timely t := by
  have cleared : Idle s { s with sent := [] } := .of_tables rfl
  exact handle_timely sound.cleared (cleared.punctual.timely timely) taken

theorem step_armed (sound : Sound env s) (timely : Timely s) (all : AllArmed s) (taken : step env s event = some t) :
    AllArmed t ↔ Answered env s event := by
  have cleared : Idle s { s with sent := [] } := .of_tables rfl
  refine (handle_armed sound.cleared (cleared.punctual.timely timely) (cleared.allArmed all) taken).trans ?_
  cases event with
  | interest =>
    exact ⟨fun answered i accepted missing => (answered i accepted missing).same rfl,
      fun answered i accepted missing => (answered i accepted missing).same rfl⟩
  | _ => exact Iff.rfl

theorem initial_timely (initial : Initial s) : Timely s := by
  refine ⟨?_,by simp [initial.pit],?_,?_⟩
  · rw [initial.scheduler]
    exact empty_valid
  · rw [initial.scheduler,initial.pit]
    exact Owned.none_owned
  · rw [initial.scheduler,initial.pit]
    exact Owned.none_owned

end ReflexiveNfd
