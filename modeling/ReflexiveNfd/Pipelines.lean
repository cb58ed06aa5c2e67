import ReflexiveNfd.StrategyActs

namespace ReflexiveNfd
open Actions Timers
open List hiding after
variable {s t u : State} {e : Entry} {id : EntryId} {ingress : Face}

theorem frame_tables (d : DeadNonceList) (cs : ContentStore) (announcing : List Announcing) :
    Frame s { s with deadNonceList := d, cs := cs, announcing := announcing } :=
  ⟨⟨rfl,rfl,Nat.le_refl _,fun _ _ => .refl _,fun e => e,by simp,.refl⟩,rfl,prefix_rfl⟩

theorem markSatisfied_frame : Frame s (markSatisfied s id data) :=
  .modifyEntry (fun _ => .of_core rfl)

theorem insertDeadNonceList_form (env s id upstream) : ∃ d, insertDeadNonceList env s id upstream = { s with deadNonceList := d } := by
  unfold insertDeadNonceList
  dsimp only
  split
  · exact ⟨_,rfl⟩
  · split
    · exact ⟨_,rfl⟩
    · exact ⟨_,rfl⟩

theorem insertDeadNonceList_frame : Frame s (insertDeadNonceList env s id upstream) := by
  obtain ⟨d,equal⟩ := insertDeadNonceList_form env s id upstream
  rw [equal]
  exact frame_tables _ _ _

theorem onInterestLoop_frame : Frame s (onInterestLoop s interest ingress) := by
  unfold onInterestLoop
  split
  · exact .refl s
  · exact .emit

def Alive (s : State) (id : EntryId) : Prop := ∃ e, s.pit.get id = some e

theorem Alive.quiet (alive : Alive s id) (quiet : Quiet s t) : Alive t id := by
  obtain ⟨e,found⟩ := alive
  obtain ⟨e',later,_⟩ := quiet.get found
  exact ⟨e',later⟩

theorem alive_of_mem (present : e ∈ s.pit) : Alive s e.id := by
  cases found : s.pit.get e.id with
  | none =>
    have missing := List.find?_eq_none.mp found e present
    simp at missing
  | some other => exact ⟨other,found⟩

def Resends (s : State) (id : EntryId) (object : ObjId) (_ : Face) : Prop :=
  ∃ e, s.pit.get id = some e ∧ e.inRecords ≠ [] ∧ (object = e.interest ∨ ∃ r ∈ e.inRecords, r.interest = object)

structure Plain (s t : State) : Prop where
  interests : t.interests = s.interests
  pitAssist : t.pitAssist = s.pitAssist
  nextEntry : t.nextEntry = s.nextEntry
  scheduler : t.scheduler = s.scheduler
  entries : ∃ f, Remark f ∧ t.pit = s.pit.map f
  sent : ∀ w ∈ t.sent, w ∈ s.sent ∨ ∀ f p, w ≠ .interest f p

theorem remark_id : Remark (fun e => e) := ⟨.refl,fun _ => rfl,fun _ => rfl⟩

inductive Trace (env : Env) : State → State → Prop where
  | plain : Plain before after → Trace env before after
  | acts : Alive before tended → Acts env tended (Resends before tended) (fun _ _ => True) before after → Trace env before after
  | retune (changed : Entry → Bool) : Trace env before
      { (before.pit.filter changed).foldl (fun s e => s.cancelTimer e.rtoTimer) before with
        pit := before.pit.map (fun e => if changed e then clearStrategyInfo e else e) }
  | spend : timer ∈ before.scheduler.pending → timer.task = .rtoTimeout entry inFace firstOutFace →
      Trace env before (before.cancelTimer (some timer.id))
  | trans : Trace env before middle → Trace env middle after → Trace env before after

theorem Plain.of_tables (same : (t.interests,t.pitAssist,t.nextEntry,t.scheduler,t.pit,t.sent) =
    (s.interests,s.pitAssist,s.nextEntry,s.scheduler,s.pit,s.sent)) : Plain s t := by
  simp only [Prod.mk.injEq] at same
  obtain ⟨interests,pitAssist,nextEntry,scheduler,pit,sent⟩ := same
  exact ⟨interests,pitAssist,nextEntry,scheduler,⟨_,remark_id,by simp [pit]⟩,fun w present => .inl (sent ▸ present)⟩

theorem Plain.refl (s : State) : Plain s s := of_tables rfl

theorem Plain.quiet (plain : Plain s t) : Quiet s t := by
  obtain ⟨f,remark,mapped⟩ := plain.entries
  refine ⟨plain.pitAssist,plain.nextEntry,by rw [plain.interests],?_,f,mapped,remark.trimmed⟩
  intro object _
  simpa [State.interest,plain.interests] using Rewritten.refl _

theorem trimmed_clearStrategyInfo : Trimmed e (clearStrategyInfo e) := by
  refine ⟨rfl,rfl,rfl,rfl,rfl,rfl,?_⟩
  simp only [clearStrategyInfo,map_map]
  exact Sublist.refl _

theorem cancelTimers_form (entries : List Entry) : entries.foldl (fun s e => s.cancelTimer e.rtoTimer) s =
    { s with scheduler := entries.foldl (fun queue e => queue.cancel e.rtoTimer) s.scheduler } := by
  induction entries generalizing s with
  | nil => rfl
  | cons e entries ih => rw [foldl_cons,ih]; rfl

theorem Trace.quiet (trace : Trace env s t) : Quiet s t := by
  induction trace with
  | plain plain => exact plain.quiet
  | acts _ acts => exact acts.frame.toQuiet
  | retune changed =>
    rw [cancelTimers_form]
    refine ⟨rfl,rfl,Nat.le_refl _,fun _ _ => .refl _,_,rfl,fun e => ?_⟩
    split
    · exact trimmed_clearStrategyInfo
    · exact .refl e
  | spend => exact Frame.cancelTimer.toQuiet
  | trans _ _ one two => exact one.trans two

theorem Trace.refl (s : State) : Trace env s s := .plain (.refl s)

def Tends (env : Env) (id : EntryId) (s t : State) : Prop := Alive s id → Trace env s t

theorem Tends.trans (one : Tends env id s t) (two : Tends env id t u) : Tends env id s u :=
  fun alive => (one alive).trans (two (alive.quiet (one alive).quiet))

theorem Tends.plain (plain : Plain s t) : Tends env id s t := fun _ => .plain plain

theorem Tends.acts (acts : Acts env id (Resends s id) (fun _ _ => True) s t) : Tends env id s t := fun alive => .acts alive acts

theorem Tends.note (remark : Remark f) : Tends env id s (s.modifyEntry id f) := .acts (.note remark)

theorem Tends.setExpiryTimer : Tends env id s (s.setExpiryTimer id duration) := .acts (.one .setExpiryTimer)

theorem Trace.loop (ids : List EntryId) (each : ∀ u id, Tends env id u (body u id))
    (alive : ∀ id ∈ ids, Alive s id) : Trace env s (ids.foldl body s) := by
  induction ids generalizing s with
  | nil => exact .refl s
  | cons id ids ih =>
    have first := each s id (alive id mem_cons_self)
    exact first.trans (ih (fun other listed => (alive other (mem_cons_of_mem _ listed)).quiet first.quiet))

theorem insertDeadNonceList_plain : Plain s (insertDeadNonceList env s id upstream) := by
  obtain ⟨d,equal⟩ := insertDeadNonceList_form env s id upstream
  rw [equal]
  exact .of_tables rfl

theorem markSatisfied_tends : Tends env id s (markSatisfied s id data) :=
  .note (.of_core (fun _ => ⟨rfl,rfl,rfl,rfl,rfl,rfl,rfl,rfl,rfl⟩))

theorem remark_clearInRecords : Remark (fun e => e.clearInRecords.deleteOutRecord face) :=
  ⟨fun _ => Trimmed.clearInRecords.trans (.of_core rfl),fun _ => rfl,fun _ => rfl⟩

theorem satisfyOne_tends : Tends env id s (satisfyOne env s data ingress id choices) := by
  refine .trans ?_ (.note (.of_core (fun _ => ⟨rfl,rfl,rfl,rfl,rfl,rfl,rfl,rfl,rfl⟩)))
  refine .trans (.trans ?_ markSatisfied_tends) (.plain insertDeadNonceList_plain)
  exact Tends.setExpiryTimer.trans (.acts (afterReceiveData_acts (fun _ _ => trivial)))

theorem satisfyAmong_tends : Tends env id s (satisfyAmong env data ingress choices s id) := by
  refine .trans ?_ (.note remark_clearInRecords)
  refine .trans (.trans ?_ markSatisfied_tends) (.plain insertDeadNonceList_plain)
  exact Tends.setExpiryTimer.trans (.acts beforeSatisfyInterest_acts)

theorem onOutgoingData_plain : Plain s (onOutgoingData s data egress) := by
  unfold onOutgoingData
  split
  · exact .refl s
  · split
    · exact .refl s
    · refine ⟨rfl,rfl,rfl,rfl,⟨_,remark_id,by simp [State.emit]⟩,?_⟩
      intro w present
      rcases mem_append.mp present with old | new
      · exact .inl old
      · cases mem_singleton.mp new
        exact .inr (fun _ _ => by simp)

theorem Pit.findAllDataMatches_mem {pit : Pit} (listed : e ∈ pit.findAllDataMatches data) :
    e ∈ pit ∧ matchesData e.name e.canBePrefix e.mustBeFresh data := by
  obtain ⟨depth,_,inside⟩ := mem_flatMap.mp listed
  obtain ⟨attached,matched⟩ := mem_filter.mp inside
  exact ⟨(mem_filter.mp attached).1,matched⟩

theorem satisfyMany_trace (present : ∀ e ∈ pitMatches, e ∈ s.pit) :
    Trace env s (satisfyMany env s data ingress pitMatches choices) := by
  unfold satisfyMany
  dsimp only
  have satisfied : Trace env s ((pitMatches.map Entry.id).foldl (satisfyAmong env data ingress choices) s) := by
    refine .loop _ (fun _ _ => satisfyAmong_tends) ?_
    intro id listed
    obtain ⟨e,inside,rfl⟩ := mem_map.mp listed
    exact alive_of_mem (present e inside)
  refine satisfied.trans ?_
  generalize List.foldl _ _ _ = u
  generalize List.filter _ _ = downstreams
  induction downstreams generalizing u with
  | nil => exact .refl u
  | cons face downstreams ih => exact .trans (.plain onOutgoingData_plain) (ih _)

def received (data : Data) (ingress : Face) : Data := { decodeData data with incomingFaceId := some ingress.id }

inductive DataOutcome (env : Env) (s : State) (data : Data) (ingress : Face) (choices : Choices) : State → Prop where
  | dropped : DataOutcome env s data ingress choices s
  | unsolicited : s.pit.findAllDataMatches (received data ingress) = [] →
      DataOutcome env s data ingress choices { s with cs := s.cs.insert s.now (received data ingress) true }
  | one : s.pit.findAllDataMatches (received data ingress) = [matched] →
      DataOutcome env s data ingress choices
        (satisfyOne env { s with cs := s.cs.insert s.now (received data ingress) false } (received data ingress) ingress matched.id choices)
  | many : s.pit.findAllDataMatches (received data ingress) = first :: second :: others →
      DataOutcome env s data ingress choices
        (satisfyMany env { s with cs := s.cs.insert s.now (received data ingress) false } (received data ingress) ingress
          (first :: second :: others) choices)

theorem data_outcome (env : Env) (s : State) (data : Data) (ingress : Face) (choices : Choices) :
    ∃ t, onIncomingData env s data ingress choices = t ∧ DataOutcome env s data ingress choices t := by
  refine ⟨_,rfl,?_⟩
  unfold onIncomingData onIncomingDataWith
  dsimp only
  split
  · exact .dropped
  · cases found : s.pit.findAllDataMatches (received data ingress) with
    | nil =>
      rw [received] at found
      simp only [found,onDataUnsolicited]
      split
      · exact .unsolicited found
      · exact .dropped
    | cons e others =>
      cases others with
      | nil =>
        rw [received] at found
        simp only [found]
        exact .one found
      | cons second others =>
        rw [received] at found
        simp only [found]
        exact .many found

theorem onIncomingData_trace : Trace env s (onIncomingData env s data ingress choices) := by
  have cached : ∀ d isUnsolicited, Trace env s { s with cs := s.cs.insert s.now d isUnsolicited } :=
    fun _ _ => .plain (.of_tables rfl)
  obtain ⟨_,equal,outcome⟩ := data_outcome env s data ingress choices
  rw [equal]
  cases outcome with
  | dropped => exact .refl s
  | unsolicited => exact cached _ _
  | one only =>
    have listed := (Pit.findAllDataMatches_mem (only ▸ mem_cons_self)).1
    exact (cached _ _).trans (satisfyOne_tends (alive_of_mem listed))
  | many found =>
    exact (cached _ _).trans (satisfyMany_trace (fun e listed => (Pit.findAllDataMatches_mem (found ▸ listed)).1))

theorem onIncomingNack_trace : Trace env s (onIncomingNack s nack ingress) := by
  unfold onIncomingNack
  split
  · exact .refl s
  · split
    · exact .refl s
    · rename_i e found
      split
      · exact .refl s
      · split
        · exact .refl s
        · dsimp only
          have alive : Alive s e.id := alive_of_mem (mem_filter.mp (mem_of_find?_eq_some found)).1
          have noted : Tends env e.id s (s.modifyEntry e.id
              (·.updateOutRecord ingress (fun r => { r with incomingNack := some nack.reason }))) := .note remark_outRecord
          split
          · exact noted.trans (.acts afterReceiveNack_acts) alive
          · exact (noted.trans .setExpiryTimer).trans (.acts afterReceiveNack_acts) alive

theorem onNewNextHop_trace : Trace env s (onNewNextHop env s name nexthop) := by
  refine .loop _ (fun u id alive => ?_) ?_
  · obtain ⟨e,found⟩ := alive
    have held : u.entry id = e := by simp [State.entry,found]
    refine .acts ⟨e,found⟩ (afterNewNextHop_acts (fun some => ?_))
    rw [held] at some ⊢
    exact ⟨e,found,some,.inl rfl⟩
  · intro id listed
    obtain ⟨e,inside,rfl⟩ := mem_map.mp listed
    exact alive_of_mem (mem_filter.mp inside).1

theorem addOrUpdateNextHop_trace : Trace env s (addOrUpdateNextHop env s name face cost) := by
  have routed : Trace env s { s with fib := s.fib.insertNextHop name face cost } := .plain (.of_tables rfl)
  unfold addOrUpdateNextHop
  split
  · exact routed
  · exact routed.trans onNewNextHop_trace

theorem announce_trace : Trace env s (announce s a) := by
  unfold announce
  split
  · rename_i e inFace found _
    have sent : Tends env a.entry s (sendDataToAll s { a.data with prefixAnnouncement := true } a.entry inFace) :=
      .acts (sendDataToAll_acts (fun _ _ => trivial))
    exact sent.trans .setExpiryTimer ⟨e,found⟩
  · exact .refl s

theorem afterRtoTimeout_trace (known : ∀ e r, s.pit.get id = some e → r ∈ e.inRecords → r.interest < s.interests.length) :
    Trace env s (AccessStrategy.afterRtoTimeout env s id inFaceId firstOutFaceId) := by
  cases found : s.pit.get id with
  | none =>
    -- without the entry there is no in-record to resend
    unfold AccessStrategy.afterRtoTimeout
    split
    · exact .refl s
    · simp only [State.entry,found]
      exact .refl s
  | some e =>
    refine .acts ⟨e,found⟩ (AccessStrategy.afterRtoTimeout_acts known (fun r face listed => ?_))
    rw [State.entry_of_get found] at listed
    exact ⟨e,found,ne_nil_of_mem listed,.inr ⟨r,listed,rfl⟩⟩

theorem cleanupOnFaceRemoval_plain : Plain s (cleanupOnFaceRemoval s face) := by
  have remark : Remark (fun e => (e.deleteInRecord face).deleteOutRecord face) :=
    ⟨fun _ => Trimmed.deleteInRecord.trans (.of_core rfl),fun _ => rfl,fun _ => rfl⟩
  exact ⟨rfl,rfl,rfl,rfl,⟨_,remark,rfl⟩,fun _ present => .inl present⟩

theorem changeStrategy_trace : Trace env s (changeStrategy s name oldStrategy newStrategy) := by
  unfold changeStrategy
  split
  · exact .refl s
  · exact .retune _

theorem strategy_rule {P : State → Prop} (kept : P s)
    (changed : ∀ old new choice, P { changeStrategy s name old new with strategyChoice := choice }) :
    (∀ strategy, P (setStrategy s name strategy)) ∧ P (unsetStrategy s name) := by
  refine ⟨fun strategy => ?_,?_⟩
  · unfold setStrategy
    split
    · split
      · exact kept
      · exact changed ..
    · exact changed ..
  · unfold unsetStrategy
    split
    · exact kept
    · exact changed ..

theorem strategy_trace : (∀ strategy, Trace env s (setStrategy s name strategy)) ∧ Trace env s (unsetStrategy s name) :=
  strategy_rule (.refl s) (fun _ _ _ => changeStrategy_trace.trans (.plain (.of_tables rfl)))

end ReflexiveNfd
