import ReflexiveNfd.Moves

namespace ReflexiveNfd
open Actions Timers List Option

inductive NackOutcome (env : Env) (v : State) (nack : Nack) (ingress : Face) : State → Prop where
  | ignored : (∀ e r, ingress.linkType = .pointToPoint → v.pit.find nack.interest = some e → e.getOutRecord ingress = some r →
      r.lastNonce ≠ nack.interest.nonce) → NackOutcome env v nack ingress v
  | noted : ingress.linkType = .pointToPoint → v.pit.find nack.interest = some e → e.getOutRecord ingress = some r →
      r.lastNonce = nack.interest.nonce →
      (u = enact env v (.setIncomingNack e.id ingress nack.reason) ∨
        u = (enact env v (.setIncomingNack e.id ingress nack.reason)).setExpiryTimer e.id 0) →
      NackOutcome env v nack ingress (afterReceiveNack (u.findEffectiveStrategy e.name) u nack.reason e.id)

variable {env : Env} {strategy : Strategy} {s t u v : State} {e : Entry} {id : EntryId} {ingress : Face} {data : Data}
  {i : Interest} {name : Name} {pit : Pit} {event : Event} {nack : Nack}

theorem Idle.disarmed (idle : Idle s t) (disarmed : Disarmed s id) : Disarmed t id := by
  obtain ⟨f,same,mapped⟩ := idle.entries
  intro timer pending
  rw [idle.scheduler] at pending
  unfold State.entry
  rw [mapped,Pit.get_map (fun e => (same e).1)]
  have still := disarmed timer pending
  unfold State.entry at still
  cases found : s.pit.get id with
  | none => simpa [found] using still
  | some e =>
    rw [found,getD_some] at still
    rw [map_some,getD_some,(same e).2.2]
    exact still

theorem sendDataToAll_moves (free : v.kindOf (v.entry id).name ≠ .access ∨ Disarmed v id) :
    Moves env s event v (sendDataToAll v data id ingress) := by
  let spared : State → Prop := fun u => u.kindOf (u.entry id).name ≠ .access ∨ Disarmed u id
  refine Performs.loopWhile (I := spared) _ (fun u face _ good => ?_) (fun u face _ good => ?_) free
  · have sent : Frame u (sendData u data face id) := .sendData
    rcases good with other | disarmed
    · exact .inl (by rw [sent.kindOf]; exact other)
    · exact .inr (Idle.sendData.disarmed disarmed)
  · rcases good with other | disarmed
    · exact sendData_moves (.governed other)
    · exact sendData_moves (.disarmed disarmed)

theorem cancelTimer_disarmed : Disarmed (v.cancelTimer (v.entry id).rtoTimer) id :=
  fun _ pending held => (Scheduler.mem_cancel.mp pending).2 held.symm

theorem beforeSatisfyInterest_moves (alive : Alive v id) (kind : strategy.kind = v.kindOf (v.entry id).name) :
    Moves env s event v (beforeSatisfyInterest strategy v id choices) ∧
      ((beforeSatisfyInterest strategy v id choices).kindOf ((beforeSatisfyInterest strategy v id choices).entry id).name ≠ .access ∨
        Disarmed (beforeSatisfyInterest strategy v id choices) id) := by
  unfold beforeSatisfyInterest
  split
  · rename_i asf
    have armed : Frame v (v.setExpiryTimer id 50) := .setExpiryTimer
    split
    · exact ⟨.one (.setExpiryTimer alive),.inl (by rw [armed.kindOf,← kind,asf]; simp)⟩
    · exact ⟨.done,.inl (by rw [← kind,asf]; simp)⟩
  · exact ⟨.one .cancelTimer,.inr cancelTimer_disarmed⟩
  · rename_i other
    exact ⟨.done,.inl (by rw [← kind]; exact other)⟩

theorem afterReceiveData_moves (alive : Alive v id) (kind : strategy.kind = v.kindOf (v.entry id).name) :
    Moves env s event v (afterReceiveData strategy v data ingress id choices) := by
  unfold afterReceiveData
  split
  · rename_i learning
    have other : v.kindOf (v.entry id).name ≠ .access := by rw [← kind,learning]; simp
    unfold SelfLearningStrategy.afterReceiveData
    split
    · exact .done
    · split
      · have armed : Frame v (v.setExpiryTimer id 1000) := .setExpiryTimer
        refine Moves.trans (.one (.setExpiryTimer alive)) (.one (.hold (alive.quiet armed.toQuiet) ?_))
        exact armed.kindOf.trans (kind.symm.trans learning)
      · exact sendDataToAll_moves (.inl other)
  · obtain ⟨satisfied,free⟩ := beforeSatisfyInterest_moves alive kind
    exact satisfied.trans (sendDataToAll_moves free)

theorem markSatisfied_entry (alive : Alive v id) : ((markSatisfied v id data).entry id).isSatisfied ∧
    ((markSatisfied v id data).entry id).dataFreshnessPeriod = data.freshnessPeriod := by
  obtain ⟨e,found⟩ := alive
  have marked : (markSatisfied v id data).pit.get id =
      some { e with isSatisfied := true, dataFreshnessPeriod := data.freshnessPeriod } := State.get_modifyEntry (fun _ => rfl) found
  rw [State.entry_of_get marked]
  exact ⟨rfl,rfl⟩

section
variable (arrived : event = .data origin ingress choices) (fresh : data.freshnessPeriod = origin.freshnessPeriod)
include arrived fresh

theorem markSatisfied_moves : Moves env s event v (markSatisfied v id data) :=
  .one (.satisfy (.inr ⟨origin,by rw [arrived]; rfl,fresh.symm⟩))

theorem retire_moves (alive : Alive v id) : Moves env s event (markSatisfied v id data) (enact env (markSatisfied v id data) (.retire id ingress)) :=
  .one (.retire arrived (markSatisfied_entry alive).1 ((markSatisfied_entry alive).2.trans fresh))

theorem callOfOne_moves (alive : Alive v id) : ∃ w, callOfOne v data ingress id choices = markSatisfied w id data ∧ Alive w id ∧
    Moves env s event v (callOfOne v data ingress id choices) := by
  have armed : Frame v (v.setExpiryTimer id 0) := .setExpiryTimer
  have later := alive.quiet armed.toQuiet
  unfold callOfOne
  dsimp only
  generalize fixed : (v.setExpiryTimer id 0).findEffectiveStrategy ((v.setExpiryTimer id 0).entry id).name = strategy
  have triggered : Moves env s event (v.setExpiryTimer id 0) (afterReceiveData strategy (v.setExpiryTimer id 0) data ingress id choices) :=
    afterReceiveData_moves later (by rw [← fixed]; rfl)
  have acts : Acts env id (fun _ _ => False) (fun _ _ => True) (v.setExpiryTimer id 0)
      (afterReceiveData strategy (v.setExpiryTimer id 0) data ingress id choices) := afterReceiveData_acts (fun _ _ => trivial)
  exact ⟨_,rfl,later.quiet acts.frame.toQuiet,Moves.trans (.one (.setExpiryTimer alive)) (triggered.trans (markSatisfied_moves arrived fresh))⟩

theorem satisfyOne_moves (alive : Alive v id) : Moves env s event v (satisfyOne env v data ingress id choices) := by
  obtain ⟨w,called,here,moves⟩ : ∃ _, _ ∧ _ ∧ Moves env s event v _ := callOfOne_moves arrived fresh alive
  unfold satisfyOne
  rw [called] at moves ⊢
  exact moves.trans (retire_moves arrived fresh here)

omit arrived fresh in
theorem State.modifyEntry_modifyEntry (same : ∀ e, (f e).id = e.id) :
    (s.modifyEntry id f).modifyEntry id g = s.modifyEntry id (fun e => g (f e)) := by
  unfold State.modifyEntry Pit.modify
  simp only [List.map_map]
  congr 1
  refine List.map_congr_left (fun e _ => ?_)
  by_cases mine : e.id = id
  · simp [mine,same]
  · simp [mine]

theorem callAmong_moves (alive : Alive v id) : ∃ w, callAmong data choices v id = markSatisfied w id data ∧ Alive w id ∧
    (w.kindOf (w.entry id).name ≠ .access ∨ Disarmed w id) ∧ Moves env s event v (callAmong data choices v id) := by
  have armed : Frame v (v.setExpiryTimer id 0) := .setExpiryTimer
  have later := alive.quiet armed.toQuiet
  unfold callAmong
  dsimp only
  generalize fixed : (v.setExpiryTimer id 0).findEffectiveStrategy ((v.setExpiryTimer id 0).entry id).name = strategy
  obtain ⟨satisfied,free⟩ : Moves env s event (v.setExpiryTimer id 0) (beforeSatisfyInterest strategy (v.setExpiryTimer id 0) id choices) ∧ _ :=
    beforeSatisfyInterest_moves later (by rw [← fixed]; rfl)
  have acts : Acts env id (fun _ _ => False) (fun _ _ => False) (v.setExpiryTimer id 0)
      (beforeSatisfyInterest strategy (v.setExpiryTimer id 0) id choices) := beforeSatisfyInterest_acts
  exact ⟨_,rfl,later.quiet acts.frame.toQuiet,free,
    Moves.trans (.one (.setExpiryTimer alive)) (satisfied.trans (markSatisfied_moves arrived fresh))⟩

theorem satisfyAmong_moves (alive : Alive v id) : Moves env s event v (satisfyAmong env data ingress choices v id) := by
  obtain ⟨w,called,here,free,moves⟩ : ∃ _, _ ∧ _ ∧ _ ∧ Moves env s event v _ := callAmong_moves arrived fresh alive
  unfold satisfyAmong
  rw [called] at moves ⊢
  refine moves.trans ((retire_moves arrived fresh here).trans ?_)
  dsimp only
  have split : (insertDeadNonceList env (markSatisfied w id data) id (some ingress)).modifyEntry id
      (fun e => e.clearInRecords.deleteOutRecord ingress) =
      (enact env (markSatisfied w id data) (.retire id ingress)).modifyEntry id Entry.clearInRecords := by
    rw [enact,State.modifyEntry_modifyEntry]
    · rfl
    · exact fun _ => rfl
  rw [split]
  have idle : Idle w (enact env (markSatisfied w id data) (.retire id ingress)) := by
    have marked : Idle w (markSatisfied w id data) := .modifyEntry (fun _ => ⟨rfl,rfl,rfl⟩)
    exact (marked.trans (.plain insertDeadNonceList_plain)).trans (.modifyEntry (fun _ => ⟨rfl,rfl,rfl⟩))
  have frame : Frame w (enact env (markSatisfied w id data) (.retire id ingress)) :=
    (markSatisfied_frame.trans insertDeadNonceList_frame).trans (.modifyEntry (fun _ => .of_core rfl))
  refine .one (.clearInRecords ?_)
  rcases free with other | disarmed
  · exact .inl (by rw [frame.kindOf]; exact other)
  · exact .inr (idle.disarmed disarmed)

theorem satisfyMany_moves (present : ∀ e ∈ pitMatches, e ∈ v.pit) :
    Moves env s event v (satisfyMany env v data ingress pitMatches choices) := by
  have satisfied : Moves env s event v ((pitMatches.map Entry.id).foldl (satisfyAmong env data ingress choices) v) := by
    refine Performs.loopWhile (I := fun u => ∀ id ∈ pitMatches.map Entry.id, Alive u id) _ (fun u id inside alive own listed => ?_)
      (fun u id listed alive => satisfyAmong_moves arrived fresh (alive id listed)) (fun id listed => ?_)
    · have satisfied : Trace env u (satisfyAmong env data ingress choices u id) := satisfyAmong_tends (alive id inside)
      exact (alive own listed).quiet satisfied.quiet
    · obtain ⟨e,inside,rfl⟩ := mem_map.mp listed
      exact alive_of_mem (present e inside)
  refine satisfied.trans (Moves.loop _ (fun _ _ _ _ => onOutgoingData_moves) .done)

end

theorem Aside.inserted : Aside (.data data ingress choices) v { v with cs := v.cs.insert v.now (received data ingress) isUnsolicited } := by
  refine .cache (fun c listed => ?_)
  rcases ContentStore.insert_table listed with same | ⟨old,there,same⟩
  · exact .inr ⟨data,rfl,by rw [same]; rfl⟩
  · exact .inl ⟨old,there,by rw [same]⟩

theorem onIncomingData_moves : Moves env s (.data data ingress choices) v (onIncomingData env v data ingress choices) := by
  have cached : ∀ isUnsolicited, Moves env s (.data data ingress choices) v { v with cs := v.cs.insert v.now (received data ingress) isUnsolicited } :=
    fun _ => .aside .inserted
  obtain ⟨_,equal,outcome⟩ := data_outcome env v data ingress choices
  rw [equal]
  cases outcome with
  | dropped => exact .done
  | unsolicited => exact cached _
  | one only =>
    have listed := (Pit.findAllDataMatches_mem (only ▸ mem_cons_self)).1
    exact (cached _).trans (satisfyOne_moves rfl rfl (alive_of_mem listed))
  | many found =>
    refine (cached _).trans (satisfyMany_moves rfl ?_ (fun e listed => (Pit.findAllDataMatches_mem (found ▸ listed)).1))
    rfl

theorem afterReceiveNack_moves (alive : Alive v id) (kind : strategy.kind = v.kindOf (v.entry id).name) :
    Moves env s event v (afterReceiveNack strategy v reason id) := by
  have conducts : Conducts env id { nacks := fun _ => strategy.kind ≠ .access } v (afterReceiveNack strategy v reason id) :=
    afterReceiveNack_conducts (fun other _ _ => other)
  refine conducts.moves ⟨alive,fun _ _ => False.elim,fun _ _ _ _ => False.elim,fun u face before other => ?_,
    fun _ _ _ => False.elim,fun _ never => never⟩
  refine .governed ?_
  rw [before.frame.kindOf,← kind]
  exact other

theorem nack_outcome (env : Env) (v : State) (nack : Nack) (ingress : Face) :
    ∃ t, onIncomingNack v nack ingress = t ∧ NackOutcome env v nack ingress t := by
  refine ⟨_,rfl,?_⟩
  unfold onIncomingNack
  split
  · rename_i shared
    exact .ignored (fun e r direct => absurd direct shared)
  · rename_i direct
    split
    · rename_i missing
      exact .ignored (fun e r _ found => by simp [missing] at found)
    · rename_i e found
      split
      · rename_i unused
        refine .ignored (fun e' r _ found' recorded => ?_)
        cases found.symm.trans found'
        simp [unused] at recorded
      · rename_i outRecord recorded
        split
        · rename_i stale
          refine .ignored (fun e' r _ found' recorded' => ?_)
          cases found.symm.trans found'
          cases recorded.symm.trans recorded'
          exact Ne.symm stale
        · rename_i matching
          dsimp only
          split
          · exact .noted (not_not.mp direct) found recorded (not_not.mp matching).symm (.inl rfl)
          · exact .noted (not_not.mp direct) found recorded (not_not.mp matching).symm (.inr rfl)

theorem noted_moves (sound : Sound env v) (present : e ∈ v.pit)
    (after : u = enact env v (.setIncomingNack e.id ingress nack.reason) ∨
      u = (enact env v (.setIncomingNack e.id ingress nack.reason)).setExpiryTimer e.id 0) :
    Moves env s event (enact env v (.setIncomingNack e.id ingress nack.reason))
      (afterReceiveNack (u.findEffectiveStrategy e.name) u nack.reason e.id) := by
  have marked : Frame v (enact env v (.setIncomingNack e.id ingress nack.reason)) := .modifyEntry remark_outRecord.trimmed
  have alive := (alive_of_mem present).quiet marked.toQuiet
  have name : ∀ {w}, Frame v w → (w.entry e.id).name = e.name := by
    intro w frame
    rw [frame.entry.name,sound.entry present]
  rcases after with rfl | rfl
  · exact afterReceiveNack_moves alive (congrArg (fun n => (State.findEffectiveStrategy _ n).kind) (name marked).symm)
  · have armed : Frame _ ((enact env v (.setIncomingNack e.id ingress nack.reason)).setExpiryTimer e.id 0) := .setExpiryTimer
    exact Moves.trans (.one (.setExpiryTimer alive))
      (afterReceiveNack_moves (alive.quiet armed.toQuiet) (congrArg (fun n => (State.findEffectiveStrategy _ n).kind)
        (name (marked.trans armed)).symm))

theorem onIncomingNack_moves (sound : Sound env v) : Moves env s (.nack nack ingress) v (onIncomingNack v nack ingress) := by
  obtain ⟨_,equal,outcome⟩ := nack_outcome env v nack ingress
  rw [equal]
  cases outcome with
  | ignored => exact .done
  | noted direct found recorded matching after =>
    exact Moves.trans (.one (.setIncomingNack ⟨nack,rfl,rfl,direct,_,_,found,rfl,recorded,matching⟩))
      (noted_moves sound (Pit.find_found found).1 after)

structure Filed (s : State) (e : Entry) : Prop where
  representative : e.interest < s.interests.length ∧ (s.interest e.interest).key = e.key
  downstreams : ∀ r ∈ e.inRecords, r.interest < s.interests.length ∧ (s.interest r.interest).key = e.key
  inRecords : Keyed.Distinct InRecord.face e.inRecords
  outRecords : Keyed.Distinct OutRecord.face e.outRecords
  faces : ∀ r ∈ e.inRecords, r.face ∈ s.faces

structure Represented (s : State) : Prop where
  ids : (s.pit.map Entry.id).Nodup
  fresh : ∀ e ∈ s.pit, e.id < s.nextEntry
  keys : (s.pit.map Entry.key).Nodup
  entries : ∀ e ∈ s.pit, Filed s e
  faceIds : (s.faces.map Face.id).Nodup ∧ ∀ f ∈ s.faces, f.id ≠ 0 ∧ f.id ≤ s.lastFaceId

theorem Pit.find_unique (keys : (pit.map Entry.key).Nodup) (present : e ∈ pit) (same : i.key = e.key) : Pit.find pit i = some e := by
  cases found : Pit.find pit i with
  | none => exact absurd same.symm (Pit.find_none found present)
  | some other =>
    obtain ⟨inside,named⟩ := Pit.find_found found
    rw [inj_on_of_nodup_map keys inside present (named.trans same)]

theorem Filed.same (filed : Filed s e) (same : (t.interests,t.faces) = (s.interests,s.faces)) : Filed t e := by
  obtain ⟨interests,faces⟩ := Prod.mk.inj same
  have objects : t.interest = s.interest := funext (fun object => by rw [State.interest,State.interest,interests])
  refine ⟨?_,?_,filed.inRecords,filed.outRecords,?_⟩
  · rw [interests,objects]
    exact filed.representative
  · rw [interests,objects]
    exact filed.downstreams
  · rw [faces]
    exact filed.faces

theorem Represented.same (represented : Represented s)
    (same : (t.pit,t.interests,t.nextEntry,t.faces,t.lastFaceId) = (s.pit,s.interests,s.nextEntry,s.faces,s.lastFaceId)) : Represented t := by
  simp only [Prod.mk.injEq] at same
  obtain ⟨pit,interests,nextEntry,faces,lastFaceId⟩ := same
  refine ⟨?_,?_,?_,?_,?_⟩
  · rw [pit]
    exact represented.ids
  · rw [pit,nextEntry]
    exact represented.fresh
  · rw [pit]
    exact represented.keys
  · rw [pit]
    exact fun e present => (represented.entries e present).same (by rw [interests,faces])
  · rw [faces,lastFaceId]
    exact represented.faceIds

theorem Represented.bearer (represented : Represented s) (present : e ∈ s.pit) (bound : object < s.interests.length)
    (same : (s.interest object).key = e.key) : Bearer env s object e.id e.id :=
  ⟨bound,⟨e,Pit.find_unique represented.keys present same,rfl⟩,fun _ => rfl⟩

theorem onNewNextHop_moves (sound : Sound env v) (represented : Represented v)
    (sends : ∀ e ∈ v.pit, name.isPrefixOf e.nte → Sends env s event e.id nexthop.face) :
    Moves env s event v (onNewNextHop env v name nexthop) := by
  refine Performs.loopWhile (I := fun u => Quiet v u) _ (fun u id _ quiet => ?_) (fun u id listed quiet => ?_) (.refl v)
  · have triggered : Acts env id (fun _ _ => True) (fun _ _ => False) u
        (afterNewNextHop env (u.findEffectiveStrategy (u.entry id).name) u nexthop id) := afterNewNextHop_acts (fun _ => trivial)
    exact quiet.trans triggered.frame.toQuiet
  · obtain ⟨e,inside,rfl⟩ := mem_map.mp listed
    obtain ⟨present,under⟩ := mem_filter.mp inside
    have bearer : Bearer env u e.interest e.id e.id :=
      (represented.bearer present (represented.entries e present).representative.1
        (represented.entries e present).representative.2).quiet quiet
    have same := quiet.entry.interest.trans (by rw [sound.entry present])
    have conducts : Conducts env e.id { sends := fun o f => o = e.interest ∧ f = nexthop.face } u
        (afterNewNextHop env (u.findEffectiveStrategy (u.entry e.id).name) u nexthop e.id) :=
      afterNewNextHop_conducts (fun _ => ⟨same,rfl⟩)
    refine conducts.moves ⟨bearer.meets.alive,?_,fun _ _ _ _ => False.elim,fun _ _ _ => False.elim,fun _ _ _ => False.elim,
      fun _ never => never⟩
    rintro o f ⟨rfl,rfl⟩
    exact ⟨e.id,bearer,sends e present (Bool.and_eq_true_iff.mp under).1⟩

theorem afterRtoTimeout_moves (represented : Represented v) (present : e ∈ v.pit) (held : v.entry e.id = e)
    (sends : ∀ f, (∃ n ∈ (lookupFib v e.id).nextHops, n.face = f) → Sends env s event e.id f) :
    Moves env s event v (AccessStrategy.afterRtoTimeout env v e.id inFace firstOutFace) := by
  let routed : ObjId → Face → Prop := fun o f =>
    (∃ r ∈ e.inRecords, o = r.interest) ∧ ∃ n ∈ (lookupFib v e.id).nextHops, n.face = f
  have conducts : Conducts env e.id { sends := routed } v (AccessStrategy.afterRtoTimeout env v e.id inFace firstOutFace) := by
    refine AccessStrategy.afterRtoTimeout_conducts (fun e' r found listed => ?_) (fun r face listed up => ?_)
    · exact ((represented.entries e' (Pit.get_id found).1).downstreams r listed).1
    · exact ⟨⟨r,held ▸ listed,rfl⟩,up⟩
  refine conducts.moves ⟨alive_of_mem present,?_,fun _ _ _ _ => False.elim,fun _ _ _ => False.elim,fun _ _ _ => False.elim,
    fun _ never => never⟩
  rintro o f ⟨⟨r,listed,rfl⟩,up⟩
  obtain ⟨bound,same⟩ := (represented.entries e present).downstreams r listed
  exact ⟨e.id,represented.bearer present bound same,sends f up⟩

theorem fire_moves (sound : Sound env s) (timely : Timely s) (represented : Represented s)
    (found : s.scheduler.pending.find? (fun t => t.id = timerId) = some timer) :
    Moves env s (.timer timerId) s (fire env s timer) := by
  have pending := mem_of_find?_eq_some found
  have spent : Moves env s (.timer timerId) s (s.cancelTimer (some timer.id)) := .one .cancelTimer
  unfold fire fireWith
  split
  · rename_i id task
    have fired : Permitted env s (.timer timerId) (s.cancelTimer (some timer.id)) (.finalize id) :=
      .finalize (fired_alive timely pending task) rfl rfl rfl
    exact spent.trans (.one fired)
  · rename_i id inFace firstOutFace task
    obtain ⟨e,present,rfl,_⟩ := timely.rto.covered timer pending id (by rw [task]; rfl)
    have same : Represented (s.cancelTimer (some timer.id)) :=
      represented.same rfl
    exact spent.trans (afterRtoTimeout_moves same present (sound.entry present)
      (fun f up => ⟨timer,inFace,firstOutFace,found,task,up⟩))

theorem addOrUpdateNextHop_moves (sound : Sound env s) (represented : Represented s) :
    Moves env s (.addNextHop name face cost) s (addOrUpdateNextHop env s name face cost) := by
  have updated : Moves env s (.addNextHop name face cost) s { s with fib := s.fib.insertNextHop name face cost } :=
    .aside (.of_tables rfl)
  unfold addOrUpdateNextHop
  split
  · exact updated
  · refine updated.trans (onNewNextHop_moves ?_ ?_ (fun e present under => ⟨rfl,e,present,rfl,under⟩))
    · exact sound.quiet ⟨rfl,rfl,Nat.le_refl _,fun _ _ => .refl _,id,by simp,.refl⟩
    · exact represented.same rfl

theorem announcement_moves (held : s.announcing[index]? = some a) :
    Moves env s (.announcement index) s (announce { s with announcing := s.announcing.eraseIdx index } a) := by
  have listed : a ∈ s.announcing := mem_of_getElem? held
  have taken : Moves env s (.announcement index) s { s with announcing := s.announcing.eraseIdx index } :=
    .aside ⟨rfl,rfl,rfl,rfl,rfl,rfl,rfl,rfl,fun _ => mem_of_mem_eraseIdx,⟨[],by simp,by simp⟩,fun c listed => .inl ⟨c,listed,rfl⟩⟩
  unfold announce
  split
  · rename_i e inFace found known
    have alive : Alive { s with announcing := s.announcing.eraseIdx index } a.entry := ⟨e,found⟩
    have sent : Moves env s (.announcement index) { s with announcing := s.announcing.eraseIdx index }
        (sendDataToAll { s with announcing := s.announcing.eraseIdx index } { a.data with prefixAnnouncement := true } a.entry
          inFace) := Moves.loop _ (fun _ _ _ _ => sendData_moves (.announced listed rfl)) .done
    have acts : Acts env a.entry (fun _ _ => False) (fun _ _ => True) { s with announcing := s.announcing.eraseIdx index }
        (sendDataToAll { s with announcing := s.announcing.eraseIdx index } { a.data with prefixAnnouncement := true } a.entry
          inFace) := sendDataToAll_acts (fun _ _ => trivial)
    exact taken.trans (sent.trans (.one (.setExpiryTimer (alive.quiet acts.frame.toQuiet))))
  · exact taken

theorem handle_moves (sound : Sound env s) (timely : Timely s) (represented : Represented s) (handled : handle env s event = some t) :
    Moves env s event s t := by
  cases event with
  | interest packet ingress choices =>
    obtain ⟨here,arrived⟩ := ite_none_right_eq_some.mp handled
    exact interest_moves sound here arrived
  | data packet ingress choices =>
    obtain ⟨_,⟨⟩⟩ := ite_none_right_eq_some.mp handled
    exact onIncomingData_moves
  | nack packet ingress =>
    obtain ⟨_,⟨⟩⟩ := ite_none_right_eq_some.mp handled
    exact onIncomingNack_moves sound
  | timer timerId =>
    simp only [handle] at handled
    split at handled
    · rename_i timer found
      obtain ⟨_,⟨⟩⟩ := ite_none_right_eq_some.mp handled
      exact fire_moves sound timely represented found
    · cases handled
  | advance duration =>
    cases handled
    exact .aside (.of_tables rfl)
  | addFace scope linkType =>
    cases handled
    exact .one .addFace
  | removeFace face =>
    obtain ⟨_,⟨⟩⟩ := ite_none_right_eq_some.mp handled
    exact .one (.removeFace rfl)
  | addNextHop name face cost =>
    obtain ⟨_,⟨⟩⟩ := ite_none_right_eq_some.mp handled
    exact addOrUpdateNextHop_moves sound represented
  | removeNextHop name face =>
    cases handled
    exact .aside (.of_tables rfl)
  | setStrategy name strategy =>
    obtain ⟨_,⟨⟩⟩ := ite_none_right_eq_some.mp handled
    exact .one (.setStrategy rfl rfl rfl rfl)
  | unsetStrategy name =>
    obtain ⟨named,⟨⟩⟩ := ite_none_left_eq_some.mp handled
    exact .one (.unsetStrategy rfl named rfl rfl rfl)
  | announcement index =>
    simp only [handle] at handled
    split at handled
    · rename_i a held
      cases handled
      exact announcement_moves held
    · cases handled
  | addMark =>
    cases handled
    exact .one (.upkeep (.inl rfl))
  | adjustCapacity =>
    cases handled
    exact .one (.upkeep (.inr rfl))

end ReflexiveNfd
