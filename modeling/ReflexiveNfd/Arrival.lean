import ReflexiveNfd.Sound

namespace ReflexiveNfd
open Actions Timers Option
open List hiding after
variable {env : Env} {s t u v : State} {e e' original : Entry} {id : EntryId} {choices : Choices} {interest : Interest}

theorem Pit.findBasedOnName_spec (found : Pit.findBasedOnName pit name = some e) : e ∈ pit ∧ e.name = name := by
  unfold Pit.findBasedOnName at found
  split at found
  · cases found
  · exact ⟨(mem_filter.mp (mem_of_find?_eq_some found)).1,by simpa using List.find?_some found⟩

structure Selected (env : Env) (s : State) (interest : Interest) (original : Entry) (prevPitToken : UInt32) : Prop where
  token : interestToken env interest ≠ 0
  name : s.pitAssist.tokenToName (interestToken env interest) = (original.name,true)
  entry : s.pit.findBasedOnName original.name = some original
  prevToken : s.pitAssist.nameToPrevToken original.name = (prevPitToken,true)

theorem Selected.unique (one : Selected env s interest original prevPitToken) (two : Selected env s interest e former) :
    original = e ∧ prevPitToken = former := by
  have names : original.name = e.name := congrArg Prod.fst (one.name.symm.trans two.name)
  have entries : some original = some e := by rw [← one.entry,names,two.entry]
  obtain rfl := Option.some.inj entries
  exact ⟨rfl,congrArg Prod.fst (one.prevToken.symm.trans two.prevToken)⟩

theorem Selected.same (selected : Selected env s interest original prevPitToken) (same : (t.pitAssist,t.pit) = (s.pitAssist,s.pit)) :
    Selected env t interest original prevPitToken := by
  obtain ⟨pitAssist,pit⟩ := Prod.mk.inj same
  exact ⟨selected.token,pitAssist ▸ selected.name,pit ▸ selected.entry,pitAssist ▸ selected.prevToken⟩

def reflect (env : Env) (s : State) (object : ObjId) (ingress : Face) (id : EntryId) (original : Entry)
    (prevPitToken : UInt32) (choices : Choices) : State :=
  let s := recordDownstream (s.setTag object (setPitToken prevPitToken)) object ingress id
  afterReceiveInterest env (s.findEffectiveStrategy (s.entry id).name) s object ingress original.id choices

theorem onSendingRI_cases (env : Env) (s : State) (object : ObjId) (ingress : Face) (id : EntryId) (choices : Choices) :
    (∃ original prevPitToken, Selected env s (s.interest object) original prevPitToken ∧
      onSendingRI env s object ingress id choices = reflect env s object ingress id original prevPitToken choices) ∨
    ((∀ original prevPitToken, ¬ Selected env s (s.interest object) original prevPitToken) ∧
      (onSendingRI env s object ingress id choices = s ∨
        ∃ reason, onSendingRI env s object ingress id choices = s.emit (.nack ingress ⟨s.interest object,reason⟩))) := by
  unfold onSendingRI onSendingRIWith Call.trigger
  dsimp only
  split
  · rename_i zero
    exact .inr ⟨fun _ _ selected => selected.token zero,.inr ⟨_,rfl⟩⟩
  · rename_i nonzero
    split
    · rename_i unknown
      exact .inr ⟨fun _ _ selected => by simp [selected.name] at unknown,.inr ⟨_,rfl⟩⟩
    · rename_i name known
      split
      · rename_i missing
        refine .inr ⟨fun original _ selected => ?_,.inl rfl⟩
        have same : original.name = name := congrArg Prod.fst (selected.name.symm.trans known)
        have found := selected.entry
        rw [same,missing] at found
        cases found
      · rename_i original found
        obtain ⟨_,rfl⟩ := Pit.findBasedOnName_spec found
        split
        · rename_i absent
          refine .inr ⟨fun other _ selected => ?_,.inl rfl⟩
          have same : other.name = original.name := congrArg Prod.fst (selected.name.symm.trans known)
          have stored := selected.prevToken
          simp [same,absent] at stored
        · rename_i prev stored
          exact .inl ⟨original,prev,⟨nonzero,known,found,stored⟩,rfl⟩

theorem attachHopLimit_frame : Frame s (attachHopLimit s object) := by
  unfold attachHopLimit
  split
  · exact .modifyInterest (fun _ => rfl)
  · exact .refl s

theorem recordDownstream_rule {R : State → State → Prop} (trans : ∀ {s t u}, R s t → R t u → R s u)
    (attached : ∀ interests, R s { s with interests := interests }) (recorded : ∀ u, R u (u.insertOrUpdateInRecord id ingress object))
    (armed : ∀ u duration, R u (u.setExpiryTimer id duration)) : R s (recordDownstream s object ingress id) := by
  refine trans (trans ?_ (recorded _)) (armed _ _)
  unfold attachHopLimit
  split
  · exact attached _
  · exact attached s.interests

theorem recordDownstream_frame :
    Frame ((attachHopLimit s object).insertOrUpdateInRecord id ingress object) (recordDownstream s object ingress id) :=
  .setExpiryTimer

theorem recordDownstream_length : s.interests.length ≤ (recordDownstream s object ingress id).interests.length := by
  have attached : Frame s (attachHopLimit s object) := attachHopLimit_frame
  exact Nat.le_trans attached.grown recordDownstream_frame.grown

theorem recordDownstream_same (read : State → α) (blind : ∀ interests pit scheduler,
      read { s with interests := interests, pit := pit, scheduler := scheduler } = read s) :
    read (recordDownstream s object ingress id) = read s := by
  unfold recordDownstream attachHopLimit
  split
  · exact blind _ _ _
  · exact blind s.interests _ _

theorem recordDownstream_pitAssist : (recordDownstream s object ingress id).pitAssist = s.pitAssist :=
  recordDownstream_same State.pitAssist (fun _ _ _ => rfl)

theorem recordDownstream_sent : (recordDownstream s object ingress id).sent = s.sent :=
  recordDownstream_same State.sent (fun _ _ _ => rfl)

theorem recordDownstream_settings : (recordDownstream s object ingress id).settings = s.settings :=
  recordDownstream_same State.settings (fun _ _ _ => rfl)

theorem recorded_handling (handling : Handling s object id name) :
    Handling (s.insertOrUpdateInRecord id face object) object id name := by
  obtain ⟨e,found,named⟩ := handling.entry
  have later : (s.insertOrUpdateInRecord id face object).pit.get id =
      some (e.insertOrUpdateInRecord face s.now object (s.interest object)) :=
    State.get_modifyEntry (fun _ => rfl) found
  exact ⟨handling.bound,handling.object,_,later,named⟩

theorem recordDownstream_handling (handling : Handling s object id name) :
    Handling (recordDownstream s object ingress id) object id name :=
  (recorded_handling (handling.quiet attachHopLimit_frame.toQuiet)).quiet recordDownstream_frame.toQuiet

section
variable (bound : object < s.interests.length)
include bound

theorem trigger_frame :
    Frame s (afterReceiveInterest env strategy s object ingress id choices) :=
  (afterReceiveInterest_acts bound).frame

theorem reflect_frame :
    Frame (recordDownstream (s.setTag object (setPitToken prevPitToken)) object ingress id)
      (reflect env s object ingress id original prevPitToken choices) := by
  refine trigger_frame (Nat.lt_of_lt_of_le ?_ recordDownstream_length)
  simpa [State.setTag] using bound

theorem onContentStoreMiss_frame :
    Frame (recordDownstream s object ingress id) (onContentStoreMiss env s object ingress id choices) := by
  have recorded : object < (recordDownstream s object ingress id).interests.length :=
    Nat.lt_of_lt_of_le bound recordDownstream_length
  unfold onContentStoreMiss onContentStoreMissWith Call.trigger
  dsimp only
  split
  · split
    · exact Frame.outgoing.onOutgoingInterest
    · exact .refl _
  · split
    · exact Frame.setTag.trans (trigger_frame (by simpa [State.setTag] using recorded))
    · exact trigger_frame recorded

end

theorem onContentStoreHit_frame : Frame s (onContentStoreHit s object ingress id data) :=
  (markSatisfied_frame.trans .setExpiryTimer).trans .sendData

-- How one Interest can leave the tables: without a trace, with an entry but no
-- in-record, or with an in-record on the face it came from.
inductive Arrival (env : Env) (s : State) (packet : Interest) (ingress : Face) (choices : Choices) : State → Prop where
  | refused : (∀ i, screen env s packet ingress ≠ .accepted i) → Quiet s after →
      Arrival env s packet ingress choices after
  | raised : screen env s packet ingress = .accepted i → i.name.hasRN9999 env.convention = .error raised →
      Arrival env s packet ingress choices (admitted s i).1
  | unanswered : screen env s packet ingress = .accepted i → IsProducer env i.name → Quiet (admitted s i).1 after →
      Arrival env s packet ingress choices after
  | reflected : screen env s packet ingress = .accepted i → IsProducer env i.name → Quiet (admitted s i).1 before →
      Quiet (before.insertOrUpdateInRecord (admitted s i).2 ingress s.interests.length) after →
      Arrival env s packet ingress choices after
  | closed : screen env s packet ingress = .accepted i → i.name.hasRN9999 env.convention = .ok false →
      insertPitToken env (admitted s i).1 i choices.words = some known → Quiet known after →
      Arrival env s packet ingress choices after
  | forwarded : screen env s packet ingress = .accepted i → i.name.hasRN9999 env.convention = .ok false →
      insertPitToken env (admitted s i).1 i choices.words = some known → Quiet known before →
      Quiet (before.insertOrUpdateInRecord (admitted s i).2 ingress s.interests.length) after →
      Arrival env s packet ingress choices after

theorem Arrival.quiet (arrival : Arrival env s packet ingress choices t) (refused : ∀ i, screen env s packet ingress ≠ .accepted i) :
    Quiet s t := by
  cases arrival with
  | refused _ quiet => exact quiet
  | raised accepted | unanswered accepted | reflected accepted | closed accepted | forwarded accepted => exact (refused _ accepted).elim

theorem admitted_interest : (admitted s interest).1.interest s.interests.length = interest := by
  rcases admitted_cases s interest with ⟨e,_,equal⟩ | ⟨_,equal⟩
  · rw [equal]; exact State.interest_allocated
  · rw [equal]; exact State.interest_allocated

theorem admitted_bound : s.interests.length < (admitted s interest).1.interests.length := by
  rcases admitted_cases s interest with ⟨e,_,equal⟩ | ⟨_,equal⟩
  · rw [equal]; simp
  · rw [equal]; simp [inserted]

theorem insertPitToken_interests (ensured : insertPitToken env s interest words = some t) : t.interests = s.interests :=
  insertPitToken_same State.interests (fun _ => rfl) ensured

theorem insertPitToken_bound (ensured : insertPitToken env (admitted s interest).1 other words = some t) :
    s.interests.length < t.interests.length := by
  rw [insertPitToken_interests ensured]
  exact admitted_bound

theorem insertPitToken_handling (handling : Handling s object id name)
    (ensured : insertPitToken env s interest words = some t) : Handling t object id name := by
  rcases insertPitToken_cases ensured with ⟨_,rfl⟩ | ⟨_,_,rfl,_⟩
  · exact handling
  · exact { handling with }

inductive Outcome (env : Env) (s : State) (packet : Interest) (ingress : Face) (choices : Choices) : State → Prop where
  | dropped : screen env s packet ingress = .dropped → Outcome env s packet ingress choices s
  | looped : screen env s packet ingress = .loop i → Outcome env s packet ingress choices (onInterestLoop s i ingress)
  | raised : screen env s packet ingress = .accepted i → i.name.hasRN9999 env.convention = .error raised →
      Outcome env s packet ingress choices (admitted s i).1
  | unanswered : screen env s packet ingress = .accepted i → IsProducer env i.name →
      (∀ original prevPitToken, ¬ Selected env (admitted s i).1 i original prevPitToken) →
      (after = (admitted s i).1 ∨ ∃ reason, after = (admitted s i).1.emit (.nack ingress ⟨i,reason⟩)) →
      Outcome env s packet ingress choices after
  | reflected : screen env s packet ingress = .accepted i → IsProducer env i.name →
      Selected env (admitted s i).1 i selected former →
      Outcome env s packet ingress choices
        (reflect env (admitted s i).1 s.interests.length ingress (admitted s i).2 selected former choices)
  | duplicate : screen env s packet ingress = .accepted i → i.name.hasRN9999 env.convention = .ok false →
      insertPitToken env (admitted s i).1 i choices.words = some known →
      isLoop (known.entry (admitted s i).2) i.nonce ingress →
      Outcome env s packet ingress choices (onInterestLoop known i ingress)
  | hit : screen env s packet ingress = .accepted i → i.name.hasRN9999 env.convention = .ok false →
      insertPitToken env (admitted s i).1 i choices.words = some known →
      isLoop (known.entry (admitted s i).2) i.nonce ingress = false →
      (known.entry (admitted s i).2).hasInRecords = false → known.cs.find known.now i = (some cached,store) →
      Outcome env s packet ingress choices
        (onContentStoreHit { known with cs := store } s.interests.length ingress (admitted s i).2 cached)
  | miss (store : ContentStore) : screen env s packet ingress = .accepted i → i.name.hasRN9999 env.convention = .ok false →
      insertPitToken env (admitted s i).1 i choices.words = some known →
      isLoop (known.entry (admitted s i).2) i.nonce ingress = false →
      store = known.cs ∨ known.cs.find known.now i = (none,store) →
      Outcome env s packet ingress choices
        (onContentStoreMiss env { known with cs := store } s.interests.length ingress (admitted s i).2 choices)

theorem insertPitToken_interest (ensured : insertPitToken env s interest words = some t) :
    t.interest object = s.interest object := by
  simp [State.interest,insertPitToken_interests ensured]

theorem interest_outcome (arrived : onIncomingInterest env s packet ingress choices = some t) :
    Outcome env s packet ingress choices t := by
  unfold onIncomingInterest onIncomingInterestWith at arrived
  split at arrived
  · rename_i dropped
    cases arrived
    exact .dropped dropped
  · rename_i i looped
    cases arrived
    exact .looped looped
  · rename_i i accepted
    change classifyWith env (admitted s i).1 s.interests.length ingress (admitted s i).2 (Call.trigger env choices) (fun s => s) choices.words =
      some t at arrived
    unfold classifyWith at arrived
    simp only [isReflexiveInterestFromProducer,admitted_interest] at arrived
    split at arrived
    · rename_i raised
      cases arrived
      exact .raised accepted raised
    · rename_i producer
      cases arrived
      have cases := onSendingRI_cases env (admitted s i).1 s.interests.length ingress (admitted s i).2 choices
      rw [admitted_interest] at cases
      rcases cases with ⟨original,prev,selected,equal⟩ | ⟨unselected,equal⟩
      · rw [onSendingRI] at equal
        rw [equal]
        exact .reflected accepted producer selected
      · exact .unanswered accepted producer unselected equal
    · rename_i other
      obtain ⟨known,ensured,rfl⟩ := map_eq_some_iff.mp arrived
      unfold detectAndForwardWith
      simp only [insertPitToken_interest ensured,admitted_interest]
      split
      · rename_i loop
        exact .duplicate accepted other ensured loop
      · rename_i fresh
        have unlooped : isLoop (known.entry (admitted s i).2) i.nonce ingress = false := by simpa using fresh
        split
        · exact .miss known.cs accepted other ensured unlooped (.inl rfl)
        · rename_i idle
          split
          · rename_i cached store found
            exact .hit accepted other ensured unlooped (by simpa using idle) found
          · rename_i store found
            exact .miss store accepted other ensured unlooped (.inr found)

theorem interest_arrival (arrived : onIncomingInterest env s packet ingress choices = some t) :
    Arrival env s packet ingress choices t := by
  cases interest_outcome arrived with
  | dropped dropped => exact .refused (by simp [dropped]) (.refl _)
  | looped looped => exact .refused (by simp [looped]) onInterestLoop_frame.toQuiet
  | raised accepted raised => exact .raised accepted raised
  | unanswered accepted producer _ left =>
    rcases left with rfl | ⟨_,rfl⟩
    · exact .unanswered accepted producer (.refl _)
    · exact .unanswered accepted producer Frame.emit.toQuiet
  | reflected accepted producer _ =>
    exact .reflected accepted producer (Frame.setTag.trans attachHopLimit_frame).toQuiet
      (recordDownstream_frame.trans (reflect_frame admitted_bound)).toQuiet
  | duplicate accepted other ensured _ => exact .closed accepted other ensured onInterestLoop_frame.toQuiet
  | @hit i known cached store accepted other ensured _ _ _ =>
    have stored : Frame known { known with cs := store } := frame_tables _ _ _
    exact .closed accepted other ensured (stored.trans onContentStoreHit_frame).toQuiet
  | @miss i known store accepted other ensured _ =>
    have stored : Frame known { known with cs := store } := frame_tables _ _ _
    exact .forwarded accepted other ensured (stored.trans attachHopLimit_frame).toQuiet
      (recordDownstream_frame.trans (onContentStoreMiss_frame (s := { known with cs := store }) (insertPitToken_bound (t := known) ensured))).toQuiet

theorem producer_cleared (producer : IsProducer env name) : Cleared env s name :=
  ⟨⟨_,producer⟩,fun consumer => by simp [IsProducer,consumer.2] at producer⟩

theorem arrival_sound (sound : Sound env s) (arrival : Arrival env s packet ingress choices t) : Sound env t := by
  have fresh : ∀ i, Sound env (admitted s i).1 := fun _ => admitted_sound sound
  have handled : ∀ i, Handling (admitted s i).1 s.interests.length (admitted s i).2 i.name := fun _ => admitted_handling sound
  cases arrival with
  | refused _ quiet => exact sound.quiet quiet
  | raised => exact fresh _
  | unanswered _ _ quiet => exact (fresh _).quiet quiet
  | reflected _ producer before after =>
    exact (recorded_sound ((fresh _).quiet before) ((handled _).quiet before) (producer_cleared producer)).quiet after
  | closed _ other ensured quiet => exact (insertPitToken_sound (fresh _) other ensured).1.quiet quiet
  | forwarded _ other ensured before after =>
    obtain ⟨known,cleared⟩ := insertPitToken_sound (fresh _) other ensured
    have handling := insertPitToken_handling (handled _) ensured
    exact (recorded_sound (known.quiet before) (handling.quiet before) (cleared.quiet before)).quiet after

-- What an accepted Interest leaves of the entries: the same ones as after the
-- PIT insert, each with no in-records but old ones and perhaps the arrival's.
structure Follows (s : State) (i : Interest) (ingress : Face) (t : State) : Prop where
  nextEntry : t.nextEntry = (admitted s i).1.nextEntry
  grown : (admitted s i).1.interests.length ≤ t.interests.length
  ids : t.pit.map Entry.id = (admitted s i).1.pit.map Entry.id
  origin : ∀ e' ∈ t.pit, ∃ e ∈ (admitted s i).1.pit, e'.id = e.id ∧ e'.name = e.name ∧ ∀ r' ∈ e'.inRecords,
    (∃ r ∈ e.inRecords, r.facts = r'.facts) ∨ (e.id = (admitted s i).2 ∧ r'.face = ingress ∧ r'.interest = s.interests.length)

structure Enrolled (s t : State) : Prop where
  pit : t.pit = s.pit
  nextEntry : t.nextEntry = s.nextEntry
  interests : t.interests = s.interests

theorem insertPitToken_enrolled (ensured : insertPitToken env s interest words = some t) : Enrolled s t := by
  rcases insertPitToken_cases ensured with ⟨_,rfl⟩ | ⟨_,_,rfl,_⟩ <;> exact ⟨rfl,rfl,rfl⟩

theorem follows_quiet (enrolled : Enrolled (admitted s i).1 u) (quiet : Quiet u t) : Follows s i ingress t := by
  refine ⟨quiet.nextEntry.trans enrolled.nextEntry,enrolled.interests ▸ quiet.grown,by rw [quiet.ids,enrolled.pit],
    fun e' present => ?_⟩
  obtain ⟨e,inside,trimmed⟩ := quiet.origin present
  exact ⟨e,enrolled.pit ▸ inside,trimmed.id,trimmed.name,fun r' listed => .inl (trimmed.inRecord listed)⟩

theorem follows_recorded (sound : Sound env u) (enrolled : Enrolled (admitted s i).1 u) (before : Quiet u v)
    (after : Quiet (v.insertOrUpdateInRecord (admitted s i).2 ingress s.interests.length) t) : Follows s i ingress t := by
  have good := sound.quiet before
  refine ⟨after.nextEntry.trans (before.nextEntry.trans enrolled.nextEntry),
    enrolled.interests ▸ before.grown.trans after.grown,by rw [after.ids,recorded_ids,before.ids,enrolled.pit],
    fun e' present => ?_⟩
  obtain ⟨middle,listed,trimmed⟩ := after.origin present
  obtain ⟨old,inside,rfl⟩ := mem_map.mp listed
  obtain ⟨e,here,retrimmed⟩ := before.origin inside
  refine ⟨e,enrolled.pit ▸ here,?_,?_,fun r' held => ?_⟩
  · rw [trimmed.id,← retrimmed.id]
    split <;> rfl
  · rw [trimmed.name,← retrimmed.name]
    split <;> rfl
  · obtain ⟨r,kept,same⟩ := trimmed.inRecord held
    split at kept
    · rename_i mine
      rcases Entry.mem_insertOrUpdateInRecord (good.entries old inside).distinct kept with ⟨earlier,_⟩ | ⟨facing,object⟩
      · obtain ⟨first,start,equal⟩ := retrimmed.inRecord earlier
        exact .inl ⟨first,start,equal.trans same⟩
      · simp only [InRecord.facts,Prod.mk.injEq] at same
        exact .inr ⟨by rw [← retrimmed.id,mine],same.1 ▸ facing,same.2.2.2.2 ▸ object⟩
    · obtain ⟨first,start,equal⟩ := retrimmed.inRecord kept
      exact .inl ⟨first,start,equal.trans same⟩

theorem arrival_follows (sound : Sound env s) (arrival : Arrival env s packet ingress choices t)
    (accepted : screen env s packet ingress = .accepted i) : Follows s i ingress t := by
  have fresh : Sound env (admitted s i).1 := admitted_sound sound
  have same : Enrolled (admitted s i).1 (admitted s i).1 := ⟨rfl,rfl,rfl⟩
  cases arrival with
  | refused refused _ => exact (refused i accepted).elim
  | raised again _ =>
    cases accepted.symm.trans again
    exact follows_quiet same (.refl _)
  | unanswered again _ quiet =>
    cases accepted.symm.trans again
    exact follows_quiet same quiet
  | reflected again _ before after =>
    cases accepted.symm.trans again
    exact follows_recorded fresh same before after
  | closed again _ ensured quiet =>
    cases accepted.symm.trans again
    exact follows_quiet (insertPitToken_enrolled ensured) quiet
  | forwarded again other ensured before after =>
    cases accepted.symm.trans again
    exact follows_recorded (insertPitToken_sound fresh other ensured).1 (insertPitToken_enrolled ensured) before after

def Pit.hasName (pit : Pit) (name : Name) : Prop := ∃ e ∈ pit, e.name = name

theorem Quiet.hasName (quiet : Quiet s t) : t.pit.hasName name ↔ s.pit.hasName name := by
  constructor
  · rintro ⟨e',present,named⟩
    obtain ⟨e,inside,trimmed⟩ := quiet.origin present
    exact ⟨e,inside,by rw [← trimmed.name,named]⟩
  · rintro ⟨e,inside,named⟩
    obtain ⟨e',present,trimmed⟩ := quiet.survives inside
    exact ⟨e',present,by rw [trimmed.name,named]⟩

theorem recorded_hasName : (s.insertOrUpdateInRecord id face object).pit.hasName name ↔ s.pit.hasName name := by
  constructor
  · rintro ⟨e',present,named⟩
    obtain ⟨e,inside,rfl⟩ := mem_map.mp present
    exact ⟨e,inside,by rw [← named]; split <;> rfl⟩
  · rintro ⟨e,inside,named⟩
    exact ⟨_,mem_map_of_mem inside,by rw [← named]; split <;> rfl⟩

theorem admitted_hasName : (admitted s interest).1.pit.hasName name ↔ s.pit.hasName name ∨ name = interest.name := by
  rcases admitted_cases s interest with ⟨e,found,equal⟩ | ⟨_,equal⟩
  · obtain ⟨inside,named,_⟩ := Pit.find_spec found
    rw [equal]
    constructor
    · exact .inl
    · rintro (old | rfl)
      · exact old
      · exact ⟨e,inside,named⟩
  · rw [equal]
    constructor
    · rintro ⟨e,present,named⟩
      rcases mem_append.mp present with old | new
      · exact .inl ⟨e,old,named⟩
      · cases mem_singleton.mp new
        exact .inr named.symm
    · rintro (⟨e,inside,named⟩ | rfl)
      · exact ⟨e,mem_append_left _ inside,named⟩
      · exact ⟨_,mem_append_right _ mem_cons_self,rfl⟩

theorem admitted_pitAssist : (admitted s interest).1.pitAssist = s.pitAssist := admitted_same State.pitAssist (fun _ _ _ => rfl)

theorem insertPitToken_pit (ensured : insertPitToken env s interest words = some t) : t.pit = s.pit :=
  insertPitToken_same State.pit (fun _ => rfl) ensured

theorem tokenToName_consumer (sound : Sound env s) (known : s.pitAssist.tokenToName token = (name,true)) : IsConsumer env name :=
  sound.consumers name (PitAssist.existName_exact.mpr ⟨token,(sound.assist.inverse _ _).mpr known⟩)

theorem admitted_findBasedOnName (other : name ≠ interest.name) :
    (admitted s interest).1.pit.findBasedOnName name = s.pit.findBasedOnName name := by
  rcases admitted_cases s interest with ⟨e,_,equal⟩ | ⟨_,equal⟩
  · rw [equal]; rfl
  · rw [equal]
    have skipped : ∀ xs : List Entry, (xs ++ [Pit.newEntry s.nextEntry s.interests.length interest]).find?
        (fun e => e.name = name) = xs.find? (fun e => e.name = name) := by
      intro xs
      simp [List.find?_append,Pit.newEntry,Ne.symm other]
    unfold Pit.findBasedOnName Pit.pitEntries inserted
    simp only [filter_append,filter_singleton]
    split
    · rfl
    · cases decide ((Pit.newEntry s.nextEntry s.interests.length interest).nte = name) with
      | true => exact skipped _
      | false => rw [cond_false,append_nil]

-- The entry just made for the producer Interest is never the one it selects.
theorem admitted_selected (sound : Sound env s) (producer : IsProducer env interest.name) :
    Selected env (admitted s interest).1 interest original prevPitToken ↔ Selected env s interest original prevPitToken := by
  have apart : s.pitAssist.tokenToName (interestToken env interest) = (original.name,true) → original.name ≠ interest.name := by
    intro known same
    have consumer := tokenToName_consumer sound known
    rw [same] at consumer
    simp [IsProducer,consumer.2] at producer
  constructor
  · rintro ⟨token,name,entry,prevToken⟩
    rw [admitted_pitAssist] at name prevToken
    exact ⟨token,name,by rwa [admitted_findBasedOnName (apart name)] at entry,prevToken⟩
  · rintro ⟨token,name,entry,prevToken⟩
    refine ⟨token,?_,?_,?_⟩
    · rwa [admitted_pitAssist]
    · rwa [admitted_findBasedOnName (apart name)]
    · rwa [admitted_pitAssist]

-- An accepted consumer Interest is the only thing that adds to the token table;
-- no arrival takes a name out of the PIT.
inductive Enrolment (env : Env) (s : State) (packet : Interest) (ingress : Face) (words : List UInt32) (t : State) : Prop where
  | unchanged : (∀ i, screen env s packet ingress = .accepted i → ¬ IsConsumer env i.name) → t.pitAssist = s.pitAssist →
      (∀ n, s.pit.hasName n → t.pit.hasName n) → Enrolment env s packet ingress words t
  | consumer : screen env s packet ingress = .accepted i → IsConsumer env i.name →
      s.pitAssist.ensureName i.name (interestToken env i) words = some t.pitAssist →
      (∀ n, s.pit.hasName n ∨ n = i.name → t.pit.hasName n) → Enrolment env s packet ingress words t

theorem noted_enrolment (accepted : screen env s packet ingress = .accepted i)
    (other : i.name.hasRN9999 env.convention = .ok false) (ensured : insertPitToken env (admitted s i).1 i words = some u)
    (same : t.pitAssist = u.pitAssist) (names : ∀ n, s.pit.hasName n ∨ n = i.name → t.pit.hasName n) :
    Enrolment env s packet ingress words t := by
  rcases insertPitToken_cases ensured with ⟨ordinary,rfl⟩ | ⟨pitAssist,reflexive,rfl,made⟩
  · refine .unchanged ?_ (same.trans admitted_pitAssist) (fun n old => names n (.inl old))
    intro i' again consumer
    cases accepted.symm.trans again
    exact Bool.false_ne_true (ordinary.symm.trans consumer.1)
  · rw [admitted_pitAssist] at made
    exact .consumer accepted ⟨reflexive,other⟩ (by rw [same]; exact made) names

theorem arrival_enrolment (arrival : Arrival env s packet ingress choices t) :
    Enrolment env s packet ingress choices.words t := by
  have only : ∀ i, screen env s packet ingress = .accepted i → ¬ IsConsumer env i.name →
      ∀ i', screen env s packet ingress = .accepted i' → ¬ IsConsumer env i'.name := by
    intro i accepted other i' again
    cases accepted.symm.trans again
    exact other
  cases arrival with
  | refused refused quiet =>
    exact .unchanged (fun i accepted => (refused i accepted).elim) quiet.pitAssist (fun _ => quiet.hasName.mpr)
  | raised accepted raised =>
    exact .unchanged (only _ accepted (fun consumer => by simp [consumer.2] at raised)) admitted_pitAssist
      (fun _ old => admitted_hasName.mpr (.inl old))
  | unanswered accepted producer quiet =>
    exact .unchanged (only _ accepted (fun consumer => by simp [IsProducer,consumer.2] at producer))
      (quiet.pitAssist.trans admitted_pitAssist) (fun _ old => quiet.hasName.mpr (admitted_hasName.mpr (.inl old)))
  | reflected accepted producer before after =>
    exact .unchanged (only _ accepted (fun consumer => by simp [IsProducer,consumer.2] at producer))
      (after.pitAssist.trans (before.pitAssist.trans admitted_pitAssist))
      (fun _ old => after.hasName.mpr (recorded_hasName.mpr (before.hasName.mpr (admitted_hasName.mpr (.inl old)))))
  | closed accepted other ensured quiet =>
    refine noted_enrolment accepted other ensured quiet.pitAssist (fun name listed => quiet.hasName.mpr ?_)
    rw [insertPitToken_pit ensured]
    exact admitted_hasName.mpr listed
  | forwarded accepted other ensured before after =>
    refine noted_enrolment accepted other ensured (after.pitAssist.trans before.pitAssist)
      (fun name listed => after.hasName.mpr (recorded_hasName.mpr (before.hasName.mpr ?_)))
    rw [insertPitToken_pit ensured]
    exact admitted_hasName.mpr listed

theorem insertDeadNonceList_pit : (insertDeadNonceList env s id upstream).pit = s.pit := by
  obtain ⟨d,equal⟩ := insertDeadNonceList_form env s id upstream
  rw [equal]

theorem finalize_sound (sound : Sound env s) : Sound env (onInterestFinalize env s id) := by
  have noted : Sound env (insertDeadNonceList env s id none) := sound.quiet insertDeadNonceList_frame.toQuiet
  unfold onInterestFinalize
  dsimp only
  split
  · exact noted
  · rename_i e found
    have inside := (Pit.get_id found).1
    have left : ∀ x, x ∈ Pit.erase (insertDeadNonceList env s id none).pit e → x ∈ (insertDeadNonceList env s id none).pit :=
      fun x listed => ((Pit.mem_erase noted.ids inside).mp listed).1
    refine ⟨noted.assist,noted.consumers,?_,fun x listed => noted.fresh x (left x listed),?_⟩
    · exact Pit.erase_ids noted.ids
    · intro x listed
      exact (noted.entries x (left x listed)).same rfl (fun _ known => known)

def Routine (s : State) : Event → Prop
  | .interest _ _ _ => False
  | .timer id => ∀ timer entry, s.scheduler.pending.find? (fun t => t.id = id) = some timer → timer.task ≠ .finalize entry
  | _ => True

-- Only an arriving Interest and the end of an entry change more than a Trace does.
inductive Handled (env : Env) (s : State) : Event → State → Prop where
  | interest : inFace ∈ s.faces → onIncomingInterest env s arriving inFace drawn = some after →
      Handled env s (.interest arriving inFace drawn) after
  | finalize : s.scheduler.pending.find? (fun t => t.id = timerId) = some timer → timer.task = .finalize entry →
      Handled env s (.timer timerId) (onInterestFinalize env (s.cancelTimer (some timer.id)) entry)
  | routine : Routine s usual → Trace env s after → Handled env s usual after

theorem handle_cases (sound : Sound env s) (handled : handle env s event = some t) : Handled env s event t := by
  cases event with
  | interest packet ingress choices =>
    obtain ⟨known,arrived⟩ := ite_none_right_eq_some.mp handled
    exact .interest known arrived
  | data packet ingress choices =>
    obtain ⟨_,⟨⟩⟩ := ite_none_right_eq_some.mp handled
    exact .routine trivial onIncomingData_trace
  | nack packet ingress =>
    obtain ⟨_,⟨⟩⟩ := ite_none_right_eq_some.mp handled
    exact .routine trivial onIncomingNack_trace
  | timer id =>
    simp only [handle] at handled
    split at handled
    · rename_i timer found
      split at handled
      · cases handled
        unfold fire fireWith
        split
        · rename_i entry task
          exact .finalize found task
        · rename_i entry inFace firstOutFace task
          have known : ∀ e r, s.pit.get entry = some e → r ∈ e.inRecords → r.interest < s.interests.length :=
            fun e r present listed => ((sound.entries e (Pit.get_id present).1).downstreams r listed).1
          refine .routine ?_ ((Trace.spend (mem_of_find?_eq_some found) task).trans (afterRtoTimeout_trace known))
          intro other entry again
          cases found.symm.trans again
          simp [task]
      · cases handled
    · cases handled
  | advance duration => cases handled; exact .routine trivial (.plain (.of_tables rfl))
  | addFace scope linkType => cases handled; exact .routine trivial (.plain (.of_tables rfl))
  | removeFace face =>
    obtain ⟨_,⟨⟩⟩ := ite_none_right_eq_some.mp handled
    exact .routine trivial (.plain cleanupOnFaceRemoval_plain)
  | addNextHop name face cost =>
    obtain ⟨_,⟨⟩⟩ := ite_none_right_eq_some.mp handled
    exact .routine trivial addOrUpdateNextHop_trace
  | removeNextHop name face => cases handled; exact .routine trivial (.plain (.of_tables rfl))
  | setStrategy name strategy =>
    obtain ⟨_,⟨⟩⟩ := ite_none_right_eq_some.mp handled
    exact .routine trivial (strategy_trace.1 _)
  | unsetStrategy name =>
    obtain ⟨_,⟨⟩⟩ := ite_none_left_eq_some.mp handled
    exact .routine trivial strategy_trace.2
  | announcement index =>
    simp only [handle] at handled
    split at handled
    · cases handled
      have answered : Trace env s { s with announcing := s.announcing.eraseIdx index } := .plain (.of_tables rfl)
      exact .routine trivial (answered.trans announce_trace)
    · cases handled
  | addMark => cases handled; exact .routine trivial (.plain (.of_tables rfl))
  | adjustCapacity => cases handled; exact .routine trivial (.plain (.of_tables rfl))

theorem clear_quiet : Quiet s { s with sent := [] } :=
  ⟨rfl,rfl,Nat.le_refl _,fun _ _ => .refl _,fun e => e,by simp,.refl⟩

theorem Sound.cleared (sound : Sound env s) : Sound env { s with sent := [] } := sound.quiet clear_quiet

theorem step_arrives (taken : step env s (.interest packet ingress choices) = some t) :
    onIncomingInterest env { s with sent := [] } packet ingress choices = some t := by
  obtain ⟨_,arrived⟩ := ite_none_right_eq_some.mp taken
  exact arrived

theorem step_satisfies (taken : step env s (.data data ingress choices) = some t) :
    t = onIncomingData env { s with sent := [] } data ingress choices := by
  obtain ⟨_,⟨⟩⟩ := ite_none_right_eq_some.mp taken
  rfl

theorem step_sound (sound : Sound env s) (taken : step env s event = some t) : Sound env t := by
  have started := sound.cleared
  cases handle_cases started taken with
  | interest _ arrived => exact arrival_sound started (interest_arrival arrived)
  | finalize => exact finalize_sound (started.quiet Frame.cancelTimer.toQuiet)
  | routine _ trace => exact started.quiet trace.quiet

theorem initial_sound (initial : Initial s) : Sound env s := by
  refine ⟨by rw [initial.pitAssist]; exact PitAssist.empty_bijective,?_,by simp [initial.pit],by simp [initial.pit],by simp [initial.pit]⟩
  intro name known
  simp [initial.pitAssist,PitAssist.existName,PitAssist.empty] at known

theorem reached_sound (path : Reached env s) : Sound env s :=
  Transition.Reached.invariant (fun _ => initial_sound) (fun _ _ _ => step_sound) path

end ReflexiveNfd
