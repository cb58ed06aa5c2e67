import ReflexiveNfd.Watch
import ReflexiveNfd.Isolation
import ReflexiveNfd.NameWires

namespace ReflexiveNfd
open Actions Timers List Option Keyed Pit Transition
open Demo hiding env
variable {env : Env} {strategy : Strategy} {s t u v : State} {e : Entry} {id : EntryId} {face ingress : Face} {choices : Choices}
  {data : Data} {name : Name} {pit : Pit}

-- An Interest that matches is a prefix of the Data's full name, and only with
-- its digest can it be all of it.
theorem matchesData_name (matched : matchesData name canBePrefix mustBeFresh data) :
    name <+: data.getFullName ∧ (name.length = data.name.length + 1 → name.endsWithDigest) := by
  have named := (Bool.and_eq_true_iff.mp matched).1
  split at named
  · obtain ⟨digest,equal⟩ := Bool.and_eq_true_iff.mp named
    have same : name = data.getFullName := of_decide_eq_true equal
    exact ⟨same ▸ prefix_rfl,fun _ => digest⟩
  · rename_i other
    refine ⟨?_,fun long => absurd long other⟩
    split at named
    · exact (List.isPrefixOf_iff_prefix.mp named).trans (prefix_append _ _)
    · have same : name = data.name := of_decide_eq_true named
      exact same ▸ prefix_append _ _

theorem matchesData_nte (matched : matchesData e.name e.canBePrefix e.mustBeFresh data) :
    nteDepth e.name ≤ min data.name.length maxDepth ∧ e.nte = data.name.take (nteDepth e.name) := by
  obtain ⟨under,digest⟩ := matchesData_name matched
  have length := under.length_le
  rw [Data.getFullName,length_append,length_singleton] at length
  have bound : nteDepth e.name ≤ min data.name.length maxDepth := by
    unfold nteDepth
    by_cases long : e.name.length = data.name.length + 1
    · rw [digest long,if_pos rfl]
      omega
    · split <;> omega
  refine ⟨bound,?_⟩
  calc e.name.take (nteDepth e.name)
    _ = (data.getFullName.take e.name.length).take (nteDepth e.name) := by rw [← prefix_iff_eq_take.mp under]
    _ = data.getFullName.take (nteDepth e.name) := by rw [take_take,Nat.min_eq_left (nteDepth_le e.name)]
    _ = data.name.take (nteDepth e.name) := take_append_of_le_length (by omega)

theorem Pit.findAllDataMatches_exact :
    e ∈ findAllDataMatches pit data ↔ e ∈ pit ∧ matchesData e.name e.canBePrefix e.mustBeFresh data := by
  constructor
  · exact findAllDataMatches_mem
  · rintro ⟨present,matched⟩
    obtain ⟨bound,attached⟩ := matchesData_nte matched
    refine mem_flatMap.mpr ⟨nteDepth e.name,?_,mem_filter.mpr ⟨mem_filter.mpr ⟨present,?_⟩,matched⟩⟩
    · rw [mem_reverse,mem_range]
      omega
    · exact decide_eq_true attached

theorem Pit.findAllDataMatches_nodup (distinct : pit.Nodup) : (findAllDataMatches pit data).Nodup := by
  unfold findAllDataMatches
  rw [nodup_flatMap]
  refine ⟨fun depth _ => (distinct.filter _).filter _,?_⟩
  refine (nodup_reverse.mpr nodup_range).pairwise_of_forall_ne (fun a inA b inB apart x listedA listedB => apart ?_)
  rw [mem_reverse,mem_range] at inA inB
  have level : ∀ {depth}, x ∈ (pitEntries pit (data.name.take depth)).filter
      (fun e => matchesData e.name e.canBePrefix e.mustBeFresh data) → x.nte = data.name.take depth := fun listed =>
    of_decide_eq_true (mem_filter.mp (mem_filter.mp listed).1).2
  have same := congrArg List.length ((level listedA).symm.trans (level listedB))
  rw [length_take,length_take] at same
  omega

def Delivers (data : Data) (faces : List Face) (s t : State) : Prop :=
  ∃ copies : List (Face × Option PitToken), copies.map Prod.fst = faces ∧
    t.sent = s.sent ++ copies.map (fun c => .data c.1 { data with pitToken := c.2 })

namespace Delivers

theorem silent (sent : t.sent = s.sent) : Delivers data [] s t := ⟨[],rfl,by simp [sent]⟩

theorem trans (one : Delivers data first s t) (two : Delivers data second t u) : Delivers data (first ++ second) s u := by
  obtain ⟨copies,rfl,sent⟩ := one
  obtain ⟨others,rfl,later⟩ := two
  exact ⟨copies ++ others,map_append,by rw [later,sent,map_append,append_assoc]⟩

theorem ends (delivers : Delivers data faces s t) (before : u.sent = s.sent) (after : v.sent = t.sent) : Delivers data faces u v := by
  obtain ⟨copies,listed,sent⟩ := delivers
  exact ⟨copies,listed,by rw [after,sent,before]⟩

theorem loop (faces : List Face)
    (each : ∀ u f, f ∈ faces → Delivers data (if closedTo f data then [] else [f]) u (body u f)) :
    Delivers data (faces.filter (fun f => ¬ closedTo f data)) s (faces.foldl body s) := by
  induction faces generalizing s with
  | nil => exact silent rfl
  | cons f faces ih =>
    have first := each s f mem_cons_self
    have rest := ih (s := body s f) (fun u x inside => each u x (mem_cons_of_mem _ inside))
    have both := first.trans rest
    rw [filter_cons]
    split at both
    · rename_i closed
      simpa [closed] using both
    · rename_i free
      simpa [free] using both

end Delivers

theorem sendData_delivers : Delivers data (if closedTo egress data then [] else [egress]) s (sendData s data egress id) := by
  have sent : (sendData s data egress id).sent = _ := sendData_sent
  split
  · rename_i closed
    exact .silent (by rw [sent,if_pos closed,append_nil])
  · rename_i free
    exact ⟨[(egress,(downstreamToken s id egress).or data.pitToken)],rfl,by rw [sent,if_neg free]; rfl⟩

def Due (s : State) (id : EntryId) : Prop :=
  ∃ e x, s.pit.get id = some e ∧ x ∈ s.scheduler.pending ∧ e.expiryTimer = some x.id ∧ x.task = .finalize id ∧ x.due = s.now

theorem setExpiryTimer_due (alive : Alive s id) : Due (s.setExpiryTimer id 0) id := by
  obtain ⟨e,found⟩ := alive
  have noted : (s.setExpiryTimer id 0).pit.get id = some { e with expiryTimer := some s.scheduler.nextId } :=
    State.get_modifyEntry (s := s) (fun _ => rfl) found
  refine ⟨_,_,noted,Scheduler.mem_schedule.mpr (.inl rfl),rfl,rfl,?_⟩
  simp [nanoseconds,State.setExpiryTimer]

theorem Due.idle (due : Due s id) (idle : Idle s t) (now : t.now = s.now) : Due t id := by
  obtain ⟨e,x,found,pending,holds,task,instant⟩ := due
  obtain ⟨f,same,mapped⟩ := idle.entries
  refine ⟨f e,x,?_,idle.scheduler ▸ pending,(same e).2.1.trans holds,task,instant.trans now.symm⟩
  rw [mapped,get_map (fun e => (same e).1),found,map_some]

def Satisfied (s : State) (ingress : Face) (id : EntryId) : Prop :=
  Due s id ∧ ∃ e, s.pit.get id = some e ∧ e.isSatisfied ∧ e.getOutRecord ingress = none

-- The strategies that leave afterReceiveData and beforeSatisfyInterest as they
-- are in the base class.
def StrategyKind.Default (kind : StrategyKind) : Prop := kind = .bestRoute ∨ kind = .multicast ∨ kind = .random

theorem beforeSatisfyInterest_default (default : strategy.kind.Default) : beforeSatisfyInterest strategy s id choices = s := by
  unfold beforeSatisfyInterest
  rcases default with kind | kind | kind <;> rw [kind]

theorem afterReceiveData_default (default : strategy.kind.Default) :
    afterReceiveData strategy s data ingress id choices = sendDataToAll s data id ingress := by
  unfold afterReceiveData
  rw [beforeSatisfyInterest_default default]
  rcases default with kind | kind | kind <;> rw [kind]

def conclude (env : Env) (s : State) (data : Data) (ingress : Face) (id : EntryId) (f : Entry → Entry) : State :=
  (insertDeadNonceList env (markSatisfied s id data) id (some ingress)).modifyEntry id f

theorem conclude_idle (same : ∀ e, (f e).id = e.id ∧ (f e).expiryTimer = e.expiryTimer ∧ (f e).rtoTimer = e.rtoTimer) :
    Idle s (conclude env s data ingress id f) := by
  have marked : Idle s (markSatisfied s id data) := .modifyEntry (fun _ => ⟨rfl,rfl,rfl⟩)
  exact (marked.trans (.plain insertDeadNonceList_plain)).trans (.modifyEntry same)

theorem conclude_frame (trimmed : ∀ e, Trimmed e (f e)) : Frame s (conclude env s data ingress id f) :=
  (markSatisfied_frame.trans insertDeadNonceList_frame).trans (.modifyEntry trimmed)

theorem conclude_get (same : ∀ e, (f e).id = e.id) (found : s.pit.get id = some e) :
    (conclude env s data ingress id f).pit.get id =
      some (f { e with isSatisfied := true, dataFreshnessPeriod := data.freshnessPeriod }) := by
  have marked : (markSatisfied s id data).pit.get id =
      some { e with isSatisfied := true, dataFreshnessPeriod := data.freshnessPeriod } := State.get_modifyEntry (fun _ => rfl) found
  refine State.get_modifyEntry same ?_
  rw [insertDeadNonceList_pit,marked]

theorem conclude_sent : (conclude env s data ingress id f).sent = s.sent := settled_sent

theorem conclude_satisfied (due : Due s id) (distinct : ∀ e ∈ s.pit, Distinct OutRecord.face e.outRecords)
    (same : ∀ e, (f e).id = e.id ∧ (f e).expiryTimer = e.expiryTimer ∧ (f e).rtoTimer = e.rtoTimer)
    (trimmed : ∀ e, Trimmed e (f e))
    (closed : ∀ e, (f e).isSatisfied = e.isSatisfied ∧ (f e).outRecords = remove OutRecord.face ingress e.outRecords) :
    Satisfied (conclude env s data ingress id f) ingress id := by
  have frame : Frame s (conclude env s data ingress id f) := conclude_frame trimmed
  refine ⟨due.idle (conclude_idle same) frame.now,?_⟩
  obtain ⟨e,_,found,_⟩ := due
  refine ⟨_,conclude_get (fun e => (same e).1) found,(closed _).1,?_⟩
  rw [Entry.getOutRecord,(closed _).2]
  exact lookup_removed (distinct e (get_id found).1)

section
variable (default : s.kindOf (s.entry id).name |>.Default)
include default

theorem setExpiryTimer_default :
    ((s.setExpiryTimer id duration).findEffectiveStrategy ((s.setExpiryTimer id duration).entry id).name).kind.Default := by
  have armed : Frame s (s.setExpiryTimer id duration) := .setExpiryTimer
  have same : (s.setExpiryTimer id duration).kindOf ((s.setExpiryTimer id duration).entry id).name = s.kindOf (s.entry id).name :=
    armed.kindOf
  unfold State.kindOf at same default
  rw [same]
  exact default

theorem satisfyAmong_default : satisfyAmong env data ingress choices s id =
    conclude env (s.setExpiryTimer id 0) data ingress id (fun e => e.clearInRecords.deleteOutRecord ingress) := by
  unfold satisfyAmong callAmong
  dsimp only
  rw [beforeSatisfyInterest_default (setExpiryTimer_default default)]
  rfl

theorem satisfyOne_default : satisfyOne env s data ingress id choices =
    conclude env (sendDataToAll (s.setExpiryTimer id 0) data id ingress) data ingress id (fun e => e.deleteOutRecord ingress) := by
  unfold satisfyOne callOfOne
  dsimp only
  rw [afterReceiveData_default (setExpiryTimer_default default)]
  rfl

end

theorem Moves.kept (moves : Moves env s event u v) (represented : Represented u) (timely : Timely u) : Represented v ∧ Timely v := by
  refine Performs.invariant (I := fun w => Represented w ∧ Timely w) (fun w move kept permitted => ?_) moves ⟨represented,timely⟩
  exact ⟨permitted_represented kept.1 permitted,permitted_timely kept.2 kept.1 permitted⟩

theorem satisfyAmong_frame (default : s.kindOf (s.entry id).name |>.Default) :
    Frame s (satisfyAmong env data ingress choices s id) := by
  rw [satisfyAmong_default default]
  exact Frame.setExpiryTimer.trans (conclude_frame remark_clearInRecords.trimmed)

theorem satisfyAmong_satisfied (represented : Represented s) (alive : Alive s id) (default : s.kindOf (s.entry id).name |>.Default) :
    Satisfied (satisfyAmong env data ingress choices s id) ingress id ∧
      ((satisfyAmong env data ingress choices s id).entry id).inRecords = [] := by
  have armed : Represented (s.setExpiryTimer id 0) := represented.calm (.modifyEntry_scheduler fun _ => ⟨.of_core rfl,rfl⟩)
  have due := setExpiryTimer_due alive
  rw [satisfyAmong_default default]
  refine ⟨conclude_satisfied due (fun e present => (armed.entries e present).outRecords) (fun _ => ⟨rfl,rfl,rfl⟩)
    remark_clearInRecords.trimmed (fun _ => ⟨rfl,rfl⟩),?_⟩
  obtain ⟨e,_,found,_⟩ := due
  have after : (conclude env (s.setExpiryTimer id 0) data ingress id (fun e => e.clearInRecords.deleteOutRecord ingress)).pit.get id = _ :=
    conclude_get (fun _ => rfl) found
  rw [State.entry_of_get after]
  rfl

theorem satisfyAmong_keeps (satisfied : Satisfied s ingress own) (timely : Timely s) (represented : Represented s) (alive : Alive s id)
    (default : s.kindOf (s.entry id).name |>.Default) (other : own ≠ id) :
    Satisfied (satisfyAmong env data ingress choices s id) ingress own ∧
      (satisfyAmong env data ingress choices s id).entry own = s.entry own := by
  obtain ⟨⟨e,x,found,pending,holds,task,instant⟩,e',again,marked,gone⟩ := satisfied
  cases found.symm.trans again
  obtain ⟨present,rfl⟩ := get_id found
  have moves : Moves env s (.data data ingress choices) s (satisfyAmong env data ingress choices s id) := satisfyAmong_moves rfl rfl alive
  have spared : Spares (fun k => k = id) s (satisfyAmong env data ingress choices s id) := satisfyAmong_spares rfl
  have kept := get_of_mem (moves.kept represented timely).1.ids (spared e present other)
  have frame : Frame s (satisfyAmong env data ingress choices s id) := satisfyAmong_frame default
  have idle : Idle (s.setExpiryTimer id 0) (satisfyAmong env data ingress choices s id) := by
    rw [satisfyAmong_default default]
    exact conclude_idle (fun _ => ⟨rfl,rfl,rfl⟩)
  refine ⟨⟨⟨e,x,kept,?_,holds,task,instant.trans frame.now.symm⟩,e,kept,marked,gone⟩,?_⟩
  · rw [idle.scheduler]
    -- the event that setExpiryTimer cancels is the other entry's
    refine Scheduler.mem_schedule.mpr (.inr (Scheduler.mem_cancel.mpr ⟨pending,fun same => other ?_⟩))
    obtain ⟨inside,named⟩ := alive.entry
    have mine := timely.expiry.agrees _ inside x pending same.symm
    rw [task,named] at mine
    exact some.inj mine
  · rw [State.entry_of_get kept,State.entry_of_get found]

theorem satisfyAll (ids : List EntryId) (distinct : ids.Nodup) (timely : Timely s) (represented : Represented s)
    (alive : ∀ id ∈ ids, Alive s id) (default : ∀ id ∈ ids, s.kindOf (s.entry id).name |>.Default) :
    Frame s (ids.foldl (satisfyAmong env data ingress choices) s) ∧
    (∀ own, Satisfied s ingress own → own ∉ ids → Satisfied (ids.foldl (satisfyAmong env data ingress choices) s) ingress own ∧
      (ids.foldl (satisfyAmong env data ingress choices) s).entry own = s.entry own) ∧
    ∀ id ∈ ids, Satisfied (ids.foldl (satisfyAmong env data ingress choices) s) ingress id ∧
      ((ids.foldl (satisfyAmong env data ingress choices) s).entry id).inRecords = [] := by
  induction ids generalizing s with
  | nil => exact ⟨.refl s,fun own satisfied _ => ⟨satisfied,rfl⟩,fun id listed => by cases listed⟩
  | cons id ids ih =>
    obtain ⟨fresh,distinct⟩ := nodup_cons.mp distinct
    have here := alive id mem_cons_self
    have kind := default id mem_cons_self
    have frame : Frame s (satisfyAmong env data ingress choices s id) := satisfyAmong_frame kind
    have moves : Moves env s (.data data ingress choices) s (satisfyAmong env data ingress choices s id) := satisfyAmong_moves rfl rfl here
    obtain ⟨filed,punctual⟩ := moves.kept represented timely
    obtain ⟨rest,keeps,settles⟩ := ih distinct punctual filed (fun k listed => (alive k (mem_cons_of_mem _ listed)).quiet frame.toQuiet)
      (fun k listed => by rw [frame.kindOf]; exact default k (mem_cons_of_mem _ listed))
    rw [foldl_cons]
    refine ⟨frame.trans rest,fun own before apart => ?_,fun k listed => ?_⟩
    · obtain ⟨other,later⟩ := not_or.mp (mt mem_cons.mpr apart)
      obtain ⟨still,same⟩ := satisfyAmong_keeps before timely represented here kind other
      obtain ⟨kept,equal⟩ := keeps own still later
      exact ⟨kept,equal.trans same⟩
    · rcases mem_cons.mp listed with rfl | later
      · obtain ⟨satisfied,empty⟩ := satisfyAmong_satisfied represented here kind
        obtain ⟨still,equal⟩ := keeps k satisfied fresh
        exact ⟨still,equal ▸ empty⟩
      · exact settles k later

theorem sendData_loop_frame (faces : List Face) : Frame s (faces.foldl (fun s face => sendData s data face id) s) := by
  induction faces generalizing s with
  | nil => exact .refl s
  | cons f faces ih => exact Frame.sendData.trans ih

theorem sendData_loop_idle (faces : List Face) : Idle s (faces.foldl (fun s face => sendData s data face id) s) := by
  induction faces generalizing s with
  | nil => exact .refl s
  | cons f faces ih => exact Idle.sendData.trans ih

theorem sendData_inRecords : ((sendData s data face id).entry id).inRecords = remove InRecord.face face (s.entry id).inRecords := by
  have deleted : (s.pit.modify id (·.deleteInRecord face)).get id = _ := modify_get (fun _ => rfl)
  rw [State.entry,State.entry,sendData_pit,State.deleteInRecord,State.modifyEntry,deleted]
  cases found : s.pit.get id with
  | none => rfl
  | some e => rw [map_some,if_pos (get_id found).2]; rfl

theorem sendData_loop_gone (faces : List Face) (distinct : Distinct InRecord.face (s.entry id).inRecords) (listed : f ∈ faces) :
    ∀ r ∈ ((faces.foldl (fun s face => sendData s data face id) s).entry id).inRecords, r.face ≠ f := by
  induction faces generalizing s with
  | nil => cases listed
  | cons g faces ih =>
    have first : Distinct InRecord.face ((sendData s data g id).entry id).inRecords := by
      rw [sendData_inRecords]
      exact remove_distinct distinct
    rcases mem_cons.mp listed with rfl | later
    · intro r left
      have rest : Frame (sendData s data f id) (faces.foldl (fun s face => sendData s data face id) (sendData s data f id)) :=
        sendData_loop_frame faces
      obtain ⟨old,there,facts⟩ := rest.entry.inRecord left
      rw [sendData_inRecords] at there
      have facing : old.face = r.face := congrArg Prod.fst facts
      exact facing ▸ ((mem_remove distinct).mp there).2
    · exact ih first later

def downstreamsOf (s : State) (data : Data) (ingress : Face) (e : Entry) : List Face :=
  (pendingDownstreams s.now e ingress).dedup.filter (fun f => ¬ closedTo f data)

theorem satisfyOne_satisfied (represented : Represented s) (alive : Alive s id) (default : s.kindOf (s.entry id).name |>.Default) :
    Delivers data (downstreamsOf s data ingress (s.entry id)) s (satisfyOne env s data ingress id choices) ∧
    (satisfyOne env s data ingress id choices).now = s.now ∧ Satisfied (satisfyOne env s data ingress id choices) ingress id ∧
    ∀ f ∈ downstreamsOf s data ingress (s.entry id), ∀ r ∈ ((satisfyOne env s data ingress id choices).entry id).inRecords, r.face ≠ f := by
  have armed : Represented (s.setExpiryTimer id 0) := represented.calm (.modifyEntry_scheduler fun _ => ⟨.of_core rfl,rfl⟩)
  have due := setExpiryTimer_due alive
  obtain ⟨e,found⟩ := alive
  have entry := State.entry_of_get found
  have noted : (s.setExpiryTimer id 0).pit.get id = some { e with expiryTimer := some s.scheduler.nextId } :=
    State.get_modifyEntry (s := s) (fun _ => rfl) found
  have same : pendingDownstreams (s.setExpiryTimer id 0).now ((s.setExpiryTimer id 0).entry id) ingress =
      pendingDownstreams s.now e ingress := by
    rw [State.entry_of_get noted]
    rfl
  have other : (s.setExpiryTimer id 0).kindOf ((s.setExpiryTimer id 0).entry id).name ≠ .access := by
    rw [Frame.setExpiryTimer.kindOf]
    rcases default with kind | kind | kind <;> rw [kind] <;> simp
  have sending : Moves env s .addMark (s.setExpiryTimer id 0) (sendDataToAll (s.setExpiryTimer id 0) data id ingress) :=
    sendDataToAll_moves (.inl other)
  have idle : Idle (s.setExpiryTimer id 0) (sendDataToAll (s.setExpiryTimer id 0) data id ingress) := sendData_loop_idle _
  have frame : Frame (s.setExpiryTimer id 0) (sendDataToAll (s.setExpiryTimer id 0) data id ingress) := sendData_loop_frame _
  have delivers : Delivers data (downstreamsOf s data ingress e) (s.setExpiryTimer id 0)
      (sendDataToAll (s.setExpiryTimer id 0) data id ingress) := by
    rw [downstreamsOf,← same]
    exact .loop _ (fun _ _ _ => sendData_delivers)
  have gone : ∀ f ∈ pendingDownstreams s.now e ingress, ∀ r ∈
      ((sendDataToAll (s.setExpiryTimer id 0) data id ingress).entry id).inRecords, r.face ≠ f := by
    intro f listed
    refine sendData_loop_gone _ ?_ (mem_dedup.mpr (same ▸ listed))
    rw [State.entry_of_get noted]
    exact (armed.entries _ (get_id noted).1).inRecords
  have filed := Performs.invariant (fun _ _ => permitted_represented) sending armed
  have late := due.idle idle frame.now
  rw [satisfyOne_default default,entry]
  have closing : Frame s (conclude env (sendDataToAll (s.setExpiryTimer id 0) data id ingress) data ingress id
      (fun e => e.deleteOutRecord ingress)) :=
    (Frame.setExpiryTimer.trans frame).trans (conclude_frame (fun _ => .of_core rfl))
  refine ⟨delivers.ends rfl conclude_sent,closing.now,?_,fun f listed r left => ?_⟩
  · exact conclude_satisfied late (fun e present => (filed.entries e present).outRecords) (fun _ => ⟨rfl,rfl,rfl⟩)
      (fun _ => .of_core rfl) (fun _ => ⟨rfl,rfl⟩)
  · obtain ⟨last,_,there,_⟩ := late
    have after : (conclude env (sendDataToAll (s.setExpiryTimer id 0) data id ingress) data ingress id
        (fun e => e.deleteOutRecord ingress)).pit.get id = _ := conclude_get (fun _ => rfl) there
    rw [State.entry_of_get after] at left
    refine gone f (mem_dedup.mp (mem_filter.mp listed).1) r ?_
    rw [State.entry_of_get there]
    exact left

theorem onOutgoingData_loop (faces : List Face) : faces.foldl (fun s face => onOutgoingData s data face) s =
    { s with sent := s.sent ++ (faces.filter (fun f => ¬ closedTo f data)).map (fun f => .data f data) } := by
  induction faces generalizing s with
  | nil => simp
  | cons f faces ih =>
    have first : onOutgoingData s data f = { s with sent := (onOutgoingData s data f).sent } := by
      unfold onOutgoingData
      split
      · rfl
      · split <;> rfl
    rw [foldl_cons,ih,first,onOutgoingData_sent,filter_cons]
    by_cases closed : closedTo f data <;> simp [closed]

def downstreamsOfAll (s : State) (data : Data) (ingress : Face) (pitMatches : List Entry) : List Face :=
  ((pitMatches.flatMap (fun e => (e.inRecords.filter (fun r => r.expiry > s.now)).map InRecord.face)).dedup.filter
    (fun face => !(face.id == ingress.id && face.linkType != .adHoc))).filter (fun f => ¬ closedTo f data)

theorem satisfyMany_sent : (satisfyMany env s data ingress pitMatches choices).sent =
    s.sent ++ (downstreamsOfAll s data ingress pitMatches).map (fun f => .data f data) := by
  have silent : ∀ ids : List EntryId, (ids.foldl (satisfyAmong env data ingress choices) s).sent = s.sent := fun ids =>
    List.foldlRecOn (motive := fun u : State => u.sent = s.sent) ids _ rfl (fun _ same _ _ => satisfyAmong_sent.trans same)
  unfold satisfyMany
  rw [onOutgoingData_loop,silent]
  rfl

theorem satisfyMany_satisfied (timely : Timely s) (represented : Represented s) (present : ∀ e ∈ pitMatches, e ∈ s.pit)
    (distinct : pitMatches.Nodup) (default : ∀ e ∈ pitMatches, (s.kindOf e.name).Default) :
    Delivers data (downstreamsOfAll s data ingress pitMatches) s (satisfyMany env s data ingress pitMatches choices) ∧
    (satisfyMany env s data ingress pitMatches choices).now = s.now ∧
    ∀ e ∈ pitMatches, Satisfied (satisfyMany env s data ingress pitMatches choices) ingress e.id ∧
      ((satisfyMany env s data ingress pitMatches choices).entry e.id).inRecords = [] := by
  have ids := Nodup.map_on (fun a inA b inB => inj_on_of_nodup_map represented.ids (present a inA) (present b inB)) distinct
  have known : ∀ id ∈ pitMatches.map Entry.id, Alive s id ∧ (s.kindOf (s.entry id).name).Default := by
    intro id listed
    obtain ⟨e,inside,rfl⟩ := mem_map.mp listed
    have found := get_of_mem represented.ids (present e inside)
    refine ⟨⟨e,found⟩,?_⟩
    rw [State.entry_of_get found]
    exact default e inside
  obtain ⟨frame,_,satisfied⟩ := satisfyAll _ ids timely represented (fun id listed => (known id listed).1) (fun id listed => (known id listed).2)
  have delivers : Delivers data (downstreamsOfAll s data ingress pitMatches) s (satisfyMany env s data ingress pitMatches choices) :=
    ⟨(downstreamsOfAll s data ingress pitMatches).map (·,data.pitToken),by simp [Function.comp_def],by simp [satisfyMany_sent]⟩
  refine ⟨delivers,?_⟩
  unfold satisfyMany
  rw [onOutgoingData_loop]
  exact ⟨frame.now,fun e inside => satisfied e.id (mem_map_of_mem inside)⟩

def Matched (data : Data) (ingress : Face) (e : Entry) : Prop :=
  matchesData e.name e.canBePrefix e.mustBeFresh (received data ingress)

def Answers (data : Data) (ingress : Face) (e : Entry) : Prop :=
  matchesDecoded e.name e.canBePrefix e.mustBeFresh (received data ingress)

instance (data : Data) (ingress : Face) (e : Entry) : Decidable (Answers data ingress e) := inferInstanceAs (Decidable (_ = true))

-- A face with a current in-record in some matching entry, other than where the
-- Data came from unless that is ad hoc, and not reserved from it.
def Served (s : State) (data : Data) (ingress f : Face) : Prop :=
  (∃ e ∈ s.pit, Matched data ingress e ∧ ∃ r ∈ e.inRecords, r.face = f ∧ r.expiry > s.now) ∧
    (f ≠ ingress ∨ ingress.linkType = .adHoc) ∧ ¬ (localhost.isPrefixOf data.name ∧ f.scope = .nonLocal)

theorem served_exact (represented : Represented s) (here : ingress ∈ s.faces) : Served s data ingress f ↔
    (∃ e ∈ s.pit, Matched data ingress e ∧ ∃ r ∈ e.inRecords, r.face = f ∧ r.expiry > s.now) ∧
      ¬ (f.id = ingress.id ∧ f.linkType ≠ .adHoc) ∧ ¬ closedTo f (received data ingress) := by
  refine and_congr_right (fun ⟨e,present,_,r,listed,facing,_⟩ => ?_)
  have known : f ∈ s.faces := facing ▸ (represented.entries e present).faces r listed
  have same : f.id = ingress.id ↔ f = ingress := ⟨inj_on_of_nodup_map represented.faceIds.1 known here,congrArg Face.id⟩
  have nonzero := (represented.faceIds.2 f known).1
  refine and_congr ?_ (not_congr ?_)
  · rw [same]
    constructor
    · rintro (other | adHoc) ⟨rfl,link⟩
      · exact other rfl
      · exact link adHoc
    · intro free
      by_cases equal : f = ingress
      · subst equal
        exact .inr (not_not.mp (fun link => free ⟨rfl,link⟩))
      · exact .inl equal
  · unfold closedTo
    constructor
    · exact fun reserved => .inr ⟨reserved.2,reserved.1⟩
    · rintro (zero | reserved)
      · exact absurd zero nonzero
      · exact ⟨reserved.2,reserved.1⟩

theorem mem_downstreamsOfAll : f ∈ downstreamsOfAll s data ingress pitMatches ↔
    (∃ e ∈ pitMatches, ∃ r ∈ e.inRecords, r.face = f ∧ r.expiry > s.now) ∧ ¬ (f.id = ingress.id ∧ f.linkType ≠ .adHoc) ∧
      ¬ closedTo f data := by
  unfold downstreamsOfAll
  simp only [List.mem_filter,List.mem_dedup,List.mem_flatMap,List.mem_map,decide_eq_true_eq,Bool.not_eq_true',Bool.and_eq_false_iff]
  constructor
  · rintro ⟨⟨⟨e,inside,r,⟨listed,later⟩,rfl⟩,free⟩,opened⟩
    exact ⟨⟨e,inside,r,listed,rfl,later⟩,by simpa [imp_iff_not_or] using free,opened⟩
  · rintro ⟨⟨e,inside,r,listed,rfl,later⟩,free,opened⟩
    exact ⟨⟨⟨e,inside,r,⟨listed,later⟩,rfl⟩,by simpa [imp_iff_not_or] using free⟩,opened⟩

theorem mem_downstreamsOf : f ∈ downstreamsOf s data ingress e ↔ f ∈ downstreamsOfAll s data ingress [e] := by
  rw [mem_downstreamsOfAll,downstreamsOf,pendingDownstreams]
  simp only [List.mem_filter,List.mem_dedup,List.mem_map,decide_eq_true_eq,List.mem_singleton,exists_eq_left]
  constructor
  · rintro ⟨⟨r,⟨listed,later,free⟩,rfl⟩,opened⟩
    exact ⟨⟨r,listed,rfl,later⟩,free,opened⟩
  · rintro ⟨⟨r,listed,rfl,later⟩,free,opened⟩
    exact ⟨⟨r,⟨listed,later,free⟩,rfl⟩,opened⟩

theorem mem_served (represented : Represented s) (here : ingress ∈ s.faces) :
    f ∈ downstreamsOfAll s (received data ingress) ingress (s.pit.findAllDataMatches (received data ingress)) ↔ Served s data ingress f := by
  rw [mem_downstreamsOfAll,served_exact represented here]
  simp only [findAllDataMatches_exact,Matched,and_assoc]

theorem onIncomingData_fans (timely : Timely s) (represented : Represented s) (here : ingress ∈ s.faces)
    (heard : ¬ (ingress.scope = .nonLocal ∧ localhost.isPrefixOf data.name))
    (default : ∀ e ∈ s.pit, Matched data ingress e → (s.kindOf e.name).Default) :
    ∃ faces, Delivers (received data ingress) faces s (onIncomingData env s data ingress choices) ∧ faces.Nodup ∧
      (∀ f, f ∈ faces ↔ Served s data ingress f) ∧ (onIncomingData env s data ingress choices).now = s.now ∧
      ∀ e ∈ s.pit, Matched data ingress e → Satisfied (onIncomingData env s data ingress choices) ingress e.id ∧
        ∀ f ∈ faces, ∀ r ∈ ((onIncomingData env s data ingress choices).entry e.id).inRecords, r.face ≠ f := by
  have exactly : ∀ e, e ∈ s.pit.findAllDataMatches (received data ingress) ↔ e ∈ s.pit ∧ Matched data ingress e :=
    fun e => findAllDataMatches_exact
  have nodup : (s.pit.findAllDataMatches (received data ingress)).Nodup :=
    findAllDataMatches_nodup (Nodup.of_map _ represented.ids)
  have filed : Represented { s with cs := s.cs.insert s.now (received data ingress) false } := represented.same rfl
  have result : onIncomingData env s data ingress choices = _ := if_neg heard
  rw [result]
  cases found : s.pit.findAllDataMatches (received data ingress) with
  | nil =>
    have shown := found
    rw [received] at shown
    simp only [shown]
    have none : ∀ e ∈ s.pit, ¬ Matched data ingress e := fun e present matched => by
      simpa [found] using (exactly e).mpr ⟨present,matched⟩
    have quiet : (onDataUnsolicited s (received data ingress) ingress).sent = s.sent ∧
        (onDataUnsolicited s (received data ingress) ingress).now = s.now := by
      unfold onDataUnsolicited
      split <;> exact ⟨rfl,rfl⟩
    refine ⟨[],.silent quiet.1,nodup_nil,fun f => ⟨fun listed => absurd listed not_mem_nil,?_⟩,quiet.2,
      fun e present matched => absurd matched (none e present)⟩
    rintro ⟨⟨e,present,matched,_⟩,_⟩
    exact absurd matched (none e present)
  | cons e others =>
    have first := (exactly e).mp (found ▸ mem_cons_self)
    cases others with
    | nil =>
      have shown := found
      rw [received] at shown
      simp only [shown]
      have only : ∀ x ∈ s.pit, Matched data ingress x → x = e := fun x present matched => by
        simpa [found] using (exactly x).mpr ⟨present,matched⟩
      have got := get_of_mem represented.ids first.1
      have entry : State.entry { s with cs := s.cs.insert s.now (received data ingress) false } e.id = e := State.entry_of_get got
      obtain ⟨delivers,instant,satisfied,gone⟩ := satisfyOne_satisfied filed ⟨e,got⟩ (by rw [entry]; exact default e first.1 first.2)
      rw [entry] at delivers gone
      refine ⟨_,delivers.ends rfl rfl,(nodup_dedup _).filter _,fun f => ?_,instant,fun x present matched => ?_⟩
      · rw [mem_downstreamsOf,← found]
        exact mem_served filed here
      · obtain rfl := only x present matched
        exact ⟨satisfied,gone⟩
    | cons second others =>
      have shown := found
      rw [received] at shown
      simp only [shown]
      rw [found] at nodup exactly
      obtain ⟨delivers,instant,satisfied⟩ : Delivers (received data ingress) _ _ (satisfyMany env
          { s with cs := s.cs.insert s.now (received data ingress) false } (received data ingress) ingress
          (e :: second :: others) choices) ∧ _ ∧ _ :=
        satisfyMany_satisfied (timely.idle (.of_tables rfl)) filed (fun x inside => ((exactly x).mp inside).1) nodup
          (fun x inside => default x ((exactly x).mp inside).1 ((exactly x).mp inside).2)
      refine ⟨_,delivers.ends rfl rfl,((nodup_dedup _).filter _).filter _,fun f => ?_,instant,fun x present matched => ?_⟩
      · rw [← found]
        exact mem_served filed here
      · obtain ⟨settled,empty⟩ := satisfied x ((exactly x).mpr ⟨present,matched⟩)
        refine ⟨settled,fun f _ r left => ?_⟩
        cases (congrArg (r ∈ ·) empty).mp left

def Recorded (s : State) (data : Data) (ingress f : Face) (token : Option PitToken) : Prop :=
  ∃ e ∈ s.pit, Matched data ingress e ∧ ∃ r ∈ e.inRecords, r.face = f ∧ (s.interest r.interest).pitToken = token

-- One matching entry: each copy has its in-record's token. With several, all get
-- the one Data without a token, which fits the downstreams that gave none.
theorem copies_token_iff (path : Reached env s) (taken : step env s (.data data ingress choices) = some t) :
    (∀ f d, Effect.data f d ∈ t.sent → Recorded s data ingress f d.pitToken) ↔
      (¬ (ingress.scope = .nonLocal ∧ localhost.isPrefixOf data.name) → ∀ a ∈ s.pit, ∀ b ∈ s.pit, Matched data ingress a →
        Matched data ingress b → a ≠ b → ∀ f, Served s data ingress f → Recorded s data ingress f none) := by
  have here : ingress ∈ s.faces := (ite_none_right_eq_some.mp taken).1
  have represented := reached_represented path
  have exactly : ∀ e, e ∈ s.pit.findAllDataMatches (received data ingress) ↔ e ∈ s.pit ∧ Matched data ingress e :=
    fun e => findAllDataMatches_exact
  have nodup : (s.pit.findAllDataMatches (received data ingress)).Nodup :=
    findAllDataMatches_nodup (Nodup.of_map _ represented.ids)
  cases step_satisfies taken
  by_cases dropped : ingress.scope = .nonLocal ∧ localhost.isPrefixOf data.name
  · have result : onIncomingData env { s with sent := [] } data ingress choices = _ := if_pos dropped
    exact iff_of_true (fun f d sent => by cases result ▸ sent) (absurd dropped)
  by_cases several : ∃ first second others, s.pit.findAllDataMatches (received data ingress) = first :: second :: others
  · obtain ⟨first,second,others,found⟩ := several
    have result : onIncomingData env { s with sent := [] } data ingress choices = _ := if_neg dropped
    have shown := found
    rw [received] at shown
    rw [found] at nodup exactly
    have served : ∀ f, f ∈ downstreamsOfAll s (received data ingress) ingress _ ↔ Served s data ingress f := fun f =>
      found ▸ mem_served represented here
    simp only [result,shown,satisfyMany_sent]
    constructor
    · exact fun carried _ _ _ _ _ _ _ _ f fed => carried f (received data ingress) (mem_map_of_mem ((served f).mpr fed))
    · intro clear f d sent
      obtain ⟨_,listed,copy⟩ := List.mem_map.mp sent
      obtain ⟨rfl,rfl⟩ := Effect.data.inj copy
      have one := (exactly first).mp mem_cons_self
      have two := (exactly second).mp (mem_cons_of_mem _ mem_cons_self)
      refine clear dropped first one.1 second two.1 one.2 two.2 ?_ _ ((served _).mp listed)
      exact fun same => (nodup_cons.mp nodup).1 (same ▸ mem_cons_self)
  · refine iff_of_true (fun f d sent => ?_) (fun _ a inA b inB one two apart => absurd ?_ several)
    · obtain ⟨_,equal,outcome⟩ := data_outcome env { s with sent := [] } data ingress choices
      cases outcome with
      | dropped => cases equal ▸ sent
      | unsolicited => cases equal ▸ sent
      | one only =>
        obtain ⟨r,listed,facing,token⟩ := onIncomingData_own (reached_sound path) only sent
        have inside := (exactly _).mp (only ▸ mem_cons_self)
        exact ⟨_,inside.1,inside.2,r,listed,facing,token.symm⟩
      | many found => exact absurd ⟨_,_,_,found⟩ several
    · have first := (exactly a).mpr ⟨inA,one⟩
      have second := (exactly b).mpr ⟨inB,two⟩
      generalize s.pit.findAllDataMatches (received data ingress) = found at first second ⊢
      rcases found with _ | ⟨x,_ | ⟨y,others⟩⟩
      · cases first
      · exact absurd ((mem_singleton.mp first).trans (mem_singleton.mp second).symm) apart
      · exact ⟨x,y,others,rfl⟩

theorem copies_token_one : ∃ s t d, exchanges answerName answerName = some s ∧
    step Demo.env s (.data { name := answerName } consumer {}) = some t ∧ Effect.data producer d ∈ t.sent ∧
    Recorded s { name := answerName } consumer producer d.pitToken := by
  obtain ⟨s,before,single,t,taken,sent⟩ : ∃ s ∈ exchanges answerName answerName, (∀ a ∈ s.pit, ∀ b ∈ s.pit,
      matchesData a.name a.canBePrefix a.mustBeFresh (received { name := answerName } consumer) →
      matchesData b.name b.canBePrefix b.mustBeFresh (received { name := answerName } consumer) → a = b) ∧
      ∃ t ∈ step Demo.env s (.data { name := answerName } consumer {}),
        .data producer { name := answerName, incomingFaceId := some 256, pitToken := some (setPitToken 7) } ∈ t.sent := by decide
  refine ⟨s,t,_,before,taken,sent,(copies_token_iff (run_reached (.start node_initial) before) taken).mpr ?_ _ _ sent⟩
  exact fun _ a inA b inB one two apart => absurd (single a inA b inB one two) apart

-- Two entries for one name: neither in-record's token comes back.
theorem copies_token_lost : ∃ s t d, Reached Demo.env s ∧ step Demo.env s (.data { name := ordinary.name } producer {}) = some t ∧
    Effect.data consumer d ∈ t.sent ∧ ¬ Recorded s { name := ordinary.name } producer consumer d.pitToken := by
  obtain ⟨s,before,tokens,t,taken,sent⟩ : ∃ s ∈ run (step Demo.env) (node .bestRoute)
      [.interest ordinary consumer {},.interest { ordinary with canBePrefix := true, nonce := 4 } consumer {}],
      (∀ e ∈ s.pit, ∀ r ∈ e.inRecords, (s.interest r.interest).pitToken ≠ none) ∧
      ∃ t ∈ step Demo.env s (.data { name := ordinary.name } producer {}),
        .data consumer { name := ordinary.name, incomingFaceId := some 257 } ∈ t.sent := by decide
  refine ⟨s,t,_,run_reached (.start node_initial) before,taken,sent,?_⟩
  rintro ⟨e,present,_,r,listed,_,token⟩
  exact tokens e present r listed token

end ReflexiveNfd
