import ReflexiveNfd.Courses

namespace ReflexiveNfd
open Actions Timers List Keyed
variable {s t : State} {e e' : Entry} {id : EntryId} {move : Move}

-- A change after which the same Interests have been sent for the same entries,
-- though entries may have lost downstreams.
structure Calm (s t : State) : Prop where
  nextEntry : t.nextEntry = s.nextEntry
  faces : t.faces = s.faces
  lastFaceId : t.lastFaceId = s.lastFaceId
  grown : s.interests.length ≤ t.interests.length
  heap : ∀ object, object < s.interests.length → Rewritten (s.interest object) (t.interest object)
  entries : ∃ f, t.pit = s.pit.map f ∧
    ∀ e, Trimmed e (f e) ∧ (f e).outRecords.map OutRecord.facts = e.outRecords.map OutRecord.facts

namespace Calm

theorem of_frame (frame : Frame s t) (lastFaceId : t.lastFaceId = s.lastFaceId) (mapped : t.pit = s.pit.map f)
    (kept : ∀ e, Trimmed e (f e) ∧ (f e).outRecords.map OutRecord.facts = e.outRecords.map OutRecord.facts) : Calm s t :=
  ⟨frame.nextEntry,frame.faces,lastFaceId,frame.grown,frame.heap,f,mapped,kept⟩

theorem modifyEntry (kept : ∀ e, Trimmed e (f e) ∧ (f e).outRecords.map OutRecord.facts = e.outRecords.map OutRecord.facts) :
    Calm s (s.modifyEntry id f) := by
  refine of_frame (.modifyEntry (fun e => (kept e).1)) rfl rfl (fun e => ?_)
  split
  · exact kept e
  · exact ⟨.refl e,rfl⟩

theorem of_tables (same : (t.pit,t.interests,t.nextEntry,t.faces,t.lastFaceId) = (s.pit,s.interests,s.nextEntry,s.faces,s.lastFaceId)) :
    Calm s t := by
  simp only [Prod.mk.injEq] at same
  obtain ⟨pit,interests,nextEntry,faces,lastFaceId⟩ := same
  refine ⟨nextEntry,faces,lastFaceId,by rw [interests],fun object _ => ?_,fun e => e,by simp [pit],fun e => ⟨.refl e,rfl⟩⟩
  rw [State.interest,State.interest,interests]
  exact .refl _

theorem trans (one : Calm s t) (two : Calm t u) : Calm s u := by
  obtain ⟨f,mapped,kept⟩ := one.entries
  obtain ⟨g,remapped,again⟩ := two.entries
  refine ⟨two.nextEntry.trans one.nextEntry,two.faces.trans one.faces,two.lastFaceId.trans one.lastFaceId,one.grown.trans two.grown,
    fun object bound => (one.heap object bound).trans (two.heap object (Nat.lt_of_lt_of_le bound one.grown)),
    g ∘ f,by rw [remapped,mapped,map_map],fun e => ?_⟩
  exact ⟨(kept e).1.trans (again (f e)).1,(again (f e)).2.trans (kept e).2⟩

end Calm

theorem clearStrategyInfo_facts (e : Entry) : (clearStrategyInfo e).outRecords.map OutRecord.facts = e.outRecords.map OutRecord.facts := by
  rw [clearStrategyInfo,map_map]
  rfl

theorem changeStrategy_calm : Calm s (changeStrategy s name oldStrategy newStrategy) := by
  unfold changeStrategy
  split
  · exact .of_tables rfl
  · dsimp only
    rw [cancelTimers_form]
    refine ⟨rfl,rfl,rfl,Nat.le_refl _,fun _ _ => .refl _,_,rfl,fun e => ?_⟩
    split
    · exact ⟨trimmed_clearStrategyInfo,clearStrategyInfo_facts e⟩
    · exact ⟨.refl e,rfl⟩

theorem strategy_calm : (∀ strategy, Calm s (setStrategy s name strategy)) ∧ Calm s (unsetStrategy s name) :=
  strategy_rule (.of_tables rfl) (fun _ _ _ => changeStrategy_calm.trans (.of_tables rfl))

theorem changeStrategy_form : ∃ pit scheduler, changeStrategy s name oldStrategy newStrategy =
    { s with pit := pit, scheduler := scheduler } := by
  unfold changeStrategy
  split
  · exact ⟨_,_,rfl⟩
  · dsimp only
    rw [cancelTimers_form]
    exact ⟨_,_,rfl⟩

def Rechosen (s t : State) : Prop := ∃ pit scheduler choice, t = { s with pit := pit, scheduler := scheduler, strategyChoice := choice }

theorem strategy_form : (∀ strategy, Rechosen s (setStrategy s name strategy)) ∧ Rechosen s (unsetStrategy s name) := by
  refine strategy_rule ⟨_,_,_,rfl⟩ (fun old new _ => ?_)
  obtain ⟨pit,scheduler,equal⟩ := changeStrategy_form
  rw [equal]
  exact ⟨_,_,_,rfl⟩

theorem Calm.modifyEntry_scheduler {f : Entry → Entry} (kept : ∀ e, Trimmed e (f e) ∧ (f e).outRecords.map OutRecord.facts = e.outRecords.map OutRecord.facts) :
    Calm s { s.modifyEntry id f with scheduler := queue } :=
  (Calm.modifyEntry kept).trans (.of_tables rfl)

def Move.marks : Move → Bool
  | .insert .. | .insertInRecord .. | .transmit .. | .setIncomingNack .. | .retire .. | .finalize .. | .addFace ..
  | .removeFace .. => true
  | _ => false

theorem Permitted.calm (permitted : Permitted env s event u move) (plain : move.marks = false) : Calm u (enact env u move) := by
  cases permitted with
  | aside changed => exact .of_tables (by rw [enact,changed.pit,changed.interests,changed.nextEntry,changed.faces,changed.lastFaceId])
  | copy => exact .of_frame .allocate rfl (f := fun e => e) (by simp [enact,State.allocate]) (fun e => ⟨.refl e,rfl⟩)
  | rewrite same =>
    exact .of_frame (.modifyInterest same) rfl (f := fun e => e) (by simp [enact,State.modifyInterest]) (fun e => ⟨.refl e,rfl⟩)
  | deleteInRecord => exact .modifyEntry (fun _ => ⟨.deleteInRecord,rfl⟩)
  | clearInRecords => exact .modifyEntry (fun _ => ⟨.clearInRecords,rfl⟩)
  | satisfy => exact .modifyEntry (fun _ => ⟨.of_core rfl,rfl⟩)
  | setExpiryTimer | setRtoTimer => exact .modifyEntry_scheduler (fun _ => ⟨.of_core rfl,rfl⟩)
  | jot kept => exact .modifyEntry (fun e => ⟨kept.trimmed e,kept.outRecords e⟩)
  | cancelTimer | hold | upkeep => exact .of_tables rfl
  | setStrategy => exact strategy_calm.1 _
  | unsetStrategy => exact strategy_calm.2
  | insert | insertInRecord | transmit | setIncomingNack | retire | finalize | addFace | removeFace => cases plain

theorem Filed.trim (filed : Filed s e) (trimmed : Trimmed e e')
    (upstreams : (e'.outRecords.map OutRecord.face).Sublist (e.outRecords.map OutRecord.face))
    (grown : s.interests.length ≤ t.interests.length)
    (heap : ∀ object, object < s.interests.length → Rewritten (s.interest object) (t.interest object))
    (faces : ∀ r ∈ e'.inRecords, r.face ∈ s.faces → r.face ∈ t.faces) : Filed t e' := by
  refine ⟨?_,fun r listed => ?_,trimmed.distinct filed.inRecords,Nodup.sublist upstreams filed.outRecords,fun r listed => ?_⟩
  · obtain ⟨bound,same⟩ := filed.representative
    rw [trimmed.interest,trimmed.key]
    exact ⟨Nat.lt_of_lt_of_le bound grown,(heap _ bound).key.trans same⟩
  · obtain ⟨old,there,facts⟩ := trimmed.inRecord listed
    obtain ⟨bound,same⟩ := filed.downstreams old there
    simp only [InRecord.facts,Prod.mk.injEq] at facts
    rw [← facts.2.2.2.2,trimmed.key]
    exact ⟨Nat.lt_of_lt_of_le bound grown,(heap _ bound).key.trans same⟩
  · obtain ⟨old,there,facts⟩ := trimmed.inRecord listed
    have facing : old.face = r.face := congrArg Prod.fst facts
    exact faces r listed (facing ▸ filed.faces old there)

section
variable (represented : Represented s)
include represented

theorem Represented.map (mapped : t.pit = s.pit.map f)
    (same : ∀ e, (f e).id = e.id ∧ (f e).key = e.key) (nextEntry : t.nextEntry = s.nextEntry)
    (filed : ∀ e ∈ s.pit, Filed t (f e))
    (faceIds : (t.faces.map Face.id).Nodup ∧ ∀ f ∈ t.faces, f.id ≠ 0 ∧ f.id ≤ t.lastFaceId) : Represented t := by
  have ids : t.pit.map Entry.id = s.pit.map Entry.id := by
    rw [mapped,map_map]
    exact map_congr_left (fun e _ => (same e).1)
  have keys : t.pit.map Entry.key = s.pit.map Entry.key := by
    rw [mapped,map_map]
    exact map_congr_left (fun e _ => (same e).2)
  refine ⟨ids ▸ represented.ids,fun e present => ?_,keys ▸ represented.keys,fun e present => ?_,faceIds⟩
  · rw [mapped] at present
    obtain ⟨old,there,rfl⟩ := mem_map.mp present
    rw [(same old).1,nextEntry]
    exact represented.fresh old there
  · rw [mapped] at present
    obtain ⟨old,there,rfl⟩ := mem_map.mp present
    exact filed old there

theorem Represented.calm (calm : Calm s t) : Represented t := by
  obtain ⟨f,mapped,kept⟩ := calm.entries
  refine represented.map mapped (fun e => ⟨(kept e).1.id,(kept e).1.key⟩) calm.nextEntry (fun e present => ?_) ?_
  · refine (represented.entries e present).trim (kept e).1 ?_ calm.grown calm.heap (fun r _ here => calm.faces ▸ here)
    have faces : (f e).outRecords.map OutRecord.face = e.outRecords.map OutRecord.face := by
      simpa [OutRecord.facts,Function.comp_def] using congrArg (List.map Prod.fst) (kept e).2
    rw [faces]
  · rw [calm.faces,calm.lastFaceId]
    exact represented.faceIds

theorem Represented.modifyEntry (same : ∀ e, (f e).id = e.id ∧ (f e).key = e.key)
    (filed : ∀ e ∈ s.pit, e.id = id → Filed s e → Filed s (f e)) : Represented (s.modifyEntry id f) := by
  refine represented.map rfl (fun e => ?_) rfl (fun e present => ?_) represented.faceIds
  · split
    · exact same e
    · exact ⟨rfl,rfl⟩
  · have old := represented.entries e present
    split
    · rename_i mine
      exact (filed e present mine old).same rfl
    · exact old.same rfl

theorem insert_ids : ((enact env s (.insert object)).pit.map Entry.id).Nodup := by
  rw [enact,map_append,nodup_append]
  refine ⟨represented.ids,by simp,?_⟩
  rintro own listed _ new rfl
  obtain ⟨e,present,rfl⟩ := mem_map.mp listed
  exact absurd (represented.fresh e present) (by simp [mem_singleton.mp new,Pit.newEntry])

theorem insert_represented (bound : object < s.interests.length)
    (missing : s.pit.find (s.interest object) = none) : Represented (enact env s (.insert object)) := by
  refine ⟨insert_ids represented,fun e present => ?_,?_,fun e present => ?_,represented.faceIds⟩
  · rcases mem_append.mp present with old | new
    · exact Nat.lt_succ_of_lt (represented.fresh e old)
    · cases mem_singleton.mp new
      exact Nat.lt_succ_self _
  · rw [enact,map_append,nodup_append]
    refine ⟨represented.keys,by simp,?_⟩
    rintro key listed _ new rfl
    obtain ⟨e,present,rfl⟩ := mem_map.mp listed
    exact Pit.find_none missing present (mem_singleton.mp new)
  · rcases mem_append.mp present with old | new
    · exact (represented.entries e old).same rfl
    · cases mem_singleton.mp new
      have empty : ∀ r : InRecord, r ∉ (Pit.newEntry s.nextEntry object (s.interest object)).inRecords := fun _ => not_mem_nil
      exact ⟨⟨bound,rfl⟩,fun r listed => absurd listed (empty r),nodup_nil,nodup_nil,fun r listed => absurd listed (empty r)⟩

theorem insertInRecord_represented (meets : Meets s object id) (here : face ∈ s.faces) :
    Represented (s.insertOrUpdateInRecord id face object) := by
  refine represented.modifyEntry (fun _ => ⟨rfl,rfl⟩) (fun e present mine filed => ?_)
  obtain ⟨bound,own,inside,named,same⟩ := meets
  obtain rfl := inj_on_of_nodup_map represented.ids present inside (mine.trans named.symm)
  refine ⟨filed.representative,fun r listed => ?_,Entry.insertOrUpdateInRecord_distinct filed.inRecords,filed.outRecords,
    fun r listed => ?_⟩
  · rcases Entry.mem_insertOrUpdateInRecord filed.inRecords listed with ⟨old,_⟩ | ⟨_,holds⟩
    · exact filed.downstreams r old
    · rw [holds]
      exact ⟨bound,same⟩
  · rcases Entry.mem_insertOrUpdateInRecord filed.inRecords listed with ⟨old,_⟩ | ⟨facing,_⟩
    · exact filed.faces r old
    · rw [facing]
      exact here

theorem outRecords_represented (same : ∀ e, Trimmed e (f e))
    (distinct : ∀ e, Distinct OutRecord.face e.outRecords → Distinct OutRecord.face (f e).outRecords) :
    Represented (s.modifyEntry id f) := by
  refine represented.modifyEntry (fun e => ⟨(same e).id,(same e).key⟩) (fun e present _ filed => ?_)
  have trimmed : Filed s { f e with outRecords := [] } :=
    filed.trim ((same e).trans (.of_core rfl)) (nil_sublist _) (Nat.le_refl _) (fun _ _ => .refl _)
      (fun _ _ here => here)
  exact { trimmed with outRecords := distinct e filed.outRecords }

theorem erase_represented (present : e ∈ s.pit) (pit : t.pit = s.pit.erase e)
    (interests : t.interests = s.interests) (nextEntry : t.nextEntry = s.nextEntry) (faces : t.faces = s.faces)
    (lastFaceId : t.lastFaceId = s.lastFaceId) : Represented t := by
  have left : ∀ x ∈ t.pit, x ∈ s.pit := fun x inside => ((Pit.mem_erase represented.ids present).mp (pit ▸ inside)).1
  have ids := pit ▸ Pit.erase_ids represented.ids
  refine ⟨ids,fun x inside => nextEntry ▸ represented.fresh x (left x inside),?_,
    fun x inside => (represented.entries x (left x inside)).same (by rw [interests,faces]),?_⟩
  · refine Nodup.map_on (fun x inX y inY equal => ?_) (Nodup.of_map _ ids)
    exact inj_on_of_nodup_map represented.keys (left x inX) (left y inY) equal
  · rw [faces,lastFaceId]
    exact represented.faceIds

theorem removeFace_represented : Represented (cleanupOnFaceRemoval s face) := by
  have remaining : ∀ f ∈ s.faces.filter (fun f => f ≠ face), f ∈ s.faces := fun f listed => (mem_filter.mp listed).1
  refine represented.map rfl (fun _ => ⟨rfl,rfl⟩) rfl (fun e present => ?_) ⟨?_,?_⟩
  · have filed := represented.entries e present
    have trimmed : Trimmed e ((e.deleteInRecord face).deleteOutRecord face) :=
      Trimmed.deleteInRecord.trans (.of_core rfl)
    refine filed.trim trimmed (eraseP_sublist.map _) (Nat.le_refl _) (fun _ _ => .refl _) (fun r listed here => ?_)
    refine mem_filter.mpr ⟨here,?_⟩
    simpa using ((mem_remove filed.inRecords).mp listed).2
  · exact Nodup.sublist (filter_sublist.map _) represented.faceIds.1
  · exact fun f listed => represented.faceIds.2 f (remaining f listed)

theorem addFace_represented : Represented (enact env s (.addFace scope linkType)) := by
  obtain ⟨distinct,known⟩ := represented.faceIds
  refine represented.map (f := fun e => e) (by simp [enact]) (fun _ => ⟨rfl,rfl⟩) rfl (fun e present => ?_) ⟨?_,?_⟩
  · exact (represented.entries e present).trim (.refl e) (Sublist.refl _) (Nat.le_refl _) (fun _ _ => .refl _)
      (fun r _ here => mem_append_left _ here)
  · rw [enact,map_append,nodup_append]
    refine ⟨distinct,by simp,?_⟩
    rintro own listed _ new rfl
    obtain ⟨f,inside,rfl⟩ := mem_map.mp listed
    have fresh : f.id = s.lastFaceId + 1 := mem_singleton.mp new
    exact absurd (known f inside).2 (by rw [fresh]; exact Nat.not_succ_le_self _)
  · intro f listed
    rcases mem_append.mp listed with old | new
    · obtain ⟨nonzero,bound⟩ := known f old
      exact ⟨nonzero,Nat.le_succ_of_le bound⟩
    · cases mem_singleton.mp new
      exact ⟨Nat.succ_ne_zero _,Nat.le_refl _⟩

end

theorem insertDeadNonceList_calm : Calm s (insertDeadNonceList env s id upstream) := by
  obtain ⟨d,equal⟩ := insertDeadNonceList_form env s id upstream
  rw [equal]
  exact .of_tables rfl

theorem finalize_represented (represented : Represented s) (found : s.pit.get id = some e) :
    Represented (onInterestFinalize env s id) := by
  obtain ⟨d,equal⟩ := insertDeadNonceList_form env s id none
  unfold onInterestFinalize
  simp only [equal,found]
  exact erase_represented represented (Pit.get_id found).1 rfl rfl rfl rfl rfl

theorem Entry.insertOrUpdateOutRecord_distinct (distinct : Distinct OutRecord.face e.outRecords) :
    Distinct OutRecord.face (e.insertOrUpdateOutRecord face now i).outRecords := by
  simp only [Entry.insertOrUpdateOutRecord]
  exact upsert_distinct (fun _ => rfl) rfl distinct

theorem Entry.updateOutRecord_distinct (same : ∀ r, (f r).face = r.face)
    (distinct : Distinct OutRecord.face e.outRecords) : Distinct OutRecord.face (e.updateOutRecord face f).outRecords := by
  rw [Distinct,Entry.updateOutRecord,modifyFirst_map same]
  exact distinct

theorem transmit_represented (represented : Represented s) : Represented (transmit s object egress id).1 := by
  have recorded : Represented (s.insertOrUpdateOutRecord id egress object) :=
    outRecords_represented represented (fun _ => .of_core rfl)
      (fun _ => Entry.insertOrUpdateOutRecord_distinct)
  exact recorded.same rfl

theorem permitted_represented (represented : Represented u) (permitted : Permitted env s event u move) :
    Represented (enact env u move) := by
  have calm : move.marks = false → Represented (enact env u move) := fun plain => represented.calm (permitted.calm plain)
  cases permitted with
  | insert bound missing => exact insert_represented represented bound missing
  | insertInRecord meets here => exact insertInRecord_represented represented meets here
  | transmit => exact transmit_represented represented
  | setIncomingNack =>
    exact outRecords_represented represented (fun _ => .of_core rfl)
      (fun _ => Entry.updateOutRecord_distinct (fun _ => rfl))
  | retire =>
    exact outRecords_represented (represented.calm insertDeadNonceList_calm) (fun _ => .of_core rfl)
      (fun _ distinct => remove_distinct distinct)
  | finalize alive =>
    obtain ⟨e,found⟩ := alive
    exact finalize_represented represented found
  | addFace => exact addFace_represented represented
  | removeFace => exact removeFace_represented represented
  | _ => exact calm rfl

theorem handle_represented (sound : Sound env s) (timely : Timely s) (represented : Represented s)
    (handled : handle env s event = some t) : Represented t :=
  Performs.invariant (fun _ _ => permitted_represented) (handle_moves sound timely represented handled) represented

theorem initial_represented (initial : Initial s) : Represented s := by
  refine ⟨?_,?_,?_,?_,initial.faceIds⟩ <;> simp [initial.pit]

theorem reached_timely (path : Reached env s) : Timely s :=
  Transition.Guarded.invariant (fun _ => initial_timely) (fun _ _ _ prior timely _ => step_timely (reached_sound prior) timely) path

theorem Timely.cleared (timely : Timely s) : Timely { s with sent := [] } :=
  (Idle.of_tables (s := s) (t := { s with sent := [] }) rfl).punctual.timely timely

theorem step_represented (path : Reached env s) (represented : Represented s) (taken : step env s event = some t) : Represented t :=
  handle_represented (reached_sound path).cleared (reached_timely path).cleared (represented.same rfl) taken

theorem reached_represented (path : Reached env s) : Represented s :=
  Transition.Guarded.invariant (fun _ => initial_represented) (fun _ _ _ prior represented _ => step_represented prior represented) path

end ReflexiveNfd
