import ReflexiveNfd.Lifecycle

namespace ReflexiveNfd
open List Transition
variable {s t : State} {e : Entry} {id : EntryId} {i : Interest}

-- An Interest as it was received, with the entry it was matched to and the
-- object it became. The token here is not affected by later writes to the object.
structure Received where
  entry : EntryId
  face : Face
  object : ObjId
  name : Name
  token : Option PitToken
  deriving DecidableEq, Repr

def receive (env : Env) (s : State) : Event → Option Received
  | .interest packet ingress _ =>
    match screen env s packet ingress with
    | .accepted i => some ⟨(admitted s i).2,ingress,s.interests.length,i.name,i.pitToken⟩
    | _ => none
  | _ => none

abbrev History := Recorded State Received

def observe (env : Env) : History → Event → Option History := record (step env) (receive env)

def Started : History → Prop := Unrecorded Initial

def newest (log : List Received) (id : EntryId) (face : Face) : Option Received :=
  log.find? (fun a => a.entry == id && a.face == face)

structure Logged (s : State) (log : List Received) : Prop where
  entries : ∀ a ∈ log, a.entry < s.nextEntry
  objects : ∀ a ∈ log, a.object < s.interests.length
  names : ∀ a ∈ log, ∀ e ∈ s.pit, e.id = a.entry → e.name = a.name
  downstreams : ∀ e ∈ s.pit, ∀ r ∈ e.inRecords, ∃ a ∈ log, a.entry = e.id ∧ a.face = r.face ∧ a.object = r.interest
  distinct : (log.map Received.object).Nodup

variable {log : List Received}

theorem Logged.quiet (logged : Logged s log) (quiet : Quiet s t) : Logged t log := by
  refine ⟨?_,?_,?_,?_,logged.distinct⟩
  · rw [quiet.nextEntry]
    exact logged.entries
  · exact fun a listed => Nat.lt_of_lt_of_le (logged.objects a listed) quiet.grown
  · intro a listed e' present same
    obtain ⟨e,inside,trimmed⟩ := quiet.origin present
    rw [trimmed.name]
    exact logged.names a listed e inside (trimmed.id ▸ same)
  · intro e' present r' held
    obtain ⟨e,inside,trimmed⟩ := quiet.origin present
    obtain ⟨r,kept,equal⟩ := trimmed.inRecord held
    obtain ⟨a,listed,entry,facing,object⟩ := logged.downstreams e inside r kept
    simp only [InRecord.facts,Prod.mk.injEq] at equal
    exact ⟨a,listed,by rw [trimmed.id,entry],facing.trans equal.1,object.trans equal.2.2.2.2⟩

theorem Logged.arrive (sound : Sound env s) (logged : Logged s log) (follows : Follows s i ingress t) :
    Logged t (⟨(admitted s i).2,ingress,s.interests.length,i.name,i.pitToken⟩ :: log) := by
  have handling : Handling (admitted s i).1 s.interests.length (admitted s i).2 i.name := admitted_handling sound
  have fresh : Sound env (admitted s i).1 := admitted_sound sound
  have later : s.nextEntry ≤ (admitted s i).1.nextEntry := by
    rcases admitted_cases s i with ⟨e,_,equal⟩ | ⟨_,equal⟩
    · rw [equal]; exact Nat.le_refl _
    · rw [equal]; exact Nat.le_succ _
  have grown := Nat.lt_of_lt_of_le handling.bound follows.grown
  refine ⟨?_,?_,?_,?_,?_⟩
  · rw [follows.nextEntry]
    intro a listed
    rcases mem_cons.mp listed with rfl | old
    · obtain ⟨e,found,_⟩ := handling.entry
      obtain ⟨inside,named⟩ := Pit.get_id found
      exact named ▸ fresh.fresh e inside
    · exact Nat.lt_of_lt_of_le (logged.entries a old) later
  · intro a listed
    rcases mem_cons.mp listed with rfl | old
    · exact grown
    · exact Nat.lt_trans (logged.objects a old) grown
  · intro a listed e' present same
    obtain ⟨e,inside,ids,names,_⟩ := follows.origin e' present
    rw [names]
    rw [ids] at same
    rcases mem_cons.mp listed with rfl | old
    · have held := fresh.entry inside
      rw [show e.id = (admitted s i).2 from same] at held
      rw [← held,handling.entryName]
    · rcases admitted_origin inside with known | ⟨_,rfl⟩
      · exact logged.names a old e known same
      · exact absurd (logged.entries a old) (Nat.not_lt.mpr (Nat.le_of_eq same))
  · intro e' present r' held
    obtain ⟨e,inside,ids,_,records⟩ := follows.origin e' present
    rcases records r' held with ⟨r,kept,equal⟩ | ⟨mine,facing,object⟩
    · rcases admitted_origin inside with known | ⟨_,rfl⟩
      · obtain ⟨a,listed,entry,facing,object⟩ := logged.downstreams e known r kept
        simp only [InRecord.facts,Prod.mk.injEq] at equal
        exact ⟨a,mem_cons_of_mem _ listed,by rw [ids,entry],facing.trans equal.1,object.trans equal.2.2.2.2⟩
      · cases kept
    · exact ⟨_,mem_cons_self,by rw [ids,mine],facing.symm,object.symm⟩
  · refine nodup_cons.mpr ⟨fun listed => ?_,logged.distinct⟩
    obtain ⟨a,old,same⟩ := mem_map.mp listed
    exact Nat.lt_irrefl _ (same ▸ logged.objects a old)

theorem finalize_subset (sound : Sound env s) (present : e ∈ (onInterestFinalize env s id).pit) : e ∈ s.pit := by
  cases found : s.pit.get id with
  | none => rwa [finalize_absent found] at present
  | some held =>
    rw [finalize_pit found] at present
    exact ((Pit.mem_erase sound.ids (Pit.get_id found).1).mp present).1

theorem finalize_interests : (onInterestFinalize env s id).interests = s.interests := by
  unfold onInterestFinalize
  dsimp only
  split <;> exact insertDeadNonceList_plain.interests

theorem finalize_nextEntry : (onInterestFinalize env s id).nextEntry = s.nextEntry := by
  unfold onInterestFinalize
  dsimp only
  split <;> exact insertDeadNonceList_plain.nextEntry

theorem Logged.finalize (sound : Sound env s) (logged : Logged s log) : Logged (onInterestFinalize env s id) log := by
  refine ⟨?_,?_,?_,?_,logged.distinct⟩
  · rw [finalize_nextEntry]
    exact logged.entries
  · rw [finalize_interests]
    exact logged.objects
  · exact fun a listed e present => logged.names a listed e (finalize_subset sound present)
  · exact fun e present => logged.downstreams e (finalize_subset sound present)

theorem receive_accepted (accepted : screen env s packet ingress = .accepted i) :
    receive env s (.interest packet ingress choices) =
      some ⟨(admitted s i).2,ingress,s.interests.length,i.name,i.pitToken⟩ := by
  simp only [receive,accepted]

theorem receive_refused (refused : ∀ i, screen env s packet ingress ≠ .accepted i) :
    receive env s (.interest packet ingress choices) = none := by
  cases screened : screen env s packet ingress with
  | accepted i => exact (refused i screened).elim
  | _ => simp only [receive,screened]

theorem receive_clear : receive env { s with sent := [] } event = receive env s event := by
  cases event with
  | interest packet ingress choices =>
    have same : screen env { s with sent := [] } packet ingress = screen env s packet ingress := rfl
    cases screened : screen env s packet ingress with
    | accepted i =>
      rw [receive_accepted screened,receive_accepted (same.trans screened),admitted_id,admitted_id]
    | _ =>
      have refused : ∀ i, screen env s packet ingress ≠ .accepted i := by simp [screened]
      exact (receive_refused (s := { s with sent := [] }) refused).trans (receive_refused refused).symm
  | _ => rfl

theorem receive_routine (usual : Routine s event) : receive env s event = none := by
  cases event with
  | interest => exact usual.elim
  | _ => rfl

theorem handle_logged (sound : Sound env s) (logged : Logged s log) (handled : handle env s event = some t) :
    Logged t ((receive env s event).toList ++ log) := by
  cases handle_cases sound handled with
  | @interest ingress packet choices _ _ arrived =>
    have arrival := interest_arrival arrived
    have follows : ∀ i, screen env s packet ingress = .accepted i →
        Logged t ((receive env s (.interest packet ingress choices)).toList ++ log) := by
      intro i accepted
      rw [receive_accepted accepted]
      exact logged.arrive sound (arrival_follows sound arrival accepted)
    cases arrival with
    | refused refused quiet =>
      rw [receive_refused refused]
      exact logged.quiet quiet
    | raised accepted | unanswered accepted | reflected accepted | closed accepted | forwarded accepted =>
      exact follows _ accepted
  | finalize => exact Logged.finalize (sound.quiet Frame.cancelTimer.toQuiet) (logged.quiet Frame.cancelTimer.toQuiet)
  | routine usual trace =>
    rw [receive_routine usual]
    exact logged.quiet trace.quiet

theorem observed_sound (path : Transition.Reached (observe env) Started h) : Sound env h.current :=
  reached_sound (recorded_reached path)

theorem observed_logged (path : Transition.Reached (observe env) Started h) : Logged h.current h.records := by
  refine Guarded.invariant (P := fun h : History => Logged h.current h.records) ?_ ?_ path
  · rintro h ⟨initial,empty⟩
    rw [empty]
    exact ⟨by simp,by simp,by simp,by simp [initial.pit],by simp⟩
  · intro h event k prior logged _ taken
    obtain ⟨next,records⟩ := record_parts taken
    have cleared := logged.quiet clear_quiet
    have after := handle_logged (observed_sound prior).cleared cleared next
    rw [receive_clear] at after
    rw [records]
    exact after

theorem newest_exists (listed : a ∈ log) : ∃ b ∈ log, newest log a.entry a.face = some b ∧ b.entry = a.entry ∧ b.face = a.face := by
  cases found : newest log a.entry a.face with
  | none =>
    have missing := List.find?_eq_none.mp found a listed
    simp at missing
  | some b =>
    have same := List.find?_some found
    simp only [Bool.and_eq_true,beq_iff_eq] at same
    exact ⟨b,mem_of_find?_eq_some found,rfl,same⟩

end ReflexiveNfd
