import ReflexiveNfd.Pipelines

namespace ReflexiveNfd
open Actions Timers List Keyed Pit
variable {env : Env} {s t : State} {e e' : Entry} {id : EntryId} {object : ObjId} {interest : Interest} {name : Name} {pit : Pit}

def IsProducer (env : Env) (name : Name) : Prop := name.hasRN9999 env.convention = .ok true
def IsConsumer (env : Env) (name : Name) : Prop :=
  name.isReflexiveName env.convention ∧ name.hasRN9999 env.convention = .ok false

-- An entry agrees with the objects it points to, and its downstreams have been
-- through classification and token generation.
structure EntrySound (env : Env) (s : State) (e : Entry) : Prop where
  representative : e.interest < s.interests.length ∧ (s.interest e.interest).name = e.name
  downstreams : ∀ r ∈ e.inRecords, r.interest < s.interests.length ∧ (s.interest r.interest).name = e.name
  distinct : Distinct InRecord.face e.inRecords
  classified : e.inRecords ≠ [] → ∃ answer, e.name.hasRN9999 env.convention = .ok answer
  registered : e.inRecords ≠ [] → IsConsumer env e.name → s.pitAssist.existName e.name

structure Sound (env : Env) (s : State) : Prop where
  assist : s.pitAssist.Bijective
  consumers : ∀ name, s.pitAssist.existName name → IsConsumer env name
  ids : (s.pit.map Entry.id).Nodup
  fresh : ∀ e ∈ s.pit, e.id < s.nextEntry
  entries : ∀ e ∈ s.pit, EntrySound env s e

theorem Pit.get_of_mem (ids : (pit.map Entry.id).Nodup) (present : e ∈ pit) : Pit.get pit e.id = some e := by
  cases found : Pit.get pit e.id with
  | none =>
    have missing := List.find?_eq_none.mp found e present
    simp at missing
  | some other =>
    obtain ⟨inside,same⟩ := get_id found
    rw [inj_on_of_nodup_map ids inside present same]

theorem Sound.get (sound : Sound env s) (present : e ∈ s.pit) : s.pit.get e.id = some e := get_of_mem sound.ids present

theorem Sound.entry (sound : Sound env s) (present : e ∈ s.pit) : s.entry e.id = e := State.entry_of_get (sound.get present)

theorem EntrySound.trim (sound : EntrySound env s e) (quiet : Quiet s t) (trimmed : Trimmed e e') : EntrySound env t e' := by
  have held : e'.inRecords ≠ [] → e.inRecords ≠ [] := by
    intro some none
    have gone := trimmed.downstreams
    rw [none,map_nil,sublist_nil,map_eq_nil_iff] at gone
    exact some gone
  refine ⟨?_,?_,trimmed.distinct sound.distinct,?_,?_⟩
  · obtain ⟨bound,named⟩ := sound.representative
    rw [trimmed.interest,trimmed.name,(quiet.heap _ bound).name]
    exact ⟨Nat.lt_of_lt_of_le bound quiet.grown,named⟩
  · intro r listed
    obtain ⟨old,inside,same⟩ := trimmed.inRecord listed
    obtain ⟨bound,named⟩ := sound.downstreams old inside
    have sameObject : old.interest = r.interest := by
      simp only [InRecord.facts,Prod.mk.injEq] at same
      exact same.2.2.2.2
    rw [← sameObject,trimmed.name,(quiet.heap _ bound).name]
    exact ⟨Nat.lt_of_lt_of_le bound quiet.grown,named⟩
  · intro some
    rw [trimmed.name]
    exact sound.classified (held some)
  · intro some consumer
    rw [trimmed.name] at consumer ⊢
    rw [quiet.pitAssist]
    exact sound.registered (held some) consumer

theorem Sound.quiet (sound : Sound env s) (quiet : Quiet s t) : Sound env t := by
  refine ⟨by rw [quiet.pitAssist]; exact sound.assist,by rw [quiet.pitAssist]; exact sound.consumers,
    by rw [quiet.ids]; exact sound.ids,?_,?_⟩
  · intro e' present
    obtain ⟨e,inside,trimmed⟩ := quiet.origin present
    rw [trimmed.id,quiet.nextEntry]
    exact sound.fresh e inside
  · intro e' present
    obtain ⟨e,inside,trimmed⟩ := quiet.origin present
    exact (sound.entries e inside).trim quiet trimmed

theorem nteDepth_le (name : Name) : nteDepth name ≤ name.length := by
  unfold nteDepth
  split <;> omega

theorem Pit.find_spec (found : Pit.find pit interest = some e) :
    e ∈ pit ∧ e.name = interest.name ∧ e.canBePrefix = interest.canBePrefix ∧ e.mustBeFresh = interest.mustBeFresh := by
  have listed := mem_filter.mp (mem_of_find?_eq_some found)
  have matched := List.find?_some found
  simp only [Entry.canMatch,Bool.and_eq_true,decide_eq_true_eq,beq_iff_eq] at matched
  obtain ⟨⟨rest,canBePrefix⟩,mustBeFresh⟩ := matched
  refine ⟨listed.1,?_,canBePrefix,mustBeFresh⟩
  have front : e.name.take (nteDepth e.name) = interest.name.take (nteDepth interest.name) := by
    exact of_decide_eq_true listed.2
  have depth : nteDepth e.name = nteDepth interest.name := by
    have lengths := congrArg List.length front
    simpa [Nat.min_eq_left (nteDepth_le _)] using lengths
  rw [depth] at front
  rw [← take_append_drop (nteDepth interest.name) e.name,front,rest,take_append_drop]

section
variable (s : State) (interest : Interest)

def admitted : State × EntryId := pitInsert (s.allocate interest) s.interests.length

def inserted : State :=
  { s.allocate interest with
    pit := s.pit ++ [newEntry s.nextEntry s.interests.length interest], nextEntry := s.nextEntry + 1 }

theorem admitted_cases :
    (∃ e, s.pit.find interest = some e ∧ admitted s interest = (s.allocate interest,e.id)) ∨
    (s.pit.find interest = none ∧ admitted s interest = (inserted s interest,s.nextEntry)) := by
  unfold admitted pitInsert
  rw [State.interest_allocated]
  cases found : s.pit.find interest with
  | none => exact .inr ⟨rfl,by simp [State.allocate,found,inserted]⟩
  | some e => exact .inl ⟨e,rfl,by simp [State.allocate,found]⟩

end

theorem admitted_same (read : State → α) (blind : ∀ pit nextEntry interests,
      read { s with pit := pit, nextEntry := nextEntry, interests := interests } = read s) :
    read (admitted s interest).1 = read s := by
  rcases admitted_cases s interest with ⟨e,_,equal⟩ | ⟨_,equal⟩
  · rw [equal]
    exact blind s.pit s.nextEntry (s.interests ++ [interest])
  · rw [equal]
    exact blind _ _ _

theorem admitted_id : (admitted s interest).2 = ((s.pit.find interest).map Entry.id).getD s.nextEntry := by
  rcases admitted_cases s interest with ⟨e,found,equal⟩ | ⟨missing,equal⟩
  · rw [equal,found]; rfl
  · rw [equal,missing]; rfl

theorem admitted_new (missing : s.pit.find interest = none) : (admitted s interest).2 = s.nextEntry := by
  rw [admitted_id,missing]
  rfl

theorem admitted_origin (present : e ∈ (admitted s interest).1.pit) :
    e ∈ s.pit ∨ (s.pit.find interest = none ∧ e = newEntry s.nextEntry s.interests.length interest) := by
  rcases admitted_cases s interest with ⟨_,_,equal⟩ | ⟨missing,equal⟩
  · rw [equal] at present
    exact .inl present
  · rw [equal] at present
    rcases mem_append.mp present with old | new
    · exact .inl old
    · exact .inr ⟨missing,mem_singleton.mp new⟩

structure Handling (s : State) (object : ObjId) (id : EntryId) (name : Name) : Prop where
  bound : object < s.interests.length
  object : (s.interest object).name = name
  entry : ∃ e, s.pit.get id = some e ∧ e.name = name

theorem Handling.quiet (handling : Handling s object id name) (quiet : Quiet s t) : Handling t object id name := by
  obtain ⟨e,found,named⟩ := handling.entry
  obtain ⟨e',later,trimmed⟩ := quiet.get found
  refine ⟨Nat.lt_of_lt_of_le handling.bound quiet.grown,?_,e',later,by rw [trimmed.name,named]⟩
  rw [(quiet.heap _ handling.bound).name,handling.object]

theorem Handling.entryName (handling : Handling s object id name) : (s.entry id).name = name := by
  obtain ⟨e,found,named⟩ := handling.entry
  simp [State.entry,found,named]

theorem inserted_sound (sound : Sound env s) : Sound env (inserted s interest) := by
  have allocated : Quiet s (s.allocate interest) := Frame.allocate.toQuiet
  refine ⟨sound.assist,sound.consumers,?_,?_,?_⟩
  · simp only [inserted,map_append,map_cons,map_nil]
    refine Nodup.append sound.ids (nodup_singleton _) ?_
    intro id old new
    obtain ⟨e,inside,rfl⟩ := mem_map.mp old
    have below := sound.fresh e inside
    have equal : e.id = s.nextEntry := by simpa [newEntry] using new
    exact Nat.lt_irrefl _ (equal ▸ below)
  · intro e present
    rcases mem_append.mp present with old | new
    · exact Nat.lt_succ_of_lt (sound.fresh e old)
    · cases mem_singleton.mp new
      exact Nat.lt_succ_self _
  · intro e present
    rcases mem_append.mp present with old | new
    · have kept := (sound.entries e old).trim allocated (.refl e)
      exact { kept with }
    · cases mem_singleton.mp new
      refine ⟨⟨by simp [newEntry,inserted],?_⟩,by simp [newEntry],nodup_nil,by simp [newEntry],by simp [newEntry]⟩
      exact congrArg Interest.name State.interest_allocated

theorem admitted_sound (sound : Sound env s) : Sound env (admitted s interest).1 := by
  rcases admitted_cases s interest with ⟨e,_,equal⟩ | ⟨_,equal⟩
  · rw [equal]; exact sound.quiet Frame.allocate.toQuiet
  · rw [equal]; exact inserted_sound sound

theorem admitted_handling (sound : Sound env s) :
    Handling (admitted s interest).1 s.interests.length (admitted s interest).2 interest.name := by
  rcases admitted_cases s interest with ⟨e,found,equal⟩ | ⟨none,equal⟩
  · rw [equal]
    obtain ⟨inside,named,_⟩ := find_spec found
    exact ⟨by simp,by simp,e,sound.get inside,named⟩
  · rw [equal]
    have present : newEntry s.nextEntry s.interests.length interest ∈ (inserted s interest).pit :=
      mem_append_right _ mem_cons_self
    exact ⟨by simp [inserted],congrArg Interest.name State.interest_allocated,_,(inserted_sound sound).get present,rfl⟩

theorem EntrySound.same (sound : EntrySound env s e) (interests : t.interests = s.interests)
    (extended : ∀ name, s.pitAssist.existName name → t.pitAssist.existName name) : EntrySound env t e := by
  have objects : ∀ object, t.interest object = s.interest object := fun _ => by simp [State.interest,interests]
  refine ⟨?_,?_,sound.distinct,sound.classified,fun some consumer => extended _ (sound.registered some consumer)⟩
  · rw [interests,objects]
    exact sound.representative
  · intro r listed
    rw [interests,objects]
    exact sound.downstreams r listed

structure Cleared (env : Env) (s : State) (name : Name) : Prop where
  classified : ∃ answer, name.hasRN9999 env.convention = .ok answer
  registered : IsConsumer env name → s.pitAssist.existName name

theorem Cleared.quiet (cleared : Cleared env s name) (quiet : Quiet s t) : Cleared env t name :=
  ⟨cleared.classified,by rw [quiet.pitAssist]; exact cleared.registered⟩

theorem Entry.insertOrUpdateInRecord_distinct (distinct : Distinct InRecord.face e.inRecords) :
    Distinct InRecord.face (e.insertOrUpdateInRecord face now object interest).inRecords := by
  simp only [Entry.insertOrUpdateInRecord]
  exact upsert_distinct (fun _ => rfl) rfl distinct

theorem Entry.mem_insertOrUpdateInRecord (distinct : Distinct InRecord.face e.inRecords)
    (listed : r ∈ (e.insertOrUpdateInRecord face now object interest).inRecords) :
    (r ∈ e.inRecords ∧ r.face ≠ face) ∨ (r.face = face ∧ r.interest = object) := by
  simp only [Entry.insertOrUpdateInRecord] at listed
  rcases mem_upsert distinct listed with old | ⟨old,_,same,rfl⟩ | ⟨_,rfl⟩
  · exact .inl old
  · exact .inr ⟨same,rfl⟩
  · exact .inr ⟨rfl,rfl⟩

theorem inRecord_sound (sound : EntrySound env s e) (bound : object < s.interests.length)
    (named : (s.interest object).name = e.name) (cleared : Cleared env s e.name) :
    EntrySound env s (e.insertOrUpdateInRecord face now object (s.interest object)) := by
  refine ⟨sound.representative,?_,Entry.insertOrUpdateInRecord_distinct sound.distinct,
    fun _ => cleared.classified,fun _ => cleared.registered⟩
  intro r listed
  rcases Entry.mem_insertOrUpdateInRecord sound.distinct listed with ⟨old,_⟩ | ⟨_,same⟩
  · exact sound.downstreams r old
  · rw [same]
    exact ⟨bound,named⟩

theorem recorded_ids : (s.insertOrUpdateInRecord id face object).pit.map Entry.id = s.pit.map Entry.id := by
  simp only [State.insertOrUpdateInRecord,State.modifyEntry,Pit.modify,map_map]
  refine map_congr_left (fun e _ => ?_)
  simp only [Function.comp]
  split <;> rfl

theorem recorded_sound (sound : Sound env s) (handling : Handling s object id name) (cleared : Cleared env s name) :
    Sound env (s.insertOrUpdateInRecord id face object) := by
  have origin : ∀ e' ∈ (s.insertOrUpdateInRecord id face object).pit, ∃ e ∈ s.pit, e'.id = e.id ∧ EntrySound env s e' := by
    intro e' present
    obtain ⟨e,inside,rfl⟩ := mem_map.mp present
    refine ⟨e,inside,by split <;> rfl,?_⟩
    split
    · rename_i mine
      obtain ⟨held,found,named⟩ := handling.entry
      obtain rfl : e = held := Option.some.inj ((sound.get inside).symm.trans (mine ▸ found))
      subst named
      exact inRecord_sound (sound.entries e inside) handling.bound handling.object cleared
    · exact sound.entries e inside
  refine ⟨sound.assist,sound.consumers,?_,?_,?_⟩
  · rw [recorded_ids]
    exact sound.ids
  · intro e' present
    obtain ⟨e,inside,same,_⟩ := origin e' present
    rw [same]
    exact sound.fresh e inside
  · intro e' present
    obtain ⟨_,_,_,good⟩ := origin e' present
    exact good.same rfl (fun _ known => known)

theorem insertPitToken_cases (ensured : insertPitToken env s interest words = some t) :
    (isReflexiveInterest env.convention interest = false ∧ t = s) ∨
    ∃ pitAssist, isReflexiveInterest env.convention interest ∧ t = { s with pitAssist := pitAssist } ∧
      s.pitAssist.ensureName interest.name (interestToken env interest) words = some pitAssist := by
  unfold insertPitToken at ensured
  split at ensured
  · rename_i reflexive
    obtain ⟨pitAssist,made,rfl⟩ := Option.map_eq_some_iff.mp ensured
    exact .inr ⟨pitAssist,reflexive,rfl,made⟩
  · rename_i ordinary
    exact .inl ⟨by simpa using ordinary,(Option.some.inj ensured).symm⟩

theorem insertPitToken_same (read : State → α) (blind : ∀ pitAssist, read { s with pitAssist := pitAssist } = read s)
    (ensured : insertPitToken env s interest words = some t) : read t = read s := by
  rcases insertPitToken_cases ensured with ⟨_,rfl⟩ | ⟨pitAssist,_,rfl,_⟩
  · rfl
  · exact blind pitAssist

theorem insertPitToken_sound (sound : Sound env s) (other : interest.name.hasRN9999 env.convention = .ok false)
    (ensured : insertPitToken env s interest words = some t) : Sound env t ∧ Cleared env t interest.name := by
  rcases insertPitToken_cases ensured with ⟨ordinary,rfl⟩ | ⟨pitAssist,reflexive,rfl,made⟩
  · refine ⟨sound,⟨_,other⟩,fun consumer => ?_⟩
    have clash := consumer.1
    simp only [isReflexiveInterest] at ordinary
    simp [ordinary] at clash
  · refine ⟨⟨PitAssist.ensureName_bijective sound.assist made,?_,sound.ids,sound.fresh,?_⟩,⟨_,other⟩,
      fun _ => PitAssist.ensureName_exists made⟩
    · intro name known
      rcases PitAssist.ensureName_new made known with old | rfl
      · exact sound.consumers name old
      · exact ⟨reflexive,other⟩
    · intro e present
      exact (sound.entries e present).same rfl (fun _ => (PitAssist.ensureName_extends sound.assist made).exist)

theorem Pit.mem_erase (distinct : (pit.map Entry.id).Nodup) (present : e ∈ pit) :
    x ∈ Pit.erase pit e ↔ x ∈ pit ∧ x.id ≠ e.id := by
  have unique : ∀ a ∈ pit, ∀ b ∈ pit, a.id = b.id → a = b := fun a inA b inB => inj_on_of_nodup_map distinct inA inB
  unfold Pit.erase
  cases found : (pitEntries pit e.nte).getLast? with
  | none =>
    have empty := List.getLast?_eq_none_iff.mp found
    have listed : e ∈ pitEntries pit e.nte := mem_filter.mpr ⟨present,by simp⟩
    rw [empty] at listed
    cases listed
  | some last =>
    have inside : last ∈ pit := (mem_filter.mp (mem_of_getLast? found)).1
    dsimp only
    split
    · simp
    · rename_i apart
      constructor
      · intro listed
        obtain ⟨old,kept,rfl⟩ := mem_map.mp listed
        obtain ⟨inPit,_⟩ := mem_filter.mp kept
        split
        · exact ⟨inside,apart⟩
        · rename_i other
          exact ⟨inPit,other⟩
      · rintro ⟨inPit,other⟩
        refine mem_map.mpr ?_
        -- the entry moved into the gap, or one that stays in place
        by_cases moved : x.id = last.id
        · obtain rfl := unique x inPit last inside moved
          exact ⟨e,mem_filter.mpr ⟨present,by simpa using Ne.symm other⟩,by simp⟩
        · exact ⟨x,mem_filter.mpr ⟨inPit,by simpa using moved⟩,by simp [other]⟩

theorem Pit.erase_ids (distinct : (pit.map Entry.id).Nodup) :
    ((Pit.erase pit e).map Entry.id).Nodup := by
  unfold Pit.erase
  split
  · exact distinct
  · rename_i last found
    split
    · exact Nodup.sublist (filter_sublist.map _) distinct
    · rw [map_map]
      refine Nodup.map_on ?_ ((Nodup.of_map _ distinct).filter _)
      intro a inA b inB equal
      obtain ⟨listedA,apartA⟩ := mem_filter.mp inA
      obtain ⟨listedB,apartB⟩ := mem_filter.mp inB
      have ids : a.id = b.id := by
        simp only [decide_eq_true_eq] at apartA apartB
        simp only [Function.comp] at equal
        split at equal <;> split at equal
        · rename_i one two
          exact one.trans two.symm
        · exact absurd equal.symm apartB
        · exact absurd equal apartA
        · exact equal
      exact inj_on_of_nodup_map distinct listedA listedB ids

end ReflexiveNfd
