import ReflexiveNfd.TokenTable

namespace ReflexiveNfd
open Timers Transition List
open Demo hiding env
variable {env : Env} {s t : State} {e : Entry} {id : EntryId} {choices : Choices} {name : Name} {pit : Pit}

def AssistListed (s : State) : Prop :=
  ∀ name, s.pitAssist.existName name → ∃ e, s.pit.findBasedOnName name = some e

-- findBasedOnName looks at one tree entry only, the one of the whole name. A
-- name that is too deep or ends in a digest is attached elsewhere.
theorem Pit.findBasedOnName_exact :
    (∃ e, Pit.findBasedOnName pit name = some e) ↔ nteDepth name = name.length ∧ pit.hasName name := by
  constructor
  · rintro ⟨e,found⟩
    obtain ⟨inside,rfl⟩ := Pit.findBasedOnName_spec found
    refine ⟨?_,e,inside,rfl⟩
    unfold Pit.findBasedOnName at found
    split at found
    · cases found
    · have attached := (mem_filter.mp (mem_of_find?_eq_some found)).2
      have whole : e.name.take (nteDepth e.name) = e.name := of_decide_eq_true attached
      have lengths := congrArg List.length whole
      rw [length_take,Nat.min_eq_left (nteDepth_le _)] at lengths
      exact lengths
  · rintro ⟨depth,e,inside,rfl⟩
    have shallow : ¬ e.name.length > maxDepth := by
      unfold nteDepth at depth
      omega
    unfold Pit.findBasedOnName
    rw [if_neg shallow,← Option.isSome_iff_exists,find?_isSome]
    refine ⟨e,mem_filter.mpr ⟨inside,?_⟩,by simp⟩
    simp [Entry.nte,depth]

-- What a step must not do: end the last entry of a name in the table, or put a
-- name into the table that findBasedOnName cannot find.
def KeepsListed (env : Env) (s : State) : Event → Prop
  | .interest packet ingress _ => ∀ i, screen env s packet ingress = .accepted i → IsConsumer env i.name →
      s.pitAssist.existName i.name = false → nteDepth i.name = i.name.length
  | .timer id => ∀ timer entry e, s.scheduler.pending.find? (fun t => t.id = id) = some timer → timer.task = .finalize entry →
      s.pit.get entry = some e → s.pitAssist.existName e.name → ∃ other ∈ s.pit, other.id ≠ entry ∧ other.name = e.name
  | _ => True

theorem AssistListed.kept (listed : AssistListed s) (assist : t.pitAssist = s.pitAssist)
    (names : ∀ n, s.pit.hasName n → t.pit.hasName n) : AssistListed t := by
  intro name known
  rw [assist] at known
  obtain ⟨depth,held⟩ := Pit.findBasedOnName_exact.mp (listed name known)
  exact Pit.findBasedOnName_exact.mpr ⟨depth,names name held⟩

theorem finalize_pit (found : s.pit.get id = some e) : (onInterestFinalize env s id).pit = s.pit.erase e := by
  unfold onInterestFinalize
  simp only [insertDeadNonceList_pit,found]

theorem finalize_absent (missing : s.pit.get id = none) : (onInterestFinalize env s id).pit = s.pit := by
  unfold onInterestFinalize
  simp only [insertDeadNonceList_pit,missing]

theorem finalize_listed (sound : Sound env s) (listed : AssistListed s) (found : s.pit.get id = some e) :
    AssistListed (onInterestFinalize env s id) ↔
      (s.pitAssist.existName e.name → ∃ other ∈ s.pit, other.id ≠ id ∧ other.name = e.name) := by
  obtain ⟨inside,rfl⟩ := Pit.get_id found
  have left : ∀ n, (onInterestFinalize env s e.id).pit.hasName n ↔ ∃ x ∈ s.pit, x.id ≠ e.id ∧ x.name = n := by
    intro n
    rw [finalize_pit found]
    unfold Pit.hasName
    simp only [Pit.mem_erase sound.ids inside,and_assoc]
  constructor
  · intro later known
    obtain ⟨_,held⟩ := Pit.findBasedOnName_exact.mp (later e.name (by rw [finalize_pitAssist]; exact known))
    exact (left _).mp held
  · intro another name known
    rw [finalize_pitAssist] at known
    obtain ⟨depth,x,here,named⟩ := Pit.findBasedOnName_exact.mp (listed name known)
    refine Pit.findBasedOnName_exact.mpr ⟨depth,(left _).mpr ?_⟩
    -- the entry that held the name, unless it is the one that ends
    by_cases same : x.id = e.id
    · obtain rfl : x = e := inj_on_of_nodup_map sound.ids here inside same
      subst named
      exact another known
    · exact ⟨x,here,same,named⟩

theorem enrolment_listed (listed : AssistListed s)
    (enrolment : Enrolment env s packet ingress choices.words t) :
    AssistListed t ↔ KeepsListed env s (.interest packet ingress choices) := by
  cases enrolment with
  | unchanged others assist names =>
    exact ⟨fun _ i accepted consumer => (others i accepted consumer).elim,fun _ => listed.kept assist names⟩
  | @consumer i accepted consumer made names =>
    have present := PitAssist.ensureName_exists made
    constructor
    · intro later i' again _ _
      cases accepted.symm.trans again
      exact (Pit.findBasedOnName_exact.mp (later i.name present)).1
    · intro guard name known
      cases old : s.pitAssist.existName name with
      | true =>
        obtain ⟨depth,held⟩ := Pit.findBasedOnName_exact.mp (listed name old)
        exact Pit.findBasedOnName_exact.mpr ⟨depth,names name (.inl held)⟩
      | false =>
        obtain rfl : name = i.name := by
          rcases PitAssist.ensureName_new made known with before | same
          · simp [old] at before
          · exact same
        exact Pit.findBasedOnName_exact.mpr ⟨guard i accepted consumer old,names _ (.inr rfl)⟩

theorem handle_listed (sound : Sound env s) (listed : AssistListed s) (handled : handle env s event = some t) :
    AssistListed t ↔ KeepsListed env s event := by
  cases handle_cases sound handled with
  | interest _ arrived => exact enrolment_listed listed (arrival_enrolment (interest_arrival arrived))
  | @finalize id timer entry found task =>
    have cancelled : Quiet s (s.cancelTimer (some timer.id)) := Frame.cancelTimer.toQuiet
    cases present : (s.cancelTimer (some timer.id)).pit.get entry with
    | none =>
      have guard : KeepsListed env s (.timer id) := by
        intro timer' entry' e found' task' present'
        cases found.symm.trans found'
        cases task.symm.trans task'
        cases present.symm.trans present'
      refine ⟨fun _ => guard,fun _ => listed.kept finalize_pitAssist ?_⟩
      intro n held
      rwa [finalize_absent present]
    | some e =>
      refine (finalize_listed (sound.quiet cancelled) listed present).trans ?_
      constructor
      · intro another timer' entry' e' found' task' present'
        cases found.symm.trans found'
        cases task.symm.trans task'
        cases present.symm.trans present'
        exact another
      · intro guard
        exact guard timer entry e found task present
  | routine usual trace =>
    have guard : KeepsListed env s event := by
      cases event with
      | interest => exact usual.elim
      | timer => exact fun timer entry e found task => (usual timer entry found task).elim
      | _ => exact trivial
    exact ⟨fun _ => guard,fun _ => listed.kept trace.quiet.pitAssist (fun _ => trace.quiet.hasName.mpr)⟩

theorem initial_listed (initial : Initial s) : AssistListed s := by
  intro name known
  simp [initial.pitAssist,PitAssist.existName,PitAssist.empty] at known

end ReflexiveNfd
