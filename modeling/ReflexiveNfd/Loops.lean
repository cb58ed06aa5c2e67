import ReflexiveNfd.Scope

namespace ReflexiveNfd
open List Option
open Demo hiding env
variable {env : Env} {s t u : State} {e : Entry} {ingress : Face} {choices : Choices} {packet i : Interest}

def Suppressed (packet : Interest) (ingress : Face) (t : State) : Prop :=
  t.sent = [] ∨ ∃ i : Interest, i.name = packet.name ∧ i.nonce = packet.nonce ∧ t.sent = [.nack ingress ⟨i,.duplicate⟩]

theorem loop_suppressed (quiet : s.sent = []) (name : i.name = packet.name) (nonce : i.nonce = packet.nonce) :
    Suppressed packet ingress (onInterestLoop s i ingress) := by
  unfold onInterestLoop
  split
  · exact .inl quiet
  · exact .inr ⟨i,name,nonce,by rw [State.emit,quiet]; rfl⟩

def Repeated (e : Entry) (nonce : Nonce) (ingress : Face) : Prop :=
  (∃ r ∈ e.inRecords, r.face ≠ ingress ∧ r.lastNonce = nonce) ∨ ∃ r ∈ e.outRecords, r.lastNonce = nonce

def Resent (e : Entry) (nonce : Nonce) (ingress : Face) : Prop :=
  ingress.linkType = .pointToPoint ∧ ∃ r ∈ e.inRecords, r.face = ingress ∧ r.lastNonce = nonce

theorem repeated_isLoop (repeated : Repeated e nonce ingress) (fresh : ¬ Resent e nonce ingress) :
    isLoop e nonce ingress := by
  have duplicate : (findDuplicateNonce e nonce ingress).isDuplicate := by
    rcases repeated with ⟨r,listed,other,same⟩ | ⟨r,listed,same⟩
    · have found : (findDuplicateNonce e nonce ingress).inOther :=
        any_eq_true.mpr ⟨r,listed,by simp [same,other]⟩
      simp [DuplicateNonceWhere.isDuplicate,found]
    · by_cases facing : r.face = ingress
      · have found : (findDuplicateNonce e nonce ingress).outSame :=
          any_eq_true.mpr ⟨r,listed,by simp [same,facing]⟩
        simp [DuplicateNonceWhere.isDuplicate,found]
      · have found : (findDuplicateNonce e nonce ingress).outOther :=
          any_eq_true.mpr ⟨r,listed,by simp [same,facing]⟩
        simp [DuplicateNonceWhere.isDuplicate,found]
  unfold isLoop
  simp only [duplicate,Bool.true_and,Bool.not_eq_true',Bool.and_eq_false_iff,beq_eq_false_iff_ne]
  by_cases link : ingress.linkType = .pointToPoint
  · refine .inr (Bool.eq_false_iff.mpr (fun found => fresh ⟨link,?_⟩))
    obtain ⟨r,listed,same⟩ := any_eq_true.mp found
    simp only [Bool.and_eq_true,beq_iff_eq] at same
    exact ⟨r,listed,same.2,same.1⟩
  · exact .inl link

theorem noted_entry (sound : Sound env s) (found : s.pit.find i = some e)
    (ensured : insertPitToken env (admitted s i).1 i words = some u) : u.entry (admitted s i).2 = e := by
  have held := sound.entry (Pit.find_spec found).1
  rcases admitted_cases s i with ⟨e',again,equal⟩ | ⟨missing,_⟩
  · cases found.symm.trans again
    have same := insertPitToken_pit ensured
    rw [equal] at same ⊢
    rw [State.entry,same]
    exact held
  · cases missing.symm.trans found

theorem looped_packet (looped : screen env s packet ingress = .loop i) : i.name = packet.name ∧ i.nonce = packet.nonce := by
  unfold screen at looped
  split at looped
  · cases looped
  · split at looped
    · cases looped
    · split at looped
      · cases looped
        exact ⟨rfl,rfl⟩
      · cases looped

theorem accepted_alive (accepted : screen env s packet ingress = .accepted i) :
    s.deadNonceList.has env packet.name packet.nonce ≠ true := by
  unfold screen at accepted
  split at accepted
  · cases accepted
  · split at accepted
    · cases accepted
    · split at accepted
      · cases accepted
      · assumption

theorem dead_suppressed (quiet : s.sent = []) (dead : s.deadNonceList.has env packet.name packet.nonce)
    (arrived : onIncomingInterest env s packet ingress choices = some t) : Suppressed packet ingress t := by
  cases interest_outcome arrived with
  | dropped => exact .inl quiet
  | looped looped => exact loop_suppressed quiet (looped_packet looped).1 (looped_packet looped).2
  | raised accepted | unanswered accepted | reflected accepted | duplicate accepted | hit accepted | miss _ accepted =>
    exact (accepted_alive accepted dead).elim

theorem repeated_suppressed (sound : Sound env s) (quiet : s.sent = []) (other : ¬ IsProducer env packet.name)
    (found : s.pit.find packet = some e) (repeated : Repeated e packet.nonce ingress)
    (fresh : ¬ Resent e packet.nonce ingress)
    (arrived : onIncomingInterest env s packet ingress choices = some t) : Suppressed packet ingress t := by
  have silent : ∀ {i known}, insertPitToken env (admitted s i).1 i choices.words = some known → known.sent = [] :=
    fun ensured => ((insertPitToken_sent ensured).trans admitted_sent).trans quiet
  have checked : ∀ {i known}, screen env s packet ingress = .accepted i →
      insertPitToken env (admitted s i).1 i choices.words = some known →
      isLoop (known.entry (admitted s i).2) i.nonce ingress := by
    intro i known accepted ensured
    obtain ⟨name,nonce,canBePrefix,mustBeFresh,_⟩ := screen_accepted accepted
    have matched : s.pit.find i = some e := by simpa [Pit.find,Entry.canMatch,name,canBePrefix,mustBeFresh] using found
    rw [noted_entry sound matched ensured,nonce]
    exact repeated_isLoop repeated fresh
  cases interest_outcome arrived with
  | dropped => exact .inl quiet
  | looped looped => exact loop_suppressed quiet (looped_packet looped).1 (looped_packet looped).2
  | raised => exact .inl (admitted_sent.trans quiet)
  | unanswered accepted producer | reflected accepted producer =>
    rw [(screen_accepted accepted).1] at producer
    exact (other producer).elim
  | duplicate accepted _ ensured _ =>
    obtain ⟨name,nonce,_⟩ := screen_accepted accepted
    exact loop_suppressed (silent ensured) name nonce
  | hit accepted _ ensured unlooped | miss _ accepted _ ensured unlooped =>
    cases unlooped.symm.trans (checked accepted ensured)

-- Loop suppression as the forwarder has it: by the Dead Nonce List for every
-- Interest, by the nonces of the entry for all but producer Interests, and not
-- for what a point-to-point downstream sends again.
theorem repeated_dropped (path : Reached env s) (taken : step env s (.interest packet ingress choices) = some t) :
    (s.deadNonceList.has env packet.name packet.nonce → Suppressed packet ingress t) ∧
    (¬ IsProducer env packet.name → ∀ e, s.pit.find packet = some e → Repeated e packet.nonce ingress →
      ¬ Resent e packet.nonce ingress → Suppressed packet ingress t) := by
  have sound := (reached_sound path).cleared
  have arrived := step_arrives taken
  refine ⟨fun dead => ?_,fun other e found repeated fresh => ?_⟩
  · exact dead_suppressed (s := { s with sent := [] }) rfl dead arrived
  · exact repeated_suppressed sound rfl other found repeated fresh arrived

theorem repeated_dropped_elsewhere : ∃ s t, Reached Demo.env s ∧
    step Demo.env s (.interest (request 8 1) consumer2 {}) = some t ∧ Suppressed (request 8 1) consumer2 t := by
  obtain ⟨s,before,t,taken,e,found,repeated,fresh⟩ :
      ∃ s ∈ step Demo.env (node .bestRoute) (.interest (request 7 1) consumer { words := [42] }),
        ∃ t ∈ step Demo.env s (.interest (request 8 1) consumer2 {}), ∃ e ∈ s.pit.find (request 8 1),
          Repeated e 1 consumer2 ∧ ¬ Resent e 1 consumer2 := by
    simp only [Repeated,Resent]
    decide
  have path : Reached Demo.env s := Transition.Reached.next (.start node_initial) before
  have ordinary : ¬ IsProducer Demo.env (request 8 1).name := by simp only [IsProducer]; decide
  exact ⟨s,t,path,taken,(repeated_dropped path taken).2 ordinary e found repeated fresh⟩

def Demo.Circulates (events : List Event) (packet : Interest) (ingress out : Face) : Prop :=
  ∃ s t e p, Transition.run (step Demo.env) (node .bestRoute) events = some s ∧ s.pit.find packet = some e ∧
    Repeated e packet.nonce ingress ∧ step Demo.env s (.interest packet ingress {}) = some t ∧ Effect.interest out p ∈ t.sent

theorem Demo.circulates (ran : ∃ s ∈ Transition.run (step Demo.env) (node .bestRoute) events, ∃ e ∈ s.pit.find packet,
      (∃ r ∈ e.outRecords, r.lastNonce = packet.nonce) ∧ ∃ t ∈ step Demo.env s (.interest packet ingress {}), .interest out p ∈ t.sent) :
    Demo.Circulates events packet ingress out := by
  obtain ⟨s,before,e,found,sentBefore,t,taken,sent⟩ := ran
  exact ⟨s,t,e,p,before,found,.inr sentBefore,taken,sent⟩

-- A consumer repeats its request on a point-to-point face, and a producer
-- Interest arrives again over another face.
theorem repeated_sent :
    Demo.Circulates [.interest (request 7 1) consumer { words := [42] },.advance 1000000000]
      (request 7 1) consumer producer ∧
    Demo.Circulates [.interest (request 7 1) consumer { words := [42] },.interest (answer 42 9) producer {}]
      (answer 42 9) producer2 consumer := by
  constructor
  · exact circulates (p := { request 42 1 with incomingFaceId := some 256 }) (by decide)
  · exact circulates (p := { answer 7 9 with incomingFaceId := some 259 }) (by decide)

end ReflexiveNfd
