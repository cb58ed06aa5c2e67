import ReflexiveNfd.Loops

namespace ReflexiveNfd
open Option List
open Demo hiding env
variable {env : Env} {strategy : Strategy} {s t u : State} {e : Entry} {id : EntryId} {face ingress : Face} {choices : Choices}
  {data : Data} {touched : EntryId → Prop}

def Spares (touched : EntryId → Prop) (s t : State) : Prop := ∀ e ∈ s.pit, ¬ touched e.id → e ∈ t.pit

namespace Spares

theorem same (pit : t.pit = s.pit) : Spares touched s t := fun e present _ => by rw [pit]; exact present

theorem trans (one : Spares touched s t) (two : Spares touched t u) : Spares touched s u :=
  fun e present apart => two e (one e present apart) apart

theorem modifyEntry (named : touched id) : Spares touched s (s.modifyEntry id f) := by
  intro e present apart
  have other : e.id ≠ id := fun equal => apart (equal ▸ named)
  exact mem_map.mpr ⟨e,present,if_neg other⟩

theorem setExpiryTimer (named : touched id) : Spares touched s (s.setExpiryTimer id duration) := by
  have marked : Spares touched s (s.modifyEntry id (fun e => { e with expiryTimer := some s.scheduler.nextId })) :=
    modifyEntry named
  exact marked

theorem sendData (named : touched id) : Spares touched s (sendData s data face id) := by
  have deleted : Spares touched s (s.deleteInRecord id face) := modifyEntry named
  exact deleted.trans (same sendData_pit)

theorem loop (xs : List β) (each : ∀ u, ∀ x ∈ xs, Spares touched u (body u x)) :
    Spares touched s (xs.foldl body s) := by
  induction xs generalizing s with
  | nil => exact same rfl
  | cons x xs ih =>
    exact (each s x mem_cons_self).trans (ih (fun u y inside => each u y (mem_cons_of_mem _ inside)))

end Spares

section
variable (named : touched id)
include named

theorem sendDataToAll_spares : Spares touched s (sendDataToAll s data id ingress) :=
  .loop _ (fun _ _ _ => .sendData named)

theorem beforeSatisfyInterest_spares : Spares touched s (beforeSatisfyInterest strategy s id choices) := by
  unfold beforeSatisfyInterest
  split
  · split
    · exact .setExpiryTimer named
    · exact .same rfl
  · exact .same rfl
  · exact .same rfl

theorem afterReceiveData_spares : Spares touched s (afterReceiveData strategy s data ingress id choices) := by
  unfold afterReceiveData
  split
  · unfold SelfLearningStrategy.afterReceiveData
    split
    · exact .same rfl
    · split
      · have armed : Spares touched s (s.setExpiryTimer id 1000) := .setExpiryTimer named
        exact armed.trans (.same rfl)
      · exact sendDataToAll_spares named
  · exact (beforeSatisfyInterest_spares named).trans (sendDataToAll_spares named)

theorem satisfyOne_spares : Spares touched s (satisfyOne env s data ingress id choices) := by
  refine .trans ?_ (.modifyEntry named)
  refine .trans ?_ (.same insertDeadNonceList_pit)
  refine .trans ?_ (.modifyEntry named)
  exact (Spares.setExpiryTimer named).trans (afterReceiveData_spares named)

theorem satisfyAmong_spares : Spares touched s (satisfyAmong env data ingress choices s id) := by
  refine .trans ?_ (.modifyEntry named)
  refine .trans ?_ (.same insertDeadNonceList_pit)
  refine .trans ?_ (.modifyEntry named)
  exact (Spares.setExpiryTimer named).trans (beforeSatisfyInterest_spares named)

end

theorem onOutgoingData_pit : (onOutgoingData s data face).pit = s.pit := by
  unfold onOutgoingData
  split
  · rfl
  · split <;> rfl

theorem satisfyMany_spares (named : ∀ e ∈ pitMatches, touched e.id) :
    Spares touched s (satisfyMany env s data ingress pitMatches choices) := by
  refine .trans (.loop _ (fun u id listed => satisfyAmong_spares ?_)) (.loop _ (fun _ _ _ => .same onOutgoingData_pit))
  obtain ⟨e,inside,rfl⟩ := mem_map.mp listed
  exact named e inside

theorem onIncomingData_spares (named : ∀ e ∈ s.pit.findAllDataMatches (received data ingress), touched e.id) :
    Spares touched s (onIncomingData env s data ingress choices) := by
  obtain ⟨_,equal,outcome⟩ := data_outcome env s data ingress choices
  rw [equal]
  cases outcome with
  | dropped | unsolicited => exact .same rfl
  | one only =>
    refine Spares.trans (t := { s with cs := s.cs.insert s.now (received data ingress) false }) (.same rfl) ?_
    exact satisfyOne_spares (named _ (by rw [only]; exact mem_cons_self))
  | many found =>
    refine Spares.trans (t := { s with cs := s.cs.insert s.now (received data ingress) false }) (.same rfl) ?_
    exact satisfyMany_spares (found ▸ named)

-- Data is kept to the entries it matches: it goes only to their downstreams, and
-- any other entry is left as it was.
theorem isolation (path : Reached env s) (taken : step env s (.data data ingress choices) = some t) (present : e ∈ s.pit)
    (unmatched : matchesData e.name e.canBePrefix e.mustBeFresh (received data ingress) = false) :
    e ∈ t.pit ∧ ∀ f d, Effect.data f d ∈ t.sent → ∃ m ∈ s.pit, m ≠ e ∧
      matchesData m.name m.canBePrefix m.mustBeFresh (received data ingress) ∧ ∃ r ∈ m.inRecords, r.face = f := by
  have sound := reached_sound path
  have cleared := sound.cleared
  have apart : ∀ m ∈ s.pit.findAllDataMatches (received data ingress), m ≠ e := by
    rintro m listed rfl
    cases unmatched.symm.trans (Pit.findAllDataMatches_mem listed).2
  cases step_satisfies taken
  refine ⟨?_,fun f d sent => ?_⟩
  · have spares : Spares (fun id => id ≠ e.id) { s with sent := [] }
        (onIncomingData env { s with sent := [] } data ingress choices) := by
      refine onIncomingData_spares (fun m listed same => apart m listed ?_)
      rw [← sound.entry (Pit.findAllDataMatches_mem listed).1,same,sound.entry present]
    exact spares e present (fun other => other rfl)
  · rcases onIncomingData_emits cleared _ sent with old | satisfied
    · cases old
    · cases satisfied with
      | data listed inside =>
        exact ⟨_,(Pit.findAllDataMatches_mem listed).1,apart _ listed,(Pit.findAllDataMatches_mem listed).2,_,inside,rfl⟩

def Demo.exchanges (name name2 : Name) : Option State :=
  Transition.run (step Demo.env) (node .bestRoute)
    [.interest (request 7 1) consumer { words := [42] },.interest (request2 8 2) consumer2 { words := [43] },
      .interest { answer 42 9 with name := name } producer {},
      .interest { answer 43 10 with name := name2 } producer2 {}]

def Demo.answerName2 : Name := [testApp,digit 50,rn9999]

theorem isolation_distinct : ∃ s t e, exchanges answerName answerName2 = some s ∧
    step Demo.env s (.data { name := answerName } consumer {}) = some t ∧
    e ∈ t.pit ∧ e.name = answerName2 ∧ e.inRecords.map InRecord.face = [producer2] ∧
    ∀ f d, Effect.data f d ∈ t.sent → ∃ m ∈ s.pit, m ≠ e ∧ ∃ r ∈ m.inRecords, r.face = f := by
  obtain ⟨s,before,t,taken,e,found,downstreams,unmatched⟩ : ∃ s ∈ exchanges answerName answerName2,
      ∃ t ∈ step Demo.env s (.data { name := answerName } consumer {}), ∃ e ∈ s.pit.findBasedOnName answerName2,
        e.inRecords.map InRecord.face = [producer2] ∧
        matchesData e.name e.canBePrefix e.mustBeFresh (received { name := answerName } consumer) = false := by decide
  obtain ⟨present,name⟩ := Pit.findBasedOnName_spec found
  have path : Reached Demo.env s := Transition.run_reached (.start node_initial) before
  obtain ⟨kept,returned⟩ := isolation path taken present unmatched
  refine ⟨s,t,e,before,taken,kept,name,downstreams,fun f d sent => ?_⟩
  obtain ⟨m,inside,other,_,downstream⟩ := returned f d sent
  exact ⟨m,inside,other,downstream⟩

-- With one name for both, the first consumer's Data goes to both producers and
-- nothing is left for the second consumer to answer.
theorem isolation_shared : ∃ s t d, exchanges answerName answerName = some s ∧
    (s.pit.findBasedOnName answerName).map (fun e => e.inRecords.map InRecord.face) = some [producer2,producer] ∧
    step Demo.env s (.data { name := answerName } consumer {}) = some t ∧ Effect.data producer2 d ∈ t.sent ∧
    (t.pit.findBasedOnName answerName).map (fun e => e.inRecords.map InRecord.face) = some [] := by
  obtain ⟨s,before,pending,t,taken,sent,left⟩ : ∃ s ∈ exchanges answerName answerName,
      (s.pit.findBasedOnName answerName).map (fun e => e.inRecords.map InRecord.face) = some [producer2,producer] ∧
      ∃ t ∈ step Demo.env s (.data { name := answerName } consumer {}),
        .data producer2 { name := answerName, incomingFaceId := some 256, pitToken := some (setPitToken 8) } ∈ t.sent ∧
        (t.pit.findBasedOnName answerName).map (fun e => e.inRecords.map InRecord.face) = some [] := by decide
  exact ⟨s,t,_,before,pending,taken,sent,left⟩

end ReflexiveNfd
