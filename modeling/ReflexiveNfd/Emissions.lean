import ReflexiveNfd.Arrival

namespace ReflexiveNfd
open Actions Timers List
variable {s t : State} {e : Entry} {id : EntryId}

def Emits (Q : Effect → Prop) (s t : State) : Prop := ∀ w ∈ t.sent, w ∈ s.sent ∨ Q w

namespace Emits

theorem refl (s : State) : Emits Q s s := fun _ present => .inl present

theorem silent (same : t.sent = s.sent) : Emits Q s t := fun _ present => .inl (same ▸ present)

theorem trans (one : Emits Q s t) (two : Emits Q t u) : Emits Q s u := by
  intro w present
  rcases two w present with old | good
  · exact one w old
  · exact .inr good

theorem mono (emits : Emits Q s t) (weaker : ∀ w, Q w → R w) : Emits R s t :=
  fun w present => (emits w present).imp_right (weaker w)

theorem emit (good : Q w) : Emits Q s (s.emit w) := by
  intro x present
  rcases mem_append.mp present with old | new
  · exact .inl old
  · cases mem_singleton.mp new
    exact .inr good

theorem loop {body : State → β → State} {P : State → Prop} (xs : List β) (kept : ∀ s x, P s → P (body s x))
    (each : ∀ s, P s → ∀ x ∈ xs, Emits Q s (body s x)) (base : P s) : Emits Q s (xs.foldl body s) := by
  induction xs generalizing s with
  | nil => exact refl s
  | cons x xs ih =>
    have rest := ih (fun s good y present => each s good y (mem_cons_of_mem _ present)) (kept s x base)
    exact (each s base x mem_cons_self).trans rest

end Emits

theorem Acts.emits (acts : Acts env id sends returns s t)
    (bounds : ∀ o f, sends o f → o < s.interests.length) : Emits (Emitted env s id sends returns) s t :=
  acts.outputs bounds

inductive Answer (returns : Data → Face → Prop) : Effect → Prop where
  | data : returns d f → Answer returns (.data f { d with pitToken := token })
  | nack : Answer returns (.nack f n)

theorem Acts.answers (acts : Acts env id (fun _ _ => False) returns s t) :
    Emits (Answer returns) s t := by
  refine (acts.emits (fun _ _ impossible => impossible.elim)).mono ?_
  intro w emitted
  cases emitted with
  | interest chosen => exact chosen.elim
  | data chosen => exact .data chosen
  | nack => exact .nack

theorem insertDeadNonceList_sent : (insertDeadNonceList env s id upstream).sent = s.sent := by
  obtain ⟨d,equal⟩ := insertDeadNonceList_form env s id upstream
  rw [equal]

theorem settled_sent : ((insertDeadNonceList env (markSatisfied s id data) id upstream).modifyEntry id f).sent = s.sent := by
  rw [State.modifyEntry]
  exact insertDeadNonceList_sent.trans rfl

theorem onInterestLoop_emits : Emits (fun w => ∃ nack, w = .nack ingress nack) s (onInterestLoop s interest ingress) := by
  unfold onInterestLoop
  split
  · exact .refl s
  · exact .emit ⟨_,rfl⟩

theorem satisfyOne_emits :
    Emits (Answer (fun d f => d = data ∧ Downstream s id f)) s (satisfyOne env s data ingress id choices) := by
  have armed : Frame s (s.setExpiryTimer id 0) := .setExpiryTimer
  have triggered : Acts env id (fun _ _ => False) (fun d f => d = data ∧ Downstream s id f) (s.setExpiryTimer id 0)
      (afterReceiveData ((s.setExpiryTimer id 0).findEffectiveStrategy ((s.setExpiryTimer id 0).entry id).name)
        (s.setExpiryTimer id 0) data ingress id choices) :=
    afterReceiveData_acts (fun _ down => ⟨rfl,down.start armed.toQuiet⟩)
  exact Emits.trans (t := s.setExpiryTimer id 0) (.silent rfl) (triggered.answers.trans (.silent settled_sent))

theorem satisfyAmong_sent : (satisfyAmong env data ingress choices s id).sent = s.sent := by
  refine settled_sent.trans ?_
  unfold beforeSatisfyInterest
  split
  · split <;> rfl
  · rfl
  · rfl

theorem satisfyMany_emits :
    Emits (fun w => ∃ e ∈ pitMatches, ∃ r ∈ e.inRecords, w = .data r.face data) s
      (satisfyMany env s data ingress pitMatches choices) := by
  refine Emits.trans (.loop (P := fun _ => True) _ (fun _ _ good => good) (fun _ _ _ _ => .silent satisfyAmong_sent) trivial)
    (.loop (P := fun _ => True) _ (fun _ _ good => good) (fun u _ face listed => ?_) trivial)
  obtain ⟨e,inside,here⟩ := mem_flatMap.mp (mem_dedup.mp (mem_filter.mp listed).1)
  obtain ⟨r,pending,rfl⟩ := mem_map.mp here
  unfold onOutgoingData
  split
  · exact .refl u
  · split
    · exact .refl u
    · exact .emit ⟨e,inside,r,(mem_filter.mp pending).1,rfl⟩

inductive Satisfies (s : State) (data : Data) : Effect → Prop where
  | data : matched ∈ s.pit.findAllDataMatches data → r ∈ matched.inRecords →
      Satisfies s data (.data r.face { data with pitToken := token })
  | nack : Satisfies s data (.nack f n)

theorem onIncomingData_emits (sound : Sound env s) :
    Emits (Satisfies s (received data ingress)) s (onIncomingData env s data ingress choices) := by
  obtain ⟨_,equal,outcome⟩ := data_outcome env s data ingress choices
  rw [equal]
  cases outcome with
  | dropped => exact .refl s
  | unsolicited => exact .silent rfl
  | @one e only =>
    have listed : e ∈ s.pit.findAllDataMatches (received data ingress) := by rw [only]; exact mem_cons_self
    have held := sound.entry (Pit.findAllDataMatches_mem listed).1
    refine Emits.trans (t := { s with cs := s.cs.insert s.now (received data ingress) false }) (.silent rfl)
      (satisfyOne_emits.mono ?_)
    intro w answer
    cases answer with
    | data chosen =>
      obtain ⟨rfl,r,inside,rfl⟩ := chosen
      change r ∈ (s.entry e.id).inRecords at inside
      rw [held] at inside
      exact .data listed inside
    | nack => exact .nack
  | many found =>
    refine Emits.trans (t := { s with cs := s.cs.insert s.now (received data ingress) false }) (.silent rfl)
      (satisfyMany_emits.mono ?_)
    rintro w ⟨e,listed,r,inside,rfl⟩
    exact .data (found ▸ listed) inside

theorem finalize_sent : (onInterestFinalize env s id).sent = s.sent := by
  unfold onInterestFinalize
  dsimp only
  split <;> exact insertDeadNonceList_sent

end ReflexiveNfd
