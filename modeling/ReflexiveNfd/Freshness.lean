import ReflexiveNfd.Representation

namespace ReflexiveNfd
open Actions Timers List
variable {env : Env} {s t : State} {e : Entry} {id : EntryId} {ingress : Face} {choices : Choices} {data packet : Data}
  {event : Event}

structure Fresh (s : State) : Prop where
  entries : ∀ e ∈ s.pit, e.isSatisfied → 0 ≤ e.dataFreshnessPeriod
  stored : ∀ c ∈ s.cs.table, 0 ≤ c.data.freshnessPeriod

namespace Fresh

section
variable (fresh : Fresh s)
include fresh

theorem mapped (mapped : t.pit = s.pit.map f) (cs : t.cs = s.cs)
    (kept : ∀ e, (f e).isSatisfied = e.isSatisfied ∧ (f e).dataFreshnessPeriod = e.dataFreshnessPeriod) : Fresh t := by
  refine ⟨fun e' present satisfied => ?_,cs ▸ fresh.stored⟩
  rw [mapped] at present
  obtain ⟨e,listed,rfl⟩ := mem_map.mp present
  rw [(kept e).2]
  exact fresh.entries e listed ((kept e).1 ▸ satisfied)

theorem modifyEntry (kept : ∀ e, (f e).isSatisfied = e.isSatisfied ∧ (f e).dataFreshnessPeriod = e.dataFreshnessPeriod) :
    Fresh (s.modifyEntry id f) := by
  refine fresh.mapped rfl rfl (fun e => ?_)
  split
  · exact kept e
  · exact ⟨rfl,rfl⟩

theorem markSatisfied (positive : 0 ≤ data.freshnessPeriod) : Fresh (markSatisfied s id data) := by
  refine ⟨fun e' present satisfied => ?_,fresh.stored⟩
  obtain ⟨e,listed,rfl⟩ := mem_map.mp present
  split at satisfied
  · rename_i mine
    rw [if_pos mine]
    exact positive
  · rename_i other
    rw [if_neg other]
    exact fresh.entries e listed satisfied

theorem strategy : (∀ strategy, Fresh (setStrategy s name strategy)) ∧ Fresh (unsetStrategy s name) := by
  refine strategy_rule fresh (fun old new _ => ?_)
  have changed : Fresh (changeStrategy s name old new) := by
    unfold changeStrategy
    split
    · exact fresh
    · dsimp only
      rw [cancelTimers_form]
      refine fresh.mapped rfl rfl (fun e => ?_)
      split <;> exact ⟨rfl,rfl⟩
  exact ⟨changed.entries,changed.stored⟩

section
variable (represented : Represented s) (positive : ∀ data ∈ event.brings, 0 ≤ data.freshnessPeriod)
include represented positive

theorem permitted (permitted : Permitted env origin event s move) : Fresh (enact env s move) := by
  have sourced : ∀ data, Sourced event s.cs.table data → 0 ≤ data.freshnessPeriod := by
    rintro data (⟨c,listed,same⟩ | ⟨d,brought,same⟩)
    · exact same ▸ fresh.stored c listed
    · exact same ▸ positive d brought
  cases permitted with
  | aside changed => exact ⟨changed.pit ▸ fresh.entries,fun c listed => sourced _ (changed.stored c listed)⟩
  | insert =>
    refine ⟨fun e present satisfied => ?_,fresh.stored⟩
    rcases mem_append.mp present with old | new
    · exact fresh.entries e old satisfied
    · cases mem_singleton.mp new
      cases satisfied
  | satisfy answers => exact fresh.markSatisfied (sourced _ answers)
  | retire =>
    obtain ⟨d,equal⟩ := insertDeadNonceList_form env s _ (some _)
    rw [enact,equal]
    exact modifyEntry (s := { s with deadNonceList := d }) ⟨fresh.entries,fresh.stored⟩ (fun _ => ⟨rfl,rfl⟩)
  | @finalize _ own _ alive =>
    obtain ⟨e,found⟩ := alive
    obtain ⟨d,equal⟩ := insertDeadNonceList_form env s own none
    simp only [enact,onInterestFinalize,equal,found]
    exact ⟨fun x present => fresh.entries x ((Pit.mem_erase represented.ids (Pit.get_id found).1).mp present).1,fresh.stored⟩
  | jot kept => exact fresh.modifyEntry (fun e => ⟨kept.isSatisfied e,kept.dataFreshnessPeriod e⟩)
  | setStrategy => exact fresh.strategy.1 _
  | unsetStrategy => exact fresh.strategy.2
  | removeFace => exact fresh.mapped rfl rfl (fun _ => ⟨rfl,rfl⟩)
  | insertInRecord | transmit | deleteInRecord | clearInRecords | setIncomingNack | setExpiryTimer | setRtoTimer =>
    exact mapped fresh rfl rfl (fun e => by split <;> exact ⟨rfl,rfl⟩)
  | copy | rewrite | cancelTimer | hold | addFace | upkeep => exact ⟨fresh.entries,fresh.stored⟩

theorem moves (moves : Moves env origin event s t) : Fresh t :=
  (moves.invariant (I := fun u => Represented u ∧ Fresh u)
    (fun _ _ both allowed => ⟨permitted_represented both.1 allowed,both.2.permitted both.1 positive allowed⟩) ⟨represented,fresh⟩).2

end

end

end Fresh

theorem step_fresh (path : Reached env s) (fresh : Fresh s) (positive : ∀ data ∈ event.brings, 0 ≤ data.freshnessPeriod)
    (taken : step env s event = some t) : Fresh t := by
  have represented : Represented { s with sent := [] } := (reached_represented path).same rfl
  have moves := handle_moves (reached_sound path).cleared (reached_timely path).cleared represented taken
  exact Fresh.moves (s := { s with sent := [] }) ⟨fresh.entries,fresh.stored⟩ represented positive moves

def Asserted (s : State) (id : EntryId) : Prop := (s.entry id).isSatisfied → 0 ≤ (s.entry id).dataFreshnessPeriod

instance : Decidable (Asserted s id) := inferInstanceAs (Decidable (_ → _))

theorem Fresh.asserted (fresh : Fresh s) (id : EntryId) : Asserted s id := by
  intro satisfied
  unfold State.entry at satisfied ⊢
  cases found : s.pit.get id with
  | none =>
    rw [found] at satisfied
    cases satisfied
  | some e =>
    rw [found] at satisfied
    exact fresh.entries e (Pit.get_id found).1 satisfied

def callsAmong (env : Env) (data : Data) (ingress : Face) (choices : Choices) (s : State) : List EntryId → List (State × EntryId)
  | [] => []
  | id :: ids => (callAmong data choices s id,id) :: callsAmong env data ingress choices (satisfyAmong env data ingress choices s id) ids

def callsOfData (env : Env) (s : State) (packet : Data) (ingress : Face) (choices : Choices) : List (State × EntryId) :=
  onIncomingDataWith s packet ingress [] (fun _ => []) (fun s data id => [(callOfOne s data ingress id choices,id)])
    (fun s data pitMatches => callsAmong env data ingress choices s (pitMatches.map Entry.id))

def callsOfTimer (s : State) (timer : Timer Task) : List (State × EntryId) :=
  fireWith s timer (fun s id => [(s,id)]) (fun _ _ _ _ => [])

def calls (env : Env) (s : State) : Event → List (State × EntryId)
  | .data packet ingress choices => callsOfData env { s with sent := [] } packet ingress choices
  | .timer id => (s.scheduler.pending.find? (fun t => t.id = id)).toList.flatMap (callsOfTimer { s with sent := [] })
  | _ => []

theorem callsAmong_moves (arrived : event = .data packet ingress choices) (same : data.freshnessPeriod = packet.freshnessPeriod)
    (alive : ∀ id ∈ ids, Alive t id) : ∀ c ∈ callsAmong env data ingress choices t ids, Moves env s event t c.1 := by
  induction ids generalizing t with
  | nil => exact nofun
  | cons id ids ih =>
    obtain ⟨here,others⟩ := forall_mem_cons.mp alive
    obtain ⟨_,_,_,_,called⟩ : ∃ _, _ ∧ _ ∧ _ ∧ Moves env s event t _ := callAmong_moves arrived same here
    have satisfied : Trace env t (satisfyAmong env data ingress choices t id) := satisfyAmong_tends here
    refine forall_mem_cons.mpr ⟨called,fun c later => (satisfyAmong_moves arrived same here).trans (ih ?_ c later)⟩
    exact fun own listed => (others own listed).quiet satisfied.quiet

theorem callsOfData_moves : ∀ c ∈ callsOfData env t packet ingress choices, Moves env s (.data packet ingress choices) t c.1 := by
  have cached : Moves env s (.data packet ingress choices) t { t with cs := t.cs.insert t.now (received packet ingress) false } :=
    .aside .inserted
  unfold callsOfData onIncomingDataWith
  dsimp only
  split
  · exact nofun
  split
  · exact nofun
  · rename_i e only
    have alive : Alive { t with cs := t.cs.insert t.now (received packet ingress) false } e.id :=
      alive_of_mem (Pit.findAllDataMatches_mem (only ▸ mem_cons_self)).1
    obtain ⟨_,_,_,called⟩ : ∃ _, _ ∧ _ ∧ Moves env s (.data packet ingress choices) _ (callOfOne _ (received packet ingress) ingress e.id choices) :=
      callOfOne_moves rfl rfl alive
    exact forall_mem_singleton.mpr (cached.trans called)
  · rename_i pitMatches _ _
    have fresh : (received packet ingress).freshnessPeriod = packet.freshnessPeriod := rfl
    refine fun c called => cached.trans (callsAmong_moves rfl fresh (fun id listed => ?_) c called)
    obtain ⟨e,inside,rfl⟩ := mem_map.mp listed
    exact alive_of_mem (Pit.findAllDataMatches_mem inside).1

theorem calls_fresh (path : Reached env s) (fresh : Fresh s) (positive : ∀ data ∈ event.brings, 0 ≤ data.freshnessPeriod) :
    ∀ c ∈ calls env s event, Fresh c.1 := by
  have cleared : Fresh { s with sent := [] } := ⟨fresh.entries,fresh.stored⟩
  cases event with
  | data packet ingress choices =>
    exact fun c called => cleared.moves ((reached_represented path).same rfl) positive (callsOfData_moves (s := s) c called)
  | timer timerId =>
    intro c called
    obtain ⟨timer,_,called⟩ := mem_flatMap.mp called
    unfold callsOfTimer fireWith at called
    split at called
    · cases mem_singleton.mp called
      exact ⟨fresh.entries,fresh.stored⟩
    · cases called
  | _ => exact fun c called => absurd called not_mem_nil

end ReflexiveNfd
