import Mathlib.Data.List.Basic

namespace Transition
open Option
variable {σ ε : Type*}

-- A machine is a partial step function; none means the event is not enabled.
def run (step : σ → ε → Option σ) : σ → List ε → Option σ
  | s,[] => some s
  | s,event :: rest => (step s event).bind (run step · rest)

-- States reached from an initial state by runs all of whose steps meet the
-- guard. The guard sees only the state before a step and the event.
inductive Guarded (step : σ → ε → Option σ) (initial : σ → Prop) (guard : σ → ε → Prop) : σ → Prop where
  | start : initial s → Guarded step initial guard s
  | next : Guarded step initial guard s → guard s event → step s event = some t → Guarded step initial guard t

def Reached (step : σ → ε → Option σ) (initial : σ → Prop) : σ → Prop :=
  Guarded step initial (fun _ _ => True)

variable {step : σ → ε → Option σ} {initial : σ → Prop} {guard : σ → ε → Prop} {P : σ → Prop}

theorem Guarded.reached (path : Guarded step initial guard s) : Reached step initial s := by
  induction path with
  | start first => exact .start first
  | next _ _ taken ih => exact .next ih True.intro taken

-- The induction every safety result goes through: what holds initially and is
-- kept by each guarded step from a reached state holds of every reached state.
theorem Guarded.invariant (base : ∀ s, initial s → P s)
    (kept : ∀ s event t, Reached step initial s → P s → guard s event → step s event = some t → P t)
    (path : Guarded step initial guard s) : P s := by
  induction path with
  | start first => exact base _ first
  | next prior meets taken ih => exact kept _ _ _ prior.reached ih meets taken

theorem Reached.next (path : Reached step initial s) (taken : step s event = some t) :
    Reached step initial t :=
  Guarded.next path True.intro taken

theorem Reached.invariant (base : ∀ s, initial s → P s)
    (kept : ∀ s event t, P s → step s event = some t → P t)
    (path : Reached step initial s) : P s :=
  Guarded.invariant base (fun s event t _ holds _ taken => kept s event t holds taken) path

theorem run_parts (ran : run step s (event :: rest) = some t) : ∃ u, step s event = some u ∧ run step u rest = some t :=
  bind_eq_some_iff.mp ran

theorem run_reached (path : Reached step initial s) (ran : run step s events = some t) :
    Reached step initial t := by
  induction events generalizing s with
  | nil => cases some.inj ran; exact path
  | cons event rest ih =>
    obtain ⟨middle,taken,tail⟩ := run_parts ran
    exact ih (path.next taken) tail

def checked (step : σ → ε → Option σ) (guard : σ → ε → Prop) [∀ s event, Decidable (guard s event)] (s : σ) (event : ε) : Option σ :=
  if guard s event then step s event else none

theorem checked_guarded [∀ s event, Decidable (guard s event)] (path : Guarded step initial guard s)
    (ran : run (checked step guard) s events = some t) : Guarded step initial guard t := by
  induction events generalizing s with
  | nil => cases some.inj ran; exact path
  | cons event rest ih =>
    obtain ⟨middle,taken,tail⟩ := run_parts ran
    obtain ⟨meets,moved⟩ := ite_none_right_eq_some.mp taken
    exact ih (path.next meets moved) tail

theorem run_shows {Q : σ → Prop} (shown : ∃ t ∈ run step s events, P t) (rest : ∀ t, run step s events = some t → P t → Q t) :
    ∃ t, run step s events = some t ∧ P t ∧ Q t := by
  obtain ⟨t,ran,holds⟩ := shown
  exact ⟨t,ran,holds,rest t ran holds⟩

theorem run_shows_both {Q R : σ → Prop} (shown : ∃ t ∈ run step s events, P t ∧ R t) (rest : ∀ t, run step s events = some t → Q t) :
    ∃ t, run step s events = some t ∧ P t ∧ R t ∧ Q t := by
  obtain ⟨t,ran,first,second⟩ := shown
  exact ⟨t,ran,first,second,rest t ran⟩

theorem reached_shows (s : σ) (events : List ε) (first : initial s) (shown : ∃ t ∈ run step s events, P t) : ∃ t, Reached step initial t ∧ P t := by
  obtain ⟨t,ran,holds⟩ := shown
  exact ⟨t,run_reached (.start first) ran,holds⟩

theorem run_cons (taken : step s event = some t) : run step s (event :: rest) = run step t rest := by
  simp [run,taken]

theorem run_append : run step s (front ++ back) = (run step s front).bind (run step · back) := by
  induction front generalizing s with
  | nil => rfl
  | cons event rest ih =>
    cases taken : step s event with
    | none => simp [run,taken]
    | some t => simp only [List.cons_append,run_cons taken,ih]

def Visits (step : σ → ε → Option σ) (s : σ) (events : List ε) (u : σ) : Prop :=
  ∃ front back, events = front ++ back ∧ run step s front = some u

def Takes (step : σ → ε → Option σ) (s : σ) (events : List ε) (u : σ) (event : ε) : Prop :=
  ∃ front back, events = front ++ event :: back ∧ run step s front = some u

theorem visits_cons (taken : step s event = some t) :
    Visits step s (event :: rest) u ↔ u = s ∨ Visits step t rest u := by
  constructor
  · rintro ⟨front,back,split,ran⟩
    cases front with
    | nil => exact .inl (some.inj ran).symm
    | cons head front =>
      obtain ⟨rfl,remaining⟩ := List.cons.inj split
      exact .inr ⟨front,back,remaining,by rwa [run_cons taken] at ran⟩
  · rintro (rfl | ⟨front,back,rfl,ran⟩)
    · exact ⟨[],_,rfl,rfl⟩
    · exact ⟨event :: front,back,rfl,by rwa [run_cons taken]⟩

theorem takes_cons (taken : step s event = some t) :
    Takes step s (event :: rest) u other ↔ (u = s ∧ other = event) ∨ Takes step t rest u other := by
  constructor
  · rintro ⟨front,back,split,ran⟩
    cases front with
    | nil =>
      obtain ⟨rfl,_⟩ := List.cons.inj split
      exact .inl ⟨(some.inj ran).symm,rfl⟩
    | cons head front =>
      obtain ⟨rfl,remaining⟩ := List.cons.inj split
      exact .inr ⟨front,back,remaining,by rwa [run_cons taken] at ran⟩
  · rintro (⟨rfl,rfl⟩ | ⟨front,back,rfl,ran⟩)
    · exact ⟨[],_,rfl,rfl⟩
    · exact ⟨event :: front,back,rfl,by rwa [run_cons taken]⟩

theorem takes_nil : ¬ Takes step s [] u event := by
  rintro ⟨front,back,split,_⟩
  simp at split

theorem checked_takes [∀ s event, Decidable (guard s event)] (ran : run (checked step guard) s events = some t) :
    run step s events = some t ∧ ∀ u event, Takes step s events u event → guard u event := by
  induction events generalizing s with
  | nil => exact ⟨ran,fun _ _ takes => (takes_nil takes).elim⟩
  | cons event rest ih =>
    obtain ⟨middle,taken,tail⟩ := run_parts ran
    obtain ⟨meets,moved⟩ := ite_none_right_eq_some.mp taken
    obtain ⟨later,kept⟩ := ih tail
    refine ⟨(run_cons moved).trans later,fun u other takes => ?_⟩
    rcases (takes_cons moved).mp takes with ⟨rfl,rfl⟩ | after
    · exact meets
    · exact kept u other after

structure Recorded (σ ρ : Type*) where
  current : σ
  records : List ρ

def record (step : σ → ε → Option σ) (note : σ → ε → Option ρ) (h : Recorded σ ρ) (event : ε) : Option (Recorded σ ρ) :=
  (step h.current event).map fun t => ⟨t,(note h.current event).toList ++ h.records⟩

def Unrecorded (initial : σ → Prop) (h : Recorded σ ρ) : Prop := initial h.current ∧ h.records = []

theorem record_parts (taken : record step note h event = some k) :
    step h.current event = some k.current ∧ k.records = (note h.current event).toList ++ h.records := by
  obtain ⟨t,next,rfl⟩ := map_eq_some_iff.mp taken
  exact ⟨next,rfl⟩

theorem recorded_reached (path : Reached (record step note) (Unrecorded initial) h) :
    Reached step initial h.current := by
  refine Reached.invariant (P := fun h => Reached step initial h.current) (fun h start => .start start.1) ?_ path
  intro h event k prior taken
  exact prior.next (record_parts taken).1

-- When a step keeps P exactly if its guard holds, a completed run stays inside
-- P exactly if each of its steps meets the guard.
theorem always_exact {Q : σ → Prop} (kept : ∀ s event t, Q s → step s event = some t → Q t)
    (exact : ∀ s event t, Q s → P s → step s event = some t → (P t ↔ guard s event))
    (sound : Q s) (base : P s) (ran : run step s events = some t) :
    (∀ u, Visits step s events u → P u) ↔ ∀ u event, Takes step s events u event → guard u event := by
  induction events generalizing s with
  | nil =>
    constructor
    · exact fun _ _ _ takes => (takes_nil takes).elim
    · rintro _ u ⟨front,back,split,ran⟩
      obtain ⟨rfl,rfl⟩ := List.append_eq_nil_iff.mp split.symm
      cases some.inj ran
      exact base
  | cons event rest ih =>
    obtain ⟨middle,taken,tail⟩ := run_parts ran
    have one := exact s event middle sound base taken
    constructor
    · intro always u other takes
      have first : P middle := always middle ((visits_cons taken).mpr (.inr ⟨[],rest,rfl,rfl⟩))
      rcases (takes_cons taken).mp takes with ⟨rfl,rfl⟩ | later
      · exact one.mp first
      · exact (ih (kept _ _ _ sound taken) first tail).mp
          (fun u visited => always u ((visits_cons taken).mpr (.inr visited))) u other later
    · intro guarded u visited
      have first : P middle := one.mpr (guarded s event ((takes_cons taken).mpr (.inl ⟨rfl,rfl⟩)))
      rcases (visits_cons taken).mp visited with rfl | later
      · exact base
      · exact (ih (kept _ _ _ sound taken) first tail).mpr
          (fun u other takes => guarded u other ((takes_cons taken).mpr (.inr takes))) u later

theorem always_exact_total {Q : σ → Prop} (total : ∀ s event, Q s → ∃ t, step s event = some t ∧ Q t)
    (exact : ∀ s event t, Q s → P s → step s event = some t → (P t ↔ guard s event)) (sound : Q s) (base : P s) :
    (∀ u, Visits step s events u → P u) ↔ ∀ u event, Takes step s events u event → guard u event := by
  have kept : ∀ s event t, Q s → step s event = some t → Q t := by
    intro s event t sound taken
    obtain ⟨u,again,soundU⟩ := total s event sound
    cases again.symm.trans taken
    exact soundU
  have runs : ∀ events s, Q s → ∃ t, run step s events = some t := by
    intro events
    induction events with
    | nil => exact fun s _ => ⟨s,rfl⟩
    | cons event rest ih =>
      intro s sound
      obtain ⟨t,taken,soundT⟩ := total s event sound
      rw [run_cons taken]
      exact ih t soundT
  obtain ⟨t,ran⟩ := runs events s sound
  exact always_exact kept exact sound base ran

theorem Takes.visits (takes : Takes step s events u event) (taken : step u event = some v) : Visits step s events u ∧ Visits step s events v := by
  obtain ⟨front,back,rfl,ran⟩ := takes
  refine ⟨⟨front,_,rfl,ran⟩,front ++ [event],back,by simp,?_⟩
  rw [run_append,ran]
  exact (run_cons taken).trans rfl

end Transition
