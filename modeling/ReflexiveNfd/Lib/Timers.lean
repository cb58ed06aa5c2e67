import Mathlib.Data.List.Basic
import Mathlib.Data.List.Nodup

namespace Timers
open List

-- A scheduler of one-shot events. Handles are event ids; cancelling an unknown
-- or expired handle has no effect.
structure Timer (τ : Type) where
  id : Nat
  due : Int
  task : τ
  deriving DecidableEq, Repr

structure Scheduler (τ : Type) where
  nextId : Nat
  pending : List (Timer τ)
  deriving DecidableEq, Repr

variable {τ : Type}

namespace Scheduler

def empty : Scheduler τ := ⟨0,[]⟩

def schedule (s : Scheduler τ) (due : Int) (task : τ) : Scheduler τ :=
  ⟨s.nextId + 1,⟨s.nextId,due,task⟩ :: s.pending⟩

def cancel (s : Scheduler τ) (handle : Option Nat) : Scheduler τ :=
  { s with pending := s.pending.filter (fun t => some t.id ≠ handle) }

def armed [DecidableEq τ] (s : Scheduler τ) (task : τ) : List (Timer τ) :=
  s.pending.filter (fun t => t.task = task)

structure Valid (s : Scheduler τ) : Prop where
  bounded : ∀ t ∈ s.pending, t.id < s.nextId
  distinct : (s.pending.map Timer.id).Nodup

variable {s : Scheduler τ} {t : Timer τ}

theorem empty_valid : Valid (empty : Scheduler τ) := ⟨by simp [empty],by simp [empty]⟩

theorem mem_cancel : t ∈ (s.cancel handle).pending ↔ t ∈ s.pending ∧ some t.id ≠ handle := by
  simp [cancel]

theorem mem_schedule : t ∈ (s.schedule due task).pending ↔ t = ⟨s.nextId,due,task⟩ ∨ t ∈ s.pending := by
  simp [schedule]

theorem cancel_valid (valid : Valid s) : Valid (s.cancel handle) :=
  ⟨fun t present => valid.bounded t (mem_cancel.mp present).1,
   Nodup.sublist (Sublist.map _ filter_sublist) valid.distinct⟩

theorem schedule_valid (valid : Valid s) : Valid (s.schedule due task) := by
  refine ⟨?_,?_⟩
  · intro t present
    rcases mem_schedule.mp present with rfl | old
    · exact Nat.lt_succ_self _
    · exact Nat.lt_succ_of_lt (valid.bounded t old)
  · refine nodup_cons.mpr ⟨?_,valid.distinct⟩
    intro listed
    obtain ⟨t,present,equal⟩ := mem_map.mp listed
    exact Nat.lt_irrefl _ (equal ▸ valid.bounded t present)

theorem armed_single [DecidableEq τ] (valid : Valid s) (pending : t ∈ s.pending) (mine : t.task = task)
    (only : ∀ u ∈ s.pending, u.task = task → u = t) : s.armed task = [t] := by
  have listed : ∀ u, u ∈ s.armed task ↔ u ∈ [t] := by
    intro u
    rw [armed,mem_filter,mem_singleton]
    constructor
    · rintro ⟨here,same⟩
      exact only u here (of_decide_eq_true same)
    · rintro rfl
      exact ⟨pending,decide_eq_true mine⟩
  have nodup : (s.armed task).Nodup := (Nodup.of_map _ valid.distinct).filter _
  exact perm_singleton.mp ((perm_ext_iff_of_nodup nodup (nodup_singleton t)).mpr listed)

theorem Valid.unique (valid : Valid s) (first : a ∈ s.pending) (second : b ∈ s.pending) (equal : a.id = b.id) : a = b :=
  inj_on_of_nodup_map valid.distinct first second equal

end Scheduler

-- Records that hold the handle of their own event. concerns says whose event a
-- task is; several kinds of handle may share one scheduler.
structure Owned (key : ω → κ) (handle : ω → Option Nat) (concerns : τ → Option κ) (s : Scheduler τ) (owners : List ω) :
    Prop where
  bounded : ∀ o ∈ owners, ∀ h, handle o = some h → h < s.nextId
  agrees : ∀ o ∈ owners, ∀ t ∈ s.pending, handle o = some t.id → concerns t.task = some (key o)
  covered : ∀ t ∈ s.pending, ∀ k, concerns t.task = some k → ∃ o ∈ owners, key o = k ∧ handle o = some t.id

def Armed (concerns : τ → Option κ) (s : Scheduler τ) (k : κ) : Prop := ∃ t ∈ s.pending, concerns t.task = some k

namespace Owned
variable {ω κ : Type} {key : ω → κ} {handle : ω → Option Nat} {concerns : τ → Option κ} {s : Scheduler τ} {owners : List ω}

theorem none_owned : Owned key handle concerns (.empty : Scheduler τ) ([] : List ω) := by
  constructor <;> simp [Scheduler.empty]

section
variable (owned : Owned key handle concerns s owners)
include owned

theorem cancel : Owned key handle concerns (s.cancel h) owners := by
  refine ⟨owned.bounded,?_,?_⟩
  · intro o present t pending holds
    exact owned.agrees o present t (Scheduler.mem_cancel.mp pending).1 holds
  · intro t pending
    exact owned.covered t (Scheduler.mem_cancel.mp pending).1

theorem map (sameKey : ∀ o, key (f o) = key o)
    (sameHandle : ∀ o, handle (f o) = handle o) : Owned key handle concerns s (owners.map f) := by
  refine ⟨?_,?_,?_⟩
  · intro o present h holds
    obtain ⟨old,inside,rfl⟩ := mem_map.mp present
    exact owned.bounded old inside h (by rwa [sameHandle] at holds)
  · intro o present t pending holds
    obtain ⟨old,inside,rfl⟩ := mem_map.mp present
    rw [sameKey]
    exact owned.agrees old inside t pending (by rwa [sameHandle] at holds)
  · intro t pending k task
    obtain ⟨o,inside,named,holds⟩ := owned.covered t pending k task
    exact ⟨f o,mem_map_of_mem inside,by rw [sameKey,named],by rw [sameHandle,holds]⟩

theorem schedule_other (foreign : concerns task = none) :
    Owned key handle concerns (s.schedule due task) owners := by
  refine ⟨?_,?_,?_⟩
  · intro o present h holds
    exact Nat.lt_succ_of_lt (owned.bounded o present h holds)
  · intro o present t pending holds
    rcases Scheduler.mem_schedule.mp pending with rfl | old
    · exact absurd (owned.bounded o present _ holds) (Nat.lt_irrefl _)
    · exact owned.agrees o present t old holds
  · intro t pending k task
    rcases Scheduler.mem_schedule.mp pending with rfl | old
    · simp [foreign] at task
    · exact owned.covered t old k task

end

theorem rearm (valid : s.Valid) (owned : Owned key handle concerns s owners) (distinct : (owners.map key).Nodup)
    (present : o ∈ owners) (mine : concerns task = some (key o)) (sameKey : ∀ x, key (f x) = key x)
    (holds : handle (f o) = some s.nextId) (others : ∀ x, key x ≠ key o → handle (f x) = handle x) :
    Owned key handle concerns ((s.cancel (handle o)).schedule due task) (owners.map f) := by
  have same : ∀ x ∈ owners, key x = key o → x = o := fun x inside equal =>
    inj_on_of_nodup_map distinct inside present equal
  refine ⟨?_,?_,?_⟩
  · intro x listed h held
    obtain ⟨old,inside,rfl⟩ := mem_map.mp listed
    by_cases equal : key old = key o
    · obtain rfl := same old inside equal
      obtain rfl : s.nextId = h := Option.some.inj (holds.symm.trans held)
      exact Nat.lt_succ_self _
    · exact Nat.lt_succ_of_lt (owned.bounded old inside h (by rwa [others old equal] at held))
  · intro x listed t pending held
    obtain ⟨old,inside,rfl⟩ := mem_map.mp listed
    rw [sameKey]
    by_cases equal : key old = key o
    · obtain rfl := same old inside equal
      have newest : s.nextId = t.id := Option.some.inj (holds.symm.trans held)
      rcases Scheduler.mem_schedule.mp pending with rfl | prior
      · exact mine
      · have earlier := valid.bounded t (Scheduler.mem_cancel.mp prior).1
        omega
    · rw [others old equal] at held
      rcases Scheduler.mem_schedule.mp pending with rfl | prior
      · exact absurd (owned.bounded old inside _ held) (Nat.lt_irrefl _)
      · exact owned.agrees old inside t (Scheduler.mem_cancel.mp prior).1 held
  · intro t pending k concerned
    rcases Scheduler.mem_schedule.mp pending with rfl | prior
    · refine ⟨f o,mem_map_of_mem present,?_,holds⟩
      rw [sameKey]
      exact Option.some.inj (mine.symm.trans concerned)
    · obtain ⟨kept,alive⟩ := Scheduler.mem_cancel.mp prior
      obtain ⟨x,inside,named,held⟩ := owned.covered t kept k concerned
      have apart : key x ≠ key o := fun equal => by
        obtain rfl := same x inside equal
        exact alive held.symm
      exact ⟨f x,mem_map_of_mem inside,by rw [sameKey,named],by rw [others x apart,held]⟩

section
variable (owned : Owned key handle concerns s owners)
include owned

theorem add (fresh : handle o = none) :
    Owned key handle concerns s (owners ++ [o]) := by
  refine ⟨?_,?_,?_⟩
  · intro x listed h held
    rcases mem_append.mp listed with old | new
    · exact owned.bounded x old h held
    · obtain rfl := mem_singleton.mp new
      simp [fresh] at held
  · intro x listed t pending held
    rcases mem_append.mp listed with old | new
    · exact owned.agrees x old t pending held
    · obtain rfl := mem_singleton.mp new
      simp [fresh] at held
  · intro t pending k concerned
    obtain ⟨x,inside,rest⟩ := owned.covered t pending k concerned
    exact ⟨x,mem_append_left _ inside,rest⟩

theorem leave (kept : ∀ o ∈ remaining, o ∈ owners)
    (spent : ∀ o ∈ owners, o ∉ remaining → ∀ t ∈ s.pending, handle o ≠ some t.id) :
    Owned key handle concerns s remaining := by
  refine ⟨fun o present => owned.bounded o (kept o present),fun o present => owned.agrees o (kept o present),?_⟩
  intro t pending k concerned
  obtain ⟨o,inside,named,held⟩ := owned.covered t pending k concerned
  refine ⟨o,?_,named,held⟩
  by_contra gone
  exact spent o inside gone t pending held

theorem release (sameKey : ∀ o, key (f o) = key o)
    (dropped : ∀ o ∈ owners, handle (f o) = handle o ∨ (handle (f o) = none ∧ ∀ t ∈ s.pending, handle o ≠ some t.id)) :
    Owned key handle concerns s (owners.map f) := by
  have held : ∀ o ∈ owners, ∀ h, handle (f o) = some h → handle o = some h := by
    intro o inside h holds
    rcases dropped o inside with same | ⟨none,_⟩
    · rwa [same] at holds
    · simp [none] at holds
  refine ⟨?_,?_,?_⟩
  · intro o listed h holds
    obtain ⟨old,inside,rfl⟩ := mem_map.mp listed
    exact owned.bounded old inside h (held old inside h holds)
  · intro o listed t pending holds
    obtain ⟨old,inside,rfl⟩ := mem_map.mp listed
    rw [sameKey]
    exact owned.agrees old inside t pending (held old inside _ holds)
  · intro t pending k concerned
    obtain ⟨o,inside,named,holds⟩ := owned.covered t pending k concerned
    refine ⟨f o,mem_map_of_mem inside,by rw [sameKey,named],?_⟩
    rcases dropped o inside with same | ⟨_,spent⟩
    · rw [same,holds]
    · exact absurd holds (spent t pending)

end

theorem unique (valid : s.Valid) (owned : Owned key handle concerns s owners) (distinct : (owners.map key).Nodup)
    (first : t ∈ s.pending) (second : u ∈ s.pending) (one : concerns t.task = some k) (two : concerns u.task = some k) :
    t = u := by
  obtain ⟨a,inA,namedA,heldA⟩ := owned.covered t first k one
  obtain ⟨b,inB,namedB,heldB⟩ := owned.covered u second k two
  obtain rfl := inj_on_of_nodup_map distinct inA inB (namedA.trans namedB.symm)
  exact valid.unique first second (Option.some.inj (heldA.symm.trans heldB))

end Owned

theorem Armed.schedule (armed : Armed concerns s k) : Armed concerns (s.schedule due task) k := by
  obtain ⟨t,pending,mine⟩ := armed
  exact ⟨t,Scheduler.mem_schedule.mpr (.inr pending),mine⟩

theorem Armed.cancel (armed : Armed concerns s k)
    (spared : ∀ t ∈ s.pending, h = some t.id → concerns t.task ≠ some k) : Armed concerns (s.cancel h) k := by
  obtain ⟨t,pending,mine⟩ := armed
  exact ⟨t,Scheduler.mem_cancel.mpr ⟨pending,fun hit => spared t pending hit.symm mine⟩,mine⟩

end Timers
