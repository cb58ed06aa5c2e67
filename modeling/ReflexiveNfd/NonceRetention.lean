import Mathlib.Data.List.Induction
import Mathlib.Data.Set.Function
import ReflexiveNfd.Forwarder

namespace ReflexiveNfd
open List

inductive DeadNonceCall where
  | add (name : Name) (nonce : Nonce)
  | addMark
  | adjustCapacity

abbrev DeadNonce := Option (Name × Nonce)

def DeadNonceCall.element : DeadNonceCall → DeadNonce
  | .add name nonce => some (name,nonce)
  | _ => none

namespace DeadNonceList
variable (env : Env)

def step (d : DeadNonceList) : DeadNonceCall → DeadNonceList
  | .add name nonce => d.add env name nonce
  | .addMark => d.addMark
  | .adjustCapacity => d.adjustCapacity env

def entryOf : DeadNonce → UInt64
  | none => mark
  | some (name,nonce) => env.cityHash name nonce

def Scaled : Prop := ∀ c, minCapacity ≤ c → c ≤ maxCapacity → env.capacityDown c ≤ maxCapacity ∧ minCapacity ≤ env.capacityUp c

-- Elements leave at the front, and only if as many newer ones as the capacity stay.
def Evicts (capacity : Nat) (held left : List DeadNonce) : Prop := ∃ gone, held = gone ++ left ∧ (gone ≠ [] → capacity ≤ left.length)

inductive Turns (capacity : Nat) (held : List DeadNonce) : DeadNonceCall → List DeadNonce → Prop where
  | again : some (name,nonce) ∈ held → Turns capacity held (.add name nonce) (held.erase (some (name,nonce)) ++ [some (name,nonce)])
  | new : some (name,nonce) ∉ held → Evicts capacity (held ++ [some (name,nonce)]) left → Turns capacity held (.add name nonce) left
  | mark : Turns capacity held .addMark (held ++ [none])
  | adjusted : Evicts capacity held left → Turns capacity held .adjustCapacity left

inductive Retains (lifetime : Int) : List DeadNonceCall → DeadNonceList → List DeadNonce → Prop where
  | start : Retains lifetime [] (.new lifetime) (replicate expectedMarkCount none)
  | next : Retains lifetime calls d held → Turns (d.step env call).capacity held call left →
      Retains lifetime (calls ++ [call]) (d.step env call) left

structure Mirrors (used : Set DeadNonce) (d : DeadNonceList) (held : List DeadNonce) : Prop where
  queue : d.queue = held.map (entryOf env)
  capacity : minCapacity ≤ d.capacity ∧ d.capacity ≤ maxCapacity
  used : ∀ e ∈ held, e ∈ used

variable {env} {used : Set DeadNonce} {d : DeadNonceList} {held : List DeadNonce} {call : DeadNonceCall}

theorem Mirrors.push (mirrors : Mirrors env used d held) (new : e ∈ used) (counts : List Nat) :
    Mirrors env used ⟨d.lifetime,d.queue ++ [entryOf env e],d.capacity,counts⟩ (held ++ [e]) := by
  refine ⟨?_,mirrors.capacity,forall_mem_append.mpr ⟨mirrors.used,by simpa using new⟩⟩
  simp [mirrors.queue]

theorem Mirrors.evict (mirrors : Mirrors env used d held) :
    ∃ left, Evicts d.evictEntries.capacity held left ∧ Mirrors env used d.evictEntries left := by
  rw [evictEntries]
  split
  · exact ⟨held,⟨[],rfl,fun some => absurd rfl some⟩,mirrors⟩
  · have length : d.queue.length = held.length := by rw [mirrors.queue,length_map]
    refine ⟨_,⟨_,(take_append_drop (min (d.queue.length - d.capacity) evictLimit) held).symm,fun _ => ?_⟩,?_,mirrors.capacity,
      fun e inside => mirrors.used e (mem_of_mem_drop inside)⟩
    · rw [length_drop]
      dsimp only
      omega
    · rw [map_drop,← mirrors.queue]

section
variable (free : Set.InjOn (entryOf env) used)
include free

theorem Mirrors.has (mirrors : Mirrors env used d held) (asked : some (name,nonce) ∈ used) :
    d.has env name nonce ↔ some (name,nonce) ∈ held := by
  rw [DeadNonceList.has,contains_iff_mem,mirrors.queue,mem_map]
  constructor
  · rintro ⟨e,inside,same⟩
    exact free (mirrors.used e inside) asked same ▸ inside
  · exact fun inside => ⟨_,inside,rfl⟩

theorem map_erase (within : ∀ x ∈ held, x ∈ used) (known : e ∈ used) :
    (held.erase e).map (entryOf env) = (held.map (entryOf env)).erase (entryOf env e) := by
  induction held with
  | nil => rfl
  | cons x rest ih =>
    have same : (entryOf env x == entryOf env e) = (x == e) := by
      rw [Bool.eq_iff_iff,beq_iff_eq,beq_iff_eq]
      exact free.eq_iff (within x mem_cons_self) known
    rw [map_cons,erase_cons,erase_cons,same]
    split
    · rfl
    · rw [map_cons,ih (fun y inside => within y (mem_cons_of_mem _ inside))]

theorem step_turns (scaled : Scaled env) (mirrors : Mirrors env used d held) (new : call.element ∈ used) :
    ∃ left, Turns (d.step env call).capacity held call left ∧ Mirrors env used (d.step env call) left := by
  cases call with
  | add name nonce =>
    have known := mirrors.has free new
    rw [DeadNonceList.has] at known
    rw [step,add]
    by_cases there : some (name,nonce) ∈ held
    · refine ⟨_,.again there,?_⟩
      have less : Mirrors env used { d with queue := d.queue.erase (env.cityHash name nonce) } (held.erase (some (name,nonce))) :=
        ⟨mirrors.queue ▸ (map_erase free mirrors.used new).symm,mirrors.capacity,fun e inside => mirrors.used e (mem_of_mem_erase inside)⟩
      rw [if_pos (known.mpr there)]
      exact less.push new _
    · rw [if_neg (fun present => there (known.mp present))]
      obtain ⟨left,evicts,after⟩ := (mirrors.push new d.actualMarkCounts).evict
      exact ⟨left,.new there evicts,after⟩
  | addMark => exact ⟨_,.mark,mirrors.push new _⟩
  | adjustCapacity =>
    obtain ⟨least,most⟩ := mirrors.capacity
    obtain ⟨down,up⟩ := scaled d.capacity least most
    have limits : minCapacity ≤ maxCapacity := by decide
    obtain ⟨capacity,bounds,same⟩ : ∃ c, (minCapacity ≤ c ∧ c ≤ maxCapacity) ∧
        d.adjustCapacity env = evictEntries { d with capacity := c, actualMarkCounts := [] } := by
      refine ⟨_,?_,rfl⟩
      split_ifs <;> omega
    obtain ⟨left,evicts,after⟩ := Mirrors.evict (d := ⟨d.lifetime,d.queue,capacity,[]⟩) ⟨mirrors.queue,bounds,mirrors.used⟩
    rw [step,same]
    exact ⟨left,.adjusted evicts,after⟩

end

-- Whatever is called, the capacity stays within its limits, the queue has the elements
-- of a history in which they are evicted and moved as above, and these are found.
theorem dead_nonces_retained (scaled : Scaled env) (free : Set.InjOn (entryOf env) used) (marks : none ∈ used)
    (within : ∀ call ∈ calls, call.element ∈ used) (ran : calls.foldl (step env) (.new period) = d) :
    ∃ held, Retains env period calls d held ∧ d.queue = held.map (entryOf env) ∧ minCapacity ≤ d.capacity ∧ d.capacity ≤ maxCapacity ∧
      ∀ name nonce, some (name,nonce) ∈ used → (d.has env name nonce ↔ some (name,nonce) ∈ held) := by
  suffices all : ∃ held, Retains env period calls d held ∧ Mirrors env used d held by
    obtain ⟨held,retains,mirrors⟩ := all
    exact ⟨held,retains,mirrors.queue,mirrors.capacity.1,mirrors.capacity.2,fun _ _ asked => mirrors.has free asked⟩
  subst ran
  induction calls using reverseRecOn with
  | nil => exact ⟨_,.start,rfl,(by decide : minCapacity ≤ initialCapacity ∧ initialCapacity ≤ maxCapacity),fun e inside => eq_of_mem_replicate inside ▸ marks⟩
  | append_singleton calls call ih =>
    obtain ⟨before,last⟩ := forall_mem_append.mp within
    obtain ⟨held,retains,mirrors⟩ := ih before
    obtain ⟨left,turns,after⟩ := step_turns free scaled mirrors (last call mem_cons_self)
    rw [foldl_append]
    exact ⟨left,retains.next turns,after⟩

theorem dead_nonces_retained_again : ∃ d held, [.add [] 1,.addMark,.add [] 1].foldl (step Demo.env) (.new 6000000000) = d ∧
    Retains Demo.env 6000000000 [.add [] 1,.addMark,.add [] 1] d held ∧ some ([],1) ∈ held := by
  have scaled : Scaled Demo.env := fun c least most => ⟨by simp only [Demo.env]; omega,by simp only [Demo.env]; omega⟩
  have within : ∀ call ∈ [DeadNonceCall.add [] 1,.addMark,.add [] 1], call.element ∈ ({none,some ([],1)} : Set DeadNonce) := by simp [DeadNonceCall.element]
  have free : Set.InjOn (entryOf Demo.env) {none,some ([],1)} := by
    rintro _ (rfl | rfl) _ (rfl | rfl) same
    · rfl
    · exact absurd same (by decide)
    · exact absurd same (by decide)
    · rfl
  obtain ⟨held,retains,_,_,_,has⟩ := dead_nonces_retained scaled free (.inl rfl) within rfl
  exact ⟨_,held,rfl,retains,(has [] 1 (.inr rfl)).mp (by decide)⟩

end DeadNonceList
end ReflexiveNfd
