import Mathlib.Data.List.Nodup

-- Requests that are checked when they arrive and take effect when they are
-- admitted, which may be later and in another order.
namespace Admission
open List
variable {κ α : Type} [DecidableEq κ] {R : α → α → Prop}

structure Desk (κ α : Type) where
  waiting : List (Nat × κ × α)
  admitted : List (κ × α)
  deriving DecidableEq, Repr

namespace Desk

section
variable (d : Desk κ α) (id : Nat) (key : κ) (x : α)

def of : List α := d.admitted.filterMap (fun e => if e.1 = key then some e.2 else none)

def arrive : Desk κ α := { d with waiting := d.waiting ++ [(id,key,x)] }

def leave : Desk κ α := { d with waiting := d.waiting.filter (fun o => o.1 ≠ id) }

def accept : Desk κ α := { d.leave id with admitted := d.admitted ++ [(key,x)] }

end

theorem of_accept {d : Desk κ α} {id : Nat} :
    (d.accept id key x).of other = d.of other ++ if key = other then [x] else [] := by
  rw [of,accept,filterMap_append]
  congr 1
  split
  · rename_i same
    simp [same]
  · rename_i different
    simp [different]

end Desk

-- One request waits for a key at a time, it may follow all that have been
-- admitted for the key, and those follow each other.
structure Ordered (R : α → α → Prop) (d : Desk κ α) : Prop where
  apart : (d.waiting.map (fun o => o.2.1)).Nodup
  fits : ∀ o ∈ d.waiting, ∀ a ∈ d.of o.2.1, R a o.2.2
  sorted : ∀ key, (d.of key).Pairwise R

variable {d : Desk κ α} {id : Nat} {key : κ} {x : α}

theorem Ordered.arrive (ordered : Ordered R d) (free : ∀ o ∈ d.waiting, o.2.1 ≠ key) (checked : ∀ a ∈ d.of key, R a x) :
    Ordered R (d.arrive id key x) := by
  refine ⟨?_,fun o listed => ?_,ordered.sorted⟩
  · rw [Desk.arrive,map_append]
    refine nodup_append.mpr ⟨ordered.apart,nodup_singleton _,?_⟩
    intro a inside b new
    obtain ⟨o,listed,rfl⟩ := mem_map.mp inside
    rw [map_singleton,mem_singleton] at new
    rw [new]
    exact free o listed
  · rcases mem_append.mp listed with old | new
    · exact ordered.fits o old
    · cases mem_singleton.mp new
      exact checked

theorem Ordered.leave (ordered : Ordered R d) : Ordered R (d.leave id) := by
  refine ⟨?_,fun o listed => ordered.fits o (mem_of_mem_filter listed),ordered.sorted⟩
  exact ordered.apart.sublist (filter_sublist.map _)

theorem Ordered.accept (ordered : Ordered R d) (waits : (id,key,x) ∈ d.waiting) : Ordered R (d.accept id key x) := by
  have left : Ordered R (d.leave id) := ordered.leave
  refine ⟨left.apart,fun o listed => ?_,fun other => ?_⟩
  · obtain ⟨waiting,different⟩ := mem_filter.mp listed
    have elsewhere : key ≠ o.2.1 := by
      intro same
      have equal : (id,key,x) = o := inj_on_of_nodup_map ordered.apart waits waiting same
      rw [← equal] at different
      simp at different
    rw [Desk.of_accept,if_neg elsewhere,append_nil]
    exact ordered.fits o waiting
  · rw [Desk.of_accept]
    split
    · rename_i same
      refine pairwise_append.mpr ⟨ordered.sorted other,pairwise_singleton ..,fun a inside b new => ?_⟩
      cases mem_singleton.mp new
      exact ordered.fits _ waits a (same ▸ inside)
    · rw [append_nil]
      exact ordered.sorted other

end Admission
