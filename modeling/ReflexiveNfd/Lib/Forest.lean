import Mathlib.Data.List.Nodup
import Mathlib.Logic.Function.Basic

namespace Forest
open Function
variable {α β κ : Type*}

-- Ownership kept twice: by a pointer to the owner and by the owner's list.
structure Consistent (parent : β → Option α) (children : α → List β) : Prop where
  distinct : ∀ x, (children x).Nodup
  listed : ∀ x b, b ∈ children x ↔ parent b = some x

-- A forest is such an ownership among its nodes. They are labelled by paths, and
-- a node hangs below the one of its path's front. A node without a label is not
-- there.
structure Labelled (label : α → Option (List κ)) (parent : α → Option α) : Prop where
  absent : ∀ a, label a = none → parent a = none
  root : ∀ a, label a = some [] → parent a = none
  above : ∀ a path, label a = some path → path ≠ [] → ∃ p, parent a = some p ∧ label p = some path.dropLast

variable {a : α}

theorem Labelled.climb (labelled : Labelled label parent) (up : parent a = some p) :
    ∃ path, label a = some path ∧ path ≠ [] ∧ label p = some path.dropLast := by
  cases here : label a with
  | none => cases (labelled.absent a here).symm.trans up
  | some path =>
    have nonempty : path ≠ [] := by
      rintro rfl
      cases (labelled.root a here).symm.trans up
    obtain ⟨q,found,named⟩ := labelled.above a path here nonempty
    cases found.symm.trans up
    exact ⟨path,rfl,nonempty,named⟩

theorem Labelled.childless (labelled : Labelled label parent) (gone : label a = none) (b : α) : parent b ≠ some a := by
  intro up
  obtain ⟨_,_,_,live⟩ := labelled.climb up
  cases gone.symm.trans live

variable [DecidableEq α]

theorem Labelled.place (labelled : Labelled label parent) (childless : ∀ b, parent b ≠ some a)
    (gone : new = none → up = none) (root : new = some [] → up = none)
    (above : ∀ path, new = some path → path ≠ [] → ∃ p, up = some p ∧ p ≠ a ∧ label p = some path.dropLast) :
    Labelled (update label a new) (update parent a up) := by
  refine ⟨fun x none => ?_,fun x empty => ?_,fun x path named nonempty => ?_⟩ <;> by_cases here : x = a
  · subst here
    rw [update_self] at none ⊢
    exact gone none
  · rw [update_of_ne here] at none ⊢
    exact labelled.absent x none
  · subst here
    rw [update_self] at empty ⊢
    exact root empty
  · rw [update_of_ne here] at empty ⊢
    exact labelled.root x empty
  · subst here
    rw [update_self] at named ⊢
    obtain ⟨p,hung,other,there⟩ := above path named nonempty
    exact ⟨p,hung,by rw [update_of_ne other,there]⟩
  · rw [update_of_ne here] at named ⊢
    obtain ⟨p,hung,there⟩ := labelled.above x path named nonempty
    have other : p ≠ a := fun equal => childless x (equal ▸ hung)
    exact ⟨p,hung,by rw [update_of_ne other,there]⟩

variable [DecidableEq β] {owner : β → Option α} {children : α → List β} {xs : List β}

section
variable (consistent : Consistent owner children)
include consistent

theorem Consistent.hang (loose : owner b = none) (more : xs.Perm (b :: children p)) :
    Consistent (update owner b (some p)) (update children p xs) := by
  refine ⟨fun x => ?_,fun x c => ?_⟩
  · by_cases here : x = p
    · subst here
      rw [update_self,more.nodup_iff,List.nodup_cons]
      exact ⟨fun listed => (by cases loose.symm.trans ((consistent.listed x b).mp listed)),consistent.distinct x⟩
    · rw [update_of_ne here]
      exact consistent.distinct x
  · by_cases here : x = p <;> by_cases moved : c = b
    · simp [here,moved,more.mem_iff]
    · simp [here,moved,more.mem_iff,consistent.listed]
    · simp [here,moved,consistent.listed,loose,Ne.symm here]
    · simp [here,moved,consistent.listed]

theorem Consistent.unhang (hung : owner b = some p) (less : (children p).Perm (b :: xs)) :
    Consistent (update owner b none) (update children p xs) := by
  obtain ⟨unlisted,distinct⟩ := List.nodup_cons.mp (less.nodup_iff.mp (consistent.distinct p))
  refine ⟨fun x => ?_,fun x c => ?_⟩
  · by_cases here : x = p
    · rw [here,update_self]
      exact distinct
    · rw [update_of_ne here]
      exact consistent.distinct x
  · by_cases here : x = p <;> by_cases moved : c = b
    · simp [here,moved,unlisted]
    · have remaining := less.mem_iff (a := c)
      rw [List.mem_cons,or_iff_right moved] at remaining
      simp [here,moved,← remaining,consistent.listed]
    · simp [here,moved,consistent.listed,hung,Ne.symm here]
    · simp [here,moved,consistent.listed]

theorem Consistent.dissolve (gone : ∀ c, released c = if c ∈ children p then none else owner c) : Consistent released (update children p []) := by
  refine ⟨fun x => ?_,fun x c => ?_⟩
  · by_cases here : x = p
    · rw [here,update_self]
      exact List.nodup_nil
    · rw [update_of_ne here]
      exact consistent.distinct x
  · rw [gone]
    by_cases here : x = p
    · rw [here,update_self]
      split
      · simp
      · rename_i elsewhere
        rw [consistent.listed] at elsewhere
        simpa using elsewhere
    · rw [update_of_ne here,consistent.listed]
      split
      · rename_i inside
        rw [(consistent.listed p c).mp inside]
        simpa using Ne.symm here
      · rfl

end

end Forest
