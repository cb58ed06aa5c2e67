import Mathlib.Data.List.Basic
import Mathlib.Data.List.Perm.Basic

namespace Vectors
open List
variable {α : Type*}

-- The last element moves into the place of the erased one.
def eraseSwap [DecidableEq α] (xs : List α) (x : α) : List α :=
  match xs.getLast? with
  | none => []
  | some last => xs.dropLast.replace x last

theorem replace_perm [DecidableEq α] {front : List α} (inside : x ∈ front ++ [last]) :
    (front ++ [last]).Perm (x :: front.replace x last) := by
  induction front with
  | nil => rw [mem_singleton.mp inside]; rfl
  | cons head rest ih =>
    by_cases here : x = head
    · subst here
      simp
    · have later : x ∈ rest ++ [last] := (mem_cons.mp inside).resolve_left here
      have differs : (x == head) = false := beq_false_of_ne here
      have kept : (head :: rest).replace x last = head :: rest.replace x last := by simp [replace_cons,differs]
      rw [kept]
      exact ((ih later).cons head).trans (Perm.swap x head _)

theorem eraseSwap_perm [DecidableEq α] {xs : List α} (inside : x ∈ xs) : xs.Perm (x :: eraseSwap xs x) := by
  obtain rfl | ⟨front,last,rfl⟩ := eq_nil_or_concat' xs
  · cases inside
  · simpa only [eraseSwap,List.getLast?_concat,dropLast_concat] using replace_perm inside

theorem replace_perm_erase [DecidableEq α] {xs : List α} (inside : x ∈ xs) : (xs.replace x y).Perm (y :: xs.erase x) := by
  induction xs with
  | nil => cases inside
  | cons head rest ih =>
    by_cases here : x = head
    · subst here
      simp
    · have later : x ∈ rest := (mem_cons.mp inside).resolve_left here
      rw [replace_cons,beq_false_of_ne here,erase_cons_tail (by simpa using Ne.symm here)]
      exact ((ih later).cons head).trans (Perm.swap y head _)

end Vectors
