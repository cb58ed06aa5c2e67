import Mathlib.Data.List.TakeWhile

namespace UpperBound
open List
variable {α : Type*} {after : α → Bool} {front back xs : List α} {x : α}

-- A binary search for the first element that is after the value sought. The
-- interval has len elements from first on.
def search (after : α → Bool) (xs : List α) : Nat → Nat → Nat → Nat
  | 0,first,_ => first
  | steps + 1,first,len =>
    if len = 0 then first
    else if xs[first + len / 2]?.any after then search after xs steps first (len / 2)
    else search after xs steps (first + len / 2 + 1) (len - len / 2 - 1)

def position (after : α → Bool) (xs : List α) : Nat := search after xs xs.length 0 xs.length

def insert (after : α → Bool) (x : α) (xs : List α) : List α := xs.take (position after xs) ++ x :: xs.drop (position after xs)

theorem search_partitioned (low : ∀ a ∈ front, after a = false) (high : ∀ a ∈ back, after a)
    (enough : len ≤ steps) (below : first ≤ front.length) (above : front.length ≤ first + len) (within : first + len ≤ (front ++ back).length) :
    search after (front ++ back) steps first len = front.length := by
  induction steps generalizing first len with
  | zero =>
    rw [search]
    omega
  | succ steps ih =>
    rw [search]
    split
    · omega
    have inside : first + len / 2 < (front ++ back).length := by omega
    -- Which half is kept says on which side of the boundary the middle is.
    by_cases left : first + len / 2 < front.length
    · have middle : (front ++ back)[first + len / 2]?.any after = false := by
        rw [List.getElem?_append_left left,List.getElem?_eq_getElem left,Option.any_some]
        exact low _ (getElem_mem left)
      rw [if_neg (by simp [middle])]
      exact ih (by omega) (by omega) (by omega) (by omega)
    · have reach : first + len / 2 - front.length < back.length := by
        rw [length_append] at inside
        omega
      have middle : (front ++ back)[first + len / 2]?.any after := by
        rw [List.getElem?_append_right (by omega),List.getElem?_eq_getElem reach,Option.any_some]
        exact high _ (getElem_mem reach)
      rw [if_pos middle]
      exact ih (by omega) (by omega) (by omega) (by omega)

theorem insert_partitioned (low : ∀ a ∈ front, after a = false) (high : ∀ a ∈ back, after a) :
    insert after x (front ++ back) = front ++ x :: back := by
  have found : position after (front ++ back) = front.length :=
    search_partitioned low high (Nat.le_refl _) (Nat.zero_le _) (by simp) (by simp)
  rw [insert,found,take_left,drop_left]

theorem dropWhile_after (partitioned : xs.Pairwise (fun a b => after a → after b)) :
    ∀ a ∈ xs.dropWhile (fun a => !after a), after a := by
  induction xs with
  | nil => simp
  | cons first rest ih =>
    obtain ⟨behind,later⟩ := pairwise_cons.mp partitioned
    by_cases here : after first
    · rw [dropWhile_cons_of_neg (by simp [here])]
      exact forall_mem_cons.mpr ⟨here,fun a present => behind a present here⟩
    · rw [dropWhile_cons_of_pos (by simpa using here)]
      exact ih later

theorem insert_eq (partitioned : xs.Pairwise (fun a b => after a → after b)) :
    insert after x xs = xs.takeWhile (fun a => !after a) ++ x :: xs.dropWhile (fun a => !after a) := by
  have low : ∀ a ∈ xs.takeWhile (fun a => !after a), after a = false := fun a present => by
    simpa using mem_takeWhile_imp present
  have split := insert_partitioned (x := x) low (dropWhile_after partitioned)
  rwa [takeWhile_append_dropWhile] at split

end UpperBound
