import Mathlib.Data.List.Basic

namespace LongestPrefix
variable {κ α β : Type*}

-- What is kept at the longest of the prefixes of at most depth components, among
-- those that anything is kept at.
inductive Longest (kept : List κ → α → Prop) (name : List κ) (depth : Nat) : Option α → Prop where
  | here (k : Nat) : k ≤ depth → kept (name.take k) x → (∀ i, k < i → i ≤ depth → ∀ y, ¬ kept (name.take i) y) → Longest kept name depth (some x)
  | nowhere : (∀ i ≤ depth, ∀ y, ¬ kept (name.take i) y) → Longest kept name depth none

variable {name : List κ} {f : Option α}

namespace Longest

theorem unique (single : ∀ path x y, kept path x → kept path y → x = y) (first : Longest kept name depth f) (second : Longest kept name depth g) :
    f = g := by
  cases first with
  | nowhere bare =>
    cases second with
    | nowhere _ => rfl
    | here k within held _ => exact absurd held (bare k within _)
  | here k within held bare =>
    cases second with
    | nowhere bare => exact absurd held (bare k within _)
    | here j inside also above =>
      rcases Nat.lt_trichotomy k j with below | rfl | beyond
      · exact absurd also (bare j below inside _)
      · rw [single _ _ _ held also]
      · exact absurd held (above k beyond within _)

theorem zero (held : kept [] x) : Longest kept name 0 (some x) := .here 0 (Nat.le_refl 0) held fun i beyond within => by omega

theorem zero_bare (bare : ∀ y, ¬ kept [] y) : Longest kept name 0 none :=
  .nowhere fun i within => by rw [Nat.le_zero.mp within]; exact bare

theorem succ (held : kept (name.take (depth + 1)) x) : Longest kept name (depth + 1) (some x) :=
  .here (depth + 1) (Nat.le_refl _) held fun i beyond within => by omega

theorem succ_bare (bare : ∀ y, ¬ kept (name.take (depth + 1)) y) (rest : Longest kept name depth f) : Longest kept name (depth + 1) f := by
  cases rest with
  | here k within held above =>
    refine .here k (Nat.le_succ_of_le within) held fun i beyond inside => ?_
    rcases Nat.le_succ_iff.mp inside with earlier | rfl
    · exact above i beyond earlier
    · exact bare
  | nowhere below =>
    refine .nowhere fun i inside => ?_
    rcases Nat.le_succ_iff.mp inside with earlier | rfl
    · exact below i earlier
    · exact bare

theorem take_iff (enough : depth ≤ m) : Longest kept (name.take m) depth f ↔ Longest kept name depth f := by
  have same : ∀ i ≤ depth, (name.take m).take i = name.take i := fun i within => by
    rw [List.take_take,Nat.min_eq_left (Nat.le_trans within enough)]
  constructor
  · rintro (⟨k,within,held,bare⟩ | bare)
    · exact .here k within (same k within ▸ held) fun i beyond inside => same i inside ▸ bare i beyond inside
    · exact .nowhere fun i inside => same i inside ▸ bare i inside
  · rintro (⟨k,within,held,bare⟩ | bare)
    · exact .here k within (by rw [same k within]; exact held) fun i beyond inside => by rw [same i inside]; exact bare i beyond inside
    · exact .nowhere fun i inside => by rw [same i inside]; exact bare i inside

theorem congr (same : ∀ path x, kept path x ↔ other path x) : Longest kept name depth f ↔ Longest other name depth f := by
  obtain rfl : kept = other := funext fun path => funext fun x => propext (same path x)
  rfl

theorem bind {read : α → Option β} (total : ∀ path x, kept path x → ∃ y, read x = some y)
    (same : ∀ path y, image path y ↔ ∃ x, kept path x ∧ read x = some y) (longest : Longest kept name depth f) :
    Longest image name depth (f.bind read) := by
  have empty : ∀ path, (∀ x, ¬ kept path x) → ∀ y, ¬ image path y := fun path bare y held => by
    obtain ⟨x,there,_⟩ := (same path y).mp held
    exact bare x there
  cases longest with
  | @here x k within held bare =>
    obtain ⟨y,value⟩ := total _ x held
    rw [Option.bind_some,value]
    exact .here k within ((same _ y).mpr ⟨x,held,value⟩) fun i beyond inside => empty _ (bare i beyond inside)
  | nowhere bare => exact .nowhere fun i inside => empty _ (bare i inside)

theorem somewhere (root : kept [] x) (longest : Longest kept name depth f) : ∃ y, f = some y := by
  cases longest with
  | here k _ _ _ => exact ⟨_,rfl⟩
  | nowhere bare => exact absurd root (bare 0 (Nat.zero_le _) x)

end Longest
end LongestPrefix
