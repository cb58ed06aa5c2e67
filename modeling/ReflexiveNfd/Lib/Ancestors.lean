import Mathlib.Data.List.Basic
import Mathlib.Logic.Function.Basic

namespace Ancestors
open List Function
variable {κ : Type*} {S T : List κ → Bool} {path other p q : List κ}

def above (S : List κ → Bool) (path : List κ) : Nat → Option (List κ)
  | 0 => none
  | i + 1 => if S (path.take i) then some (path.take i) else above S path i

def nearest (S : List κ → Bool) (path : List κ) : Option (List κ) := above S path path.length

structure IsNearest (S : List κ → Bool) (path p : List κ) : Prop where
  front : p <+: path
  proper : p ≠ path
  inside : S p
  longest : ∀ q, q <+: path → q ≠ path → S q → q <+: p

theorem above_some (within : i ≤ path.length) (found : above S path i = some p) :
    ∃ j, j < i ∧ p = path.take j ∧ S p ∧ ∀ k, j < k → k < i → S (path.take k) = false := by
  induction i with
  | zero => cases found
  | succ i ih =>
    rw [above] at found
    split at found
    · rename_i inside
      cases found
      exact ⟨i,Nat.lt_succ_self i,rfl,inside,fun k after before => absurd after (by omega)⟩
    · rename_i outside
      obtain ⟨j,less,same,inside,between⟩ := ih (by omega) found
      refine ⟨j,by omega,same,inside,fun k after before => ?_⟩
      by_cases last : k = i
      · rw [last]
        simpa using outside
      · exact between k after (by omega)

theorem above_none (missing : above S path i = none) : ∀ k, k < i → S (path.take k) = false := by
  induction i with
  | zero => intro k less; cases less
  | succ i ih =>
    rw [above] at missing
    split at missing
    · cases missing
    · rename_i outside
      intro k less
      by_cases last : k = i
      · rw [last]
        simpa using outside
      · exact ih missing k (by omega)

theorem proper_length (front : p <+: path) (proper : p ≠ path) : p.length < path.length := by
  refine Nat.lt_of_le_of_ne front.length_le (fun same => proper (front.eq_of_length same))

theorem IsNearest.unique (left : IsNearest S path p) (right : IsNearest S path q) : p = q :=
  (right.longest p left.front left.proper left.inside).eq_of_length
    (Nat.le_antisymm (right.longest p left.front left.proper left.inside).length_le
      (left.longest q right.front right.proper right.inside).length_le)

theorem isNearest_of_nearest (found : nearest S path = some p) : IsNearest S path p := by
  obtain ⟨j,less,rfl,inside,between⟩ := above_some (Nat.le_refl _) found
  refine ⟨List.take_prefix j path,fun same => ?_,inside,fun q front proper member => ?_⟩
  · have := congrArg List.length same
    rw [length_take] at this
    omega
  · have short := proper_length front proper
    rw [prefix_iff_eq_take.mp front] at member ⊢
    rcases Nat.lt_or_ge j q.length with longer | shorter
    · rw [between _ longer short] at member
      cases member
    · exact take_prefix_take_left shorter

theorem nearest_eq_none : nearest S path = none ↔ ∀ q, q <+: path → q ≠ path → S q = false := by
  constructor
  · intro missing q front proper
    have outside := above_none missing q.length (proper_length front proper)
    rwa [← prefix_iff_eq_take.mp front] at outside
  · intro outside
    cases found : nearest S path with
    | none => rfl
    | some p =>
      have near := isNearest_of_nearest found
      cases (outside p near.front near.proper).symm.trans near.inside

theorem nearest_eq_some : nearest S path = some p ↔ IsNearest S path p := by
  constructor
  · exact isNearest_of_nearest
  · intro near
    cases found : nearest S path with
    | none =>
      have outside := nearest_eq_none.mp found p near.front near.proper
      rw [near.inside] at outside
      cases outside
    | some q => rw [near.unique (isNearest_of_nearest found)]

theorem nearest_congr (same : ∀ q, q <+: path → q ≠ path → S q = T q) : nearest S path = nearest T path := by
  cases found : nearest T path with
  | none =>
    refine nearest_eq_none.mpr (fun q front proper => ?_)
    rw [same q front proper]
    exact nearest_eq_none.mp found q front proper
  | some p =>
    obtain ⟨front,proper,inside,longest⟩ := nearest_eq_some.mp found
    refine nearest_eq_some.mpr ⟨front,proper,(same p front proper).trans inside,fun q frontQ properQ member => ?_⟩
    exact longest q frontQ properQ ((same q frontQ properQ).symm.trans member)

theorem IsNearest.through (near : IsNearest S path p) (front : other <+: path) (shorter : p.length < other.length) : IsNearest S other p := by
  refine ⟨prefix_of_prefix_length_le near.front front (Nat.le_of_lt shorter),?_,near.inside,fun q frontQ properQ member => ?_⟩
  · rintro rfl
    exact Nat.lt_irrefl _ shorter
  · refine near.longest q (frontQ.trans front) ?_ member
    rintro rfl
    exact properQ (frontQ.eq_of_length_le front.length_le)

variable [DecidableEq κ]

-- A path that joins the set comes between the paths below it and the ancestor
-- they had in common.
theorem nearest_insert (absent : S other = false) : nearest (update S other true) path =
    if other <+: path ∧ other ≠ path ∧ nearest S path = nearest S other then some other else nearest S path := by
  by_cases below : other <+: path ∧ other ≠ path
  · obtain ⟨front,proper⟩ := below
    cases found : nearest S path with
    | none =>
      have missing := nearest_eq_none.mp found
      have also : nearest S other = none := nearest_eq_none.mpr (fun q frontQ properQ => missing q (frontQ.trans front)
        (by rintro rfl; exact properQ (frontQ.eq_of_length_le front.length_le)))
      rw [if_pos ⟨front,proper,also.symm⟩]
      refine nearest_eq_some.mpr ⟨front,proper,update_self ..,fun q frontQ properQ member => ?_⟩
      by_cases here : q = other
      · exact here ▸ prefix_rfl
      · rw [update_of_ne here,missing q frontQ properQ] at member
        cases member
    | some p =>
      have near := nearest_eq_some.mp found
      rcases Nat.lt_trichotomy p.length other.length with shorter | same | longer
      · have through := nearest_eq_some.mpr (near.through front shorter)
        rw [if_pos ⟨front,proper,through.symm⟩]
        refine nearest_eq_some.mpr ⟨front,proper,update_self ..,fun q frontQ properQ member => ?_⟩
        by_cases here : q = other
        · exact here ▸ prefix_rfl
        · rw [update_of_ne here] at member
          exact (near.longest q frontQ properQ member).trans (prefix_of_prefix_length_le near.front front (Nat.le_of_lt shorter))
      · have equal := (prefix_of_prefix_length_le near.front front (Nat.le_of_eq same)).eq_of_length same
        rw [← equal,near.inside] at absent
        cases absent
      · have apart : some p ≠ nearest S other := by
          intro same
          exact Nat.lt_irrefl _ (Nat.lt_trans longer (proper_length (nearest_eq_some.mp same.symm).front (nearest_eq_some.mp same.symm).proper))
        rw [if_neg (fun all => apart all.2.2)]
        have kept : p ≠ other := by rintro rfl; exact Nat.lt_irrefl _ longer
        refine nearest_eq_some.mpr ⟨near.front,near.proper,(update_of_ne kept ..).trans near.inside,fun q frontQ properQ member => ?_⟩
        by_cases here : q = other
        · rw [here]
          exact prefix_of_prefix_length_le front near.front (Nat.le_of_lt longer)
        · rw [update_of_ne here] at member
          exact near.longest q frontQ properQ member
  · rw [if_neg (fun all => below ⟨all.1,all.2.1⟩)]
    refine nearest_congr (fun q front proper => update_of_ne ?_ ..)
    rintro rfl
    exact below ⟨front,proper⟩

theorem nearest_erase : nearest (update S other false) path = if nearest S path = some other then nearest S other else nearest S path := by
  have unchanged : ∀ q, q ≠ other → update S other false q = S q := fun q apart => update_of_ne apart ..
  have smaller : ∀ q, update S other false q → q ≠ other ∧ S q := by
    intro q member
    have apart : q ≠ other := by
      rintro rfl
      rw [update_self] at member
      cases member
    exact ⟨apart,(unchanged q apart).symm.trans member⟩
  by_cases here : nearest S path = some other
  · rw [if_pos here]
    have near := nearest_eq_some.mp here
    cases found : nearest S other with
    | none =>
      refine nearest_eq_none.mpr (fun q front proper => Bool.eq_false_iff.mpr (fun member => ?_))
      obtain ⟨apart,inside⟩ := smaller q member
      have below := near.longest q front proper inside
      rw [nearest_eq_none.mp found q below apart] at inside
      cases inside
    | some p =>
      have next := nearest_eq_some.mp found
      refine nearest_eq_some.mpr ⟨next.front.trans near.front,?_,(unchanged p next.proper).trans next.inside,fun q front proper member => ?_⟩
      · rintro rfl
        exact next.proper (next.front.eq_of_length_le near.front.length_le)
      · obtain ⟨apart,inside⟩ := smaller q member
        exact next.longest q (near.longest q front proper inside) apart inside
  · rw [if_neg here]
    cases found : nearest S path with
    | none =>
      refine nearest_eq_none.mpr (fun q front proper => Bool.eq_false_iff.mpr (fun member => ?_))
      cases (nearest_eq_none.mp found q front proper).symm.trans (smaller q member).2
    | some p =>
      obtain ⟨front,proper,inside,longest⟩ := nearest_eq_some.mp found
      have apart : p ≠ other := fun same => here (same ▸ found)
      exact nearest_eq_some.mpr ⟨front,proper,(unchanged p apart).trans inside,fun q frontQ properQ member => longest q frontQ properQ (smaller q member).2⟩

end Ancestors
