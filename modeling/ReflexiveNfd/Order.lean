import Mathlib.Order.Compare
import ReflexiveNfd.Name

namespace ReflexiveNfd
open Std List

-- The comparisons of the source are lexicographic, hence total orders in which
-- only equal names are level.
theorem compareOctets_lex : compareOctets = List.compareLex (compareOn UInt8.toNat) := by
  funext left right
  induction left generalizing right with
  | nil => cases right <;> rfl
  | cons a rest ih =>
    cases right with
    | nil => rfl
    | cons b others =>
      simp only [compareOctets,List.compareLex,ih,compareOn]
      cases compare a.toNat b.toNat <;> rfl

instance : TransCmp compareOctets := by
  rw [compareOctets_lex]
  infer_instance

instance octet_lawful : LawfulEqCmp (compareOn UInt8.toNat) where
  compare_self := ReflCmp.compare_self
  eq_of_compare same := UInt8.toNat_inj.mp (Nat.compare_eq_eq.mp same)

instance : LawfulEqCmp compareOctets := by
  rw [compareOctets_lex]
  infer_instance

instance (octets : Component → List UInt8) : TransCmp (fun a b => compareOctets (octets a) (octets b)) where
  eq_swap := OrientedCmp.eq_swap
  isLE_trans := TransCmp.isLE_trans

instance : TransCmp Component.compare :=
  inferInstanceAs (TransCmp (compareLex (fun a b => compareOctets a.octets b.octets)
    (compareLex (compareOn Component.type) (fun a b => compareOctets a.value b.value))))

instance : LawfulEqCmp Component.compare where
  compare_self := ReflCmp.compare_self
  eq_of_compare {a b} equal := by
    obtain ⟨type,level⟩ := Ordering.then_eq_eq.mp (Ordering.then_eq_eq.mp equal).2
    have value := LawfulEqCmp.eq_of_compare level
    cases a
    cases b
    cases Nat.compare_eq_eq.mp type
    cases value
    rfl

theorem Name.compare_lex : Name.compare = List.compareLex Component.compare := by
  funext left right
  induction left generalizing right with
  | nil => cases right <;> rfl
  | cons a rest ih =>
    cases right with
    | nil => rfl
    | cons b others =>
      simp only [Name.compare,List.compareLex,ih]
      cases Component.compare a b <;> rfl

instance : TransCmp Name.compare := by
  rw [Name.compare_lex]
  infer_instance

instance : LawfulEqCmp Name.compare := by
  rw [Name.compare_lex]
  infer_instance

-- A name comes before the names below it, and these before all others that
-- come behind it.
theorem Name.compare_of_front (front : name <+: other) (proper : name ≠ other) : Name.compare name other = .lt := by
  induction name generalizing other with
  | nil =>
    cases other with
    | nil => exact absurd rfl proper
    | cons => rfl
  | cons c rest ih =>
    obtain ⟨tail,rfl⟩ := front
    have same : Component.compare c c = .eq := ReflCmp.compare_self
    rw [cons_append,Name.compare,same]
    refine ih (prefix_append rest tail) (fun equal => proper ?_)
    rw [cons_append,← equal]

theorem Name.front_of_between (after : Name.compare name middle = .lt) (before : Name.compare middle other = .lt)
    (front : name <+: other) : name <+: middle := by
  induction name generalizing middle other with
  | nil => exact nil_prefix
  | cons c rest ih =>
    obtain ⟨tail,rfl⟩ := front
    cases middle with
    | nil => cases after
    | cons d more =>
      rw [Name.compare] at after
      rw [cons_append,Name.compare] at before
      cases order : Component.compare c d with
      | lt =>
        rw [OrientedCmp.gt_of_lt order] at before
        cases before
      | gt =>
        rw [order] at after
        cases after
      | eq =>
        obtain rfl : c = d := LawfulEqCmp.eq_of_compare order
        rw [order] at after before
        exact cons_prefix_cons.mpr ⟨rfl,ih after before (prefix_append rest tail)⟩

end ReflexiveNfd
