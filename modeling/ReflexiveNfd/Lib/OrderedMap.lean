import Mathlib.Order.Compare
import Mathlib.Algebra.GroupWithZero.Nat
import Mathlib.Data.List.Basic

open Std

-- A map whose entries are in the order of their keys. Keys take the place of
-- iterators: one is valid while there is an entry with the key.
structure OrderedMap (κ ν : Type) (cmp : κ → κ → Ordering) where
  entries : List (κ × ν)
  ascending : entries.Pairwise (fun a b => cmp a.1 b.1 = .lt)

namespace OrderedMap
open List Option
variable {κ ν : Type} {cmp : κ → κ → Ordering}

def empty : OrderedMap κ ν cmp := ⟨[],Pairwise.nil⟩

def insertEntry (cmp : κ → κ → Ordering) (k : κ) (v : ν) : List (κ × ν) → List (κ × ν)
  | [] => [(k,v)]
  | (j,w) :: rest => match cmp k j with
      | .lt => (k,v) :: (j,w) :: rest
      | .eq => (k,v) :: rest
      | .gt => (j,w) :: insertEntry cmp k v rest

variable [TransCmp cmp] [LawfulEqCmp cmp]

omit [LawfulEqCmp cmp] in
theorem not_lt_self (less : cmp k k = .lt) : False := by
  have self : cmp k k = .eq := ReflCmp.compare_self
  rw [self] at less
  cases less

section
variable (k : κ) (v : ν) {entries : List (κ × ν)} (ascending : entries.Pairwise (fun a b => cmp a.1 b.1 = .lt))
include ascending

theorem insertEntry_perm :
    (insertEntry cmp k v entries).Perm ((k,v) :: entries.filter (fun e => cmp k e.1 != .eq)) := by
  induction entries with
  | nil => exact .refl _
  | cons first rest ih =>
    obtain ⟨above,later⟩ := pairwise_cons.mp ascending
    cases order : cmp k first.1 with
    | lt =>
      have all : ∀ e ∈ first :: rest, (cmp k e.1 != .eq) :=
        forall_mem_cons.mpr ⟨by simp [order],fun e inside => by simp [TransCmp.lt_trans order (above e inside)]⟩
      simp [insertEntry,order,filter_eq_self.mpr all]
    | eq =>
      have all : ∀ e ∈ rest, (cmp k e.1 != .eq) := fun e inside => by simp [LawfulEqCmp.eq_of_compare order,above e inside]
      simp [insertEntry,order,filter_eq_self.mpr all]
    | gt =>
      simp only [insertEntry,order]
      rw [filter_cons_of_pos (by simp [order])]
      exact ((ih later).cons first).trans (.swap ..)

theorem insertEntry_ascending :
    (insertEntry cmp k v entries).Pairwise (fun a b => cmp a.1 b.1 = .lt) := by
  induction entries with
  | nil => exact pairwise_singleton ..
  | cons first rest ih =>
    obtain ⟨above,later⟩ := pairwise_cons.mp ascending
    rw [insertEntry]
    split
    · rename_i less
      refine pairwise_cons.mpr ⟨fun e present => ?_,ascending⟩
      rcases mem_cons.mp present with rfl | inside
      · exact less
      · exact TransCmp.lt_trans less (above e inside)
    · rename_i same
      have equal : k = first.1 := LawfulEqCmp.eq_of_compare same
      exact pairwise_cons.mpr ⟨fun e inside => equal ▸ above e inside,later⟩
    · rename_i more
      refine pairwise_cons.mpr ⟨fun e present => ?_,ih later⟩
      rcases mem_cons.mp ((insertEntry_perm k v later).mem_iff.mp present) with rfl | inside
      · exact OrientedCmp.lt_of_gt more
      · exact above e (mem_filter.mp inside).1

end

section
variable (m : OrderedMap κ ν cmp)

def find (k : κ) : Option ν := (m.entries.find? (fun e => cmp k e.1 == .eq)).map Prod.snd

def insert (k : κ) (v : ν) : OrderedMap κ ν cmp :=
  ⟨insertEntry cmp k v m.entries,insertEntry_ascending k v m.ascending⟩

def erase (k : κ) : OrderedMap κ ν cmp :=
  ⟨m.entries.filter (fun e => cmp k e.1 != .eq),m.ascending.filter _⟩

def begin? : Option κ := m.entries.head?.map Prod.fst

def next? (k : κ) : Option κ := (m.entries.find? (fun e => cmp k e.1 == .lt)).map Prod.fst

def size : Nat := m.entries.length

end

variable {m : OrderedMap κ ν cmp} {k j : κ} {v w : ν}

theorem find_eq_some : m.find k = some v ↔ (k,v) ∈ m.entries := by
  obtain ⟨entries,ascending⟩ := m
  simp only [find]
  induction entries with
  | nil => simp
  | cons first rest ih =>
    obtain ⟨above,later⟩ := pairwise_cons.mp ascending
    by_cases same : cmp k first.1 = .eq
    · have equal : k = first.1 := LawfulEqCmp.eq_of_compare same
      rw [List.find?_cons_of_pos (by simp [same]),mem_cons]
      constructor
      · intro found
        exact .inl (by rw [equal,← some.inj found])
      · rintro (rfl | inside)
        · rfl
        · have less := above (k,v) inside
          exact absurd (equal ▸ less : cmp k k = .lt) not_lt_self
    · rw [List.find?_cons_of_neg (by simp [same]),ih later,mem_cons]
      constructor
      · exact .inr
      · rintro (rfl | inside)
        · exact absurd ReflCmp.compare_self same
        · exact inside

theorem mem_insert : e ∈ (m.insert k v).entries ↔ e = (k,v) ∨ e ∈ m.entries ∧ e.1 ≠ k := by
  have differ : (cmp k e.1 != .eq) ↔ e.1 ≠ k := by
    rw [bne_iff_ne,ne_eq,LawfulEqCmp.compare_eq_iff_eq,ne_comm]
  rw [insert,(insertEntry_perm k v m.ascending).mem_iff,mem_cons,mem_filter,differ]

@[simp] theorem find_insert_self : (m.insert k v).find k = some v := find_eq_some.mpr (mem_insert.mpr (.inl rfl))

theorem find_insert_ne (apart : j ≠ k) : (m.insert k v).find j = m.find j := by
  refine Option.ext (fun w => ?_)
  rw [find_eq_some,find_eq_some,mem_insert]
  exact ⟨fun either => (either.resolve_left (fun same => apart (Prod.mk.inj same).1)).1,fun inside => .inr ⟨inside,apart⟩⟩

theorem find_insert (m : OrderedMap κ ν cmp) (k j : κ) (v : ν) [DecidableEq κ] :
    (m.insert k v).find j = if j = k then some v else m.find j := by
  split
  · rename_i same
    rw [same,find_insert_self]
  · rename_i apart
    exact find_insert_ne apart

@[simp] theorem find_erase_self : (m.erase k).find k = none := by
  refine eq_none_iff_forall_ne_some.mpr (fun w found => ?_)
  have kept := (mem_filter.mp (find_eq_some.mp found)).2
  simp [ReflCmp.compare_self] at kept

theorem find_erase_ne (apart : j ≠ k) : (m.erase k).find j = m.find j := by
  refine Option.ext (fun w => ?_)
  rw [find_eq_some,find_eq_some]
  refine ⟨fun present => (mem_filter.mp present).1,fun present => mem_filter.mpr ⟨present,?_⟩⟩
  have differ : cmp k j ≠ .eq := fun same => apart (LawfulEqCmp.eq_of_compare same).symm
  simpa using differ

theorem begin?_eq_none : m.begin? = none ↔ ∀ j, m.find j = none := by
  constructor
  · intro none j
    rw [begin?,map_eq_none_iff,List.head?_eq_none_iff] at none
    rw [find,none]
    rfl
  · intro none
    cases first : m.begin? with
    | none => rfl
    | some k =>
      obtain ⟨e,head,rfl⟩ := map_eq_some_iff.mp first
      have present := find_eq_some.mpr (mem_of_mem_head? head)
      rw [none] at present
      cases present

theorem begin?_spec (first : m.begin? = some k) : (∃ v, m.find k = some v) ∧ ∀ j w, m.find j = some w → cmp j k ≠ .lt := by
  obtain ⟨entries,ascending⟩ := m
  obtain ⟨e,head,rfl⟩ := map_eq_some_iff.mp first
  obtain ⟨rest,rfl⟩ := List.head?_eq_some_iff.mp head
  refine ⟨⟨e.2,find_eq_some.mpr mem_cons_self⟩,fun j w found less => ?_⟩
  rcases mem_cons.mp (find_eq_some.mp found) with same | inside
  · subst same
    exact not_lt_self less
  · have more := (pairwise_cons.mp ascending).1 _ inside
    rw [OrientedCmp.gt_of_lt more] at less
    cases less

theorem next?_spec (next : m.next? k = some j) :
    (∃ v, m.find j = some v) ∧ cmp k j = .lt ∧ ∀ i w, m.find i = some w → cmp k i = .lt → cmp i j ≠ .lt := by
  obtain ⟨entries,ascending⟩ := m
  obtain ⟨e,found,rfl⟩ := map_eq_some_iff.mp next
  obtain ⟨behind,front,back,split,before⟩ := List.find?_eq_some_iff_append.mp found
  subst split
  have behind : cmp k e.1 = .lt := by simpa using behind
  refine ⟨⟨e.2,find_eq_some.mpr (mem_append_right front mem_cons_self)⟩,behind,fun i w present after less => ?_⟩
  rcases mem_append.mp (find_eq_some.mp present) with inside | inside
  · have := before _ inside
    simp [after] at this
  · rcases mem_cons.mp inside with same | later
    · subst same
      exact not_lt_self less
    · have more := (pairwise_cons.mp (pairwise_append.mp ascending).2.1).1 _ later
      rw [OrientedCmp.gt_of_lt more] at less
      cases less

theorem next?_eq_none (last : m.next? k = none) : ∀ i w, m.find i = some w → cmp k i ≠ .lt := by
  intro i w present
  rw [next?,map_eq_none_iff,List.find?_eq_none] at last
  simpa using last _ (find_eq_some.mp present)

def keys (m : OrderedMap κ ν cmp) : List κ := m.entries.map Prod.fst

theorem mem_keys : k ∈ m.keys ↔ ∃ v, m.find k = some v := by
  simp [keys,find_eq_some]

omit [LawfulEqCmp cmp] in
theorem keys_nodup (m : OrderedMap κ ν cmp) : m.keys.Nodup := by
  refine pairwise_map.mpr (m.ascending.imp (fun {a b} less same => ?_))
  rw [same] at less
  exact not_lt_self less

theorem map_insertEntry {α : Type} {see : κ × ν → α} {entries : List (κ × ν)} (ascending : entries.Pairwise (fun a b => cmp a.1 b.1 = .lt))
    (present : (k,w) ∈ entries) (same : see (k,v) = see (k,w)) : (insertEntry cmp k v entries).map see = entries.map see := by
  induction entries with
  | nil => cases present
  | cons first rest ih =>
    obtain ⟨above,later⟩ := pairwise_cons.mp ascending
    rcases mem_cons.mp present with rfl | behind
    · have here : cmp k k = .eq := ReflCmp.compare_self
      rw [insertEntry,here,map_cons,map_cons,same]
    · have more : cmp k first.1 = .gt := OrientedCmp.gt_of_lt (above _ behind)
      rw [insertEntry,more,map_cons,map_cons,ih later behind]

theorem map_insert {α : Type} {see : κ × ν → α} (found : m.find k = some w) (same : see (k,v) = see (k,w)) :
    (m.insert k v).entries.map see = m.entries.map see :=
  map_insertEntry m.ascending (find_eq_some.mp found) same

theorem keys_insert (present : k ∈ m.keys) : (m.insert k v).keys = m.keys := by
  obtain ⟨w,found⟩ := mem_keys.mp present
  exact map_insert found rfl

omit [TransCmp cmp] [LawfulEqCmp cmp] in
theorem map_find (see : ν → α) (m : OrderedMap κ ν cmp) (k : κ) :
    (m.find k).map see = ((m.entries.map (fun e => (e.1,see e.2))).find? (fun e => cmp k e.1 == .eq)).map Prod.snd := by
  rw [List.find?_map,find,Option.map_map,Option.map_map]
  rfl

def total (weight : ν → Nat) (m : OrderedMap κ ν cmp) : Nat := (m.entries.map (fun e => weight e.2)).sum

omit [TransCmp cmp] in
theorem total_erase (weight : ν → Nat) (m : OrderedMap κ ν cmp) (k : κ) :
    (m.erase k).total weight + ((m.find k).map weight).getD 0 = m.total weight := by
  obtain ⟨entries,ascending⟩ := m
  simp only [total,erase,find]
  induction entries with
  | nil => rfl
  | cons first rest ih =>
    obtain ⟨above,later⟩ := pairwise_cons.mp ascending
    by_cases here : cmp k first.1 = .eq
    · have equal : k = first.1 := LawfulEqCmp.eq_of_compare here
      have all : rest.filter (fun e => cmp k e.1 != .eq) = rest := by
        refine filter_eq_self.mpr (fun e inside => ?_)
        have less : cmp k e.1 = .lt := equal ▸ above e inside
        simp [less]
      simp [here,all]
      omega
    · have tail := ih later
      have skipped : (first :: rest).find? (fun e => cmp k e.1 == .eq) = rest.find? (fun e => cmp k e.1 == .eq) :=
        List.find?_cons_of_neg (by simpa using here)
      have kept : (first :: rest).filter (fun e => cmp k e.1 != .eq) = first :: rest.filter (fun e => cmp k e.1 != .eq) :=
        filter_cons_of_pos (by simpa using here)
      simp only [skipped,kept,map_cons,sum_cons]
      omega

theorem total_insert (weight : ν → Nat) (m : OrderedMap κ ν cmp) (k : κ) (v : ν) :
    (m.insert k v).total weight + ((m.find k).map weight).getD 0 = m.total weight + weight v := by
  have sum := ((insertEntry_perm k v m.ascending).map (fun e => weight e.2)).sum_nat
  have rest := total_erase weight m k
  simp only [total,insert,erase,map_cons,sum_cons] at sum rest ⊢
  omega

theorem mem_behind [DecidableEq κ] (found : m.find k = some v) :
    e ∈ (m.entries.dropWhile (fun e => e.1 ≠ k)).drop 1 ↔ e ∈ m.entries ∧ cmp k e.1 = .lt := by
  obtain ⟨front,back,split⟩ := append_of_mem (find_eq_some.mp found)
  have ascending := m.ascending
  rw [split] at ascending ⊢
  obtain ⟨_,tail,across⟩ := pairwise_append.mp ascending
  have before : ∀ e ∈ front, cmp e.1 k = .lt := fun e inside => across e inside (k,v) mem_cons_self
  have skipped : ∀ e ∈ front, decide (e.1 ≠ k) := by
    intro e inside
    refine decide_eq_true (fun same => ?_)
    have less := before e inside
    rw [same] at less
    exact not_lt_self less
  rw [dropWhile_append_of_pos skipped,dropWhile_cons_of_neg (by simp),drop_succ_cons,drop_zero]
  constructor
  · intro inside
    exact ⟨mem_append_right _ (mem_cons_of_mem _ inside),(pairwise_cons.mp tail).1 e inside⟩
  · rintro ⟨inside,less⟩
    rcases mem_append.mp inside with early | late
    · have more := OrientedCmp.gt_of_lt (before e early)
      rw [less] at more
      cases more
    · rcases mem_cons.mp late with rfl | behind
      · exact (not_lt_self less).elim
      · exact behind

theorem takeWhile_eq_filter {α : Type} {p : α → Bool} {l : List α} (closed : l.Pairwise (fun a b => p b → p a)) :
    l.takeWhile p = l.filter p := by
  induction l with
  | nil => rfl
  | cons a rest ih =>
    obtain ⟨above,later⟩ := pairwise_cons.mp closed
    by_cases taken : p a
    · rw [takeWhile_cons_of_pos taken,filter_cons_of_pos taken,ih later]
    · rw [takeWhile_cons_of_neg taken,filter_cons_of_neg taken]
      exact (filter_eq_nil_iff.mpr (fun b inside counted => taken (above b inside counted))).symm

theorem countP_lt {α : Type} {p q : α → Bool} {l : List α} (implies : ∀ e ∈ l, p e → q e) {e : α} (present : e ∈ l)
    (counted : q e) (skipped : p e = false) : l.countP p < l.countP q := by
  obtain ⟨front,back,rfl⟩ := append_of_mem present
  rw [countP_append,countP_append,countP_cons_of_neg (by simp [skipped]),countP_cons_of_pos counted]
  have left := countP_mono_left (fun x inside => implies x (mem_append_left _ inside))
  have right := countP_mono_left (fun x inside => implies x (mem_append_right front (mem_cons_of_mem e inside)))
  omega

end OrderedMap
