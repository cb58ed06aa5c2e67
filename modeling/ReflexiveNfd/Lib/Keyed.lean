import Mathlib.Data.List.Basic
import Mathlib.Data.List.Nodup

namespace Keyed
open List
variable {κ ρ : Type*} [DecidableEq κ]

def modifyFirst (key : ρ → κ) (k : κ) (f : ρ → ρ) : List ρ → List ρ
  | [] => []
  | r :: rest => if key r = k then f r :: rest else r :: modifyFirst key k f rest

section
variable (key : ρ → κ) (k : κ) (records : List ρ)

def lookup : Option ρ :=
  records.find? (fun r => key r = k)

def upsert (fresh : ρ) (f : ρ → ρ) (records : List ρ) : List ρ :=
  if (lookup key k records).isSome then modifyFirst key k f records else f fresh :: records

def remove : List ρ :=
  records.eraseP (fun r => key r = k)

def Distinct : Prop := (records.map key).Nodup

end

variable {key : ρ → κ} {k : κ} {f : ρ → ρ} {fresh r : ρ} {records : List ρ}

theorem lookup_mem (found : lookup key k records = some r) : r ∈ records ∧ key r = k :=
  ⟨mem_of_find?_eq_some found,by simpa using List.find?_some found⟩

theorem lookup_distinct (distinct : Distinct key records) (present : r ∈ records) : lookup key (key r) records = some r := by
  induction records with
  | nil => cases present
  | cons head rest ih =>
    obtain ⟨unlisted,tail⟩ := nodup_cons.mp distinct
    rcases mem_cons.mp present with rfl | inside
    · simp [lookup]
    · have other : key head ≠ key r := fun equal => unlisted (mem_map.mpr ⟨r,inside,equal.symm⟩)
      simpa [lookup,other] using ih tail inside

theorem lookup_isSome : (lookup key k records).isSome ↔ ∃ r ∈ records, key r = k := by
  simp [lookup]

theorem modifyFirst_map (same : ∀ r, g (f r) = g r) :
    (modifyFirst key k f records).map g = records.map g := by
  induction records with
  | nil => rfl
  | cons r rest ih =>
    by_cases equal : key r = k
    · simp [modifyFirst,equal,same]
    · simp [modifyFirst,equal,ih]

theorem upsert_distinct (same : ∀ r, key (f r) = key r) (named : key fresh = k)
    (distinct : Distinct key records) : Distinct key (upsert key k fresh f records) := by
  unfold upsert
  split
  · simpa [Distinct,modifyFirst_map same] using distinct
  · rename_i absent
    have missing : ∀ x ∈ records, key x ≠ k := fun x present equal => absent (lookup_isSome.mpr ⟨x,present,equal⟩)
    refine nodup_cons.mpr ⟨?_,distinct⟩
    rw [same,named]
    intro present
    obtain ⟨x,inside,equal⟩ := mem_map.mp present
    exact missing x inside equal

theorem mem_modifyFirst (distinct : Distinct key records)
    (present : r ∈ modifyFirst key k f records) :
    (r ∈ records ∧ key r ≠ k) ∨ ∃ old ∈ records, key old = k ∧ r = f old := by
  induction records with
  | nil => simp [modifyFirst] at present
  | cons head rest ih =>
    obtain ⟨unlisted,tail⟩ := nodup_cons.mp distinct
    by_cases equal : key head = k
    · simp only [modifyFirst,equal,if_true] at present
      rcases mem_cons.mp present with rfl | inside
      · exact .inr ⟨head,mem_cons_self,equal,rfl⟩
      · refine .inl ⟨mem_cons_of_mem _ inside,fun clash => unlisted ?_⟩
        exact mem_map.mpr ⟨r,inside,clash.trans equal.symm⟩
    · simp only [modifyFirst,equal,if_false] at present
      rcases mem_cons.mp present with rfl | inside
      · exact .inl ⟨mem_cons_self,equal⟩
      · rcases ih tail inside with ⟨old,other⟩ | ⟨old,inRest,named,value⟩
        · exact .inl ⟨mem_cons_of_mem _ old,other⟩
        · exact .inr ⟨old,mem_cons_of_mem _ inRest,named,value⟩

theorem modifyFirst_has (known : ∃ r ∈ records, key r = k) : ∃ old ∈ records, key old = k ∧ f old ∈ modifyFirst key k f records := by
  induction records with
  | nil =>
    obtain ⟨r,inside,_⟩ := known
    cases inside
  | cons head rest ih =>
    by_cases equal : key head = k
    · exact ⟨head,mem_cons_self,equal,by simp [modifyFirst,equal]⟩
    · have later : ∃ r ∈ rest, key r = k := by
        obtain ⟨r,inside,named⟩ := known
        rcases mem_cons.mp inside with rfl | there
        · exact absurd named equal
        · exact ⟨r,there,named⟩
      obtain ⟨old,inside,named,listed⟩ := ih later
      exact ⟨old,mem_cons_of_mem _ inside,named,by simp [modifyFirst,equal,listed]⟩

theorem upsert_has (named : key fresh = k) : ∃ old, key old = k ∧ f old ∈ upsert key k fresh f records := by
  unfold upsert
  split
  · rename_i known
    obtain ⟨old,_,same,listed⟩ := modifyFirst_has (f := f) (lookup_isSome.mp known)
    exact ⟨old,same,listed⟩
  · exact ⟨fresh,named,mem_cons_self⟩

theorem mem_upsert (distinct : Distinct key records)
    (present : r ∈ upsert key k fresh f records) :
    (r ∈ records ∧ key r ≠ k) ∨ (∃ old ∈ records, key old = k ∧ r = f old) ∨
      ((∀ x ∈ records, key x ≠ k) ∧ r = f fresh) := by
  unfold upsert at present
  split at present
  · rcases mem_modifyFirst distinct present with kept | changed
    · exact .inl kept
    · exact .inr (.inl changed)
  · rename_i absent
    have missing : ∀ x ∈ records, key x ≠ k := fun x inside equal => absent (lookup_isSome.mpr ⟨x,inside,equal⟩)
    rcases mem_cons.mp present with rfl | inside
    · exact .inr (.inr ⟨missing,rfl⟩)
    · exact .inl ⟨inside,missing r inside⟩

theorem mem_modifyFirst_of_ne (present : r ∈ records) (other : key r ≠ k) : r ∈ modifyFirst key k f records := by
  induction records with
  | nil => cases present
  | cons head rest ih =>
    unfold modifyFirst
    split
    · rename_i named
      rcases mem_cons.mp present with rfl | later
      · exact absurd named other
      · exact mem_cons_of_mem _ later
    · rcases mem_cons.mp present with rfl | later
      · exact mem_cons_self
      · exact mem_cons_of_mem _ (ih later)

theorem mem_upsert_of_ne (present : r ∈ records) (other : key r ≠ k) : r ∈ upsert key k fresh f records := by
  unfold upsert
  split
  · exact mem_modifyFirst_of_ne present other
  · exact mem_cons_of_mem _ present

theorem mem_remove (distinct : Distinct key records) : r ∈ remove key k records ↔ r ∈ records ∧ key r ≠ k := by
  induction records with
  | nil => simp [remove]
  | cons head rest ih =>
    obtain ⟨unlisted,tail⟩ := nodup_cons.mp distinct
    by_cases equal : key head = k
    · have others : ∀ x ∈ rest, key x ≠ k := fun x inside clash => unlisted (mem_map.mpr ⟨x,inside,clash.trans equal.symm⟩)
      simp only [remove,eraseP_cons,equal,decide_true,cond_true]
      constructor
      · exact fun inside => ⟨mem_cons_of_mem _ inside,others r inside⟩
      · rintro ⟨inside,other⟩
        rcases mem_cons.mp inside with rfl | later
        · exact absurd equal other
        · exact later
    · simp only [remove,eraseP_cons,equal,decide_false,cond_false,mem_cons] at ih ⊢
      rw [ih tail]
      constructor
      · rintro (rfl | ⟨inside,other⟩)
        · exact ⟨.inl rfl,equal⟩
        · exact ⟨.inr inside,other⟩
      · rintro ⟨rfl | inside,other⟩
        · exact .inl rfl
        · exact .inr ⟨inside,other⟩

theorem remove_distinct (distinct : Distinct key records) : Distinct key (remove key k records) :=
  Nodup.sublist (eraseP_sublist.map _) distinct

theorem lookup_removed (distinct : Distinct key records) : lookup key k (remove key k records) = none := by
  rw [lookup,List.find?_eq_none]
  intro r listed named
  exact ((mem_remove distinct).mp listed).2 (of_decide_eq_true named)

theorem lookup_remove (other : k' ≠ k) : lookup key k' (remove key k records) = lookup key k' records := by
  induction records with
  | nil => rfl
  | cons head rest ih =>
    by_cases equal : key head = k
    · simp [lookup,remove,equal,other.symm]
    · by_cases found : key head = k'
      · simp [lookup,remove,found,other]
      · simpa [lookup,remove,equal,found] using ih

end Keyed
