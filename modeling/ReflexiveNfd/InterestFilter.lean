import ReflexiveNfd.InterestRoundTrip

namespace ReflexiveNfd
open Octets Tlv List Component
variable {convention : Convention} {c : Component} {name : Name}

-- The loop stops behind the first component that it takes out.
def Name.getnonReflexiveName (convention : Convention) (name : Name) : Name :=
  if name.isReflexiveName convention then (name.findIdx? (isReflexive convention)).elim name name.eraseIdx else name

-- A regular expression is asked about a window of the name.
structure InterestFilter where
  namePrefix : Name
  regexFilter : Option (Name → UInt64 → UInt64 → Bool) := none

namespace InterestFilter

section
variable (convention : Convention) (f : InterestFilter) (name : Name)

def matchesPrefix : Bool :=
  if f.namePrefix.isReflexiveName convention || name.isReflexiveName convention then
    (f.namePrefix.getnonReflexiveName convention).isPrefixOf (name.getnonReflexiveName convention)
  else f.namePrefix.isPrefixOf name

def doesMatch : Bool :=
  f.matchesPrefix convention name &&
    f.regexFilter.all (fun regex => regex name f.namePrefix.length.toUInt64 (name.length.toUInt64 - f.namePrefix.length.toUInt64))

def EvaluatesRegex : Prop :=
  f.matchesPrefix convention name ∧ f.regexFilter.isSome

end

structure Contract (convention : Convention) (f : InterestFilter) (name : Name) : Prop where
  window : f.EvaluatesRegex convention name → f.namePrefix.length ≤ name.length
  prefixErased : (f.namePrefix.getnonReflexiveName convention).isReflexiveName convention = false
  nameErased : (name.getnonReflexiveName convention).isReflexiveName convention = false
  plain : f.namePrefix.isReflexiveName convention = false → name.isReflexiveName convention = false → f.doesMatch convention name =
    (f.namePrefix.isPrefixOf name &&
      f.regexFilter.all (fun regex => regex name f.namePrefix.length.toUInt64 (name.length - f.namePrefix.length).toUInt64))

end InterestFilter

theorem Name.getnonReflexiveName_eq (convention : Convention) (name : Name) :
    name.getnonReflexiveName convention = name.eraseP (isReflexive convention) := by
  rw [getnonReflexiveName,isReflexiveName]
  split
  · rw [eraseP_eq_eraseIdx]
    cases name.findIdx? (isReflexive convention) <;> rfl
  · rename_i plain
    exact (eraseP_of_forall_not (by simpa using plain)).symm

theorem countP_eraseP (q : α → Bool) (l : List α) : (l.eraseP q).countP q = l.countP q - 1 := by
  induction l with
  | nil => rfl
  | cons a rest ih =>
    by_cases here : q a
    · rw [eraseP_cons_of_pos here,countP_cons_of_pos here,Nat.add_sub_cancel]
    · rw [eraseP_cons_of_neg here,countP_cons_of_neg here,countP_cons_of_neg here,ih]

theorem Name.isReflexiveName_iff : name.isReflexiveName convention = false ↔ name.countP (isReflexive convention) = 0 := by
  rw [isReflexiveName,any_eq_false,countP_eq_zero]

theorem Name.getnonReflexiveName_plain : (name.getnonReflexiveName convention).isReflexiveName convention = false ↔
    name.countP (isReflexive convention) ≤ 1 := by
  rw [isReflexiveName_iff,getnonReflexiveName_eq,countP_eraseP]
  omega

theorem Name.getnonReflexiveName_of_plain (plain : name.isReflexiveName convention = false) : name.getnonReflexiveName convention = name := by
  rw [getnonReflexiveName,plain,if_neg Bool.false_ne_true]

theorem Name.length_getnonReflexiveName : (name.getnonReflexiveName convention).length =
    if name.isReflexiveName convention then name.length - 1 else name.length := by
  rw [getnonReflexiveName_eq,length_eraseP]
  rfl

theorem Name.isReflexiveName_nonempty (reflexive : name.isReflexiveName convention) : 0 < name.length := by
  cases name with
  | nil => cases reflexive
  | cons c rest => exact Nat.succ_pos _

namespace InterestFilter
variable {f : InterestFilter}

theorem matchesPrefix_length (matched : f.matchesPrefix convention name) :
    (f.namePrefix.getnonReflexiveName convention).length ≤ (name.getnonReflexiveName convention).length := by
  unfold matchesPrefix at matched
  split at matched
  · exact (List.isPrefixOf_iff_prefix.mp matched).length_le
  · rename_i plain
    simp only [Bool.or_eq_true,not_or,Bool.not_eq_true] at plain
    rw [Name.length_getnonReflexiveName,Name.length_getnonReflexiveName,plain.1,plain.2]
    exact (List.isPrefixOf_iff_prefix.mp matched).length_le

theorem window_iff : (f.matchesPrefix convention name → f.namePrefix.length ≤ name.length) ↔
    ¬ (f.namePrefix.isReflexiveName convention ∧ name.isReflexiveName convention = false ∧
      f.namePrefix.getnonReflexiveName convention = name) := by
  constructor
  · rintro window ⟨reflexive,plain,same⟩
    have matched : f.matchesPrefix convention name := by
      rw [matchesPrefix,reflexive,Bool.true_or,if_pos rfl,same,Name.getnonReflexiveName_of_plain plain]
      exact isPrefixOf_iff_prefix.mpr (prefix_refl _)
    have shorter := congrArg List.length same
    rw [Name.length_getnonReflexiveName,if_pos reflexive] at shorter
    have := Name.isReflexiveName_nonempty reflexive
    have := window matched
    omega
  · intro apart matched
    have lengths := matchesPrefix_length matched
    rw [Name.length_getnonReflexiveName,Name.length_getnonReflexiveName] at lengths
    cases reflexive : f.namePrefix.isReflexiveName convention with
    | false =>
      rw [reflexive,if_neg Bool.false_ne_true] at lengths
      split at lengths <;> omega
    | true =>
      cases other : name.isReflexiveName convention with
      | true =>
        have := Name.isReflexiveName_nonempty other
        rw [reflexive,other,if_pos rfl,if_pos rfl] at lengths
        omega
      | false =>
        rw [matchesPrefix,reflexive,Bool.true_or,if_pos rfl,Name.getnonReflexiveName_of_plain other,List.isPrefixOf_iff_prefix] at matched
        rw [reflexive,other,if_pos rfl,if_neg Bool.false_ne_true] at lengths
        have erased := @Name.length_getnonReflexiveName convention f.namePrefix
        rw [if_pos reflexive] at erased
        by_contra long
        exact apart ⟨reflexive,other,matched.eq_of_length (by omega)⟩

theorem filter_contract_iff (convention : Convention) (f : InterestFilter) (name : Name) : f.Contract convention name ↔
    f.namePrefix.countP (isReflexive convention) ≤ 1 ∧ name.countP (isReflexive convention) ≤ 1 ∧
    ¬ (f.regexFilter.isSome ∧ f.namePrefix.isReflexiveName convention ∧ name.isReflexiveName convention = false ∧
      f.namePrefix.eraseP (isReflexive convention) = name) := by
  rw [← Name.getnonReflexiveName_eq,← Name.getnonReflexiveName_plain,← Name.getnonReflexiveName_plain]
  constructor
  · rintro ⟨window,prefixErased,nameErased,_⟩
    refine ⟨prefixErased,nameErased,fun ⟨present,outside⟩ => ?_⟩
    exact window_iff.mp (fun matched => window ⟨matched,present⟩) outside
  · rintro ⟨prefixErased,nameErased,inside⟩
    refine ⟨fun ⟨matched,present⟩ => ?_,prefixErased,nameErased,fun plainPrefix plainName => ?_⟩
    · exact window_iff.mpr (fun outside => inside ⟨present,outside⟩) matched
    · have plain : f.matchesPrefix convention name = f.namePrefix.isPrefixOf name := by rw [matchesPrefix,plainPrefix,plainName]; rfl
      rw [doesMatch,plain]
      cases under : f.namePrefix.isPrefixOf name with
      | false => rfl
      | true =>
        have length := (List.isPrefixOf_iff_prefix.mp under).length_le
        rw [show (name.length - f.namePrefix.length).toUInt64 = name.length.toUInt64 - f.namePrefix.length.toUInt64 from
          UInt64.ofNat_sub length]

namespace Demo

def reflexiveComponent : Component := ⟨tlvReflexiveNameComponent,[1]⟩

def anyRegex : InterestFilter := ⟨[⟨tlvGenericNameComponent,[65]⟩,reflexiveComponent],some (fun _ _ _ => true)⟩

end Demo

-- /A/59=%01 as the prefix and /A as the name: the window begins behind the name and
-- has 2 ^ 64 - 1 components. Of two reflexive components one is left.
theorem filter_window_outside :
    Demo.anyRegex.EvaluatesRegex .either [⟨tlvGenericNameComponent,[65]⟩] ∧
    ¬ Demo.anyRegex.namePrefix.length ≤ [(⟨tlvGenericNameComponent,[65]⟩ : Component)].length ∧
    (Name.getnonReflexiveName .either [Demo.reflexiveComponent,Demo.reflexiveComponent]).isReflexiveName .either := by
  refine ⟨⟨by decide,rfl⟩,by decide,by decide⟩

end InterestFilter

end ReflexiveNfd
