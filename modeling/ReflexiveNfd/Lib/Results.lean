import Mathlib.Init

namespace Results
variable {ε α β : Type} {raises : ε → Prop} {result : Except ε α} {between post : α → Prop}

@[simp] theorem ok_bind (value : α) (next : α → Except ε β) : (Except.ok value >>= next) = next value := rfl

theorem bind_parts (computed : (result >>= next) = .ok outcome) : ∃ value, result = .ok value ∧ next value = .ok outcome := by
  cases result with
  | error fault => cases computed
  | ok value => exact ⟨value,rfl,computed⟩

theorem map_parts (computed : result.map f = .ok outcome) : ∃ value, result = .ok value ∧ f value = outcome := by
  cases result with
  | error fault => cases computed
  | ok value => exact ⟨value,rfl,Except.ok.inj computed⟩

theorem ok_of_mem (found : ∃ value ∈ result.toOption, post value) : ∃ value, result = .ok value ∧ post value := by
  cases result with
  | error fault => obtain ⟨_,never,_⟩ := found; cases never
  | ok value => obtain ⟨_,same,holds⟩ := found; exact ⟨value,rfl,Option.some.inj same ▸ holds⟩

theorem toOption_parts (found : result.toOption = some value) : result = .ok value := by
  cases result with
  | error fault => cases found
  | ok other => exact congrArg Except.ok (Option.some.inj found)

-- What a computation that may fail comes to: a value for which the postcondition
-- holds, or a fault that is allowed.
def Yields (raises : ε → Prop) (result : Except ε α) (post : α → Prop) : Prop :=
  (∃ value, result = .ok value ∧ post value) ∨ ∃ fault, result = .error fault ∧ raises fault

theorem Yields.ok (holds : post value) : Yields raises (.ok value) post := .inl ⟨value,rfl,holds⟩

theorem Yields.of_eq (computed : result = .ok value) (holds : post value) : Yields raises result post := .inl ⟨value,computed,holds⟩

section
variable (first : Yields raises result between)
include first

theorem Yields.bind (later : ∀ value, between value → Yields raises (next value) after) :
    Yields raises (result >>= next) after := by
  rcases first with ⟨value,rfl,holds⟩ | ⟨fault,rfl,allowed⟩
  · exact later value holds
  · exact .inr ⟨fault,rfl,allowed⟩

theorem Yields.map (later : ∀ value, between value → after (f value)) :
    Yields raises (result.map f) after := by
  rcases first with ⟨value,rfl,holds⟩ | ⟨fault,rfl,allowed⟩
  · exact .ok (later value holds)
  · exact .inr ⟨fault,rfl,allowed⟩

theorem Yields.mono (weaker : ∀ value, between value → post value) : Yields raises result post := by
  rcases first with ⟨value,computed,holds⟩ | failed
  · exact .of_eq computed (weaker value holds)
  · exact .inr failed

end

theorem Yields.holds (first : Yields raises result post) (computed : result = .ok value) : post value := by
  rcases first with ⟨other,same,holds⟩ | ⟨fault,failed,_⟩
  · cases same.symm.trans computed
    exact holds
  · cases failed.symm.trans computed

end Results
