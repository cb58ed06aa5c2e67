import Mathlib.Data.List.Basic

namespace Actions
variable {σ α β : Type*} {perform : σ → α → σ} {permitted other : σ → α → Prop}

-- A program over a fixed set of actions, seen from outside: some sequence of
-- actions, each permitted where it is taken.
inductive Performs (perform : σ → α → σ) (permitted : σ → α → Prop) : σ → σ → Prop where
  | done : Performs perform permitted s s
  | next : permitted s action → Performs perform permitted (perform s action) t → Performs perform permitted s t

theorem Performs.one (allowed : permitted s action) : Performs perform permitted s (perform s action) :=
  .next allowed .done

theorem Performs.trans (first : Performs perform permitted s t) (second : Performs perform permitted t u) :
    Performs perform permitted s u := by
  induction first with
  | done => exact second
  | next allowed _ ih => exact .next allowed (ih second)

-- A preorder that contains each permitted action, taken where I holds, contains
-- the program.
theorem Performs.relatedWhile {R : σ → σ → Prop} {I : σ → Prop} (refl : ∀ s, R s s) (trans : ∀ s t u, R s t → R t u → R s u)
    (kept : ∀ s action, I s → permitted s action → I (perform s action))
    (one : ∀ s action, I s → permitted s action → R s (perform s action)) (program : Performs perform permitted s t)
    (base : I s) : R s t := by
  induction program with
  | done => exact refl _
  | next allowed _ ih => exact trans _ _ _ (one _ _ base allowed) (ih (kept _ _ base allowed))

theorem Performs.related {R : σ → σ → Prop} (refl : ∀ s, R s s) (trans : ∀ s t u, R s t → R t u → R s u)
    (one : ∀ s action, permitted s action → R s (perform s action)) (program : Performs perform permitted s t) : R s t :=
  program.relatedWhile (I := fun _ => True) refl trans (fun _ _ _ _ => trivial) (fun s action _ => one s action) trivial

theorem Performs.invariant {I : σ → Prop} (kept : ∀ s action, I s → permitted s action → I (perform s action))
    (program : Performs perform permitted s t) (base : I s) : I t := by
  induction program with
  | done => exact base
  | next allowed _ ih => exact ih (kept _ _ base allowed)

theorem Performs.refine
    (each : ∀ u action, Performs perform permitted s u → permitted u action → Performs enact warranted u (perform u action))
    (program : Performs perform permitted s t) : Performs enact warranted s t := by
  suffices rest : ∀ u, Performs perform permitted u t → Performs perform permitted s u → Performs enact warranted u t from
    rest s program .done
  intro u remaining
  induction remaining with
  | done => exact fun _ => .done
  | next allowed _ ih => exact fun before => (each _ _ before allowed).trans (ih program (before.trans (.one allowed)))

theorem Performs.loop (xs : List β)
    (each : ∀ u x, x ∈ xs → Performs perform permitted s u → Performs perform permitted u (body u x))
    (before : Performs perform permitted s t) : Performs perform permitted s (xs.foldl body t) := by
  induction xs generalizing t with
  | nil => exact before
  | cons x xs ih =>
    refine ih (fun u y present => each u y (List.mem_cons_of_mem _ present)) ?_
    exact before.trans (each t x List.mem_cons_self before)

theorem Performs.loopWhile {body : σ → β → σ} {I : σ → Prop} (xs : List β) (kept : ∀ u x, x ∈ xs → I u → I (body u x))
    (each : ∀ u x, x ∈ xs → I u → Performs perform permitted u (body u x)) (base : I s) :
    Performs perform permitted s (xs.foldl body s) := by
  induction xs generalizing s with
  | nil => exact .done
  | cons x xs ih =>
    have rest := ih (fun u y present => kept u y (List.mem_cons_of_mem _ present))
      (fun u y present => each u y (List.mem_cons_of_mem _ present)) (kept s x List.mem_cons_self base)
    exact (each s x List.mem_cons_self base).trans rest

theorem Performs.outputs {ω : Type*} {out : σ → List ω} {Q : ω → Prop}
    (each : ∀ u action, Performs perform permitted s u → permitted u action →
      ∀ w ∈ out (perform u action), w ∈ out u ∨ Q w)
    (program : Performs perform permitted s t) : ∀ w ∈ out t, w ∈ out s ∨ Q w := by
  suffices rest : ∀ u, Performs perform permitted u t → Performs perform permitted s u →
      (∀ w ∈ out u, w ∈ out s ∨ Q w) → ∀ w ∈ out t, w ∈ out s ∨ Q w from
    rest s program .done (fun w present => .inl present)
  intro u remaining
  induction remaining with
  | done => exact fun _ sofar => sofar
  | next allowed _ ih =>
    intro before sofar
    refine ih program (before.trans (.one allowed)) (fun w present => ?_)
    rcases each _ _ before allowed w present with old | good
    · exact sofar w old
    · exact .inr good

end Actions
