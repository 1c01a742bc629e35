import Mathlib.Order.Basic

/-!
# Unfolding a chain

A chain of records is read from its first link: each step gives a record and, unless it is the last one,
the state that the next record is read from.  A chain may be endless, so what it unfolds to is a
relation; a second reader whose states follow those of the first one unfolds the same records
(`Unfolds.simulate`).
-/

namespace Unfold

variable {σ τ α : Type} {step : σ → Option (α × Option σ)}

/-- The records of a chain, from a state on. -/
inductive Unfolds (step : σ → Option (α × Option σ)) : σ → List α → Prop
  | last {s : σ} {x : α} : step s = some (x, none) → Unfolds step s [x]
  | more {s s' : σ} {x : α} {xs : List α} :
    step s = some (x, some s') → Unfolds step s' xs → Unfolds step s (x :: xs)

/-- A chain has a first record, which the first step gives. -/
theorem Unfolds.head {s : σ} {xs : List α} (unfolds : Unfolds step s xs) :
    ∃ x s', step s = some (x, s') ∧ xs.head? = some x := by
  cases unfolds with
  | last found => exact ⟨_, _, found, rfl⟩
  | more found _ => exact ⟨_, _, found, rfl⟩

theorem Unfolds.ne_nil {s : σ} {xs : List α} (unfolds : Unfolds step s xs) : xs ≠ [] := by
  cases unfolds with
  | last _ => exact List.cons_ne_nil _ _
  | more _ _ => exact List.cons_ne_nil _ _

/-- A chain depends on what its first state steps to only. -/
theorem Unfolds.of_step_eq {s s' : σ} (same : step s' = step s) {xs : List α}
    (unfolds : Unfolds step s xs) : Unfolds step s' xs := by
  cases unfolds with
  | last found => exact .last (same.trans found)
  | more found rest => exact .more (same.trans found) rest

/-- What the steps of a second reader do where its states follow those of the first. -/
def Follows (step : σ → Option (α × Option σ)) (step' : τ → Option (α × Option τ))
    (rel : σ → τ → Prop) : Prop :=
  ∀ s t x s', rel s t → step s = some (x, s') →
    ∃ t', step' t = some (x, t') ∧ Option.Rel rel s' t'

theorem Unfolds.simulate {step' : τ → Option (α × Option τ)} {rel : σ → τ → Prop}
    (follows : Follows step step' rel) {s : σ} {t : τ} (start : rel s t) {xs : List α}
    (unfolds : Unfolds step s xs) : Unfolds step' t xs := by
  induction unfolds generalizing t with
  | last found =>
    obtain ⟨_, step, ended⟩ := follows _ _ _ _ start found
    cases ended
    exact .last step
  | more found _ ih =>
    obtain ⟨_, step, later⟩ := follows _ _ _ _ start found
    cases later with
    | some next => exact .more step (ih next)

end Unfold
