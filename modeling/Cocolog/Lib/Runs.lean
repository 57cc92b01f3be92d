import Mathlib.Data.List.Basic

/-! Finite runs of a deterministic step, with the two inductions used everywhere
else: an invariant kept by each step, and a relation between two systems kept by
each step. The steps carry their own inputs, so a run is a list of them. -/

set_option linter.all false

namespace Cocolog.Lib

variable {S T E : Type*}

/-- The state after the events, oldest first. -/
def run (step : S → E → S) : S → List E → S
  | s, [] => s
  | s, e :: rest => run step (step s e) rest

@[simp] theorem run_nil (step : S → E → S) (s : S) : run step s [] = s := rfl

@[simp] theorem run_cons (step : S → E → S) (s : S) (e : E) (rest : List E) :
    run step s (e :: rest) = run step (step s e) rest := rfl

theorem run_append (step : S → E → S) (s : S) (first second : List E) :
    run step s (first ++ second) = run step (run step s first) second := by
  induction first generalizing s with
  | nil => rfl
  | cons e rest ih => exact ih (step s e)

/-- What every step keeps, every run keeps. -/
theorem run_invariant {step : S → E → S} {inv : S → Prop}
    (keeps : ∀ s e, inv s → inv (step s e)) (s : S) (events : List E) (start : inv s) :
    inv (run step s events) := by
  induction events generalizing s with
  | nil => exact start
  | cons e rest ih => exact ih (step s e) (keeps s e start)

/-- Every step of the run meets a condition on the state it starts from. -/
def Along (step : S → E → S) (cond : S → E → Prop) : S → List E → Prop
  | _, [] => True
  | s, e :: rest => cond s e ∧ Along step cond (step s e) rest

instance Along.decidable (step : S → E → S) (cond : S → E → Prop) [∀ s e, Decidable (cond s e)] :
    (s : S) → (events : List E) → Decidable (Along step cond s events)
  | _, [] => .isTrue trivial
  | s, e :: rest =>
    have := Along.decidable step cond (step s e) rest
    inferInstanceAs (Decidable (cond s e ∧ Along step cond (step s e) rest))

/-- What every step that meets the condition keeps, every such run keeps. -/
theorem run_along {step : S → E → S} {cond : S → E → Prop} {inv : S → Prop}
    (keeps : ∀ s e, cond s e → inv s → inv (step s e)) (s : S) (events : List E)
    (along : Along step cond s events) (start : inv s) : inv (run step s events) := by
  induction events generalizing s with
  | nil => exact start
  | cons e rest ih => exact ih (step s e) along.2 (keeps s e along.1 start)

/-- A step that matches an abstract one under a relation makes whole runs match. -/
theorem run_simulation {step : S → E → S} {astep : T → E → T} {rel : S → T → Prop}
    (keeps : ∀ s t e, rel s t → rel (step s e) (astep t e)) (s : S) (t : T) (events : List E)
    (start : rel s t) : rel (run step s events) (run astep t events) := by
  induction events generalizing s t with
  | nil => exact start
  | cons e rest ih => exact ih (step s e) (astep t e) (keeps s t e start)

end Cocolog.Lib
