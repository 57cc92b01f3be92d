import Mathlib.Data.List.Induction

/-! Requests sent on one line and answered in the order they were sent. A log tells who
was sent and who was answered; it is punctual when at no moment an answer was out of turn
or more than the window's number stood unanswered. -/

set_option linter.all false

namespace Cocolog.Lib

variable {A : Type*}

/-- One thing that happens on the line. -/
inductive Exchange (A : Type*) where
  | sent (a : A)
  | answered (a : A)
deriving Repr, DecidableEq

def Exchange.sent? : Exchange A → Option A
  | .sent a => some a
  | .answered _ => none

def Exchange.answered? : Exchange A → Option A
  | .sent _ => none
  | .answered a => some a

def sentOf (log : List (Exchange A)) : List A := log.filterMap Exchange.sent?

def answeredOf (log : List (Exchange A)) : List A := log.filterMap Exchange.answered?

@[simp] theorem sentOf_nil : sentOf ([] : List (Exchange A)) = [] := rfl
@[simp] theorem answeredOf_nil : answeredOf ([] : List (Exchange A)) = [] := rfl

@[simp] theorem sentOf_append (log more : List (Exchange A)) :
    sentOf (log ++ more) = sentOf log ++ sentOf more := List.filterMap_append ..

@[simp] theorem answeredOf_append (log more : List (Exchange A)) :
    answeredOf (log ++ more) = answeredOf log ++ answeredOf more := List.filterMap_append ..

@[simp] theorem sentOf_sent (a : A) : sentOf [Exchange.sent a] = [a] := rfl
@[simp] theorem sentOf_answered (a : A) : sentOf [Exchange.answered a] = [] := rfl
@[simp] theorem answeredOf_sent (a : A) : answeredOf [Exchange.sent a] = [] := rfl
@[simp] theorem answeredOf_answered (a : A) : answeredOf [Exchange.answered a] = [a] := rfl

/-- What stands at one moment: every answer was to the oldest request without one, and
no more than `window` have none. -/
structure InTurn (window : Nat) (log : List (Exchange A)) : Prop where
  order : answeredOf log <+: sentOf log
  within : (sentOf log).length ≤ (answeredOf log).length + window

/-- At every moment. -/
def Punctual (window : Nat) (log : List (Exchange A)) : Prop := ∀ pre, pre <+: log → InTurn window pre

theorem punctual_nil (window : Nat) : Punctual window ([] : List (Exchange A)) := by
  intro pre prefix_
  obtain rfl := List.prefix_nil.mp prefix_
  exact ⟨List.prefix_rfl, Nat.zero_le _⟩

theorem Punctual.now {window : Nat} {log : List (Exchange A)} (h : Punctual window log) : InTurn window log :=
  h log List.prefix_rfl

theorem Punctual.snoc {window : Nat} {log : List (Exchange A)} {e : Exchange A} (h : Punctual window log)
    (now : InTurn window (log ++ [e])) : Punctual window (log ++ [e]) := by
  intro pre prefix_
  rcases List.prefix_concat_iff.mp prefix_ with whole | before
  · exact whole ▸ now
  · exact h pre before

theorem Punctual.before {window : Nat} {log : List (Exchange A)} {e : Exchange A}
    (h : Punctual window (log ++ [e])) : Punctual window log :=
  fun pre prefix_ => h pre (prefix_.trans (List.prefix_append log [e]))

/-- Each request followed by its answer. -/
def oneByOne (requests : List A) : List (Exchange A) := requests.flatMap fun a => [.sent a, .answered a]

theorem oneByOne_snoc (requests : List A) (a : A) :
    oneByOne (requests ++ [a]) = oneByOne requests ++ [.sent a] ++ [.answered a] := by
  simp [oneByOne]

@[simp] theorem sentOf_oneByOne (l : List A) : sentOf (oneByOne l) = l := by
  induction l with
  | nil => rfl
  | cons a l ih => exact congrArg (a :: ·) ih

@[simp] theorem answeredOf_oneByOne (l : List A) : answeredOf (oneByOne l) = l := by
  induction l with
  | nil => rfl
  | cons a l ih => exact congrArg (a :: ·) ih

/-- With a window of one the line holds one request at a time. -/
theorem Punctual.one {log : List (Exchange A)} (h : Punctual 1 log) :
    (∃ l, log = oneByOne l) ∨ ∃ l a, log = oneByOne l ++ [.sent a] := by
  induction log using List.reverseRecOn with
  | nil => exact .inl ⟨[], rfl⟩
  | append_singleton log e ih =>
    have now := h.now
    have order := now.order
    have within := now.within
    rcases ih h.before with ⟨l, rfl⟩ | ⟨l, a, rfl⟩
    · cases e with
      | sent a => exact .inr ⟨l, a, rfl⟩
      | answered a =>
        -- nothing stands unanswered, so there is nothing to answer
        exfalso
        have short := order.length_le
        simp only [sentOf_append, answeredOf_append, sentOf_oneByOne, answeredOf_oneByOne, sentOf_answered,
          answeredOf_answered, List.append_nil, List.length_append, List.length_singleton] at short
        omega
    · cases e with
      | sent b =>
        exfalso
        simp only [sentOf_append, answeredOf_append, sentOf_oneByOne, answeredOf_oneByOne, sentOf_sent,
          answeredOf_sent, List.append_nil, List.length_append, List.length_singleton] at within
        omega
      | answered b =>
        left
        simp only [sentOf_append, answeredOf_append, sentOf_oneByOne, answeredOf_oneByOne, sentOf_sent, sentOf_answered, answeredOf_sent,
          answeredOf_answered, List.append_nil, List.prefix_append_right_inj] at order
        obtain rfl : b = a := by simpa using order
        exact ⟨l ++ [b], (oneByOne_snoc l b).symm⟩

end Cocolog.Lib
