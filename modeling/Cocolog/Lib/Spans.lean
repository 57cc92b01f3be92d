import Mathlib.Data.List.Basic

/-! Stretches of a list that follow one another: put back together they are the list. -/

set_option linter.all false

namespace Cocolog.Lib

variable {A : Type*}

/-- The elements from `lo` on, short of `hi`. -/
def slice (s : List A) (lo hi : Nat) : List A := (s.take hi).drop lo

theorem slice_self (s : List A) (i : Nat) : slice s i i = [] := by
  rw [slice, List.drop_eq_nil_iff]
  exact List.length_take_le i s

theorem slice_whole (s : List A) : slice s 0 s.length = s := by
  rw [slice, List.take_length, List.drop_zero]

theorem slice_join (s : List A) {lo mid hi : Nat} (h1 : lo ≤ mid) (h2 : mid ≤ hi) :
    slice s lo mid ++ slice s mid hi = slice s lo hi := by
  obtain ⟨k, rfl⟩ := Nat.exists_eq_add_of_le h1
  obtain ⟨j, rfl⟩ := Nat.exists_eq_add_of_le h2
  simp only [slice, List.drop_take]
  rw [show lo + k - lo = k by omega, show lo + k + j - (lo + k) = j by omega,
    show lo + k + j - lo = k + j by omega, List.take_add, List.drop_drop]

/-- Spans one after another from `lo` to `hi`. -/
def Consecutive (lo hi : Nat) : List (Nat × Nat) → Prop
  | [] => lo = hi
  | p :: rest => p.1 = lo ∧ p.1 ≤ p.2 ∧ Consecutive p.2 hi rest

theorem consecutive_snoc {lo mid hi : Nat} {spans : List (Nat × Nat)} (h : Consecutive lo mid spans) (le : mid ≤ hi) :
    Consecutive lo hi (spans ++ [(mid, hi)]) := by
  induction spans generalizing lo with
  | nil => exact ⟨h.symm, le, rfl⟩
  | cons p rest ih => exact ⟨h.1, h.2.1, ih h.2.2⟩

theorem consecutive_le {lo hi : Nat} {spans : List (Nat × Nat)} (h : Consecutive lo hi spans) : lo ≤ hi := by
  induction spans generalizing lo with
  | nil => exact Nat.le_of_eq h
  | cons p rest ih => exact Nat.le_trans (Nat.le_of_eq h.1.symm) (Nat.le_trans h.2.1 (ih h.2.2))

theorem consecutive_slices (s : List A) {lo hi : Nat} {spans : List (Nat × Nat)} (h : Consecutive lo hi spans) :
    (spans.flatMap fun p => slice s p.1 p.2) = slice s lo hi := by
  induction spans generalizing lo with
  | nil => rw [show lo = hi from h, slice_self, List.flatMap_nil]
  | cons p rest ih =>
    obtain ⟨rfl, le, after⟩ := h
    rw [List.flatMap_cons, ih after, slice_join s le (consecutive_le after)]

/-- Two lists of stretches taken in turn, the first list first. -/
def woven : List (List A) → List (List A) → List A
  | p :: ps, m :: ms => p ++ m ++ woven ps ms
  | ps, _ => ps.flatten

theorem woven_snoc {ps ms : List (List A)} (same : ps.length = ms.length) (p m : List A) :
    woven (ps ++ [p]) (ms ++ [m]) = woven ps ms ++ p ++ m := by
  induction ps generalizing ms with
  | nil =>
    obtain rfl : ms = [] := List.eq_nil_of_length_eq_zero same.symm
    simp [woven]
  | cons q ps ih =>
    cases ms with
    | nil => cases same
    | cons n ms =>
      have rest := ih (Nat.succ.inj same)
      simp only [List.cons_append, woven, rest, List.append_assoc]

theorem woven_last {ps ms : List (List A)} (same : ps.length = ms.length) (p : List A) :
    woven (ps ++ [p]) ms = woven ps ms ++ p := by
  induction ps generalizing ms with
  | nil =>
    obtain rfl : ms = [] := List.eq_nil_of_length_eq_zero same.symm
    simp [woven]
  | cons q ps ih =>
    cases ms with
    | nil => cases same
    | cons n ms =>
      have rest := ih (Nat.succ.inj same)
      simp only [List.cons_append, woven, rest, List.append_assoc]

end Cocolog.Lib
