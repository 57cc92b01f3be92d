import Mathlib.Tactic.Common

/-! Loops that walk a text by steps of their own length until the step is 0. The turns only
bound the loop: one turn for each place left is enough. -/

set_option linter.all false

namespace Cocolog.Lib

def stride (step : Nat → Nat) : Nat → Nat → Nat
  | 0, p => p
  | turns + 1, p => if step p = 0 then p else stride step turns (p + step p)

/-- The walk from the first place ends at the second. -/
inductive Strides (step : Nat → Nat) : Nat → Nat → Prop where
  | stop {p : Nat} (still : step p = 0) : Strides step p p
  | more {p q : Nat} (moves : step p ≠ 0) (rest : Strides step (p + step p) q) : Strides step p q

/-- No step leads past the end. -/
def Within (step : Nat → Nat) (len : Nat) : Prop := ∀ p, step p ≠ 0 → p + step p ≤ len

variable {step : Nat → Nat} {len turns p q : Nat}

theorem le_stride (step : Nat → Nat) (turns p : Nat) : p ≤ stride step turns p := by
  induction turns generalizing p with
  | zero => exact Nat.le_refl p
  | succ turns ih =>
    rw [stride]
    split
    · exact Nat.le_refl p
    · exact Nat.le_trans (Nat.le_add_right p _) (ih _)

theorem lt_stride (moves : step p ≠ 0) (some_ : 0 < turns) : p < stride step turns p := by
  obtain ⟨k, rfl⟩ := Nat.exists_eq_succ_of_ne_zero (Nat.ne_of_gt some_)
  rw [stride, if_neg moves]
  have := le_stride step k (p + step p)
  omega

theorem stride_le (inside : Within step len) (le : p ≤ len) : stride step turns p ≤ len := by
  induction turns generalizing p with
  | zero => exact le
  | succ turns ih =>
    rw [stride]
    split
    · exact le
    · rename_i moves
      exact ih (inside p moves)

theorem stride_strides (inside : Within step len) (enough : len - p ≤ turns) (le : p ≤ len) :
    Strides step p (stride step turns p) := by
  induction turns generalizing p with
  | zero =>
    have : step p = 0 := by
      by_contra moves
      have := inside p moves
      omega
    exact .stop this
  | succ turns ih =>
    rw [stride]
    split
    · rename_i still
      exact .stop still
    · rename_i moves
      have := inside p moves
      exact .more moves (ih (by omega) this)

theorem Strides.stopped (walk : Strides step p q) : step q = 0 := by
  induction walk with
  | stop still => exact still
  | more _ _ ih => exact ih

theorem Strides.le (walk : Strides step p q) : p ≤ q := by
  induction walk with
  | stop => exact Nat.le_refl _
  | more _ _ ih => omega

theorem Strides.unique {q' : Nat} (walk : Strides step p q) (other : Strides step p q') : q = q' := by
  induction walk with
  | stop still =>
    cases other with
    | stop => rfl
    | more moves => exact absurd still moves
  | more moves _ ih =>
    cases other with
    | stop still => exact absurd still moves
    | more _ rest => exact ih rest

theorem Strides.eq (walk : Strides step p q) (inside : Within step len) (enough : len - p ≤ turns) (le : p ≤ len) :
    stride step turns p = q :=
  (stride_strides inside enough le).unique walk

/-- A walk of single steps stops at the first place that has none. -/
theorem strides_single (le : p ≤ q) (moves : ∀ k, p ≤ k → k < q → step k = 1) (still : step q = 0) : Strides step p q := by
  obtain ⟨d, rfl⟩ := Nat.exists_eq_add_of_le le
  clear le
  induction d generalizing p with
  | zero => exact .stop still
  | succ d ih =>
    have one : step p = 1 := moves p (Nat.le_refl p) (by omega)
    refine .more (by omega) ?_
    rw [one]
    have rest := ih (p := p + 1) (fun k lo hi => moves k (by omega) (by omega)) (by rwa [show p + 1 + d = p + (d + 1) by omega])
    rwa [show p + 1 + d = p + (d + 1) by omega] at rest

end Cocolog.Lib
