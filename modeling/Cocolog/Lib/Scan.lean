import Mathlib.Algebra.Order.Ring.Nat
import Mathlib.Data.List.Basic
import Mathlib.Data.List.Range

/-! The first accepted position of a stretch of natural numbers, and what happens to
it when the stretch grows at its end or its start moves on. Nothing here knows what
the positions index. -/

set_option linter.all false

namespace Cocolog.Lib

/-- The accepted positions from `lo` on, short of `hi`, in ascending order. -/
def positions (c : Nat → Bool) (lo hi : Nat) : List Nat :=
  (List.range' lo (hi - lo)).filter c

/-- The least accepted position at or after `lo` and below `hi`. -/
def leastFrom (c : Nat → Bool) (lo hi : Nat) : Option Nat :=
  (List.range' lo (hi - lo)).find? c

theorem head_positions (c : Nat → Bool) (lo hi : Nat) :
    (positions c lo hi).head? = leastFrom c lo hi := by
  simp [positions, leastFrom]

theorem mem_positions {c : Nat → Bool} {lo hi i : Nat} :
    i ∈ positions c lo hi ↔ lo ≤ i ∧ i < hi ∧ c i = true := by
  simp only [positions, List.mem_filter, List.mem_range'_1]
  constructor
  · rintro ⟨⟨h1, h2⟩, h3⟩
    exact ⟨h1, by omega, h3⟩
  · rintro ⟨h1, h2, h3⟩
    exact ⟨⟨h1, by omega⟩, h3⟩

theorem leastFrom_eq_some {c : Nat → Bool} {lo hi i : Nat} :
    leastFrom c lo hi = some i ↔
      lo ≤ i ∧ i < hi ∧ c i = true ∧ ∀ j, lo ≤ j → j < i → c j = false := by
  simp only [leastFrom, List.find?_range'_eq_some, List.mem_range'_1, Bool.not_eq_true']
  constructor
  · rintro ⟨hc, ⟨h1, h2⟩, least⟩
    exact ⟨h1, by omega, hc, least⟩
  · rintro ⟨h1, h2, hc, least⟩
    exact ⟨hc, ⟨h1, by omega⟩, least⟩

theorem leastFrom_eq_none {c : Nat → Bool} {lo hi : Nat} :
    leastFrom c lo hi = none ↔ ∀ i, lo ≤ i → i < hi → c i = false := by
  simp only [leastFrom, List.find?_eq_none, List.mem_range'_1, Bool.not_eq_true]
  constructor
  · intro h i h1 h2
    exact h i ⟨h1, by omega⟩
  · rintro h i ⟨h1, h2⟩
    exact h i h1 (by omega)

theorem leastFrom_of_ge {c : Nat → Bool} {lo hi : Nat} (h : hi ≤ lo) :
    leastFrom c lo hi = none := by
  rw [leastFrom_eq_none]
  intro i h1 h2
  omega

theorem leastFrom_of_accepted {c : Nat → Bool} {lo hi : Nat} (below : lo < hi)
    (here : c lo = true) : leastFrom c lo hi = some lo := by
  rw [leastFrom_eq_some]
  exact ⟨Nat.le_refl lo, below, here, by omega⟩

theorem leastFrom_step {c : Nat → Bool} {lo hi : Nat} (not_here : c lo = false) :
    leastFrom c lo hi = leastFrom c (lo + 1) hi := by
  cases h : leastFrom c (lo + 1) hi with
  | none =>
    rw [leastFrom_eq_none] at h ⊢
    intro i h1 h2
    rcases Nat.eq_or_lt_of_le h1 with rfl | later
    · exact not_here
    · exact h i later h2
  | some i =>
    rw [leastFrom_eq_some] at h ⊢
    refine ⟨by omega, h.2.1, h.2.2.1, ?_⟩
    intro j h1 h2
    rcases Nat.eq_or_lt_of_le h1 with rfl | later
    · exact not_here
    · exact h.2.2.2 j later h2

/-- A stretch with nothing accepted may be passed over. -/
theorem leastFrom_skip {c : Nat → Bool} {lo mid hi : Nat} (le : lo ≤ mid)
    (refused : ∀ i, lo ≤ i → i < mid → c i = false) :
    leastFrom c lo hi = leastFrom c mid hi := by
  obtain ⟨k, rfl⟩ : ∃ k, mid = lo + k := ⟨mid - lo, by omega⟩
  induction k with
  | zero => rfl
  | succ k ih =>
    rw [ih (by omega) (fun i h1 h2 => refused i h1 (by omega)),
      leastFrom_step (refused (lo + k) (by omega) (by omega))]
    rfl

theorem leastFrom_congr {c d : Nat → Bool} {lo hi : Nat}
    (agree : ∀ i, lo ≤ i → i < hi → c i = d i) : leastFrom c lo hi = leastFrom d lo hi := by
  cases h : leastFrom d lo hi with
  | none =>
    rw [leastFrom_eq_none] at h ⊢
    intro i h1 h2
    rw [agree i h1 h2, h i h1 h2]
  | some i =>
    rw [leastFrom_eq_some] at h ⊢
    refine ⟨h.1, h.2.1, by rw [agree i h.1 h.2.1, h.2.2.1], ?_⟩
    intro j h1 h2
    rw [agree j h1 (by omega), h.2.2.2 j h1 h2]

/-- One more position at the end is the answer only where there was none. -/
theorem leastFrom_grow (c : Nat → Bool) {lo hi : Nat} (le : lo ≤ hi) :
    leastFrom c lo (hi + 1) =
      (leastFrom c lo hi).or (if c hi = true then some hi else none) := by
  cases h : leastFrom c lo hi with
  | some i =>
    rw [leastFrom_eq_some] at h
    rw [Option.some_or, leastFrom_eq_some]
    exact ⟨h.1, by omega, h.2.2⟩
  | none =>
    rw [leastFrom_eq_none] at h
    rw [Option.none_or]
    split
    · rename_i accepted
      rw [leastFrom_eq_some]
      exact ⟨le, by omega, accepted, h⟩
    · rename_i refused
      rw [leastFrom_eq_none]
      intro i h1 h2
      rcases Nat.eq_or_lt_of_le (Nat.le_of_lt_succ h2) with rfl | below
      · simpa using refused
      · exact h i h1 below

/-- The least of two kinds at once is the smaller of the two least ones. -/
theorem leastFrom_or (c d : Nat → Bool) (lo hi : Nat) :
    leastFrom (fun i => c i || d i) lo hi =
      match leastFrom c lo hi, leastFrom d lo hi with
      | none, b => b
      | some a, none => some a
      | some a, some b => some (if a < b then a else b) := by
  cases hc : leastFrom c lo hi with
  | none =>
    rw [leastFrom_eq_none] at hc
    refine leastFrom_congr ?_
    intro i h1 h2
    simp [hc i h1 h2]
  | some a =>
    cases hd : leastFrom d lo hi with
    | none =>
      rw [leastFrom_eq_none] at hd
      show leastFrom (fun i => c i || d i) lo hi = some a
      rw [← hc]
      refine leastFrom_congr ?_
      intro i h1 h2
      simp [hd i h1 h2]
    | some b =>
      rw [leastFrom_eq_some] at hc hd
      obtain ⟨a1, a2, ca, leastA⟩ := hc
      obtain ⟨b1, b2, db, leastB⟩ := hd
      show leastFrom (fun i => c i || d i) lo hi = some (if a < b then a else b)
      rw [leastFrom_eq_some]
      split
      · rename_i lt
        refine ⟨a1, a2, by simp [ca], ?_⟩
        intro j h1 h2
        simp [leastA j h1 h2, leastB j h1 (by omega)]
      · rename_i ge
        refine ⟨b1, b2, by simp [db], ?_⟩
        intro j h1 h2
        simp [leastA j h1 (by omega), leastB j h1 h2]

/-- An answer past a nearer end is none before it. -/
theorem leastFrom_filter (c : Nat → Bool) {lo mid hi : Nat} (le : mid ≤ hi) :
    (leastFrom c lo hi).filter (fun i => decide (i < mid)) = leastFrom c lo mid := by
  cases h : leastFrom c lo hi with
  | none =>
    rw [leastFrom_eq_none] at h
    rw [Option.filter_none, eq_comm, leastFrom_eq_none]
    intro i h1 h2
    exact h i h1 (by omega)
  | some i =>
    obtain ⟨h1, h2, accepted, least⟩ := leastFrom_eq_some.mp h
    by_cases below : i < mid
    · rw [Option.filter_some_pos (by simpa using below), eq_comm, leastFrom_eq_some]
      exact ⟨h1, below, accepted, least⟩
    · rw [Option.filter_some_neg (by simpa using below), eq_comm, leastFrom_eq_none]
      intro j hj lt
      exact least j hj (by omega)

theorem positions_eq_nil {c : Nat → Bool} {lo hi : Nat} (none : leastFrom c lo hi = none) :
    positions c lo hi = [] := by
  rw [← head_positions] at none
  exact List.head?_eq_none_iff.mp none

theorem positions_of_ge {c : Nat → Bool} {lo hi : Nat} (h : hi ≤ lo) :
    positions c lo hi = [] :=
  positions_eq_nil (leastFrom_of_ge h)

theorem positions_cons {c : Nat → Bool} {lo hi : Nat} (below : lo < hi) :
    positions c lo hi =
      if c lo = true then lo :: positions c (lo + 1) hi else positions c (lo + 1) hi := by
  obtain ⟨k, rfl⟩ : ∃ k, hi = lo + k + 1 := ⟨hi - lo - 1, by omega⟩
  have width : lo + k + 1 - lo = k + 1 := by omega
  have rest : lo + k + 1 - (lo + 1) = k := by omega
  simp only [positions, width, rest, List.range'_succ, List.filter_cons]

/-- The accepted positions are the least one and then those after it. -/
theorem positions_of_least {c : Nat → Bool} {lo hi i : Nat}
    (least : leastFrom c lo hi = some i) :
    positions c lo hi = i :: positions c (i + 1) hi := by
  obtain ⟨k, rfl⟩ : ∃ k, i = lo + k := by
    rw [leastFrom_eq_some] at least
    exact ⟨i - lo, by omega⟩
  induction k generalizing lo with
  | zero =>
    rw [leastFrom_eq_some] at least
    rw [positions_cons (by omega), Nat.add_zero] at *
    simp [least.2.2.1]
  | succ k ih =>
    have spec := leastFrom_eq_some.mp least
    have skip : c lo = false := spec.2.2.2 lo (Nat.le_refl lo) (by omega)
    rw [positions_cons (by omega), skip]
    have shifted : lo + (k + 1) = lo + 1 + k := by omega
    rw [shifted] at least ⊢
    rw [leastFrom_step skip] at least
    simpa using ih least

theorem positions_split {c : Nat → Bool} {lo mid hi : Nat} (h1 : lo ≤ mid) (h2 : mid ≤ hi) :
    positions c lo hi = positions c lo mid ++ positions c mid hi := by
  have width : hi - lo = (mid - lo) + (hi - mid) := by omega
  have second : mid = lo + (mid - lo) := by omega
  simp only [positions, width]
  rw [← List.range'_append_1, List.filter_append, ← second]

theorem positions_congr {c d : Nat → Bool} {lo hi : Nat}
    (agree : ∀ i, lo ≤ i → i < hi → c i = d i) : positions c lo hi = positions d lo hi := by
  refine List.filter_congr ?_
  intro i hi'
  rw [List.mem_range'_1] at hi'
  exact agree i hi'.1 (by omega)

theorem filter_positions (c w : Nat → Bool) (lo hi : Nat) :
    (positions c lo hi).filter w = positions (fun i => c i && w i) lo hi := by
  rw [positions, positions, List.filter_filter]
  refine List.filter_congr ?_
  intro i _
  rw [Bool.and_comm]

/-- Moving the whole stretch up one renumbers its positions and nothing else. -/
theorem positions_shift (c : Nat → Bool) (lo hi : Nat) :
    positions c (lo + 1) (hi + 1) = (positions (fun i => c (i + 1)) lo hi).map (· + 1) := by
  have width : hi + 1 - (lo + 1) = hi - lo := by omega
  simp only [positions, width, List.range'_succ_left, List.filter_map]
  rfl

end Cocolog.Lib
