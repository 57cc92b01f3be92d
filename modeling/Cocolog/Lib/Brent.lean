import Mathlib.Data.Finset.Card
import Mathlib.Data.Nat.Find

/-! Brent's method for a walk that may come back to itself. A place is kept and compared with
each after it, and another is kept at every power of two; the walk ends inside four times the
places there are, by its own end or at a place it kept. -/

set_option linter.all false

namespace Cocolog.Lib

variable {α : Type*} {next : α → Option α} {a : α}

/-- The places of a walk, `none` past its end. -/
def walk (next : α → Option α) (a : α) : Nat → Option α
  | 0 => some a
  | n + 1 => (walk next a n).bind next

/-- The walk comes to a place twice. -/
def Returns (next : α → Option α) (a : α) : Prop := ∃ i j c, i < j ∧ walk next a i = some c ∧ walk next a j = some c

/-- The loop, with the places it passed: they are the answer when it comes back to the place kept. The outer `none` is a
loop out of turns. -/
def brent [DecidableEq α] (next : α → Option α) :
    (turns : Nat) → (b kept : α) → (power lam : Nat) → List α → Option (Option (List α))
  | 0, _, _, _, _, _ => none
  | turns + 1, b, kept, power, lam, seen =>
    match next b with
    | none => some none
    | some c =>
      if c = kept then some (some (seen ++ [b]))
      else if lam + 1 = power then brent next turns c c (power * 2) 0 (seen ++ [b])
      else brent next turns c kept power (lam + 1) (seen ++ [b])

theorem walk_none {m n : Nat} (ended : walk next a m = none) (le : m ≤ n) : walk next a n = none := by
  obtain ⟨d, rfl⟩ := Nat.exists_eq_add_of_le le
  clear le
  induction d with
  | zero => exact ended
  | succ d ih =>
    rw [← Nat.add_assoc, walk, ih]
    rfl

theorem walk_shift {i j : Nat} (same : walk next a i = walk next a j) (d : Nat) : walk next a (i + d) = walk next a (j + d) := by
  induction d with
  | zero => exact same
  | succ d ih => rw [← Nat.add_assoc, ← Nat.add_assoc, walk, walk, ih]

/-- A walk that comes back does not end. -/
theorem Returns.endless (returns : Returns next a) (n : Nat) : walk next a n ≠ none := by
  obtain ⟨i, j, c, lt, at_i, at_j⟩ := returns
  induction n using Nat.strong_induction_on with
  | _ n ih =>
    intro ended
    have past : j < n := by
      by_contra before
      have := walk_none ended (Nat.not_lt.mp before)
      rw [at_j] at this
      cases this
    have back := walk_shift (at_i.trans at_j.symm) (n - j)
    rw [show j + (n - j) = n by omega] at back
    exact ih (i + (n - j)) (by omega) (back.trans ended)

/-- More places passed than there are: one of them twice. -/
theorem returns_of_long {S : Finset α} (inside : ∀ k c, walk next a k = some c → c ∈ S) (long : walk next a S.card ≠ none) :
    ∃ i j c, i < j ∧ j ≤ S.card ∧ walk next a i = some c ∧ walk next a j = some c := by
  have some_ : ∀ k ≤ S.card, walk next a k ≠ none := fun k le ended => long (walk_none ended le)
  have places : ∀ k ∈ Finset.range (S.card + 1), (walk next a k).getD a ∈ S := by
    intro k mem
    obtain ⟨c, is⟩ := Option.ne_none_iff_exists'.mp (some_ k (Nat.lt_succ_iff.mp (Finset.mem_range.mp mem)))
    rw [is]
    exact inside k c is
  obtain ⟨i, mi, j, mj, other, same⟩ := Finset.exists_ne_map_eq_of_card_lt_of_maps_to
    (by rw [Finset.card_range]; exact Nat.lt_succ_self _) places
  have pair : ∀ {i j}, i < j → j ≤ S.card → (walk next a i).getD a = (walk next a j).getD a →
      ∃ i j c, i < j ∧ j ≤ S.card ∧ walk next a i = some c ∧ walk next a j = some c := by
    intro i j lt le same
    obtain ⟨c, at_i⟩ := Option.ne_none_iff_exists'.mp (some_ i (by omega))
    obtain ⟨d, at_j⟩ := Option.ne_none_iff_exists'.mp (some_ j le)
    rw [at_i, at_j] at same
    exact ⟨i, j, c, lt, le, at_i, by rw [at_j]; exact congrArg some same.symm⟩
  rw [Finset.mem_range] at mi mj
  rcases Nat.lt_or_gt_of_ne other with lt | gt
  · exact pair lt (by omega) same
  · exact pair gt (by omega) same.symm

section search

variable [DecidableEq α]

/-- A walk that ends is followed to its end. -/
theorem brent_ended (once : ¬Returns next a) {turns k b : Nat} (ended : walk next a (k + turns) = none) {x kept : α}
    (here : walk next a k = some x) (before : b ≤ k) (held : walk next a b = some kept) (power lam : Nat) (seen : List α) :
    brent next turns x kept power lam seen = some none := by
  induction turns generalizing k b x kept power lam seen with
  | zero =>
    rw [Nat.add_zero, here] at ended
    cases ended
  | succ turns ih =>
    rw [brent]
    cases is : next x with
    | none => rfl
    | some c =>
      have on : walk next a (k + 1) = some c := by rw [walk, here]; exact is
      have ended' : walk next a (k + 1 + turns) = none := by rwa [show k + 1 + turns = k + (turns + 1) by omega]
      have other : c ≠ kept := by
        rintro rfl
        exact once ⟨b, k + 1, c, by omega, held, on⟩
      dsimp only
      rw [if_neg other]
      split
      · exact ih ended' on (Nat.le_refl _) on _ _ _
      · exact ih ended' on (by omega) held _ _ _

/-- A walk that comes back is followed until it is at the place kept, with every place it has passed. -/
theorem brent_returned {x : Nat → α} (goes : ∀ k, next (x k) = some (x (k + 1))) {n i p : Nat} (below : i < n) (some_ : 0 < p)
    (short : p ≤ n) (period : ∀ k, i ≤ k → x (k + p) = x k) {turns k b : Nat} (enough : 4 * n < k + turns) (few : b ≤ 2 * n)
    (after : b ≤ k) (within : k ≤ 2 * b) (new : ∀ j, b < j → j ≤ k → x j ≠ x b) :
    ∃ m b', b' ≤ m ∧ x (m + 1) = x b' ∧
      brent next turns (x k) (x b) (b + 1) (k - b) ((List.range k).map x) = some (some ((List.range (m + 1)).map x)) := by
  induction turns generalizing k b with
  | zero => omega
  | succ turns ih =>
    have seen : (List.range k).map x ++ [x k] = (List.range (k + 1)).map x := by
      rw [List.range_succ, List.map_append, List.map_singleton]
    rw [brent, goes, seen]
    dsimp only
    split
    · rename_i same
      exact ⟨k, b, after, same, rfl⟩
    · rename_i other
      split
      · rename_i full
        -- the place kept is not in the cycle yet, or the cycle is longer than what was walked
        have early : b < n := by
          by_contra late
          have back := period b (by omega)
          by_cases last : b + p = k + 1
          · exact other (last ▸ back)
          · exact new (b + p) (by omega) (by omega) back
        have at_ : k + 1 = 2 * b + 1 := by omega
        have next_ := ih (k := k + 1) (b := k + 1) (by omega) (by omega) (Nat.le_refl _) (by omega) (fun j lt le => by omega)
        rw [Nat.sub_self] at next_
        rwa [show (b + 1) * 2 = k + 1 + 1 by omega]
      · rename_i room
        have next_ := ih (k := k + 1) (b := b) (by omega) few (by omega) (by omega) fun j lt le => by
          by_cases last : j = k + 1
          · rw [last]
            exact other
          · exact new j lt (by omega)
        rwa [show k + 1 - b = k - b + 1 by omega] at next_

/-- The loop in a memory of finitely many places: it ends, and answers whether the walk comes back. -/
theorem brent_spec {S : Finset α} (inside : ∀ k c, walk next a k = some c → c ∈ S) :
    (¬Returns next a → brent next (4 * S.card + 1) a a 1 0 [] = some none) ∧
      (Returns next a → ∃ (x : Nat → α) (n : Nat), (∀ k, walk next a k = some (x k)) ∧ (∀ k, ∃ j < n, x j = x k) ∧
        brent next (4 * S.card + 1) a a 1 0 [] = some (some ((List.range n).map x))) := by
  constructor
  · intro once
    have ended : walk next a S.card = none := by
      by_contra long
      obtain ⟨i, j, c, lt, -, at_i, at_j⟩ := returns_of_long inside long
      exact once ⟨i, j, c, lt, at_i, at_j⟩
    exact brent_ended once (k := 0) (b := 0) (walk_none ended (by omega)) rfl (Nat.le_refl _) rfl _ _ _
  · intro returns
    have total : ∀ k, ∃ c, walk next a k = some c := fun k => Option.ne_none_iff_exists'.mp (returns.endless k)
    choose x is using total
    obtain ⟨i, j, c, lt, le, at_i, at_j⟩ := returns_of_long inside (returns.endless S.card)
    have goes : ∀ k, next (x k) = some (x (k + 1)) := by
      intro k
      have on := is (k + 1)
      rwa [walk, is k, Option.bind_some] at on
    have shift : ∀ {m m'} d, x m = x m' → x (m + d) = x (m' + d) := by
      intro m m' d same
      have := @walk_shift _ next a m m' (by rw [is, is, same]) d
      rwa [is, is, Option.some.injEq] at this
    have first : x i = x j := by
      rw [is] at at_i at_j
      exact Option.some.inj (at_i.trans at_j.symm)
    have period : ∀ k, i ≤ k → x (k + (j - i)) = x k := by
      intro k past
      have := shift (k - i) first
      rw [show i + (k - i) = k by omega, show j + (k - i) = k + (j - i) by omega] at this
      exact this.symm
    obtain ⟨m, b, before, back, answer⟩ := @brent_returned _ _ _ _ goes S.card i (j - i)
      (by omega) (by omega) (by omega) period (4 * S.card + 1) 0 0 (by omega) (Nat.zero_le _) (Nat.le_refl _) (Nat.zero_le _)
      fun k lt le => by omega
    have start : x 0 = a := (Option.some.inj (is 0)).symm
    rw [start] at answer
    refine ⟨x, m + 1, is, fun k => ?_, answer⟩
    induction k using Nat.strong_induction_on with
    | _ k ih =>
      by_cases here : k < m + 1
      · exact ⟨k, here, rfl⟩
      · obtain ⟨q, ltq, same⟩ := ih (b + (k - (m + 1))) (by omega)
        have := shift (k - (m + 1)) back
        rw [show m + 1 + (k - (m + 1)) = k by omega] at this
        exact ⟨q, ltq, same.trans this.symm⟩

end search

end Cocolog.Lib
