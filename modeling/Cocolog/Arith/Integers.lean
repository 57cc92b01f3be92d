import Cocolog.Arith.Evaluate
import Mathlib.Tactic.LinearCombination

/-! Integer arithmetic is exact or says that it is not: each function answers its result
over the integers where 64 bits hold it, and raises otherwise. -/

set_option linter.all false

namespace Cocolog.Arith

open Cocolog.Lib Cocolog.Lib.Words

/-- An integer where 64 bits hold it. -/
def narrowed (z : Int) : Option Int64 := if Fits z then some (Int64.ofInt z) else none

/-- An integer, or `int_overflow`. -/
def exact (z : Int) : Answer := whole (narrowed z)

/-- `a` times 2 to the `n`, rounded down. -/
def scaled (a n : Int) : Int := if 0 ≤ n then a * 2 ^ n.toNat else a / 2 ^ (-n).toNat

/-- What a function of two integers is over the integers; `none` where it divides by zero.
The functions that are not about integers, and the powers under 1, have no such value. -/
def integerValue : Binary → Int → Int → Option (Option Int)
  | .add, a, b => some (some (a + b))
  | .sub, a, b => some (some (a - b))
  | .mul, a, b => some (some (a * b))
  | .quotient, a, b => some (if b = 0 then none else some (a.tdiv b))
  | .div, a, b => some (if b = 0 then none else some (a.fdiv b))
  | .mod, a, b => some (if b = 0 then none else some (a.fmod b))
  | .rem, a, b => some (if b = 0 then none else some (a.tmod b))
  | .gcd, a, b => some (some (Int.gcd a b))
  | .lcm, a, b => some (some (Int.lcm a b))
  | .shiftRight, a, b => some (some (scaled a (-b)))
  | .shiftLeft, a, b => some (some (scaled a b))
  | .and, a, b => some (some (Int.land a b))
  | .or, a, b => some (some (Int.lor a b))
  | .xor, a, b => some (some (Int.xor a b))
  | .min, a, b => some (some (min a b))
  | .max, a, b => some (some (max a b))
  | .power, a, b => if 0 ≤ b then some (some (a ^ b.toNat)) else none
  | .caret, a, b => if 0 ≤ b then some (some (a ^ b.toNat)) else none
  | _, _, _ => none

variable {a b k : Int64} {z : Int}

theorem narrowed_of_eq {v : Int64} (is : v.toInt = z) : narrowed z = some v := by
  have fits : Fits z := is ▸ fits_toInt v
  rw [narrowed, if_pos fits, ← eq_ofInt is]

theorem exact_of_eq {v : Int64} (is : v.toInt = z) : (.ok (.int v) : Answer) = exact z := by
  rw [exact, narrowed_of_eq is]
  rfl

theorem exact_of_narrowed {r : Option Int64} (is : r = narrowed z) : whole r = exact z := by
  rw [exact, is]

theorem addOvf_eq : addOvf a b = narrowed (a.toInt + b.toInt) := by
  rw [addOvf]
  split
  · rename_i fits
    exact (narrowed_of_eq (toInt_add fits)).symm
  · rename_i out
    rw [narrowed, if_neg out]

theorem subOvf_eq : subOvf a b = narrowed (a.toInt - b.toInt) := by
  rw [subOvf]
  split
  · rename_i fits
    exact (narrowed_of_eq (toInt_sub fits)).symm
  · rename_i out
    rw [narrowed, if_neg out]

theorem mulOvf_eq : mulOvf a b = narrowed (a.toInt * b.toInt) := by
  rw [mulOvf]
  split
  · rename_i fits
    exact (narrowed_of_eq (toInt_mul fits)).symm
  · rename_i out
    rw [narrowed, if_neg out]

/- Divisions. -/

/-- The least integer has no negation in 64 bits. -/
theorem negated_eq : (if a = Int64.minValue then none else some (0 - a)) = narrowed (-a.toInt) := by
  split
  · rename_i least
    rw [least, narrowed, if_neg (by decide)]
  · rename_i other
    have zero : (0 : Int64).toInt = 0 := rfl
    have fits : Fits ((0 : Int64).toInt - a.toInt) := by
      rw [zero, Int.zero_sub]
      exact fits_neg other
    rw [narrowed_of_eq]
    rw [toInt_sub fits, zero, Int.zero_sub]

theorem toInt_ne_zero (some_ : b ≠ 0) : b.toInt ≠ 0 := fun zero => some_ (Int64.toInt_inj.mp zero)

theorem toInt_ne_neg_one (other : b ≠ -1) : b.toInt ≠ -1 := fun is => other (Int64.toInt_inj.mp is)

theorem toInt_div (other : b ≠ -1) : (a / b).toInt = a.toInt.tdiv b.toInt := Int64.toInt_div_of_ne_right a b other

/-- Whether the remainder has the sign the divisor has not. -/
def Adjusts (n d : Int) : Prop := n.tmod d ≠ 0 ∧ (n.tmod d < 0 ↔ ¬ d < 0)

instance (n d : Int) : Decidable (Adjusts n d) := inferInstanceAs (Decidable (_ ∧ _))

theorem tmod_sign (n d : Int) : (0 ≤ n → 0 ≤ n.tmod d) ∧ (n < 0 → n.tmod d ≤ 0) := by
  refine ⟨Int.tmod_nonneg d, fun neg => ?_⟩
  have opposite := Int.tmod_nonneg d (show 0 ≤ -n by omega)
  rw [Int.neg_tmod] at opposite
  omega

/-- Flooring takes one off the quotient and adds the divisor to the remainder. -/
theorem floor_eq {n d : Int} (some_ : d ≠ 0) :
    n.fdiv d = n.tdiv d - (if Adjusts n d then 1 else 0) ∧ n.fmod d = n.tmod d + (if Adjusts n d then d else 0) := by
  have quotient : n.fdiv d = n.tdiv d - (if Adjusts n d then 1 else 0) := by
    obtain ⟨up, down⟩ := tmod_sign n d
    have divides : d ∣ n ↔ n.tmod d = 0 := Int.dvd_iff_tmod_eq_zero
    rw [Int.fdiv_eq_tdiv]
    by_cases whole_ : d ∣ n
    · rw [if_pos whole_, if_neg (fun adjusts : Adjusts n d => adjusts.1 (divides.mp whole_))]
    · have rest : n.tmod d ≠ 0 := mt divides.mpr whole_
      have signs : Adjusts n d ↔ (n < 0 ↔ ¬ d < 0) := by
        unfold Adjusts
        omega
      have taken : (if Adjusts n d then (1 : Int) else 0) = if n < 0 ↔ ¬ d < 0 then 1 else 0 := if_congr signs rfl rfl
      rw [if_neg whole_, taken]
      congr 1
      rcases Int.lt_or_lt_of_ne some_ with neg | pos
      · rw [if_neg (show ¬ 0 ≤ d by omega), if_neg (show ¬ 0 ≤ d by omega), Int.sign_eq_neg_one_of_neg neg]
        split <;> split <;> omega
      · rw [if_pos (show 0 ≤ d by omega), if_pos (show 0 ≤ d by omega), Int.sign_eq_one_of_pos pos]
        split <;> split <;> omega
  refine ⟨quotient, ?_⟩
  rw [Int.fmod_def, Int.tmod_def, quotient]
  split <;> ring

theorem floorAdjusts_iff : floorAdjusts a b = true ↔ Adjusts a.toInt b.toInt := by
  have zero : (0 : Int64).toInt = 0 := rfl
  have none_ : a % b = 0 ↔ a.toInt.tmod b.toInt = 0 := by
    rw [← Int64.toInt_inj, Int64.toInt_mod, zero]
  have low : a % b < 0 ↔ a.toInt.tmod b.toInt < 0 := by
    rw [Int64.lt_iff_toInt_lt, Int64.toInt_mod, zero]
  have neg : b < 0 ↔ b.toInt < 0 := by rw [Int64.lt_iff_toInt_lt, zero]
  simp only [floorAdjusts, Bool.and_eq_true, decide_eq_true_eq, bne_iff_ne, ne_eq, decide_eq_decide, none_, low, neg,
    Adjusts]
  refine and_congr_right fun _ => ?_
  rw [not_iff, iff_not_comm]
  exact iff_comm

theorem tmod_bound (n : Int) {d : Int} (some_ : d ≠ 0) : (n.tmod d).natAbs < d.natAbs := by
  rw [Int.natAbs_tmod]
  exact Nat.mod_lt _ (Int.natAbs_pos.mpr some_)

/-- A quotient that is adjusted is of a divisor past 1. -/
theorem tdiv_bound {n d : Int} (some_ : d ≠ 0) (adjusts : Adjusts n d) (fits : Fits n) :
    -2 ^ 62 ≤ n.tdiv d ∧ n.tdiv d ≤ 2 ^ 62 := by
  have bound := tmod_bound n some_
  have rest : (n.tmod d).natAbs ≠ 0 := fun zero => adjusts.1 (Int.natAbs_eq_zero.mp zero)
  have abs : (n.tdiv d).natAbs = n.natAbs / d.natAbs := Int.natAbs_tdiv n d
  have half : n.natAbs / d.natAbs ≤ n.natAbs / 2 := Nat.div_le_div_left (by omega) (by decide)
  unfold Fits at fits
  omega

theorem floored_quotient (some_ : b ≠ 0) (other : b ≠ -1) :
    (a / b - if floorAdjusts a b then 1 else 0).toInt = a.toInt.fdiv b.toInt := by
  have quotient := toInt_div (a := a) other
  have one : (1 : Int64).toInt = 1 := rfl
  have zero : (0 : Int64).toInt = 0 := rfl
  rw [(floor_eq (toInt_ne_zero some_)).1]
  by_cases adjusts : Adjusts a.toInt b.toInt
  · have bound := tdiv_bound (toInt_ne_zero some_) adjusts (fits_toInt a)
    rw [if_pos (floorAdjusts_iff.mpr adjusts), if_pos adjusts, toInt_sub]
    · rw [quotient, one]
    · rw [quotient, one]
      unfold Fits
      omega
  · rw [if_neg (mt floorAdjusts_iff.mp adjusts), if_neg adjusts, toInt_sub]
    · rw [quotient, zero]
    · rw [zero, Int.sub_zero]
      exact fits_toInt _

theorem floored_rest (some_ : b ≠ 0) : (a % b + if floorAdjusts a b then b else 0).toInt = a.toInt.fmod b.toInt := by
  have rest : (a % b).toInt = a.toInt.tmod b.toInt := Int64.toInt_mod a b
  have zero : (0 : Int64).toInt = 0 := rfl
  have bound := tmod_bound a.toInt (toInt_ne_zero some_)
  have fits := fits_toInt b
  rw [(floor_eq (toInt_ne_zero some_)).2]
  by_cases adjusts : Adjusts a.toInt b.toInt
  · rw [if_pos (floorAdjusts_iff.mpr adjusts), if_pos adjusts, toInt_add]
    · rw [rest]
    · rw [rest]
      unfold Fits at *
      obtain ⟨-, signs⟩ := adjusts
      omega
  · rw [if_neg (mt floorAdjusts_iff.mp adjusts), if_neg adjusts, toInt_add]
    · rw [rest, zero]
    · rw [zero, Int.add_zero]
      exact fits_toInt _

/- Shifts. -/

/-- A word shifted up, but for a multiple of 2^64. -/
theorem shifted_up (low : 0 ≤ k.toInt) (high : k.toInt < 64) :
    (2 ^ 64 : Int) ∣ (a.toUInt64 <<< k.toUInt64).toInt64.toInt - a.toInt * 2 ^ k.toInt.toNat := by
  have count : k.toUInt64.toNat = k.toInt.toNat := by
    have same := toInt_eq_toNat k
    omega
  have word : (a.toUInt64 <<< k.toUInt64).toNat = a.toUInt64.toNat * 2 ^ k.toInt.toNat % 2 ^ 64 := by
    have near : k.toInt.toNat % 64 = k.toInt.toNat := Nat.mod_eq_of_lt (by omega)
    rw [UInt64.toNat_shiftLeft, count, near, Nat.shiftLeft_eq]
  obtain ⟨u, shifted⟩ : ∃ u : Int, (a.toUInt64 <<< k.toUInt64).toInt64.toInt =
      (a.toUInt64 <<< k.toUInt64).toNat + 2 ^ 64 * u := by
    rcases toInt_toInt64 (a.toUInt64 <<< k.toUInt64) with ⟨is, -⟩ | ⟨is, -⟩
    · exact ⟨0, by omega⟩
    · exact ⟨-1, by omega⟩
  obtain ⟨v, value⟩ : ∃ v : Int, a.toInt = a.toUInt64.toNat + 2 ^ 64 * v := by
    rcases toInt_eq_toNat a with ⟨is, -⟩ | ⟨is, -⟩
    · exact ⟨0, by omega⟩
    · exact ⟨-1, by omega⟩
  have parts := Nat.div_add_mod (a.toUInt64.toNat * 2 ^ k.toInt.toNat) (2 ^ 64)
  rw [← word] at parts
  refine ⟨u - (a.toUInt64.toNat * 2 ^ k.toInt.toNat / 2 ^ 64 : Nat) - v * 2 ^ k.toInt.toNat, ?_⟩
  have parts' : (2 ^ 64 : Int) * (a.toUInt64.toNat * 2 ^ k.toInt.toNat / 2 ^ 64 : Nat) +
      (a.toUInt64 <<< k.toUInt64).toNat = a.toUInt64.toNat * 2 ^ k.toInt.toNat := by exact_mod_cast parts
  rw [shifted, value]
  linear_combination parts'

theorem pow_fits {n : Nat} (le : n ≤ 63) : (1 : Int) ≤ 2 ^ n ∧ (2 : Int) ^ n ≤ 2 ^ 63 := by
  have one : 1 ≤ 2 ^ n := Nat.one_le_two_pow
  have most : 2 ^ n ≤ 2 ^ 63 := Nat.pow_le_pow_right (by decide) le
  exact ⟨by exact_mod_cast one, by exact_mod_cast most⟩

/-- A shift up is exact or overflows: a bit lost does not come back. -/
theorem lsh_eq (low : 0 ≤ k.toInt) : lsh a k = narrowed (a.toInt * 2 ^ k.toInt.toNat) := by
  have zero : (0 : Int64).toInt = 0 := rfl
  rw [lsh]
  split
  · rename_i none_
    rw [none_, zero, Int.zero_mul]
    rfl
  rename_i some_
  have nonzero := toInt_ne_zero some_
  split
  · rename_i far
    have far : 63 < k.toInt := Int64.lt_iff_toInt_lt.mp far
    have large : (2 : Int) ^ 64 ≤ 2 ^ k.toInt.toNat := by
      have le : 2 ^ 64 ≤ 2 ^ k.toInt.toNat := Nat.pow_le_pow_right (by decide) (by omega)
      exact_mod_cast le
    have out : ¬ Fits (a.toInt * 2 ^ k.toInt.toNat) := by
      rintro ⟨lowest, highest⟩
      rcases Int.lt_or_lt_of_ne nonzero with neg | pos <;> nlinarith
    rw [narrowed, if_neg out]
  · rename_i near
    have near : ¬ 63 < k.toInt := fun far => near (Int64.lt_iff_toInt_lt.mpr far)
    obtain ⟨one, most⟩ := pow_fits (show k.toInt.toNat ≤ 63 by omega)
    obtain ⟨t, ht⟩ := shifted_up (a := a) low (by omega)
    have back := toInt_shiftRight (a := (a.toUInt64 <<< k.toUInt64).toInt64) low (by omega)
    dsimp only
    by_cases fits : Fits (a.toInt * 2 ^ k.toInt.toNat)
    · have range := fits_toInt (a.toUInt64 <<< k.toUInt64).toInt64
      have value : (a.toUInt64 <<< k.toUInt64).toInt64.toInt = a.toInt * 2 ^ k.toInt.toNat := by
        unfold Fits at fits range
        omega
      rw [if_neg, narrowed_of_eq value]
      rw [not_not, ← Int64.toInt_inj, back, value, Int.mul_ediv_cancel _ (by omega)]
    · rw [if_pos, narrowed, if_neg fits]
      intro same
      rw [same] at back
      -- what comes back is within 2^k of the exact product, so it is the product
      have least : a.toInt * 2 ^ k.toInt.toNat ≤ (a.toUInt64 <<< k.toUInt64).toInt64.toInt := by
        rw [back]
        exact Int.ediv_mul_le _ (by omega)
      have less := Int.lt_ediv_add_one_mul_self (a.toUInt64 <<< k.toUInt64).toInt64.toInt (show 0 < (2 : Int) ^ k.toInt.toNat by omega)
      rw [← back, Int.add_mul, Int.one_mul] at less
      have value : (a.toUInt64 <<< k.toUInt64).toInt64.toInt = a.toInt * 2 ^ k.toInt.toNat := by omega
      exact fits (value ▸ fits_toInt _)

/-- A shift down past the word leaves the sign. -/
theorem sign_eq {n : Nat} (far : 63 < n) : (if a < 0 then -1 else 0 : Int64).toInt = a.toInt / 2 ^ n := by
  obtain ⟨low, high⟩ := fits_toInt a
  have zero : (0 : Int64).toInt = 0 := rfl
  have minus : (-1 : Int64).toInt = -1 := rfl
  have large : (2 : Int) ^ 64 ≤ 2 ^ n := by
    have le : 2 ^ 64 ≤ 2 ^ n := Nat.pow_le_pow_right (by decide) far
    exact_mod_cast le
  split
  · rename_i neg
    have neg : a.toInt < 0 := Int64.lt_iff_toInt_lt.mp neg
    rw [minus, eq_comm, Int.ediv_eq_iff_of_pos (by omega)]
    omega
  · rename_i nonneg
    have nonneg : ¬ a.toInt < 0 := fun neg => nonneg (Int64.lt_iff_toInt_lt.mpr neg)
    rw [zero, Int.ediv_eq_zero_of_lt (by omega) (by omega)]

theorem negative_iff (n : Int64) : n < 0 ↔ n.toInt < 0 := Int64.lt_iff_toInt_lt

/-- A count turned round, where it is not past what a word can hold. -/
theorem turned {n : Int64} (near : -63 ≤ n.toInt) : (0 - n).toInt = -n.toInt := by
  have zero : (0 : Int64).toInt = 0 := rfl
  have high := n.toInt_lt
  rw [toInt_sub, zero, Int.zero_sub]
  rw [zero]
  unfold Fits
  omega

theorem shiftRight_eq : shiftRight a b = narrowed (scaled a.toInt (-b.toInt)) := by
  rw [shiftRight]
  split
  · rename_i neg
    have neg := (negative_iff b).mp neg
    have value : scaled a.toInt (-b.toInt) = a.toInt * 2 ^ (-b.toInt).toNat := by rw [scaled, if_pos (by omega)]
    rw [value]
    split
    · rename_i far
      have far : b.toInt < -63 := Int64.lt_iff_toInt_lt.mp far
      have sixtyFour : (64 : Int64).toInt = 64 := rfl
      rw [lsh_eq (by decide), sixtyFour]
      -- both products are 0 or past 64 bits
      by_cases none_ : a.toInt = 0
      · rw [none_, Int.zero_mul, Int.zero_mul]
      · have out {n : Nat} (le : 64 ≤ n) : ¬ Fits (a.toInt * 2 ^ n) := by
          rintro ⟨lowest, highest⟩
          have large : (2 : Int) ^ 64 ≤ 2 ^ n := by
            have le : 2 ^ 64 ≤ 2 ^ n := Nat.pow_le_pow_right (by decide) le
            exact_mod_cast le
          rcases Int.lt_or_lt_of_ne none_ with neg | pos <;> nlinarith
        rw [narrowed, narrowed, if_neg (out (by decide)), if_neg (out (by omega))]
    · rename_i near
      have near : ¬ b.toInt < -63 := fun far => near (Int64.lt_iff_toInt_lt.mpr far)
      have count := turned (n := b) (by omega)
      rw [lsh_eq (by omega), count]
  · rename_i nonneg
    have nonneg : ¬ b.toInt < 0 := fun neg => nonneg ((negative_iff b).mpr neg)
    have value : scaled a.toInt (-b.toInt) = a.toInt / 2 ^ b.toInt.toNat := by
      rw [scaled]
      split
      · rename_i none_
        have zero : b.toInt = 0 := by omega
        rw [zero]
        simp
      · rw [Int.neg_neg]
    rw [value]
    split
    · rename_i far
      have far : 63 < b.toInt := Int64.lt_iff_toInt_lt.mp far
      exact (narrowed_of_eq (sign_eq (by omega))).symm
    · rename_i near
      have near : ¬ 63 < b.toInt := fun far => near (Int64.lt_iff_toInt_lt.mpr far)
      exact (narrowed_of_eq (toInt_shiftRight (by omega) (by omega))).symm

theorem shiftLeft_eq : shiftLeft a b = narrowed (scaled a.toInt b.toInt) := by
  rw [shiftLeft]
  split
  · rename_i neg
    have neg := (negative_iff b).mp neg
    have value : scaled a.toInt b.toInt = a.toInt / 2 ^ (-b.toInt).toNat := by rw [scaled, if_neg (by omega)]
    rw [value]
    split
    · rename_i far
      have far : b.toInt < -63 := Int64.lt_iff_toInt_lt.mp far
      exact (narrowed_of_eq (sign_eq (by omega))).symm
    · rename_i near
      have near : ¬ b.toInt < -63 := fun far => near (Int64.lt_iff_toInt_lt.mpr far)
      have count := turned (n := b) (by omega)
      have shift := toInt_shiftRight (a := a) (k := 0 - b) (by omega) (by omega)
      rw [count] at shift
      exact (narrowed_of_eq shift).symm
  · rename_i nonneg
    have nonneg : ¬ b.toInt < 0 := fun neg => nonneg ((negative_iff b).mpr neg)
    rw [scaled, if_pos (by omega), lsh_eq (by omega)]

/- Powers. -/

theorem toInt_and_one : (k &&& 1).toInt = k.toInt % 2 := by
  have signed := BitVec.toInt_eq_toNat_cond (k &&& 1).toBitVec
  have low : (k &&& 1).toBitVec.toNat = k.toBitVec.toNat % 2 := Nat.and_two_pow_sub_one_eq_mod k.toBitVec.toNat 1
  have value : (k &&& 1).toBitVec.toInt = (k &&& 1).toInt := rfl
  have whole_ := BitVec.toInt_eq_toNat_cond k.toBitVec
  have value' : k.toBitVec.toInt = k.toInt := rfl
  rw [low, value] at signed
  rw [value'] at whole_
  split at signed <;> split at whole_ <;> omega

theorem odd_iff : k &&& 1 ≠ 0 ↔ k.toInt % 2 = 1 := by
  have zero : (0 : Int64).toInt = 0 := rfl
  rw [ne_eq, ← Int64.toInt_inj, toInt_and_one, zero]
  omega

theorem halved_toInt : (k >>> 1).toInt = k.toInt / 2 := toInt_shiftRight (by decide) (by decide)

/-- A product in range was in range before its positive factor. -/
theorem fits_of_mul {t : Int} (pos : 1 ≤ t) (fits : Fits (z * t)) : Fits z := by
  obtain ⟨low, high⟩ := fits
  unfold Fits
  constructor <;> nlinarith

/-- No square is 2^63, so one out of range is past -2^63 with either sign. -/
theorem square_out {x : Int} (out : ¬ Fits (x * x)) : 2 ^ 63 < x * x := by
  have nonneg := mul_self_nonneg x
  have least : 2 ^ 63 ≤ x * x := by
    by_contra below
    exact out ⟨by omega, by omega⟩
  by_contra most
  have is : x * x = 2 ^ 63 := by omega
  have abs : x.natAbs * x.natAbs = 2 ^ 63 := by
    have same := Int.natAbs_mul_self (a := x)
    rw [is] at same
    exact_mod_cast same
  have near : x.natAbs ≤ 3037000499 ∨ 3037000500 ≤ x.natAbs := by omega
  rcases near with small | large
  · have := Nat.mul_le_mul small small
    omega
  · have := Nat.mul_le_mul large large
    omega

/-- A square out of range is not brought back by the factors that follow. -/
theorem power_out {x acc : Int} {n : Nat} (out : ¬ Fits (x * x)) (some_ : acc ≠ 0) (more : 0 < n) :
    ¬ Fits (acc * (x * x) ^ n) := by
  have large := square_out out
  have power : x * x ≤ (x * x) ^ n := le_self_pow₀ (by omega) (by omega)
  rintro ⟨low, high⟩
  rcases Int.lt_or_lt_of_ne some_ with neg | pos <;> nlinarith

/-- The exponent halved: the square under half of it, and the base for its last bit. -/
theorem power_halved (x : Int) (n : Nat) : x ^ n = (x * x) ^ (n / 2) * x ^ (n % 2) := by
  rw [← pow_two, ← pow_mul, ← pow_add, Nat.div_add_mod]

theorem narrowed_bind {r : Int64 → Option Int64} :
    (narrowed z).bind r = if Fits z then r (Int64.ofInt z) else none := by
  rw [narrowed]
  split <;> rfl

/-- The accumulator after a turn, by the exponent's last bit. -/
theorem turn_eq {acc base : Int64} (nonneg : 0 ≤ k.toInt) :
    (if k &&& 1 ≠ 0 then mulOvf acc base else some acc) =
      narrowed (acc.toInt * base.toInt ^ (k.toInt.toNat % 2)) := by
  by_cases odd : k.toInt % 2 = 1
  · have bit : k.toInt.toNat % 2 = 1 := by omega
    rw [if_pos (odd_iff.mpr odd), mulOvf_eq, bit, pow_one]
  · have bit : k.toInt.toNat % 2 = 0 := by omega
    rw [if_neg (mt odd_iff.mp odd), bit, pow_zero, Int.mul_one]
    exact (narrowed_of_eq rfl).symm

/-- The power by squaring is exact or overflows. -/
theorem ipowLoop_eq {acc base : Int64} (nonneg : 0 ≤ k.toInt) (start : acc.toInt ≠ 0) (some_ : base.toInt ≠ 0) :
    ipowLoop acc base k = narrowed (acc.toInt * base.toInt ^ k.toInt.toNat) := by
  induction size : k.toInt.toNat using Nat.strongRecOn generalizing k acc base with
  | ind n ih =>
    rw [ipowLoop]
    split
    · rename_i pos
      have smaller := half_lt pos
      have some_' : 0 < k.toInt := Int64.lt_iff_toInt_lt.mp pos
      have half : (k >>> 1).toInt.toNat = n / 2 := by rw [halved_toInt]; omega
      have square : 1 ≤ base.toInt * base.toInt := by
        have := mul_self_pos.mpr some_
        omega
      have whole_ : acc.toInt * base.toInt ^ n =
          acc.toInt * base.toInt ^ (n % 2) * (base.toInt * base.toInt) ^ (n / 2) := by
        rw [power_halved base.toInt n]
        ring
      rw [whole_]
      dsimp only
      rw [turn_eq nonneg, size, narrowed_bind]
      split
      · rename_i fits
        have next : acc.toInt * base.toInt ^ (n % 2) ≠ 0 := mul_ne_zero start (pow_ne_zero _ some_)
        split
        · rename_i more
          have more : 0 < n / 2 := by
            have := Int64.lt_iff_toInt_lt.mp more
            have zero : (0 : Int64).toInt = 0 := rfl
            omega
          rw [mulOvf_eq, narrowed_bind]
          split
          · rename_i squared
            have again := @ih (n / 2) (by omega) (k >>> 1) (Int64.ofInt (acc.toInt * base.toInt ^ (n % 2)))
              (Int64.ofInt (base.toInt * base.toInt)) (by rw [halved_toInt]; omega)
              (by rw [toInt_ofInt fits]; exact next) (by rw [toInt_ofInt squared]; omega) half
            rw [again, toInt_ofInt fits, toInt_ofInt squared]
          · rename_i out
            rw [narrowed, if_neg (power_out out next more)]
        · rename_i done
          have last : n / 2 = 0 := by
            have := mt Int64.lt_iff_toInt_lt.mpr done
            have zero : (0 : Int64).toInt = 0 := rfl
            omega
          rw [last, pow_zero, Int.mul_one, narrowed, if_pos fits]
      · rename_i out
        have power : 1 ≤ (base.toInt * base.toInt) ^ (n / 2) := one_le_pow₀ square
        rw [narrowed, if_neg (mt (fits_of_mul power) out)]
    · rename_i done
      have zero : n = 0 := by
        have := mt Int64.lt_iff_toInt_lt.mpr done
        have none_ : (0 : Int64).toInt = 0 := rfl
        omega
      rw [zero, pow_zero, Int.mul_one]
      exact (narrowed_of_eq rfl).symm

theorem exponent_sign (n : Int64) : (exponentZero n = true ↔ n.toInt = 0) ∧ (exponentNegative n = true ↔ n.toInt < 0) := by
  obtain ⟨low, high⟩ := fits_toInt n
  have place : (Double.place (Double.ofInt n.toInt) = 0 ↔ n.toInt = 0) ∧
      (Double.place (Double.ofInt n.toInt) < 0 ↔ n.toInt < 0) := by
    obtain ⟨m, sign⟩ := Int.eq_nat_or_neg n.toInt
    obtain ⟨up, down⟩ := Double.place_ofInt m (by omega)
    have pos (some_ : m ≠ 0) : 0 < Double.quotient m 1 := by
      have one : Double.power 0 ≤ Double.quotient m 1 := Double.le_quotient_int (Nat.one_le_iff_ne_zero.mpr some_)
      have least : 0 < Double.power 0 := by decide
      omega
    rcases sign with is | is <;> rw [is]
    · rw [up]
      split <;> omega
    · rw [down]
      split <;> omega
  rw [exponentZero, exponentNegative, beq_iff_eq, decide_eq_true_eq]
  exact place

theorem power_eq (F : Floats) (f : Binary) (nonneg : 0 ≤ b.toInt) : power F f a b = exact (a.toInt ^ b.toInt.toNat) := by
  obtain ⟨zero, negative⟩ := exponent_sign b
  have one : (1 : Int64).toInt = 1 := rfl
  have minus : (-1 : Int64).toInt = -1 := rfl
  rw [power]
  split
  · rename_i none_
    have none_ : b.toInt.toNat = 0 := by rw [zero.mp none_]; rfl
    rw [none_, pow_zero]
    exact exact_of_eq one
  · rename_i some_
    have some_ : b.toInt.toNat ≠ 0 := by
      have := mt zero.mpr some_
      omega
    split
    · rename_i is
      rw [is, one, one_pow]
      exact exact_of_eq one
    · split
      · rename_i is
        have base : (0 : Int64).toInt = 0 := rfl
        rw [if_neg (by rw [negative]; omega), is, base, zero_pow some_]
        exact exact_of_eq rfl
      · rename_i other
        split
        · rename_i is
          have bit := @toInt_and_one b
          have parts := Nat.div_add_mod b.toInt.toNat 2
          refine exact_of_eq ?_
          rw [is, minus]
          split
          · rename_i even
            rw [even] at bit
            have none_ : (0 : Int64).toInt = 0 := rfl
            rw [one, Even.neg_one_pow (Nat.even_iff.mpr (by omega))]
          · rename_i odd
            have odd := odd_iff.mp odd
            rw [minus, Odd.neg_one_pow (Nat.odd_iff.mpr (by omega))]
        · rw [if_pos (show 0 ≤ b from Int64.le_iff_toInt_le.mpr nonneg)]
          refine exact_of_narrowed ?_
          rw [ipow, ipowLoop_eq nonneg (by decide) (toInt_ne_zero other), one, Int.one_mul]

/- Common divisors. -/

theorem magnitude_toNat : (magnitude a).toNat = a.toInt.natAbs := by
  have value := toInt_eq_toNat a
  rw [magnitude]
  split
  · rename_i neg
    have neg := (negative_iff a).mp neg
    have zero : (0 : UInt64).toNat = 0 := rfl
    rw [UInt64.toNat_sub, zero]
    omega
  · rename_i nonneg
    have nonneg := mt (negative_iff a).mpr nonneg
    omega

theorem gcdLoop_toNat (x y : UInt64) : (gcdLoop x y).toNat = Nat.gcd x.toNat y.toNat := by
  induction x, y using gcdLoop.induct with
  | case1 x =>
    rw [gcdLoop, if_pos rfl]
    exact (Nat.gcd_zero_right _).symm
  | case2 x y some_ ih =>
    rw [gcdLoop, if_neg some_, ih, UInt64.toNat_mod, Nat.gcd_comm, ← Nat.gcd_rec, Nat.gcd_comm]

theorem gcd_eq : gcd a b = narrowed (Int.gcd a.toInt b.toInt) := by
  have value : (gcdLoop (magnitude a) (magnitude b)).toNat = Int.gcd a.toInt b.toInt := by
    rw [gcdLoop_toNat, magnitude_toNat, magnitude_toNat]
    rfl
  have signed := toInt_toInt64 (gcdLoop (magnitude a) (magnitude b))
  have most : (9223372036854775807 : UInt64).toNat = 2 ^ 63 - 1 := rfl
  rw [gcd]
  split
  · rename_i large
    have large := UInt64.lt_iff_toNat_lt.mp large
    rw [narrowed, if_neg]
    unfold Fits
    omega
  · rename_i small
    have small := mt UInt64.lt_iff_toNat_lt.mpr small
    exact (narrowed_of_eq (by omega)).symm

theorem lcm_eq : lcm a b = narrowed (Int.lcm a.toInt b.toInt) := by
  have value : (gcdLoop (magnitude a) (magnitude b)).toNat = Nat.gcd a.toInt.natAbs b.toInt.natAbs := by
    rw [gcdLoop_toNat, magnitude_toNat, magnitude_toNat]
  have bounds : a.toInt.natAbs ≤ 2 ^ 63 ∧ b.toInt.natAbs ≤ 2 ^ 63 := by
    have fits := fits_toInt a
    have fits' := fits_toInt b
    unfold Fits at fits fits'
    omega
  rw [lcm]
  dsimp only
  split
  · rename_i none_
    have none_ := congrArg UInt64.toNat none_
    rw [value] at none_
    obtain ⟨left, right⟩ := Nat.gcd_eq_zero_iff.mp none_
    have zero : Int.lcm a.toInt b.toInt = 0 := by
      rw [Int.lcm, left, Nat.lcm_zero_left]
    rw [zero]
    rfl
  · have product : ((magnitude a / gcdLoop (magnitude a) (magnitude b)).toNat : Int) * (magnitude b).toNat =
        Int.lcm a.toInt b.toInt := by
      have lcm_is (m n : Nat) : Nat.lcm m n = m * n / Nat.gcd m n := rfl
      rw [UInt64.toNat_div, value, magnitude_toNat, magnitude_toNat, Int.lcm, lcm_is]
      norm_cast
      rw [Nat.div_mul_right_comm (Nat.gcd_dvd_left _ _)]
    have exact_ : wrap128 (Int.lcm a.toInt b.toInt) = Int.lcm a.toInt b.toInt := by
      have most : Int.lcm a.toInt b.toInt ≤ 2 ^ 63 * 2 ^ 63 :=
        (Nat.div_le_self _ _).trans (Nat.mul_le_mul bounds.1 bounds.2)
      apply wrap128_of_lt <;> omega
    rw [product, exact_]
    split
    · rw [narrowed, if_neg]
      unfold Fits
      omega
    · rw [narrowed, if_pos]
      unfold Fits
      omega

/- The functions. -/

/-- A result over the integers as the evaluator answers it. -/
def answered (f : Binary) : Option Int → Answer
  | some z => exact z
  | none => .error (.zeroDivisor f)

theorem over_neg_one (n : Int) : n.tdiv (-1) = -n ∧ n.tmod (-1) = 0 ∧ n.fdiv (-1) = -n ∧ n.fmod (-1) = 0 := by
  have quotient : n.tdiv (-1) = -n := by rw [Int.tdiv_neg, Int.tdiv_one]
  have rest : n.tmod (-1) = 0 := by rw [Int.tmod_neg, Int.tmod_one]
  have exact_ : ¬ Adjusts n (-1) := fun adjusts => adjusts.1 rest
  obtain ⟨floored, floored'⟩ := @floor_eq n (-1) (by decide)
  rw [if_neg exact_, quotient, Int.sub_zero] at floored
  rw [if_neg exact_, rest, Int.add_zero] at floored'
  exact ⟨quotient, rest, floored, floored'⟩

/-- A division with its two divisors that are asked first. -/
theorem divided_eq {f : Binary} {op : Int → Int → Int} {r : Answer} (minus : op a.toInt (-1) = -a.toInt)
    (rest : b ≠ 0 → b ≠ -1 → r = exact (op a.toInt b.toInt)) :
    (if b = 0 then .error (.zeroDivisor f)
      else if b = -1 then whole (if a = Int64.minValue then none else some (0 - a)) else r) =
      answered f (if b.toInt = 0 then none else some (op a.toInt b.toInt)) := by
  have zero : (0 : Int64).toInt = 0 := rfl
  have one : (-1 : Int64).toInt = -1 := rfl
  split
  · rename_i none_
    rw [none_, if_pos zero]
    rfl
  · rename_i some_
    rw [if_neg (toInt_ne_zero some_)]
    split
    · rename_i is
      show _ = exact _
      rw [is, one, minus]
      exact exact_of_narrowed negated_eq
    · rename_i other
      exact rest some_ other

/-- A remainder, which over -1 is 0. -/
theorem remaindered_eq {f : Binary} {op : Int → Int → Int} {v : Int64} (minus : op a.toInt (-1) = 0)
    (rest : b ≠ 0 → v.toInt = op a.toInt b.toInt) :
    (if b = 0 then .error (.zeroDivisor f) else if b = -1 then .ok (.int 0) else .ok (.int v)) =
      answered f (if b.toInt = 0 then none else some (op a.toInt b.toInt)) := by
  have zero : (0 : Int64).toInt = 0 := rfl
  have one : (-1 : Int64).toInt = -1 := rfl
  split
  · rename_i none_
    rw [none_, if_pos zero]
    rfl
  · rename_i some_
    rw [if_neg (toInt_ne_zero some_)]
    split
    · rename_i is
      show _ = exact _
      rw [is, one, minus]
      exact exact_of_eq zero
    · exact exact_of_eq (rest some_)

theorem integerBinary_eq (F : Floats) {f : Binary} {r : Option Int} (value : integerValue f a.toInt b.toInt = some r) :
    integerBinary F f a b = answered f r := by
  cases f with
  | add => cases value; exact exact_of_narrowed addOvf_eq
  | sub => cases value; exact exact_of_narrowed subOvf_eq
  | mul => cases value; exact exact_of_narrowed mulOvf_eq
  | quotient =>
    cases value
    exact @divided_eq a b .quotient Int.tdiv _ (over_neg_one _).1 fun _ other => exact_of_eq (toInt_div other)
  | div =>
    cases value
    exact @divided_eq a b .div Int.fdiv _ (over_neg_one _).2.2.1
      fun some_ other => exact_of_eq (floored_quotient some_ other)
  | mod =>
    cases value
    exact @remaindered_eq a b .mod Int.fmod _ (over_neg_one _).2.2.2 fun some_ => floored_rest some_
  | rem =>
    cases value
    exact @remaindered_eq a b .rem Int.tmod _ (over_neg_one _).2.1 fun _ => Int64.toInt_mod a b
  | gcd => cases value; exact exact_of_narrowed gcd_eq
  | lcm => cases value; exact exact_of_narrowed lcm_eq
  | shiftRight => cases value; exact exact_of_narrowed shiftRight_eq
  | shiftLeft => cases value; exact exact_of_narrowed shiftLeft_eq
  | and => cases value; exact exact_of_eq toInt_and
  | or => cases value; exact exact_of_eq toInt_or
  | xor => cases value; exact exact_of_eq toInt_xor
  | max =>
    cases value
    refine exact_of_eq ?_
    rw [Int.max_def]
    split <;> rename_i order <;> rw [Int64.lt_iff_toInt_lt] at order <;> split <;> omega
  | min =>
    cases value
    refine exact_of_eq ?_
    rw [Int.min_def]
    split <;> rename_i order <;> rw [Int64.lt_iff_toInt_lt] at order <;> split <;> omega
  | power =>
    rw [integerValue] at value
    split at value
    · rename_i nonneg
      cases value
      exact power_eq F .power nonneg
    · cases value
  | caret =>
    rw [integerValue] at value
    split at value
    · rename_i nonneg
      cases value
      exact power_eq F .caret nonneg
    · cases value
  | _ => cases value

theorem abs_eq : (if a = Int64.minValue then none else some (if a < 0 then 0 - a else a)) = narrowed |a.toInt| := by
  by_cases neg : a.toInt < 0
  · rw [abs_of_neg neg, if_pos ((negative_iff a).mpr neg)]
    exact negated_eq
  · have other : a ≠ Int64.minValue := fun least => neg (by rw [least]; decide)
    rw [abs_of_nonneg (by omega), if_neg other, if_neg (mt (negative_iff a).mp neg)]
    exact (narrowed_of_eq rfl).symm

theorem toInt_of_exact {v : Int64} (is : exact z = .ok (.int v)) : v.toInt = z := by
  rw [exact, narrowed] at is
  split at is
  · rename_i fits
    cases is
    exact toInt_ofInt fits
  · cases is

theorem fmod_sign (n : Int) {d : Int} (some_ : d ≠ 0) :
    (0 < d → 0 ≤ n.fmod d ∧ n.fmod d < d) ∧ (d < 0 → d < n.fmod d ∧ n.fmod d ≤ 0) := by
  have bound := tmod_bound n some_
  rw [(floor_eq some_).2]
  split <;> rename_i adjusts <;> unfold Adjusts at adjusts <;> omega

variable {F : Floats} {ea eb : Expr}

theorem arith_integer {f : Binary} {r : Option Int} (ia : arith F ea = .ok (.int a)) (ib : arith F eb = .ok (.int b))
    (value : integerValue f a.toInt b.toInt = some r) : arith F (.two f ea eb) = answered f r := by
  have exact_ : f ≠ .rdiv := fun is => by rw [is] at value; cases value
  rw [arith_two ia ib, ← integerBinary_eq F value]
  show (if (true && true && decide (f ≠ .rdiv)) = true then _ else _) = _
  rw [decide_eq_true exact_]
  rfl

/-- Over operands that come to integers, from a cell, a box or an expression, each function
answers its result over the integers, or raises where 64 bits do not hold it or the divisor
is zero; the floored quotient and its remainder make up the dividend. -/
theorem integer_arithmetic_exact (ia : arith F ea = .ok (.int a)) (ib : arith F eb = .ok (.int b)) :
    (∀ f r, integerValue f a.toInt b.toInt = some r → arith F (.two f ea eb) = answered f r) ∧
    arith F (.one .neg ea) = exact (-a.toInt) ∧ arith F (.one .abs ea) = exact |a.toInt| ∧
    (b.toInt ≠ 0 → ∀ q r, arith F (.two .div ea eb) = .ok (.int q) → arith F (.two .mod ea eb) = .ok (.int r) →
      a.toInt = q.toInt * b.toInt + r.toInt ∧ (0 < b.toInt → 0 ≤ r.toInt ∧ r.toInt < b.toInt) ∧
        (b.toInt < 0 → b.toInt < r.toInt ∧ r.toInt ≤ 0)) := by
  have functions := fun f r => @arith_integer a b F ea eb f r ia ib
  refine ⟨functions, ?_, ?_, ?_⟩
  · rw [arith_one ia]
    exact exact_of_narrowed negated_eq
  · rw [arith_one ia]
    exact exact_of_narrowed abs_eq
  · intro some_ q r quotient rest
    have floored := functions .div (some (a.toInt.fdiv b.toInt)) (by rw [integerValue, if_neg some_])
    have floored' := functions .mod (some (a.toInt.fmod b.toInt)) (by rw [integerValue, if_neg some_])
    rw [toInt_of_exact (floored.symm.trans quotient), toInt_of_exact (floored'.symm.trans rest)]
    refine ⟨?_, fmod_sign a.toInt some_⟩
    have parts := Int.mul_fdiv_add_fmod a.toInt b.toInt
    rw [Int.mul_comm]
    exact parts.symm

/-- A sum in the cells, a difference with the least integer, and a division that has no answer. -/
theorem integer_arithmetic_extremes :
    arith noFloats (.two .add (.int ⟨7, by decide⟩) (.int ⟨-9, by decide⟩)) = .ok (.int (-2)) ∧
      arith noFloats (.two .sub (.big Int64.minValue) (.int ⟨1, by decide⟩)) = .error .intOverflow ∧
      arith noFloats (.two .div (.int ⟨7, by decide⟩) (.one .neg (.int ⟨0, by decide⟩))) = .error (.zeroDivisor .div) := by
  have cells := (@integer_arithmetic_exact 7 (-9) noFloats (.int ⟨7, by decide⟩) (.int ⟨-9, by decide⟩) rfl rfl).1
  have boxed := (@integer_arithmetic_exact Int64.minValue 1 noFloats (.big Int64.minValue) (.int ⟨1, by decide⟩) rfl rfl).1
  have nested := (@integer_arithmetic_exact 7 0 noFloats (.int ⟨7, by decide⟩) (.one .neg (.int ⟨0, by decide⟩)) rfl rfl).1
  refine ⟨(cells .add (some (-2)) rfl).trans (@exact_of_eq (-2) (-2) rfl).symm, ?_, nested .div none rfl⟩
  rw [boxed .sub (some (-2 ^ 63 - 1)) rfl, answered, exact, narrowed, if_neg (by decide)]
  rfl

end Cocolog.Arith
