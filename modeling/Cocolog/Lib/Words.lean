import Mathlib.Data.Int.Bitwise
import Mathlib.Data.Nat.Bitwise
import Mathlib.Tactic.Ring
import Mathlib.Tactic.Linarith

/-! Words of 64 bits as integers. An operation whose exact result fits is that result; a
shift is a division or a product by a power of 2; a bitwise operation is the one of the
integers. -/

set_option linter.all false

namespace Cocolog.Lib.Words

/-- In the range of a signed word of 64 bits. -/
def Fits (z : Int) : Prop := -2 ^ 63 ≤ z ∧ z < 2 ^ 63

instance (z : Int) : Decidable (Fits z) := inferInstanceAs (Decidable (_ ∧ _))

theorem fits_toInt (a : Int64) : Fits a.toInt := ⟨a.le_toInt, a.toInt_lt⟩

theorem bmod_of_fits {z : Int} (fits : Fits z) : z.bmod (2 ^ 64) = z := by
  obtain ⟨low, high⟩ := fits
  rw [Int.bmod_eq_iff (by decide)]
  refine ⟨?_, ?_, ?_⟩
  · norm_num
    omega
  · norm_num
    omega
  · rw [Int.sub_self]
    exact Int.dvd_zero _

theorem toInt_ofInt {z : Int} (fits : Fits z) : (Int64.ofInt z).toInt = z :=
  Int64.toInt_ofInt_of_le fits.1 fits.2

theorem eq_ofInt {a : Int64} {z : Int} (is : a.toInt = z) : a = Int64.ofInt z := by
  rw [← Int64.toInt_inj, is]
  exact (toInt_ofInt (is ▸ fits_toInt a)).symm

variable {a b : Int64}

theorem toInt_add (fits : Fits (a.toInt + b.toInt)) : (a + b).toInt = a.toInt + b.toInt := by
  rw [Int64.toInt_add, bmod_of_fits fits]

theorem toInt_sub (fits : Fits (a.toInt - b.toInt)) : (a - b).toInt = a.toInt - b.toInt := by
  rw [Int64.toInt_sub, bmod_of_fits fits]

theorem toInt_mul (fits : Fits (a.toInt * b.toInt)) : (a * b).toInt = a.toInt * b.toInt := by
  rw [Int64.toInt_mul, bmod_of_fits fits]

theorem toInt_neg (fits : Fits (-a.toInt)) : (-a).toInt = -a.toInt := by
  rw [Int64.toInt_neg, bmod_of_fits fits]

theorem toInt_min : Int64.minValue.toInt = -2 ^ 63 := rfl

theorem fits_neg (other : a ≠ Int64.minValue) : Fits (-a.toInt) := by
  have least : a.toInt ≠ -2 ^ 63 := fun is => other (Int64.toInt_inj.mp (is.trans toInt_min.symm))
  obtain ⟨low, high⟩ := fits_toInt a
  unfold Fits
  omega

theorem toInt_ne {c : Int64} (other : a ≠ c) : a.toInt ≠ c.toInt := fun same => other (Int64.toInt_inj.mp same)

/-- A word read with a sign. -/
theorem toInt_toInt64 (w : UInt64) :
    w.toInt64.toInt = w.toNat ∧ w.toNat < 2 ^ 63 ∨
      w.toInt64.toInt = w.toNat - 2 ^ 64 ∧ 2 ^ 63 ≤ w.toNat ∧ w.toNat < 2 ^ 64 := by
  have lt := w.toNat_lt
  have signed := BitVec.toInt_eq_toNat_cond w.toBitVec
  have value : w.toBitVec.toInt = w.toInt64.toInt := rfl
  have word : w.toBitVec.toNat = w.toNat := rfl
  rw [value, word] at signed
  split at signed <;> omega

theorem toInt_eq_toNat (a : Int64) : a.toInt = a.toUInt64.toNat ∧ a.toUInt64.toNat < 2 ^ 63 ∨
    a.toInt = a.toUInt64.toNat - 2 ^ 64 ∧ 2 ^ 63 ≤ a.toUInt64.toNat ∧ a.toUInt64.toNat < 2 ^ 64 :=
  toInt_toInt64 a.toUInt64

/-- A signed word of 128 bits. -/
def wrap128 (z : Int) : Int := z.bmod (2 ^ 128)

theorem wrap128_of_lt {z : Int} (low : -2 ^ 127 ≤ z) (high : z < 2 ^ 127) : wrap128 z = z := by
  rw [wrap128, Int.bmod_eq_iff (by decide)]
  refine ⟨?_, ?_, ?_⟩
  · norm_num
    omega
  · norm_num
    omega
  · rw [Int.sub_self]
    exact Int.dvd_zero _

/- Shifts. -/

theorem toInt_shiftRight {k : Int64} (low : 0 ≤ k.toInt) (high : k.toInt < 64) :
    (a >>> k).toInt = a.toInt / 2 ^ k.toInt.toNat := by
  have count : (k.toBitVec.smod 64).toNat = k.toInt.toNat := by
    have value : k.toBitVec.toInt = k.toInt := rfl
    have small : k.toInt % 64 = k.toInt := Int.emod_eq_of_lt low high
    have signed : (k.toBitVec.smod 64).toInt = k.toInt := by
      have wide_ : (64 : BitVec 64).toInt = 64 := rfl
      rw [BitVec.toInt_smod, value, wide_, Int.fmod_eq_emod_of_nonneg _ (by decide), small]
    have nat := BitVec.toInt_eq_toNat_cond (k.toBitVec.smod 64)
    rw [signed] at nat
    split at nat <;> omega
  rw [← Int64.toInt_toBitVec, Int64.toBitVec_shiftRight, BitVec.toInt_sshiftRight', Int.shiftRight_eq_div_pow, count]
  push_cast
  rfl

/- Bits. -/

theorem testBit_far {m k : Nat} (le : m ≤ k) : m.testBit k = false :=
  Nat.testBit_lt_two_pow (Nat.lt_of_le_of_lt le Nat.lt_two_pow_self)

theorem int_eq_of_testBit {x y : Int} (same : ∀ i, x.testBit i = y.testBit i) : x = y := by
  -- two integers of different signs differ in every bit past both
  cases x with
  | ofNat m =>
    cases y with
    | ofNat n => exact congrArg _ (Nat.eq_of_testBit_eq same)
    | negSucc n =>
      have far := same (m + n)
      change m.testBit (m + n) = !n.testBit (m + n) at far
      rw [testBit_far (Nat.le_add_right m n), testBit_far (Nat.le_add_left n m)] at far
      cases far
  | negSucc m =>
    cases y with
    | ofNat n =>
      have far := same (m + n)
      change (!m.testBit (m + n)) = n.testBit (m + n) at far
      rw [testBit_far (Nat.le_add_right m n), testBit_far (Nat.le_add_left n m)] at far
      cases far
    | negSucc n =>
      have bits : ∀ i, m.testBit i = n.testBit i := fun i => by
        have bit := same i
        change (!m.testBit i) = !n.testBit i at bit
        exact Bool.not_inj bit
      exact congrArg _ (Nat.eq_of_testBit_eq bits)

theorem testBit_toInt (x : BitVec 64) (i : Nat) : x.toInt.testBit i = if i < 64 then x.getLsbD i else x.msb := by
  have value := BitVec.toInt_eq_msb_cond x
  split at value
  · rename_i neg
    have complement : x.toInt = Int.negSucc (~~~x).toNat := by
      rw [value, BitVec.toNat_not]
      have lt := x.isLt
      omega
    rw [complement]
    show (!(~~~x).getLsbD i) = _
    rw [BitVec.getLsbD_not]
    split <;> simp_all
  · rename_i pos
    rw [value]
    show x.getLsbD i = _
    split
    · rfl
    · rename_i past
      rw [BitVec.getLsbD_of_ge x i (by omega)]
      simp_all

theorem toInt_and : (a &&& b).toInt = Int.land a.toInt b.toInt := by
  refine int_eq_of_testBit fun i => ?_
  rw [Int.testBit_land, ← Int64.toInt_toBitVec, ← Int64.toInt_toBitVec, ← Int64.toInt_toBitVec, Int64.toBitVec_and,
    testBit_toInt, testBit_toInt, testBit_toInt, BitVec.getLsbD_and, BitVec.msb_and]
  split <;> rfl

theorem toInt_or : (a ||| b).toInt = Int.lor a.toInt b.toInt := by
  refine int_eq_of_testBit fun i => ?_
  rw [Int.testBit_lor, ← Int64.toInt_toBitVec, ← Int64.toInt_toBitVec, ← Int64.toInt_toBitVec, Int64.toBitVec_or,
    testBit_toInt, testBit_toInt, testBit_toInt, BitVec.getLsbD_or, BitVec.msb_or]
  split <;> rfl

theorem toInt_xor : (a ^^^ b).toInt = Int.xor a.toInt b.toInt := by
  refine int_eq_of_testBit fun i => ?_
  rw [Int.testBit_lxor, ← Int64.toInt_toBitVec, ← Int64.toInt_toBitVec, ← Int64.toInt_toBitVec, Int64.toBitVec_xor,
    testBit_toInt, testBit_toInt, testBit_toInt, BitVec.getLsbD_xor, BitVec.msb_xor]
  split <;> rfl

end Cocolog.Lib.Words
