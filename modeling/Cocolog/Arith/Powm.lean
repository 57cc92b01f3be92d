import Cocolog.Arith.Evaluate
import Mathlib.Data.Nat.ModEq

/-! `powm/3`. The power comes out reduced unless there is nothing to multiply: with the
exponent 0 the accumulator is answered as it was set, which for the modulus 1 is too large. -/

set_option linter.all false

namespace Cocolog.Arith

open Cocolog.Lib.Words

/-- The factors of each product of `coco_powm64`, in order. -/
def powmProducts (m r a b : UInt64) : List (Nat × Nat) :=
  if _pos : 0 < b then
    let here := if b &&& 1 = 1 then [(r.toNat, a.toNat)] else []
    let square := if (0 : UInt64) < b >>> 1 then [(a.toNat, a.toNat)] else []
    let r := if b &&& 1 = 1 then mulmod r a m else r
    let a := if (0 : UInt64) < b >>> 1 then mulmod a a m else a
    here ++ square ++ powmProducts m r a (b >>> 1)
  else []
termination_by b.toNat
decreasing_by exact halved_lt _pos

theorem mulmod_toNat {a b m : UInt64} (pos : 0 < m.toNat) (small : a.toNat * b.toNat < 2 ^ 127) :
    (mulmod a b m).toNat = a.toNat * b.toNat % m.toNat := by
  have some_ : m ≠ 0 := fun zero => by rw [zero] at pos; exact absurd pos (by decide)
  have exact_ : wrap128 ((a.toNat : Int) * b.toNat) = (a.toNat * b.toNat : Nat) := by
    rw [wrap128_of_lt] <;> push_cast <;> norm_cast <;> omega
  have rest := Nat.mod_lt (a.toNat * b.toNat) pos
  have bound := m.toNat_lt
  rw [mulmod, if_neg some_, exact_, ← Int.ofNat_tmod, Int.toNat_natCast, UInt64.toNat_ofNat']
  exact Nat.mod_eq_of_lt (by omega)

theorem bit_one (b : UInt64) : b &&& 1 = 1 ↔ b.toNat % 2 = 1 := by
  have low : (b &&& 1).toNat = b.toNat % 2 := by
    rw [UInt64.toNat_and]
    exact Nat.and_two_pow_sub_one_eq_mod b.toNat 1
  have one : (1 : UInt64).toNat = 1 := rfl
  rw [← UInt64.toNat_inj, low, one]

theorem halved (b : UInt64) : (b >>> 1).toNat = b.toNat / 2 := by
  rw [UInt64.toNat_shiftRight]
  exact Nat.shiftRight_eq_div_pow _ 1

theorem positive_iff (b : UInt64) : 0 < b ↔ 0 < b.toNat := UInt64.lt_iff_toNat_lt

/-- Where the loop stands: the base reduced, the accumulator no more than the modulus. -/
structure Reduced (m r a : UInt64) : Prop where
  modulus : 0 < m.toNat
  small : m.toNat < 2 ^ 63
  base : a.toNat < m.toNat
  acc : r.toNat ≤ m.toNat

theorem Reduced.product {m r a : UInt64} (red : Reduced m r a) : r.toNat * a.toNat < 2 ^ 127 := by
  obtain ⟨-, small, base, acc⟩ := red
  calc r.toNat * a.toNat ≤ m.toNat * m.toNat := Nat.mul_le_mul acc (le_of_lt base)
    _ < 2 ^ 63 * 2 ^ 63 := Nat.mul_lt_mul'' small small
    _ ≤ 2 ^ 127 := by decide

theorem Reduced.square {m r a : UInt64} (red : Reduced m r a) : a.toNat * a.toNat < 2 ^ 127 :=
  Reduced.product ⟨red.modulus, red.small, red.base, le_of_lt red.base⟩

/-- The accumulator after a turn, by the exponent's last bit. -/
theorem Reduced.turn {m r a : UInt64} (red : Reduced m r a) (b : UInt64) :
    (if b &&& 1 = 1 then mulmod r a m else r).toNat =
      if b.toNat % 2 = 1 then r.toNat * a.toNat % m.toNat else r.toNat := by
  by_cases odd : b.toNat % 2 = 1
  · rw [if_pos ((bit_one b).mpr odd), if_pos odd, mulmod_toNat red.modulus red.product]
  · rw [if_neg (mt (bit_one b).mp odd), if_neg odd]

theorem Reduced.next {m r a : UInt64} (red : Reduced m r a) (b : UInt64) :
    Reduced m (if b &&& 1 = 1 then mulmod r a m else r) (if (0 : UInt64) < b >>> 1 then mulmod a a m else a) where
  modulus := red.modulus
  small := red.small
  base := by
    split
    · rw [mulmod_toNat red.modulus red.square]
      exact Nat.mod_lt _ red.modulus
    · exact red.base
  acc := by
    rw [red.turn]
    split
    · exact le_of_lt (Nat.mod_lt _ red.modulus)
    · exact red.acc

/-- A whole run: the power of the base, reduced, once there is an exponent left. -/
theorem powmLoop_spec {m r a b : UInt64} (red : Reduced m r a) (some_ : 0 < b.toNat) :
    (powmLoop m r a b).toNat = r.toNat * a.toNat ^ b.toNat % m.toNat := by
  induction r, a, b using powmLoop.induct m with
  | case1 r a b pos r' a' ih =>
    rw [powmLoop, dif_pos pos]
    show (powmLoop m r' a' (b >>> 1)).toNat = _
    have turn : r'.toNat = if b.toNat % 2 = 1 then r.toNat * a.toNat % m.toNat else r.toNat := red.turn b
    have parts := Nat.div_add_mod b.toNat 2
    by_cases last : 0 < b.toNat / 2
    · have more : (0 : UInt64) < b >>> 1 := by rw [positive_iff, halved]; exact last
      have square : a'.toNat = a.toNat * a.toNat % m.toNat := by
        show (if (0 : UInt64) < b >>> 1 then mulmod a a m else a).toNat = _
        rw [if_pos more, mulmod_toNat red.modulus red.square]
      rw [ih (red.next b) (by rw [halved]; exact last), halved, square, turn]
      -- the square of the base under half the exponent, and the bit that was taken
      have power : a.toNat ^ b.toNat = (a.toNat * a.toNat) ^ (b.toNat / 2) * a.toNat ^ (b.toNat % 2) := by
        rw [← Nat.pow_two, ← Nat.pow_mul, ← Nat.pow_add, parts]
      have reduce : (a.toNat * a.toNat % m.toNat) ^ (b.toNat / 2) ≡ (a.toNat * a.toNat) ^ (b.toNat / 2) [MOD m.toNat] :=
        (Nat.mod_modEq _ _).pow _
      split
      · rename_i odd
        rw [power, odd, Nat.pow_one]
        calc r.toNat * a.toNat % m.toNat * (a.toNat * a.toNat % m.toNat) ^ (b.toNat / 2) % m.toNat
            = r.toNat * a.toNat * (a.toNat * a.toNat) ^ (b.toNat / 2) % m.toNat := (Nat.mod_modEq _ _).mul reduce
          _ = r.toNat * ((a.toNat * a.toNat) ^ (b.toNat / 2) * a.toNat) % m.toNat := by congr 1; ring
      · rename_i even
        have none_ : b.toNat % 2 = 0 := by omega
        rw [power, none_, Nat.pow_zero, Nat.mul_one]
        exact (Nat.ModEq.refl r.toNat).mul reduce
    · have one : b.toNat = 1 := by omega
      have done : ¬ (0 : UInt64) < b >>> 1 := by rw [positive_iff, halved]; exact last
      rw [powmLoop, dif_neg done, turn, one, if_pos rfl, Nat.pow_one]
  | case2 r a b none_ => exact absurd ((positive_iff b).mpr some_) none_

/-- No product of a run leaves 128 bits. -/
theorem powmProducts_small {m r a b : UInt64} (red : Reduced m r a) :
    ∀ p ∈ powmProducts m r a b, p.1 * p.2 < 2 ^ 127 := by
  induction r, a, b using powmLoop.induct m with
  | case1 r a b pos r' a' ih =>
    rw [powmProducts, dif_pos pos]
    intro p mem
    rcases List.mem_append.mp mem with mem | later
    · rcases List.mem_append.mp mem with here | square
      · split at here
        · rw [List.mem_singleton.mp here]
          exact red.product
        · exact absurd here List.not_mem_nil
      · split at square
        · rw [List.mem_singleton.mp square]
          exact red.square
        · exact absurd square List.not_mem_nil
    · exact ih (red.next b) p later
  | case2 r a b none_ =>
    rw [powmProducts, dif_neg none_]
    exact fun p mem => absurd mem List.not_mem_nil

theorem powm64_spec {a b m : UInt64} (pos : 0 < m.toNat) (small : m.toNat < 2 ^ 63) :
    (powm64 a b m).toNat = if b.toNat = 0 then 1 else a.toNat ^ b.toNat % m.toNat := by
  have base : (a % m).toNat = a.toNat % m.toNat := UInt64.toNat_mod a m
  have one : (1 : UInt64).toNat = 1 := rfl
  have red : Reduced m 1 (a % m) := ⟨pos, small, by rw [base]; exact Nat.mod_lt _ pos, pos⟩
  split
  · rename_i zero
    have done : ¬ 0 < b := by rw [positive_iff]; omega
    rw [powm64, powmLoop, dif_neg done, one]
  · rename_i some_
    rw [powm64, powmLoop_spec red (Nat.pos_of_ne_zero some_), one, Nat.one_mul, base]
    exact ((Nat.mod_modEq a.toNat m.toNat).pow b.toNat)

variable {F : Floats} {ea eb em : Expr} {a b m : Int64}

/-- `powm(A, B, M)` over the operands it admits is the power in [0, M), no product wrapping,
exactly when the modulus is not 1 or the exponent is not 0. -/
theorem powm_reduced_iff (ia : arith F ea = .ok (.int a)) (ib : arith F eb = .ok (.int b))
    (im : arith F em = .ok (.int m)) (nonneg : 0 ≤ a.toInt) (exponent : 0 ≤ b.toInt) (modulus : 1 ≤ m.toInt) :
    ((∃ r : Int64, arith F (.powm ea eb em) = .ok (.int r) ∧ r.toInt = a.toInt ^ b.toInt.toNat % m.toInt ∧
        0 ≤ r.toInt ∧ r.toInt < m.toInt) ∧
      ∀ p ∈ powmProducts m.toUInt64 1 (a.toUInt64 % m.toUInt64) b.toUInt64, p.1 * p.2 < 2 ^ 127) ↔
      ¬(m.toInt = 1 ∧ b.toInt = 0) := by
  have wa : (a.toUInt64.toNat : Int) = a.toInt := by have := toInt_eq_toNat a; omega
  have wb : (b.toUInt64.toNat : Int) = b.toInt := by have := toInt_eq_toNat b; omega
  have wm : (m.toUInt64.toNat : Int) = m.toInt := by have := toInt_eq_toNat m; omega
  have high := m.toInt_lt
  have pos : 0 < m.toUInt64.toNat := by omega
  have small : m.toUInt64.toNat < 2 ^ 63 := by omega
  have answer : arith F (.powm ea eb em) = .ok (.int (powm64 a.toUInt64 b.toUInt64 m.toUInt64).toInt64) := by
    rw [arith_powm ia ib im, powm, if_neg, if_neg, if_neg]
    · exact fun low => absurd (Int64.lt_iff_toInt_lt.mp low) (Int.not_lt.mpr modulus)
    · exact fun low => absurd (Int64.lt_iff_toInt_lt.mp low) (Int.not_lt.mpr exponent)
    · exact fun low => absurd (Int64.lt_iff_toInt_lt.mp low) (Int.not_lt.mpr nonneg)
  have spec := @powm64_spec a.toUInt64 b.toUInt64 m.toUInt64 pos small
  constructor
  · rintro ⟨⟨r, is, -, -, lt⟩, -⟩ ⟨one, zero⟩
    rw [answer] at is
    have none_ : b.toUInt64.toNat = 0 := by omega
    rw [if_pos none_] at spec
    have value := toInt_toInt64 (powm64 a.toUInt64 b.toUInt64 m.toUInt64)
    cases is
    omega
  · intro other
    have base : (a.toUInt64 % m.toUInt64).toNat = a.toUInt64.toNat % m.toUInt64.toNat := UInt64.toNat_mod _ _
    have red : Reduced m.toUInt64 1 (a.toUInt64 % m.toUInt64) :=
      ⟨pos, small, by rw [base]; exact Nat.mod_lt _ pos, pos⟩
    have power : (powm64 a.toUInt64 b.toUInt64 m.toUInt64).toNat =
        a.toUInt64.toNat ^ b.toUInt64.toNat % m.toUInt64.toNat := by
      rw [spec]
      split
      · rename_i zero
        rw [zero, Nat.pow_zero, Nat.mod_eq_of_lt (by omega)]
      · rfl
    have less := Nat.mod_lt (a.toUInt64.toNat ^ b.toUInt64.toNat) pos
    have value := toInt_toInt64 (powm64 a.toUInt64 b.toUInt64 m.toUInt64)
    have count : b.toInt.toNat = b.toUInt64.toNat := by omega
    refine ⟨⟨_, answer, ?_, by omega, by omega⟩, powmProducts_small red⟩
    have small' : (powm64 a.toUInt64 b.toUInt64 m.toUInt64).toInt64.toInt =
        (powm64 a.toUInt64 b.toUInt64 m.toUInt64).toNat := by omega
    rw [small', power, count, ← wa, ← wm]
    push_cast
    rfl

theorem powm_reduced_large :
    ∃ r : Int64, arith noFloats
      (.powm (.big 9223372036854775806) (.big 9223372036854775805) (.big 9223372036854775807)) = .ok (.int r) ∧
      r.toInt < 9223372036854775807 := by
  obtain ⟨⟨r, is, -, -, lt⟩, -⟩ := (@powm_reduced_iff noFloats (.big 9223372036854775806)
    (.big 9223372036854775805) (.big 9223372036854775807) 9223372036854775806 9223372036854775805
    9223372036854775807 rfl rfl rfl (by decide) (by decide) (by decide)).mpr (by decide)
  exact ⟨r, is, lt⟩

/-- `powm(5, 0, 1)` is 1, which is not in [0, 1). -/
theorem powm_modulus_one :
    arith noFloats (.powm (.int ⟨5, by decide⟩) (.int ⟨0, by decide⟩) (.int ⟨1, by decide⟩)) = .ok (.int 1) ∧
      (5 : Int) ^ 0 % 1 = 0 ∧ ¬ (1 : Int64).toInt < 1 := by
  have value : powm64 5 0 1 = 1 := by
    rw [powm64, powmLoop, dif_neg (by decide)]
  refine ⟨?_, by decide, by decide⟩
  rw [arith_powm rfl rfl rfl]
  show Except.ok (Value.int (powm64 5 0 1).toInt64) = _
  rw [value]
  rfl

end Cocolog.Arith
