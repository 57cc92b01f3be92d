import Cocolog.Arith.Integers

/-! Expressions that come to natural numbers, each function of them in range. -/

set_option linter.all false

namespace Cocolog.Arith

open Cocolog.Lib Cocolog.Lib.Words

theorem toInt_ofNat {n : Nat} (small : n < 2 ^ 63) : (Int64.ofNat n).toInt = n := Int64.toInt_ofNat_of_lt small

/-- A natural number's leaf, in a cell or a box. -/
def num (n : Nat) : Expr :=
  if narrow : n < 2 ^ 59 then .int ⟨Int64.ofNat n, by rw [toInt_ofNat (by omega)]; omega⟩ else .big (Int64.ofNat n)

/-- The expression comes to the natural number, which 64 bits hold. -/
structure Comes (F : Floats) (e : Expr) (n : Nat) : Prop where
  small : n < 2 ^ 63
  is : arith F e = .ok (.int (Int64.ofNat n))

namespace Comes

variable {F : Floats} {f : Binary} {ea eb : Expr} {m n r : Nat}

theorem num (small : n < 2 ^ 63) : Comes F (num n) n := by
  refine ⟨small, ?_⟩
  rw [Arith.num]
  split <;> rfl

/-- A function whose value over the integers is a natural number that 64 bits hold. -/
theorem two (a : Comes F ea m) (b : Comes F eb n) (value : integerValue f m n = some (some (r : Int))) (small : r < 2 ^ 63) :
    Comes F (.two f ea eb) r := by
  refine ⟨small, ?_⟩
  rw [← toInt_ofNat a.small, ← toInt_ofNat b.small] at value
  rw [arith_integer a.is b.is value]
  exact (exact_of_eq (toInt_ofNat small)).symm

theorem add (a : Comes F ea m) (b : Comes F eb n) (small : m + n < 2 ^ 63) : Comes F (.two .add ea eb) (m + n) :=
  a.two b rfl small

theorem mul (a : Comes F ea m) (b : Comes F eb n) (small : m * n < 2 ^ 63) : Comes F (.two .mul ea eb) (m * n) :=
  a.two b rfl small

theorem and (a : Comes F ea m) (b : Comes F eb n) : Comes F (.two .and ea eb) (m &&& n) :=
  a.two b rfl (Nat.lt_of_le_of_lt Nat.and_le_left a.small)

theorem or (a : Comes F ea m) (b : Comes F eb n) : Comes F (.two .or ea eb) (m ||| n) :=
  a.two b rfl (Nat.or_lt_two_pow a.small b.small)

theorem xor (a : Comes F ea m) (b : Comes F eb n) : Comes F (.two .xor ea eb) (m ^^^ n) :=
  a.two b rfl (Nat.xor_lt_two_pow a.small b.small)

theorem shiftLeft (a : Comes F ea m) (b : Comes F eb n) (small : m <<< n < 2 ^ 63) : Comes F (.two .shiftLeft ea eb) (m <<< n) := by
  refine a.two b ?_ small
  rw [integerValue, scaled, if_pos (Int.natCast_nonneg n), Nat.shiftLeft_eq]
  rfl

theorem shiftRight (a : Comes F ea m) (b : Comes F eb n) : Comes F (.two .shiftRight ea eb) (m >>> n) := by
  refine a.two b ?_ (Nat.lt_of_le_of_lt (Nat.shiftRight_le m n) a.small)
  rw [integerValue, Nat.shiftRight_eq_div_pow]
  by_cases zero : n = 0
  · rw [zero, scaled, if_pos (by decide), Nat.pow_zero, Nat.div_one]
    exact congrArg (some <| some ·) (Int.mul_one _)
  · rw [scaled, if_neg (by omega), Int.neg_neg, Int.toNat_natCast]
    rfl

end Comes

end Cocolog.Arith
