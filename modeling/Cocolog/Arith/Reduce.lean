import Cocolog.Arith.Rationals

/-! A pair given in two words as a rational number: `coco_rat_reduce` and `coco_new_rat`. The sign
goes to the numerator before the two are divided, so a denominator of -2^63 is refused, and a
numerator of -2^63 over a negative one. -/

set_option linter.all false

namespace Cocolog.Arith

open Cocolog.Lib.Words

/-- `coco_rat_gcd`. -/
def ratGcd (a b : UInt64) : UInt64 := gcdLoop a b

/-- `coco_rat_reduce`. -/
def ratReduce (n d : Int64) : Option (Int64 × Int64) :=
  if d = 0 then none
  else if d < 0 ∧ (d = Int64.minValue ∨ n = Int64.minValue) then none
  else
    let n' := if d < 0 then 0 - n else n
    let d' := if d < 0 then 0 - d else d
    let g := ratGcd (magnitude n') d'.toUInt64
    some (n' / g.toInt64, d' / g.toInt64)

/-- `coco_new_rat`, told whether the tables have room for one entry more. -/
def newRat (n d : Int64) (room : Bool) : Option Value :=
  match ratReduce n d with
  | none => none
  | some (n', d') => if d' = 1 then some (.int n') else if room then some (.rat n' d') else none

variable {n d : Int64}

/-- The sign cannot be moved within 64 bits. -/
def Stuck (n d : Int64) : Prop := d = Int64.minValue ∨ d < 0 ∧ n = Int64.minValue

instance (n d : Int64) : Decidable (Stuck n d) := inferInstanceAs (Decidable (_ ∨ _))

theorem least_neg : (Int64.minValue : Int64) < 0 := by decide

/-- What the two parts have in common, a denominator above 0. -/
theorem ratGcd_toInt (pos : 0 < d.toInt) : (ratGcd (magnitude n) d.toUInt64).toInt64.toInt = Int.gcd n.toInt d.toInt := by
  have word := toInt_eq_toNat d
  have nat : d.toUInt64.toNat = d.toInt.natAbs := by omega
  have value : (ratGcd (magnitude n) d.toUInt64).toNat = Int.gcd n.toInt d.toInt := by
    rw [ratGcd, gcdLoop_toNat, magnitude_toNat, nat]
    rfl
  have least : Int.gcd n.toInt d.toInt ≤ d.toInt.natAbs := Nat.gcd_le_right _ (by omega)
  have signed := toInt_toInt64 (ratGcd (magnitude n) d.toUInt64)
  have := (fits_toInt d).2
  omega

/-- A pair with its sign on the numerator, divided. -/
theorem reduced_words (pos : 0 < d.toInt) :
    0 < (d / (ratGcd (magnitude n) d.toUInt64).toInt64).toInt ∧
      (n / (ratGcd (magnitude n) d.toUInt64).toInt64).toInt.natAbs.Coprime
        (d / (ratGcd (magnitude n) d.toUInt64).toInt64).toInt.natAbs ∧
      ((n / (ratGcd (magnitude n) d.toUInt64).toInt64).toInt : ℚ) / (d / (ratGcd (magnitude n) d.toUInt64).toInt64).toInt =
        n.toInt / d.toInt := by
  have common := ratGcd_toInt (n := n) pos
  have above : 0 < Int.gcd n.toInt d.toInt := Int.gcd_pos_of_ne_zero_right n.toInt (by omega)
  have other : (ratGcd (magnitude n) d.toUInt64).toInt64 ≠ -1 := fun is => by
    rw [is] at common
    have : (-1 : Int64).toInt = -1 := rfl
    omega
  rw [toInt_div other, toInt_div other, common]
  exact reduced pos

/-- A pair whose sign can be moved is reduced; any other is refused. -/
theorem ratReduce_cases (some_ : d ≠ 0) :
    (Stuck n d ∧ ratReduce n d = none) ∨ (¬Stuck n d ∧ ∃ a b, ratReduce n d = some (a, b) ∧ 0 < b.toInt ∧
      a.toInt.natAbs.Coprime b.toInt.natAbs ∧ (a.toInt : ℚ) / b.toInt = n.toInt / d.toInt) := by
  have zero : (0 : Int64).toInt = 0 := rfl
  have nonzero : d.toInt ≠ 0 := fun is => some_ (Int64.toInt_inj.mp is)
  rw [ratReduce, if_neg some_]
  by_cases neg : d < 0
  · by_cases least : d = Int64.minValue ∨ n = Int64.minValue
    · exact .inl ⟨least.imp id fun is => ⟨neg, is⟩, if_pos ⟨neg, least⟩⟩
    · obtain ⟨den, num⟩ := not_or.mp least
      have below := (negative_iff d).mp neg
      have turned : (0 - d).toInt = -d.toInt := by
        rw [toInt_sub, zero]
        · omega
        · rw [zero, Int.zero_sub]
          exact fits_neg den
      have turned' : (0 - n).toInt = -n.toInt := by
        rw [toInt_sub, zero]
        · omega
        · rw [zero, Int.zero_sub]
          exact fits_neg num
      obtain ⟨pos, coprime, value⟩ := reduced_words (n := 0 - n) (d := 0 - d) (by omega)
      refine .inr ⟨fun stuck => stuck.elim den fun is => num is.2, _, _, ?_, pos, coprime, ?_⟩
      · rw [if_neg fun both => least both.2]
        dsimp only
        rw [if_pos neg, if_pos neg]
      · rw [value, turned, turned', Int.cast_neg, Int.cast_neg, neg_div_neg_eq]
  · have above : 0 < d.toInt := by
      have := mt (negative_iff d).mpr neg
      omega
    obtain ⟨pos, coprime, value⟩ := reduced_words (n := n) above
    refine .inr ⟨fun stuck => ?_, _, _, ?_, pos, coprime, value⟩
    · rcases stuck with is | both
      · exact neg (is ▸ least_neg)
      · exact neg both.1
    · rw [if_neg fun both => neg both.1]
      dsimp only
      rw [if_neg neg, if_neg neg]

/-- A pair in lowest terms is told by its value. -/
theorem lowest_unique {a b p q : Int} (pos : 0 < b) (coprime : a.natAbs.Coprime b.natAbs) (pos' : 0 < q)
    (coprime' : p.natAbs.Coprime q.natAbs) (same : (p : ℚ) / q = a / b) : p = a ∧ q = b := by
  have num := congrArg Rat.num same
  have den := congrArg Rat.den same
  rw [Rat.num_div_eq_of_coprime pos' coprime', Rat.num_div_eq_of_coprime pos coprime] at num
  have left := Rat.den_div_eq_of_coprime pos' coprime'
  have right := Rat.den_div_eq_of_coprime pos coprime
  exact ⟨num, by rw [← left, ← right, den]⟩

/-- Every pair whose sign can be moved within 64 bits comes to its one form in lowest terms, an
integer where its denominator is 1, and the tables' room is all that can refuse it. -/
theorem newRat_exact (n d : Int64) (some_ : d ≠ 0) :
    (ratReduce n d = none ↔ Stuck n d) ∧
      (∀ a b, ratReduce n d = some (a, b) → 0 < b.toInt ∧ a.toInt.natAbs.Coprime b.toInt.natAbs ∧
        (a.toInt : ℚ) / b.toInt = n.toInt / d.toInt ∧
        ∀ p q : Int, 0 < q → p.natAbs.Coprime q.natAbs → (p : ℚ) / q = n.toInt / d.toInt → p = a.toInt ∧ q = b.toInt) ∧
      (newRat n d true = none ↔ Stuck n d) ∧
      ∀ room v, newRat n d room = some v → v.Canonical ∧ v.rational = n.toInt / d.toInt := by
  rcases ratReduce_cases (n := n) some_ with ⟨stuck, none_⟩ | ⟨moves, a, b, is, pos, coprime, value⟩
  · refine ⟨iff_of_true none_ stuck, fun a b is => ?_, iff_of_true ?_ stuck, fun room v is => ?_⟩
    · rw [none_] at is
      cases is
    · rw [newRat, none_]
    · rw [newRat, none_] at is
      cases is
  · refine ⟨iff_of_false (fun none_ => ?_) moves, fun a' b' is' => ?_, iff_of_false (fun none_ => ?_) moves, fun room v is' => ?_⟩
    · rw [is] at none_
      cases none_
    · rw [is] at is'
      cases is'
      exact ⟨pos, coprime, value, fun p q pos' coprime' same => lowest_unique pos coprime pos' coprime' (same.trans value.symm)⟩
    · rw [newRat, is] at none_
      dsimp only at none_
      split at none_
      · cases none_
      · cases none_
    · rw [newRat, is] at is'
      dsimp only at is'
      split at is'
      · rename_i one
        cases is'
        refine ⟨trivial, ?_⟩
        rw [← value, one]
        have : (1 : Int64).toInt = 1 := rfl
        rw [this, Int.cast_one, div_one]
        rfl
      · rename_i proper
        split at is'
        · cases is'
          refine ⟨⟨?_, coprime⟩, value⟩
          have : b.toInt ≠ 1 := fun one => proper (Int64.toInt_inj.mp one)
          omega
        · cases is'

theorem newRat_exact_half : (ratReduce 2 4 = none ↔ Stuck 2 4) ∧ ¬Stuck 2 4 :=
  ⟨(newRat_exact 2 4 (by decide)).1, by decide⟩

/-- 2 over -2^63 is refused, and is -1 over 2^62. -/
theorem least_denominator_refused : ratReduce 2 Int64.minValue = none ∧
    ∃ a b : Int64, 0 < b.toInt ∧ a.toInt.natAbs.Coprime b.toInt.natAbs ∧
      (a.toInt : ℚ) / b.toInt = (2 : Int64).toInt / Int64.minValue.toInt := by
  have two : (2 : Int64).toInt = 2 := rfl
  have one : (-1 : Int64).toInt = -1 := rfl
  have large : (4611686018427387904 : Int64).toInt = 4611686018427387904 := rfl
  refine ⟨rfl, -1, 4611686018427387904, by decide, by decide, ?_⟩
  rw [two, one, large, toInt_min]
  norm_num

end Cocolog.Arith
