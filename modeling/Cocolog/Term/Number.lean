import Cocolog.Lib.Double

/-! The numbers of a term and `coco_num_order`: integers exactly, a rational against what
is a fraction of 64 bits by the cross products, anything else as doubles. -/

set_option linter.all false

namespace Cocolog.Term

open Cocolog.Lib Cocolog.Lib.Double

/-- A number of a term, an integer of either kind as its value. -/
inductive Number where
  | int (i : Int)
  | flt (bits : Nat)
  | rat (n : Int) (d : Nat)
deriving Repr, DecidableEq

/-- `(double) n / (double) d`, for a denominator above 0. -/
def ofRat (n : Int) (d : Nat) : Nat :=
  if n = 0 then 0 else withSign (n < 0) (quotient (units (mag (ofInt n))) (units (mag (ofInt d))))

/-- `coco_flt_order`: a NaN first, else by the bits. -/
def fltOrder (x y : Nat) : Ordering :=
  if isNan x != isNan y then if isNan x then .lt else .gt
  else compare (asSigned x) (asSigned y)

/-- The mantissa without its trailing zeros. -/
def strip : Nat → Nat → Int → Nat × Int
  | 0, man, e2 => (man, e2)
  | turns + 1, man, e2 => if 0 < man ∧ man % 2 = 0 then strip turns (man / 2) (e2 + 1) else (man, e2)

/-- The mantissa and the exponent of 2 that a finite double's fields stand for. -/
def fields (x : Nat) : Nat × Int :=
  if mag x / 2 ^ 52 = 0 then (mag x, -1074) else (mag x % 2 ^ 52 + 2 ^ 52, (mag x / 2 ^ 52 : Nat) - 1075)

/-- `coco_double_rat`: the fraction a double is, if its parts fit 64 bits. -/
def doubleRat (x : Nat) : Option (Int × Nat) :=
  let sign : Int := if negative x then -1 else 1
  if mag x / 2 ^ 52 = 2047 then none
  else if mag x = 0 then some (0, 1)
  else
    let (man, e2) := strip 64 (fields x).1 (fields x).2
    if 0 ≤ e2 then
      if 62 < e2 then none
      else if (2 ^ 63 - 1) / 2 ^ e2.toNat < man then none
      else some (sign * (man * 2 ^ e2.toNat : Nat), 1)
    else if 62 < -e2 then none
    else some (sign * man, 2 ^ (-e2).toNat)

namespace Number

def isFlt : Number → Bool
  | flt _ => true
  | _ => false

def isRat : Number → Bool
  | rat _ _ => true
  | _ => false

/-- `coco_num_value`. -/
def value : Number → Nat
  | int i => ofInt i
  | flt x => x
  | rat n d => ofRat n d

/-- `coco_rat_side`. -/
def ratSide : Number → Option (Int × Nat)
  | int i => some (i, 1)
  | flt x => doubleRat x
  | rat n d => some (n, d)

/-- Of two that are equal as numbers the float is first. -/
def floatFirst (x y : Number) : Ordering :=
  if x.isFlt = y.isFlt then .eq else if x.isFlt then .lt else .gt

/-- The cross products, where a rational is on either side and both are fractions. -/
def cross (x y : Number) : Option Ordering :=
  if x.isRat || y.isRat then
    match x.ratSide, y.ratSide with
    | some (n, d), some (n', d') => some (compare (n * d') (n' * d))
    | _, _ => none
  else none

/-- The order of two numbers that are not both integers. -/
def mixedOrder (x y : Number) : Ordering :=
  match cross x y with
  | some o => o.then (floatFirst x y)
  | none =>
    if less x.value y.value then .lt
    else if less y.value x.value then .gt
    else if x.isFlt && y.isFlt then fltOrder x.value y.value
    else floatFirst x y

/-- `coco_num_order`. -/
def order : Number → Number → Ordering
  | int i, int j => compare i j
  | x, y => mixedOrder x y

/-- As the machine makes them: in 64 bits, a fraction in lowest terms and no integer. -/
def Proper : Number → Prop
  | int i => -2 ^ 63 ≤ i ∧ i < 2 ^ 63
  | flt x => x < 2 ^ 64
  | rat n d => 1 < d ∧ d < 2 ^ 63 ∧ -2 ^ 63 ≤ n ∧ n < 2 ^ 63 ∧ n.natAbs.Coprime d

instance (x : Number) : Decidable x.Proper := by
  cases x <;> unfold Proper <;> infer_instance

end Number

/- The fraction a double is. -/

theorem strip_spec (turns man : Nat) (e2 : Int) :
    ∃ k man', strip turns man e2 = (man', e2 + (k : Nat)) ∧ man = man' * 2 ^ k := by
  induction turns generalizing man e2 with
  | zero => exact ⟨0, man, by rw [strip, Int.natCast_zero, Int.add_zero], by rw [Nat.pow_zero, Nat.mul_one]⟩
  | succ turns ih =>
    rw [strip]
    split
    · rename_i even
      obtain ⟨k, man', is, whole⟩ := ih (man / 2) (e2 + 1)
      refine ⟨k + 1, man', ?_, ?_⟩
      · rw [is]
        congr 1
        push_cast
        omega
      · have twice : man = man / 2 * 2 := by omega
        rw [twice, whole, Nat.pow_succ, Nat.mul_assoc]
    · exact ⟨0, man, by rw [Int.natCast_zero, Int.add_zero], by rw [Nat.pow_zero, Nat.mul_one]⟩

/-- A double's units are its stripped mantissa at its exponent. -/
theorem strip_fields (x : Nat) :
    ∃ (man s : Nat), strip 64 (fields x).1 (fields x).2 = (man, (s : Int) - 1074) ∧ units (mag x) = man * 2 ^ s ∧
      man < 2 ^ 53 := by
  have start : ∃ s : Nat, (fields x).2 = (s : Int) - 1074 ∧ units (mag x) = (fields x).1 * 2 ^ s ∧
      (fields x).1 < 2 ^ 53 := by
    unfold fields units
    split
    · rename_i small
      refine ⟨0, rfl, (Nat.mul_one _).symm, ?_⟩
      show mag x < 2 ^ 53
      omega
    · rename_i normal
      refine ⟨mag x / 2 ^ 52 - 1, ?_, ?_, ?_⟩
      · show ((mag x / 2 ^ 52 : Nat) : Int) - 1075 = _
        omega
      · rw [Nat.add_comm]
      · show mag x % 2 ^ 52 + 2 ^ 52 < 2 ^ 53
        omega
  obtain ⟨s, exponent, whole, small⟩ := start
  obtain ⟨k, man, is, mantissa⟩ := strip_spec 64 (fields x).1 (fields x).2
  refine ⟨man, s + k, ?_, ?_, ?_⟩
  · rw [is, exponent]
    congr 1
    push_cast
    omega
  · rw [whole, mantissa, Nat.mul_assoc, ← Nat.pow_add, Nat.add_comm k]
  · rw [mantissa] at small
    exact Nat.lt_of_le_of_lt (Nat.le_mul_of_pos_right man (Nat.two_pow_pos k)) small

theorem two_pow_unit_add (k : Nat) : 2 ^ (1074 + k) = unit * 2 ^ k := by rw [unit, ← Nat.pow_add]

theorem unit_eq {s k : Nat} (sum : s + k = 1074) : unit = 2 ^ s * 2 ^ k := by
  rw [← Nat.pow_add, sum, unit]

theorem doubleRat_some {x : Nat} {m : Int} {e : Nat} (is : doubleRat x = some (m, e)) :
    0 < e ∧ m * unit = signedUnits x * e ∧ mag x < infinite := by
  obtain ⟨man, s, stripped, whole, small⟩ := strip_fields x
  unfold doubleRat at is
  simp only [stripped] at is
  have finite : ¬ mag x / 2 ^ 52 = 2047 → mag x < infinite := by
    intro off
    have bound : mag x < 2 ^ 63 := Nat.mod_lt _ (Nat.two_pow_pos 63)
    unfold infinite
    omega
  split at is
  · cases is
  · rename_i off
    split at is
    · rename_i zero
      cases is
      refine ⟨Nat.one_pos, ?_, finite off⟩
      rw [signedUnits, zero]
      have none_ : units 0 = 0 := rfl
      rw [none_, Int.zero_mul, Int.natCast_zero, Int.neg_zero, ite_self, Int.zero_mul]
    · have signed : signedUnits x = (if negative x then -1 else 1) * (units (mag x) : Int) := by
        unfold signedUnits
        split <;> omega
      split at is
      · rename_i above
        split at is
        · cases is
        · split at is
          · cases is
          · cases is
            refine ⟨Nat.one_pos, ?_, finite off⟩
            obtain ⟨k, rfl⟩ : ∃ k, s = 1074 + k := ⟨s - 1074, by omega⟩
            have exponent : ((1074 + k : Nat) - 1074 : Int).toNat = k := by omega
            rw [exponent, signed, whole, two_pow_unit_add]
            push_cast
            ring
      · rename_i below
        split at is
        · cases is
        · cases is
          refine ⟨Nat.two_pow_pos _, ?_, finite off⟩
          obtain ⟨k, sum⟩ : ∃ k, s + k = 1074 := ⟨1074 - s, by omega⟩
          have exponent : (-((s : Int) - 1074)).toNat = k := by omega
          rw [exponent, signed, whole, unit_eq sum]
          push_cast
          ring

/-- A double that is no fraction of 64 bits is 2^63 or more, or between 0 and 1. -/
theorem doubleRat_none {x : Nat} (is : doubleRat x = none) : power 63 ≤ mag x ∨ 0 < mag x ∧ mag x < power 0 := by
  obtain ⟨man, s, stripped, whole, small⟩ := strip_fields x
  unfold doubleRat at is
  simp only [stripped] at is
  have large : 2 ^ 63 * unit ≤ units (mag x) → power 63 ≤ mag x := by
    intro units_
    by_contra less
    have more := units_strictMono (Nat.lt_of_not_le less)
    rw [units_power] at more
    omega
  split at is
  · rename_i top
    left
    have bound : power 63 ≤ infinite := by decide
    unfold infinite at bound
    omega
  · split at is
    · cases is
    · rename_i some_
      have pos : 0 < man := by
        apply Nat.pos_of_ne_zero
        rintro rfl
        rw [Nat.zero_mul] at whole
        exact some_ (units_eq_zero.mp whole)
      split at is
      · rename_i above
        left
        obtain ⟨k, rfl⟩ : ∃ k, s = 1074 + k := ⟨s - 1074, by omega⟩
        have exponent : ((1074 + k : Nat) - 1074 : Int).toNat = k := by omega
        rw [two_pow_unit_add] at whole
        apply large
        have enough : 2 ^ 63 ≤ man * 2 ^ k := by
          split at is
          · rename_i far
            calc 2 ^ 63 ≤ 2 ^ k := Nat.pow_le_pow_right (by decide) (by omega)
              _ ≤ man * 2 ^ k := Nat.le_mul_of_pos_left _ pos
          · split at is
            · rename_i more
              rw [exponent, Nat.div_lt_iff_lt_mul (Nat.two_pow_pos k)] at more
              omega
            · cases is
        calc 2 ^ 63 * unit ≤ man * 2 ^ k * unit := Nat.mul_le_mul_right _ enough
          _ = units (mag x) := by rw [whole]; ring
      · rename_i below
        right
        refine ⟨Nat.pos_of_ne_zero some_, ?_⟩
        obtain ⟨k, sum⟩ : ∃ k, s + k = 1074 := ⟨1074 - s, by omega⟩
        have deep : 62 < k := by
          split at is
          · omega
          · cases is
        rw [← units_lt_iff, units_power, Nat.pow_zero, Nat.one_mul, whole, unit_eq sum, Nat.mul_comm]
        apply Nat.mul_lt_mul_of_pos_left _ (Nat.two_pow_pos s)
        calc man < 2 ^ 53 := small
          _ ≤ 2 ^ k := Nat.pow_le_pow_right (by decide) (by omega)

/- The double of a rational. -/

theorem mag_ofInt {n : Nat} (pos : 0 < n) (le : n ≤ 2 ^ 63) :
    mag (ofInt n) = quotient n 1 ∧ mag (ofInt (-n)) = quotient n 1 := by
  have small := (power_small (quotient_int_le pos le)).1
  constructor
  · rw [ofInt, if_neg (by omega), Int.natAbs_natCast, mag_withSign _ small]
  · rw [ofInt, if_neg (by omega), Int.natAbs_neg, Int.natAbs_natCast, mag_withSign _ small]

/-- It is at most 2^62, at least 1 if the numerator is not the smaller, and has its sign. -/
theorem ofRat_spec {n : Int} {d : Nat} (proper : (Number.rat n d).Proper) :
    ∃ m, m ≤ power 62 ∧ (d ≤ n.natAbs → power 0 ≤ m) ∧ ofRat n d = withSign (n < 0) m := by
  obtain ⟨above, small, low, high, coprime⟩ := proper
  have some_ : n ≠ 0 := by
    rintro rfl
    rw [Int.natAbs_zero, Nat.coprime_zero_left] at coprime
    omega
  have pos : 0 < n.natAbs := Int.natAbs_pos.mpr some_
  have left : mag (ofInt n) = quotient n.natAbs 1 := by
    obtain ⟨up, down⟩ := mag_ofInt pos (by omega)
    rcases Int.natAbs_eq n with is | is
    · rwa [← is] at up
    · rwa [← is] at down
  have right : mag (ofInt d) = quotient d 1 := (mag_ofInt (by omega) (by omega)).1
  have numerator : unit ≤ units (quotient n.natAbs 1) ∧ units (quotient n.natAbs 1) ≤ 2 ^ 63 * unit := by
    have least := units_mono (le_quotient_int (k := 0) pos)
    have most := units_mono (quotient_int_le (k := 63) pos (by omega))
    rw [units_power] at least most
    omega
  have denominator : 2 * unit ≤ units (quotient d 1) ∧ units (quotient d 1) ≤ 2 ^ 63 * unit := by
    have least := units_mono (le_quotient_int (k := 1) above)
    have most := units_mono (quotient_int_le (k := 63) (n := d) (by omega) (by omega))
    rw [units_power] at least most
    omega
  have grows : d ≤ n.natAbs → units (quotient d 1) ≤ units (quotient n.natAbs 1) :=
    fun le => units_mono (quotient_mono Nat.one_pos (by omega) le)
  have unit_pos := unit_pos
  refine ⟨quotient (units (quotient n.natAbs 1)) (units (quotient d 1)), ?_, ?_, ?_⟩
  · apply quotient_le (by omega) (by omega)
    rw [units_power, Nat.mul_assoc, Nat.mul_left_comm, Nat.mul_comm]
    apply Nat.mul_le_mul_left
    omega
  · intro le
    apply le_quotient (by omega) (by omega)
    rw [units_power, Nat.pow_zero, Nat.one_mul, Nat.mul_comm]
    exact Nat.mul_le_mul_right _ (grows le)
  · rw [ofRat, if_neg some_, left, right]

/- The order, pair by pair. -/

/-- Where a double stands among the floats of the standard order. -/
def rank (x : Nat) : Int :=
  if isNan x then asSigned x - 2 ^ 66 else 2 * place x - if negative x then 1 else 0

theorem place_bounds {x : Nat} (number : isNan x = false) :
    -(infinite : Int) ≤ place x ∧ place x ≤ infinite := by
  have finite : mag x ≤ infinite := by simpa [isNan] using number
  unfold place
  split <;> omega

theorem rank_nan {x : Nat} (nan : isNan x = true) : rank x < -2 ^ 65 := by
  have bound : mag x < 2 ^ 63 := Nat.mod_lt _ (Nat.two_pow_pos 63)
  rw [rank, if_pos nan]
  unfold asSigned
  split <;> omega

theorem rank_number {x : Nat} (number : isNan x = false) :
    -2 ^ 65 ≤ rank x ∧ ∀ p, (p < place x ↔ 2 * p < rank x) := by
  have bounds := place_bounds number
  have small : (infinite : Int) < 2 ^ 63 := by decide
  rw [rank, if_neg (by rw [number]; exact Bool.false_ne_true)]
  constructor
  · split <;> omega
  · intro p
    split <;> omega

namespace Number

theorem compare_congr {a b c d : Int} (lt : a < b ↔ c < d) (gt : b < a ↔ d < c) : compare a b = compare c d := by
  rcases lt_trichotomy a b with less | same | more
  · rw [compare_lt_iff_lt.mpr less, compare_lt_iff_lt.mpr (lt.mp less)]
  · rw [compare_eq_iff_eq.mpr same, compare_eq_iff_eq.mpr (by omega)]
  · rw [compare_gt_iff_gt.mpr more, compare_gt_iff_gt.mpr (gt.mp more)]

theorem less_nan {x y : Nat} (nan : isNan x = true ∨ isNan y = true) : less x y = false := by
  rcases nan with is | is <;> simp [less, is]

theorem less_number {x y : Nat} (left : isNan x = false) (right : isNan y = false) :
    less x y = decide (place x < place y) := by
  simp [less, left, right]

/-- Two floats are ordered by their ranks. -/
theorem order_flt (x y : Nat) : order (flt x) (flt y) = compare (rank x) (rank y) := by
  show (if less x y then .lt else if less y x then .gt else fltOrder x y) = _
  cases left : isNan x with
  | true =>
    rw [less_nan (.inl left), less_nan (.inr left), if_neg Bool.false_ne_true, if_neg Bool.false_ne_true, fltOrder,
      left]
    have low := rank_nan left
    cases right : isNan y with
    | true =>
      rw [rank, rank, if_pos left, if_pos right]
      exact compare_congr (by omega) (by omega)
    | false =>
      have high := (rank_number right).1
      exact (compare_lt_iff_lt.mpr (by omega)).symm
  | false =>
    cases right : isNan y with
    | true =>
      have low := rank_nan right
      have high := (rank_number left).1
      rw [less_nan (.inr right), less_nan (.inl right), if_neg Bool.false_ne_true, if_neg Bool.false_ne_true, fltOrder,
        left, right]
      exact (compare_gt_iff_gt.mpr (by omega)).symm
    | false =>
      rw [less_number left right, less_number right left, fltOrder, left, right]
      simp only [decide_eq_true_eq]
      have ranks := (rank_number left).2 (place y)
      have ranks' := (rank_number right).2 (place x)
      have high : rank x ≤ 2 * place x := by
        rw [rank, left, if_neg Bool.false_ne_true]
        split <;> omega
      have high' : rank y ≤ 2 * place y := by
        rw [rank, right, if_neg Bool.false_ne_true]
        split <;> omega
      split
      · exact (compare_lt_iff_lt.mpr (by omega)).symm
      · split
        · exact (compare_gt_iff_gt.mpr (by omega)).symm
        · -- one place: the same double, or the two zeros
          have bound : mag x < 2 ^ 63 := Nat.mod_lt _ (Nat.two_pow_pos 63)
          have bound' : mag y < 2 ^ 63 := Nat.mod_lt _ (Nat.two_pow_pos 63)
          have one : place x = place y := by omega
          rw [rank, rank, left, right, if_neg Bool.false_ne_true]
          unfold place at one ⊢
          unfold asSigned
          cases negative x <;> cases negative y <;> simp only [Bool.false_eq_true, if_true, if_false] at one ⊢ <;>
            exact compare_congr (by omega) (by omega)

theorem floatFirst_swap (x y : Number) : floatFirst y x = (floatFirst x y).swap := by
  unfold floatFirst
  cases x.isFlt <;> cases y.isFlt <;> rfl

theorem cross_swap (x y : Number) : cross y x = (cross x y).map Ordering.swap := by
  unfold cross
  rw [Bool.or_comm]
  split
  · cases left : x.ratSide <;> cases right : y.ratSide <;> simp only [Option.map]
    exact congrArg some Std.OrientedCmp.eq_swap
  · rfl

theorem less_asymm {x y : Nat} (is : less x y = true) : less y x = false := by
  simp only [less, Bool.and_eq_true, Bool.not_eq_true', decide_eq_true_eq] at is
  simp only [less, is.1.1, is.1.2, Bool.not_false, Bool.true_and, decide_eq_false_iff_not]
  omega

theorem fltOrder_swap (x y : Nat) : fltOrder y x = (fltOrder x y).swap := by
  unfold fltOrder
  have turned : compare (asSigned y) (asSigned x) = (compare (asSigned x) (asSigned y)).swap :=
    Std.OrientedCmp.eq_swap
  cases isNan x <;> cases isNan y <;> first | rfl | exact turned

/-- Turned round, a pair is ordered the other way. -/
theorem order_swap (x y : Number) : order y x = (order x y).swap := by
  have mixed : ∀ x y : Number, mixedOrder y x = (mixedOrder x y).swap := by
    intro x y
    unfold mixedOrder
    rw [cross_swap x y]
    cases cross x y with
    | some o =>
      show (o.swap).then (floatFirst y x) = (o.then (floatFirst x y)).swap
      rw [floatFirst_swap x y, Ordering.swap_then]
    | none =>
      show (if less y.value x.value then _ else _) = (if less x.value y.value then _ else _ : Ordering).swap
      rw [floatFirst_swap x y, fltOrder_swap x.value y.value, Bool.and_comm]
      cases forth : less x.value y.value with
      | true =>
        rw [less_asymm forth]
        rfl
      | false =>
        cases back : less y.value x.value with
        | true => rfl
        | false =>
          simp only [Bool.false_eq_true, if_false]
          split <;> rfl
  have ints : ∀ i j : Int, compare j i = (compare i j).swap := fun i j => Std.OrientedCmp.eq_swap
  cases x <;> cases y <;> simp only [order] <;> first | exact ints _ _ | exact mixed _ _

theorem isNan_value {x : Number} (proper : x.Proper) (plain : x.isFlt = false) : isNan x.value = false := by
  have small : ∀ (b : Bool) (m : Nat), m ≤ power 63 → isNan (withSign b m) = false := by
    intro b m le
    obtain ⟨fits, finite⟩ := power_small le
    rw [isNan, mag_withSign b fits]
    exact decide_eq_false (by omega)
  cases x with
  | int i =>
    obtain ⟨low, high⟩ := proper
    by_cases zero : i = 0
    · subst zero
      decide
    · rw [value, ofInt, if_neg zero]
      exact small _ _ (quotient_int_le (by omega) (by omega))
  | flt f => cases plain
  | rat n d =>
    obtain ⟨m, le, -, is⟩ := ofRat_spec proper
    rw [value, is]
    exact small _ _ (le.trans (power_le (by decide)))

/-- A number and a float that are compared as doubles. -/
theorem order_value {x : Number} {f : Nat} (plain : x.isFlt = false) (number : isNan x.value = false)
    (apart : cross x (flt f) = none) : order x (flt f) = if 2 * place x.value < rank f then .lt else .gt := by
  have mixed : order x (flt f) = mixedOrder x (flt f) := by cases x <;> rfl
  have first : floatFirst x (flt f) = .gt := by
    rw [floatFirst, plain]
    rfl
  rw [mixed, mixedOrder, apart]
  simp only [plain, Bool.false_and, Bool.false_eq_true, if_false, first]
  show (if less x.value f then _ else if less f x.value then _ else _) = _
  cases nan : isNan f with
  | true =>
    have low := rank_nan nan
    have bounds := place_bounds number
    have small : (infinite : Int) < 2 ^ 63 := by decide
    have past : ¬ 2 * place x.value < rank f := by omega
    rw [less_nan (.inr nan), less_nan (.inl nan), if_neg past]
    rfl
  | false =>
    rw [less_number number nan, less_number nan number]
    simp only [decide_eq_true_eq, ite_self, (rank_number nan).2]

/-- Two fractions, one of them a rational's. -/
theorem order_cross {x y : Number} {n n' : Int} {d d' : Nat} (rational : (x.isRat || y.isRat) = true)
    (left : x.ratSide = some (n, d)) (right : y.ratSide = some (n', d')) :
    order x y = (compare (n * d') (n' * d)).then (floatFirst x y) := by
  have mixed : order x y = mixedOrder x y := by
    cases x <;> cases y <;> first | rfl | cases rational
  rw [mixed, mixedOrder, cross, if_pos rational, left, right]

/- Which of two numbers is first. -/

theorem lt_int_int (i j : Int) : order (int i) (int j) = .lt ↔ i < j := compare_lt_iff_lt

theorem lt_int_rat (i n : Int) (d : Nat) : order (int i) (rat n d) = .lt ↔ i * d < n := by
  rw [order_cross rfl (show ratSide (int i) = some (i, 1) from rfl) (show ratSide (rat n d) = some (n, d) from rfl)]
  simp [floatFirst, isFlt, compare_lt_iff_lt]

theorem lt_rat_int (n i : Int) (d : Nat) : order (rat n d) (int i) = .lt ↔ n < i * d := by
  rw [order_cross rfl (show ratSide (rat n d) = some (n, d) from rfl) (show ratSide (int i) = some (i, 1) from rfl)]
  simp [floatFirst, isFlt, compare_lt_iff_lt]

theorem lt_rat_rat (n n' : Int) (d d' : Nat) : order (rat n d) (rat n' d') = .lt ↔ n * d' < n' * d := by
  rw [order_cross rfl (show ratSide (rat n d) = some (n, d) from rfl)
    (show ratSide (rat n' d') = some (n', d') from rfl)]
  simp [floatFirst, isFlt, compare_lt_iff_lt]

theorem lt_flt_flt (f g : Nat) : order (flt f) (flt g) = .lt ↔ rank f < rank g := by
  rw [order_flt, compare_lt_iff_lt]

theorem lt_rat_fraction {n m : Int} {d e f : Nat} (is : doubleRat f = some (m, e)) :
    (order (rat n d) (flt f) = .lt ↔ n * e < m * d) ∧ (order (flt f) (rat n d) = .lt ↔ m * d ≤ n * e) := by
  rw [order_swap (rat n d) (flt f),
    order_cross rfl (show ratSide (rat n d) = some (n, d) from rfl) (show ratSide (flt f) = some (m, e) from is)]
  have first : floatFirst (rat n d) (flt f) = .gt := rfl
  rw [first]
  rcases lt_trichotomy (n * e) (m * d) with less_ | same | more
  · rw [compare_lt_iff_lt.mpr less_]
    simp [less_]
  · rw [compare_eq_iff_eq.mpr same]
    simp [same]
  · rw [compare_gt_iff_gt.mpr more]
    simp [more.le]

theorem lt_value {x : Number} {f : Nat} (proper : x.Proper) (plain : x.isFlt = false)
    (apart : cross x (flt f) = none) :
    (order x (flt f) = .lt ↔ 2 * place x.value < rank f) ∧ (order (flt f) x = .lt ↔ rank f ≤ 2 * place x.value) := by
  rw [order_swap x (flt f), order_value plain (isNan_value proper plain) apart]
  by_cases before : 2 * place x.value < rank f
  · rw [if_pos before]
    simp [before]
  · rw [if_neg before]
    simp [before, Int.not_lt.mp before]

/- Numbers that are one. -/

theorem rank_inj {x y : Nat} (hx : x < 2 ^ 64) (hy : y < 2 ^ 64) (same : rank x = rank y) : x = y := by
  have parts : ∀ {x : Nat}, x < 2 ^ 64 → x = (if negative x then 2 ^ 63 else 0) + mag x := by
    intro x small
    unfold negative mag
    rcases Nat.lt_or_ge x (2 ^ 63) with low | high
    · have none_ : x / 2 ^ 63 % 2 = 0 := by omega
      rw [none_, if_neg (by decide)]
      omega
    · have one : x / 2 ^ 63 % 2 = 1 := by omega
      rw [one, if_pos (by decide)]
      omega
  have bound : mag x < 2 ^ 63 := Nat.mod_lt _ (Nat.two_pow_pos 63)
  have bound' : mag y < 2 ^ 63 := Nat.mod_lt _ (Nat.two_pow_pos 63)
  have apart : isNan x = isNan y := by
    cases left : isNan x <;> cases right : isNan y
    · rfl
    · have low := rank_nan right
      have high := (rank_number left).1
      omega
    · have low := rank_nan left
      have high := (rank_number right).1
      omega
    · rfl
  rw [parts hx, parts hy]
  unfold rank place asSigned at same
  rw [apart] at same
  split_ifs at same ⊢ <;> omega

/-- Only one number compares equal to a number: itself. -/
theorem order_eq_iff {x y : Number} (hx : x.Proper) (hy : y.Proper) : order x y = .eq ↔ x = y := by
  have whole : ∀ {n i : Int} {d : Nat}, (rat n d).Proper → n ≠ i * d := by
    intro n i d proper is
    obtain ⟨above, -, -, -, coprime⟩ := proper
    have divides : d ∣ n.natAbs := by
      rw [is, Int.natAbs_mul, Int.natAbs_natCast]
      exact Nat.dvd_mul_left d _
    have one := Nat.Coprime.eq_one_of_dvd coprime.symm divides
    omega
  have lowest : ∀ {n n' : Int} {d d' : Nat}, (rat n d).Proper → (rat n' d').Proper → n * d' = n' * d →
      rat n d = rat n' d' := by
    intro n n' d d' proper proper' same
    have sizes : n.natAbs * d' = n'.natAbs * d := by
      have abs_ := congrArg Int.natAbs same
      rwa [Int.natAbs_mul, Int.natAbs_mul, Int.natAbs_natCast, Int.natAbs_natCast] at abs_
    obtain ⟨above, -, -, -, coprime⟩ := proper
    obtain ⟨-, -, -, -, coprime'⟩ := proper'
    have forth : d ∣ d' := coprime.symm.dvd_of_dvd_mul_left (sizes ▸ Nat.dvd_mul_left d _)
    have back : d' ∣ d := coprime'.symm.dvd_of_dvd_mul_left (sizes ▸ Nat.dvd_mul_left d' _)
    have one : d = d' := Nat.dvd_antisymm forth back
    subst one
    have pos : (d : Int) ≠ 0 := by omega
    rw [Int.eq_of_mul_eq_mul_right pos same]
  have apart : ∀ {x : Number} {f : Nat}, x.Proper → x.isFlt = false → order x (flt f) ≠ .eq := by
    intro x f proper plain
    cases crossed : cross x (flt f) with
    | none =>
      rw [order_value plain (isNan_value proper plain) crossed]
      split <;> nofun
    | some o =>
      have mixed : order x (flt f) = mixedOrder x (flt f) := by cases x <;> rfl
      have first : floatFirst x (flt f) = .gt := by
        rw [floatFirst, plain]
        rfl
      rw [mixed, mixedOrder, crossed]
      simp only [first]
      cases o <;> nofun
  constructor
  · intro same
    cases x with
    | int i =>
      cases y with
      | int j => rw [compare_eq_iff_eq.mp same]
      | flt f => exact absurd same (apart hx rfl)
      | rat n d =>
        rw [order_cross rfl (show ratSide (int i) = some (i, 1) from rfl)
          (show ratSide (rat n d) = some (n, d) from rfl), Ordering.then_eq_eq, compare_eq_iff_eq] at same
        exact absurd (same.1.trans (Int.mul_one n)).symm (whole hy)
    | flt f =>
      cases y with
      | flt g =>
        rw [order_flt, compare_eq_iff_eq] at same
        rw [rank_inj hx hy same]
      | _ =>
        rw [order_swap, Ordering.swap_eq_eq] at same
        exact absurd same (apart hy rfl)
    | rat n d =>
      cases y with
      | int i =>
        rw [order_cross rfl (show ratSide (rat n d) = some (n, d) from rfl)
          (show ratSide (int i) = some (i, 1) from rfl), Ordering.then_eq_eq, compare_eq_iff_eq] at same
        exact absurd ((Int.mul_one n).symm.trans same.1) (whole hx)
      | flt f => exact absurd same (apart hx rfl)
      | rat n' d' =>
        rw [order_cross rfl (show ratSide (rat n d) = some (n, d) from rfl)
          (show ratSide (rat n' d') = some (n', d') from rfl), Ordering.then_eq_eq, compare_eq_iff_eq] at same
        exact lowest hx hy same.1
  · rintro rfl
    have turned := order_swap x x
    cases is : order x x with
    | eq => rfl
    | lt =>
      rw [is] at turned
      cases turned
    | gt =>
      rw [is] at turned
      cases turned

end Number

end Cocolog.Term
