import Mathlib.Data.Nat.Log
import Mathlib.Data.Int.Order.Basic
import Mathlib.Tactic.Ring
import Mathlib.Tactic.Linarith

/-! Doubles by their 64 bits. The magnitude is the lower 63, and a finite one is a whole
number of units of 2^-1074. Integers and quotients are rounded to the nearest double and
to the even one of two, so no double lies between them and what they are rounded to. -/

set_option linter.all false

namespace Cocolog.Lib

namespace Double

/-- The exponent and the mantissa together. -/
def mag (x : Nat) : Nat := x % 2 ^ 63

def negative (x : Nat) : Bool := x / 2 ^ 63 % 2 == 1

/-- The magnitude of an infinity; a NaN's is larger. -/
def infinite : Nat := 2047 * 2 ^ 52

def isNan (x : Nat) : Bool := infinite < mag x

/-- Where a double stands among the doubles, the two zeros in one place. -/
def place (x : Nat) : Int := if negative x then -(mag x : Int) else mag x

/-- C's `<`. -/
def less (x y : Nat) : Bool := !isNan x && !isNan y && decide (place x < place y)

/-- The bits as a signed integer. -/
def asSigned (x : Nat) : Int := if negative x then (mag x : Int) - 2 ^ 63 else mag x

/-- The units of 2^-1074 in a magnitude. -/
def units (m : Nat) : Nat :=
  if m / 2 ^ 52 = 0 then m else (2 ^ 52 + m % 2 ^ 52) * 2 ^ (m / 2 ^ 52 - 1)

/-- The units in 1. -/
def unit : Nat := 2 ^ 1074

/-- The integer nearest to `p / q`, the even one of two. -/
def nearest (p q : Nat) : Nat :=
  if 2 * (p % q) < q then p / q
  else if q < 2 * (p % q) then p / q + 1
  else p / q + p / q % 2

/-- The magnitude of the double nearest to `p / q`, for a quotient from 2^-64 up. -/
def quotient (p q : Nat) : Nat :=
  let e := Nat.log2 (p * 2 ^ 64 / q)
  (e + 958) * 2 ^ 52 + nearest (p * 2 ^ 116) (q * 2 ^ e)

def withSign (negative : Bool) (m : Nat) : Nat := if negative then 2 ^ 63 + m else m

/-- `(double) i`. -/
def ofInt (i : Int) : Nat := if i = 0 then 0 else withSign (i < 0) (quotient i.natAbs 1)

/- Rounding. -/

theorem le_nearest {p q m : Nat} (pos : 0 < q) (le : m * q ≤ p) : m ≤ nearest p q := by
  have whole : m ≤ p / q := (Nat.le_div_iff_mul_le pos).mpr le
  unfold nearest
  split
  · exact whole
  · split <;> omega

theorem nearest_le {p q m : Nat} (pos : 0 < q) (le : p ≤ m * q) : nearest p q ≤ m := by
  have whole : p / q ≤ m := Nat.div_le_of_le_mul (by rwa [Nat.mul_comm])
  have parts := Nat.div_add_mod p q
  unfold nearest
  rcases Nat.lt_or_eq_of_le whole with less | exact_
  · split
    · omega
    · split <;> omega
  · -- the quotient is `m` itself and nothing remains
    have none_ : p % q = 0 := by
      rw [exact_, Nat.mul_comm] at parts
      omega
    rw [none_, if_pos (by omega)]
    exact whole

theorem nearest_mono {p p' : Nat} (q : Nat) (le : p ≤ p') : nearest p q ≤ nearest p' q := by
  have whole : p / q ≤ p' / q := Nat.div_le_div_right le
  have parts := Nat.div_add_mod p q
  have parts' := Nat.div_add_mod p' q
  rcases Nat.lt_or_eq_of_le whole with less | same
  · unfold nearest
    split_ifs <;> omega
  · rw [same] at parts
    have remainder : p % q ≤ p' % q := by omega
    unfold nearest
    rw [same]
    split_ifs <;> omega

theorem units_lt (m : Nat) : units m < 2 ^ (52 + m / 2 ^ 52) := by
  unfold units
  split
  · rename_i small
    rw [small]
    omega
  · rename_i normal
    obtain ⟨e, is⟩ : ∃ e, m / 2 ^ 52 = e + 1 := ⟨m / 2 ^ 52 - 1, by omega⟩
    have mantissa : 2 ^ 52 + m % 2 ^ 52 < 2 ^ 53 := by omega
    rw [is, Nat.add_sub_cancel]
    calc (2 ^ 52 + m % 2 ^ 52) * 2 ^ e < 2 ^ 53 * 2 ^ e := Nat.mul_lt_mul_of_pos_right mantissa (Nat.two_pow_pos e)
      _ = 2 ^ (52 + (e + 1)) := by rw [← Nat.pow_add]; congr 1; omega

theorem le_units {m : Nat} (normal : m / 2 ^ 52 ≠ 0) : 2 ^ (51 + m / 2 ^ 52) ≤ units m := by
  obtain ⟨e, is⟩ : ∃ e, m / 2 ^ 52 = e + 1 := ⟨m / 2 ^ 52 - 1, by omega⟩
  rw [units, if_neg normal, is, Nat.add_sub_cancel]
  calc 2 ^ (51 + (e + 1)) = 2 ^ 52 * 2 ^ e := by rw [← Nat.pow_add]; congr 1; omega
    _ ≤ (2 ^ 52 + m % 2 ^ 52) * 2 ^ e := Nat.mul_le_mul_right _ (Nat.le_add_right _ _)

/-- A larger magnitude is more units. -/
theorem units_strictMono {m m' : Nat} (less : m < m') : units m < units m' := by
  rcases Nat.lt_or_eq_of_le (Nat.div_le_div_right (c := 2 ^ 52) less.le) with exponent | same
  · calc units m < 2 ^ (52 + m / 2 ^ 52) := units_lt m
      _ ≤ 2 ^ (51 + m' / 2 ^ 52) := Nat.pow_le_pow_right (by decide) (by omega)
      _ ≤ units m' := le_units (by omega)
  · unfold units
    rw [same]
    split
    · exact less
    · apply Nat.mul_lt_mul_of_pos_right _ (Nat.two_pow_pos _)
      omega

theorem units_mono {m m' : Nat} (le : m ≤ m') : units m ≤ units m' := by
  rcases Nat.lt_or_eq_of_le le with less | rfl
  · exact (units_strictMono less).le
  · exact Nat.le_refl _

theorem units_lt_iff {m m' : Nat} : units m < units m' ↔ m < m' := by
  constructor
  · intro less
    by_contra ge
    exact absurd (units_mono (Nat.le_of_not_lt ge)) (Nat.not_le_of_lt less)
  · exact units_strictMono

/-- The quotient between its powers of 2. -/
theorem log_quotient {p q : Nat} (pos : 0 < q) (large : q ≤ p * 2 ^ 64) :
    q * 2 ^ Nat.log2 (p * 2 ^ 64 / q) ≤ p * 2 ^ 64 ∧ p * 2 ^ 64 < q * 2 ^ (Nat.log2 (p * 2 ^ 64 / q) + 1) := by
  have some_ : p * 2 ^ 64 / q ≠ 0 := Nat.div_ne_zero_iff.mpr ⟨pos.ne', large⟩
  have low := Nat.log2_self_le some_
  have high := @Nat.lt_log2_self (p * 2 ^ 64 / q)
  constructor
  · rw [Nat.mul_comm q]
    exact (Nat.le_div_iff_mul_le pos).mp low
  · rw [Nat.mul_comm q]
    exact (Nat.div_lt_iff_lt_mul pos).mp high

/-- The rounded mantissa has its first bit, and may reach the next power of 2. -/
theorem mantissa_bounds {p q : Nat} (pos : 0 < q) (large : q ≤ p * 2 ^ 64) :
    2 ^ 52 ≤ nearest (p * 2 ^ 116) (q * 2 ^ Nat.log2 (p * 2 ^ 64 / q)) ∧
      nearest (p * 2 ^ 116) (q * 2 ^ Nat.log2 (p * 2 ^ 64 / q)) ≤ 2 ^ 53 := by
  obtain ⟨low, high⟩ := log_quotient pos large
  generalize Nat.log2 (p * 2 ^ 64 / q) = e at low high
  constructor
  · apply le_nearest (Nat.mul_pos pos (Nat.two_pow_pos e))
    calc 2 ^ 52 * (q * 2 ^ e) ≤ 2 ^ 52 * (p * 2 ^ 64) := Nat.mul_le_mul_left _ low
      _ = p * 2 ^ 116 := by ring
  · apply nearest_le (Nat.mul_pos pos (Nat.two_pow_pos e))
    calc p * 2 ^ 116 = 2 ^ 52 * (p * 2 ^ 64) := by ring
      _ ≤ 2 ^ 52 * (q * 2 ^ (e + 1)) := Nat.mul_le_mul_left _ high.le
      _ = 2 ^ 53 * (q * 2 ^ e) := by rw [Nat.pow_succ 2 e]; ring

theorem quotient_mono {p p' q : Nat} (pos : 0 < q) (large : q ≤ p * 2 ^ 64) (le : p ≤ p') :
    quotient p q ≤ quotient p' q := by
  have scaled : p * 2 ^ 64 ≤ p' * 2 ^ 64 := Nat.mul_le_mul_right _ le
  obtain ⟨-, most⟩ := mantissa_bounds pos large
  obtain ⟨least, -⟩ := mantissa_bounds pos (large.trans scaled)
  have exponents : Nat.log2 (p * 2 ^ 64 / q) ≤ Nat.log2 (p' * 2 ^ 64 / q) := by
    have some_ : p * 2 ^ 64 / q ≠ 0 := Nat.div_ne_zero_iff.mpr ⟨pos.ne', large⟩
    have some' : p' * 2 ^ 64 / q ≠ 0 := Nat.div_ne_zero_iff.mpr ⟨pos.ne', large.trans scaled⟩
    exact (Nat.le_log2 some').mpr ((Nat.log2_self_le some_).trans (Nat.div_le_div_right scaled))
  simp only [quotient]
  rcases Nat.lt_or_eq_of_le exponents with less | same
  · calc (Nat.log2 (p * 2 ^ 64 / q) + 958) * 2 ^ 52 + nearest (p * 2 ^ 116) (q * 2 ^ Nat.log2 (p * 2 ^ 64 / q))
        ≤ (Nat.log2 (p * 2 ^ 64 / q) + 958) * 2 ^ 52 + 2 ^ 53 := Nat.add_le_add_left most _
      _ = (Nat.log2 (p * 2 ^ 64 / q) + 1 + 958) * 2 ^ 52 + 2 ^ 52 := by ring
      _ ≤ (Nat.log2 (p' * 2 ^ 64 / q) + 958) * 2 ^ 52 + 2 ^ 52 :=
        Nat.add_le_add_right (Nat.mul_le_mul_right _ (Nat.add_le_add_right less 958)) _
      _ ≤ _ := Nat.add_le_add_left least _
  · rw [same]
    exact Nat.add_le_add_left (nearest_mono _ (Nat.mul_le_mul_right _ le)) _

/-- The powers of 2 between the units and the mantissa, with the large factor apart. -/
theorem unit_powers : ∃ a, 0 < a ∧ unit = 2 ^ 116 * a ∧ ∀ e, 2 ^ (e + 958) = 2 ^ e * a := by
  refine ⟨2 ^ 958, Nat.two_pow_pos 958, ?_, fun e => Nat.pow_add 2 e 958⟩
  rw [unit, ← Nat.pow_add]

theorem unit_pos : 0 < unit := by
  obtain ⟨a, above, scale, -⟩ := unit_powers
  rw [scale]
  exact Nat.mul_pos (Nat.two_pow_pos 116) above

/-- A magnitude that is not above the quotient is not above its double. -/
theorem le_quotient {p q m : Nat} (pos : 0 < q) (large : q ≤ p * 2 ^ 64) (le : units m * q ≤ p * unit) :
    m ≤ quotient p q := by
  obtain ⟨low, high⟩ := log_quotient pos large
  obtain ⟨least_, most_⟩ := mantissa_bounds pos large
  obtain ⟨a, above, scale, powers⟩ := unit_powers
  simp only [quotient]
  generalize Nat.log2 (p * 2 ^ 64 / q) = e at low high least_ most_
  rw [scale] at le
  clear scale
  by_contra more
  have exponent : e + 959 ≤ m / 2 ^ 52 := by
    rw [Nat.le_div_iff_mul_le (Nat.two_pow_pos 52)]
    calc (e + 959) * 2 ^ 52 = (e + 958) * 2 ^ 52 + 2 ^ 52 := Nat.succ_mul _ _
      _ ≤ (e + 958) * 2 ^ 52 + nearest (p * 2 ^ 116) (q * 2 ^ e) := Nat.add_le_add_left least_ _
      _ ≤ m := (Nat.lt_of_not_le more).le
  rcases Nat.lt_or_eq_of_le exponent with farther | same
  · -- one power of 2 above the quotient
    have normal : m / 2 ^ 52 ≠ 0 := Nat.ne_of_gt (Nat.lt_of_lt_of_le (Nat.succ_pos _) exponent)
    have enough : 2 ^ (51 + (e + 960)) ≤ units m :=
      (Nat.pow_le_pow_right (by decide) (Nat.add_le_add_left farther 51)).trans (le_units normal)
    have split : (2 : Nat) ^ (51 + (e + 960)) = 2 ^ (e + 1) * 2 ^ 52 * a := by
      have parts : 51 + (e + 960) = e + 1 + 52 + 958 := by omega
      rw [parts, powers]
      ring
    have far : p * (2 ^ 116 * a) < units m * q := by
      calc p * (2 ^ 116 * a) = p * 2 ^ 64 * (2 ^ 52 * a) := by ring
        _ < q * 2 ^ (e + 1) * (2 ^ 52 * a) := Nat.mul_lt_mul_of_pos_right high (by omega)
        _ = 2 ^ (51 + (e + 960)) * q := by rw [split]; ring
        _ ≤ units m * q := Nat.mul_le_mul_right _ enough
    omega
  · have whole : (2 ^ 52 + m % 2 ^ 52) * (q * 2 ^ e) ≤ p * 2 ^ 116 := by
      rw [units, if_neg (by omega), ← same, Nat.add_sub_assoc (by decide), powers] at le
      apply Nat.le_of_mul_le_mul_right _ above
      calc (2 ^ 52 + m % 2 ^ 52) * (q * 2 ^ e) * a = (2 ^ 52 + m % 2 ^ 52) * (2 ^ e * a) * q := by ring
        _ ≤ p * (2 ^ 116 * a) := le
        _ = p * 2 ^ 116 * a := (Nat.mul_assoc _ _ _).symm
    have least := le_nearest (Nat.mul_pos pos (Nat.two_pow_pos e)) whole
    have parts := Nat.div_add_mod m (2 ^ 52)
    rw [← same] at parts
    omega

/-- A magnitude that is not below the quotient is not below its double. -/
theorem quotient_le {p q m : Nat} (pos : 0 < q) (large : q ≤ p * 2 ^ 64) (le : p * unit ≤ units m * q) :
    quotient p q ≤ m := by
  obtain ⟨low, high⟩ := log_quotient pos large
  obtain ⟨least_, most_⟩ := mantissa_bounds pos large
  obtain ⟨a, above, scale, powers⟩ := unit_powers
  simp only [quotient]
  generalize Nat.log2 (p * 2 ^ 64 / q) = e at low high least_ most_
  rw [scale] at le
  clear scale
  by_contra below
  have exponent : m / 2 ^ 52 ≤ e + 959 := by
    apply Nat.le_of_lt_succ
    rw [Nat.div_lt_iff_lt_mul (Nat.two_pow_pos 52)]
    omega
  rcases Nat.lt_or_eq_of_le exponent with fewer | same
  · -- one power of 2 below the quotient
    have split : (2 : Nat) ^ (e + 52 + 958) = 2 ^ e * 2 ^ 52 * a := by rw [powers, Nat.pow_add 2 e]
    have far : units m * q < p * (2 ^ 116 * a) := by
      calc units m * q < 2 ^ (52 + m / 2 ^ 52) * q := Nat.mul_lt_mul_of_pos_right (units_lt m) pos
        _ ≤ 2 ^ (e + 52 + 958) * q := Nat.mul_le_mul_right _ (Nat.pow_le_pow_right (by decide) (by omega))
        _ = q * 2 ^ e * (2 ^ 52 * a) := by rw [split]; ring
        _ ≤ p * 2 ^ 64 * (2 ^ 52 * a) := Nat.mul_le_mul_right _ low
        _ = p * (2 ^ 116 * a) := by ring
    omega
  · have whole : p * 2 ^ 116 ≤ (2 ^ 52 + m % 2 ^ 52) * (q * 2 ^ e) := by
      rw [units, if_neg (by omega), same, Nat.add_sub_assoc (by decide), powers] at le
      apply Nat.le_of_mul_le_mul_right _ above
      calc p * 2 ^ 116 * a = p * (2 ^ 116 * a) := Nat.mul_assoc _ _ _
        _ ≤ (2 ^ 52 + m % 2 ^ 52) * (2 ^ e * a) * q := le
        _ = (2 ^ 52 + m % 2 ^ 52) * (q * 2 ^ e) * a := by ring
    have most := nearest_le (Nat.mul_pos pos (Nat.two_pow_pos e)) whole
    have parts := Nat.div_add_mod m (2 ^ 52)
    rw [same] at parts
    omega

/- Doubles with their signs. -/

/-- The units of 2^-1074 in a double. -/
def signedUnits (x : Nat) : Int := if negative x then -(units (mag x) : Int) else units (mag x)

/-- The magnitude of 2^k. -/
def power (k : Nat) : Nat := (k + 1023) * 2 ^ 52

theorem units_power (k : Nat) : units (power k) = 2 ^ k * unit := by
  obtain ⟨a, -, scale, powers⟩ := unit_powers
  have exponent : power k / 2 ^ 52 = k + 1023 := Nat.mul_div_cancel _ (Nat.two_pow_pos 52)
  have mantissa : power k % 2 ^ 52 = 0 := Nat.mul_mod_left _ _
  have split : k + 1022 = k + 64 + 958 := by omega
  rw [units, exponent, mantissa, if_neg (Nat.succ_ne_zero _), Nat.add_zero, Nat.add_sub_assoc (by decide), scale]
  show 2 ^ 52 * 2 ^ (k + 1022) = _
  rw [split, powers]
  ring

theorem power_le {j k : Nat} (le : j ≤ k) : power j ≤ power k :=
  Nat.mul_le_mul_right _ (Nat.add_le_add_right le 1023)

theorem units_eq_zero {m : Nat} : units m = 0 ↔ m = 0 := by
  constructor
  · intro none_
    by_contra some_
    have more := units_strictMono (Nat.pos_of_ne_zero some_)
    rw [none_] at more
    exact Nat.not_lt_zero _ more
  · intro is
    rw [is]
    rfl

theorem place_le_iff (x y : Nat) : place x ≤ place y ↔ signedUnits x ≤ signedUnits y := by
  have mono := @units_lt_iff (mag x) (mag y)
  have mono' := @units_lt_iff (mag y) (mag x)
  have zero := @units_eq_zero (mag x)
  have zero' := @units_eq_zero (mag y)
  unfold place signedUnits
  split <;> split <;> omega

theorem mag_withSign (b : Bool) {m : Nat} (small : m < 2 ^ 63) : mag (withSign b m) = m := by
  unfold mag withSign
  split
  · omega
  · exact Nat.mod_eq_of_lt small

theorem negative_withSign (b : Bool) {m : Nat} (small : m < 2 ^ 63) : negative (withSign b m) = b := by
  unfold negative withSign
  split
  · rename_i is
    have one : (2 ^ 63 + m) / 2 ^ 63 % 2 = 1 := by omega
    rw [one, is]
    rfl
  · rename_i is
    have none_ : m / 2 ^ 63 % 2 = 0 := by omega
    rw [none_]
    exact (Bool.eq_false_iff.mpr is).symm

theorem place_withSign (b : Bool) {m : Nat} (small : m < 2 ^ 63) :
    place (withSign b m) = if b then -(m : Int) else m := by
  rw [place, negative_withSign b small, mag_withSign b small]

theorem power_small {m : Nat} (le : m ≤ power 63) : m < 2 ^ 63 ∧ m < infinite := by
  have bounds : power 63 < 2 ^ 63 ∧ power 63 < infinite := by decide
  exact ⟨le.trans_lt bounds.1, le.trans_lt bounds.2⟩

/- The double nearest to an integer of 64 bits. -/

theorem quotient_int_le {n k : Nat} (pos : 0 < n) (le : n ≤ 2 ^ k) : quotient n 1 ≤ power k := by
  apply quotient_le Nat.one_pos (by omega)
  rw [units_power, Nat.mul_one]
  exact Nat.mul_le_mul_right _ le

theorem le_quotient_int {n k : Nat} (le : 2 ^ k ≤ n) : power k ≤ quotient n 1 := by
  have pos := Nat.two_pow_pos k
  apply le_quotient Nat.one_pos (by omega)
  rw [units_power, Nat.mul_one]
  exact Nat.mul_le_mul_right _ le

/-- The place of an integer's double, by the integer's sign. -/
theorem place_ofInt (n : Nat) (le : n ≤ 2 ^ 63) :
    place (ofInt n) = (if n = 0 then 0 else quotient n 1 : Nat) ∧
      place (ofInt (-n)) = -(if n = 0 then 0 else quotient n 1 : Nat) := by
  by_cases none_ : n = 0
  · have zero : place (ofInt 0) = 0 := by decide
    rw [if_pos none_, none_]
    exact ⟨zero, zero⟩
  · have small := (power_small (quotient_int_le (Nat.pos_of_ne_zero none_) le)).1
    have above : ¬ (n : Int) < 0 := by omega
    have below : -(n : Int) < 0 := by omega
    have up : ofInt n = withSign false (quotient n 1) := by
      rw [ofInt, if_neg (by omega), Int.natAbs_natCast, decide_eq_false above]
    have down : ofInt (-n) = withSign true (quotient n 1) := by
      rw [ofInt, if_neg (by omega), Int.natAbs_neg, Int.natAbs_natCast, decide_eq_true below]
    rw [up, down, place_withSign _ small, place_withSign _ small, if_neg none_, if_pos rfl,
      if_neg Bool.false_ne_true]
    exact ⟨rfl, rfl⟩

/-- An integer's double is not below a double the integer is not below, nor above one it is
not above. -/
theorem place_ofInt_bounds {i : Int} (low : -2 ^ 63 ≤ i) (high : i < 2 ^ 63) (x : Nat) :
    (signedUnits x ≤ i * unit → place x ≤ place (ofInt i)) ∧
      (i * unit ≤ signedUnits x → place (ofInt i) ≤ place x) := by
  obtain ⟨n, sign⟩ := Int.eq_nat_or_neg i
  have le : n ≤ 2 ^ 63 := by omega
  obtain ⟨up, down⟩ := place_ofInt n le
  have scaled : (n : Int) * unit = (n * unit : Nat) := by push_cast; rfl
  have zero := @units_eq_zero (mag x)
  have facts : n = 0 ∧ n * unit = 0 ∨ n ≠ 0 ∧ 0 < n * unit ∧ (units (mag x) ≤ n * unit → mag x ≤ quotient n 1) ∧
      (n * unit ≤ units (mag x) → quotient n 1 ≤ mag x) := by
    by_cases none_ : n = 0
    · exact .inl ⟨none_, by rw [none_, Nat.zero_mul]⟩
    · refine .inr ⟨none_, Nat.mul_pos (Nat.pos_of_ne_zero none_) unit_pos, ?_, ?_⟩
      · intro within
        exact le_quotient Nat.one_pos (by omega) (by rwa [Nat.mul_one])
      · intro within
        exact quotient_le Nat.one_pos (by omega) (by rwa [Nat.mul_one])
  rcases sign with rfl | rfl
  · rw [up, scaled]
    generalize n * unit = t at facts
    unfold place signedUnits
    split <;> split <;> omega
  · rw [down, Int.neg_mul, scaled]
    generalize n * unit = t at facts
    unfold place signedUnits
    split <;> split <;> omega

end Double

end Cocolog.Lib
