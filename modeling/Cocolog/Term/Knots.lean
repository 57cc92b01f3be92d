import Cocolog.Term.Number

/-! Where the order of numbers goes round. Every rule of `coco_num_order` is an order on
its own; three numbers that meet under different rules may still be each before the next.
It takes a rational and a float, and a rounding that steps across the third. -/

set_option linter.all false

namespace Cocolog.Term

open Cocolog.Lib Cocolog.Lib.Double

namespace Number

/-- Three numbers, each before the next and the last before the first. -/
inductive Knot : Number → Number → Number → Prop
  /-- An integer, a rational above it, and the double the integer is rounded to above both. -/
  | integer {i n m : Int} {d e f : Nat} (fraction : doubleRat f = some (m, e)) (above : i * d < n)
      (below : n * e < m * d) (rounded : place (ofInt i) = place f) : Knot (int i) (rat n d) (flt f)
  /-- Two rationals whose doubles are the other way round, and a double between these that
  is no fraction of 64 bits. -/
  | rationals {n n' : Int} {d d' f : Nat} (apart : doubleRat f = none) (number : isNan f = false)
      (above : n * d' < n' * d) (after : place (ofRat n' d') < place f) (before : place f ≤ place (ofRat n d)) :
      Knot (rat n d) (rat n' d') (flt f)
  /-- A rational whose double lies past two others, the nearer of which is a fraction of
  64 bits and the farther is not. -/
  | up {n m : Int} {d e f g : Nat} (fraction : doubleRat g = some (m, e)) (apart : doubleRat f = none)
      (number : isNan f = false) (above : n * e < m * d) (next : place g < place f)
      (before : place f ≤ place (ofRat n d)) : Knot (rat n d) (flt g) (flt f)
  | down {n m : Int} {d e f g : Nat} (fraction : doubleRat g = some (m, e)) (apart : doubleRat f = none)
      (number : isNan f = false) (next : place f < place g) (below : m * d ≤ n * e)
      (after : place (ofRat n d) < place f) : Knot (flt f) (flt g) (rat n d)

/-- The three are in a circle. -/
def Round (x y z : Number) : Prop := order x y = .lt ∧ order y z = .lt ∧ order z x = .lt

theorem Round.turn {x y z : Number} (round : Round x y z) : Round y z x := ⟨round.2.1, round.2.2, round.1⟩

/-- Fractions do not go round. -/
theorem fractions {a b c p q r : Int} (pos : 0 < r) (left : a * q < b * p) (hp : 0 < p) (hq : 0 < q)
    (middle : b * r ≤ c * q) (right : c * p ≤ a * r) : False := by
  have one : a * q * r < b * p * r := Int.mul_lt_mul_of_pos_right left pos
  have two : b * r * p ≤ c * q * p := Int.mul_le_mul_of_nonneg_right middle hp.le
  have three : c * p * q ≤ a * r * q := Int.mul_le_mul_of_nonneg_right right hq.le
  linarith [one, two, three, Int.mul_right_comm a q r, Int.mul_right_comm b p r, Int.mul_right_comm c q p]

theorem number_of_fraction {f : Nat} {m : Int} {e : Nat} (is : doubleRat f = some (m, e)) : isNan f = false := by
  have finite := (doubleRat_some is).2.2
  exact decide_eq_false (by omega)

/-- A float and a number it is compared with as a double. -/
theorem rank_le {f : Nat} (number : isNan f = false) (p : Int) : rank f ≤ 2 * p ↔ place f ≤ p := by
  have iff := (rank_number number).2 p
  omega

/-- Fractions of 64 bits are ordered as the doubles are. -/
theorem fraction_le {f g : Nat} {m m' : Int} {e e' : Nat} (left : doubleRat f = some (m, e))
    (right : doubleRat g = some (m', e')) (le : place f ≤ place g) : m * e' ≤ m' * e := by
  obtain ⟨pos, is, -⟩ := doubleRat_some left
  obtain ⟨pos', is', -⟩ := doubleRat_some right
  have units_ := (place_le_iff f g).mp le
  have scale : (0 : Int) < unit := Int.natCast_pos.mpr unit_pos
  have both : (0 : Int) ≤ e * e' := by positivity
  have scaled : m * e' * unit ≤ m' * e * unit := by
    calc m * e' * unit = m * unit * e' := by ring
      _ = signedUnits f * (e * e') := by rw [is]; ring
      _ ≤ signedUnits g * (e * e') := Int.mul_le_mul_of_nonneg_right units_ both
      _ = m' * e * unit := by rw [Int.mul_right_comm, is']; ring
  exact Int.le_of_mul_le_mul_right scaled scale

/- Integers and their doubles. -/

theorem place_int_mono {i j : Int} (low : -2 ^ 63 ≤ i) (le : i ≤ j) (high : j < 2 ^ 63) :
    place (ofInt i) ≤ place (ofInt j) := by
  have grows : ∀ {m n : Nat}, 0 < m → m ≤ n → quotient m 1 ≤ quotient n 1 :=
    fun pos le => quotient_mono Nat.one_pos (by omega) le
  obtain ⟨m, left⟩ := Int.eq_nat_or_neg i
  obtain ⟨n, right⟩ := Int.eq_nat_or_neg j
  obtain ⟨up, down⟩ := place_ofInt m (by omega)
  obtain ⟨up', down'⟩ := place_ofInt n (by omega)
  rcases left with rfl | rfl
  · rcases right with rfl | rfl
    · rw [up, up']
      by_cases none_ : m = 0
      · rw [if_pos none_]
        omega
      · have mono := grows (Nat.pos_of_ne_zero none_) (by omega : m ≤ n)
        rw [if_neg none_, if_neg (by omega)]
        omega
    · have both : m = 0 ∧ n = 0 := by omega
      rw [up, down', if_pos both.1, if_pos both.2]
      omega
  · rcases right with rfl | rfl
    · rw [down, up']
      omega
    · rw [down, down']
      by_cases none_ : n = 0
      · rw [if_pos none_]
        omega
      · have mono := grows (Nat.pos_of_ne_zero none_) (by omega : n ≤ m)
        rw [if_neg none_, if_neg (by omega)]
        omega

/-- An integer's double is within the powers of 2 the integer is within. -/
theorem place_int {i : Int} (low : -2 ^ 63 ≤ i) (high : i < 2 ^ 63) :
    (i ≤ 0 → place (ofInt i) ≤ 0) ∧ (0 ≤ i → 0 ≤ place (ofInt i)) ∧ (1 ≤ i → power 0 ≤ place (ofInt i)) ∧
      (i ≤ -1 → place (ofInt i) ≤ -(power 0 : Nat)) ∧ (i ≤ 2 ^ 62 → place (ofInt i) ≤ power 62) ∧
      (-2 ^ 62 ≤ i → -(power 62 : Nat) ≤ place (ofInt i)) := by
  obtain ⟨n, sign⟩ := Int.eq_nat_or_neg i
  have le : n ≤ 2 ^ 63 := by omega
  obtain ⟨up, down⟩ := place_ofInt n le
  have least : 1 ≤ n → power 0 ≤ quotient n 1 := fun some_ => le_quotient_int (k := 0) some_
  have most : 1 ≤ n → n ≤ 2 ^ 62 → quotient n 1 ≤ power 62 := fun some_ within => quotient_int_le some_ within
  generalize quotient n 1 = q at up down least most
  generalize power 0 = p at least
  generalize power 62 = p' at most
  rcases sign with rfl | rfl
  · rw [up]
    split <;> omega
  · rw [down]
    split <;> omega

/-- A rational's double, likewise. -/
theorem place_rat {n : Int} {d : Nat} (proper : (rat n d).Proper) :
    (0 ≤ n → 0 ≤ place (ofRat n d)) ∧ (n ≤ 0 → place (ofRat n d) ≤ 0) ∧
      ((d : Int) ≤ n → power 0 ≤ place (ofRat n d)) ∧ (n ≤ -d → place (ofRat n d) ≤ -(power 0 : Nat)) ∧
      place (ofRat n d) ≤ power 62 ∧ -(power 62 : Nat) ≤ place (ofRat n d) := by
  have some_ : n ≠ 0 := by
    rintro rfl
    obtain ⟨above, -, -, -, coprime⟩ := proper
    rw [Int.natAbs_zero, Nat.coprime_zero_left] at coprime
    omega
  have above := proper.1
  obtain ⟨m, le, least, is⟩ := ofRat_spec proper
  have fits : m < 2 ^ 63 := (power_small (le.trans (power_le (by decide)))).1
  rw [is, place_withSign _ fits]
  generalize power 0 = p at least
  generalize power 62 = p' at le
  simp only [decide_eq_true_eq]
  split <;> omega

/-- The float an integer is before is not below it, and one it is after is not above. -/
theorem place_int_fraction {i : Int} (low : -2 ^ 63 ≤ i) (high : i < 2 ^ 63) {f : Nat} {m : Int} {e : Nat}
    (is : doubleRat f = some (m, e)) :
    (m ≤ i * e → place f ≤ place (ofInt i)) ∧ (i * e ≤ m → place (ofInt i) ≤ place f) := by
  obtain ⟨pos, value, -⟩ := doubleRat_some is
  obtain ⟨up, down⟩ := place_ofInt_bounds low high f
  have scale : (0 : Int) ≤ unit := Int.natCast_nonneg _
  have pos' : (0 : Int) < e := Int.natCast_pos.mpr pos
  constructor
  · intro le
    apply up
    apply Int.le_of_mul_le_mul_right _ pos'
    calc signedUnits f * e = m * unit := value.symm
      _ ≤ i * e * unit := Int.mul_le_mul_of_nonneg_right le scale
      _ = i * unit * e := by ring
  · intro le
    apply down
    apply Int.le_of_mul_le_mul_right _ pos'
    calc i * unit * e = i * e * unit := by ring
      _ ≤ m * unit := Int.mul_le_mul_of_nonneg_right le scale
      _ = signedUnits f * e := value

/- Three numbers of each kind. -/

theorem cross_int (i : Int) (f : Nat) : cross (int i) (flt f) = none := rfl

theorem cross_rat {n : Int} {d f : Nat} (apart : doubleRat f = none) : cross (rat n d) (flt f) = none := by
  simp only [cross, ratSide, apart, ite_self]

theorem not_round_exact {x y z : Number} (hx : x.Proper) (hy : y.Proper) (hz : z.Proper)
    (plain : x.isFlt = false ∧ y.isFlt = false ∧ z.isFlt = false) : ¬ Round x y z := by
  -- each is the fraction of its sides, an integer over 1
  have fraction : ∀ {x : Number}, x.Proper → x.isFlt = false → ∃ n d, x.ratSide = some (n, d) ∧ 0 < d := by
    intro x proper plain
    cases x with
    | int i => exact ⟨i, 1, rfl, Nat.one_pos⟩
    | flt f => cases plain
    | rat n d => exact ⟨n, d, rfl, by have := proper.1; omega⟩
  have exact_ : ∀ {x y : Number}, x.isFlt = false → y.isFlt = false → ∀ {n n' : Int} {d d' : Nat},
      x.ratSide = some (n, d) → y.ratSide = some (n', d') → order x y = .lt → n * d' < n' * d := by
    intro x y plain plain' n n' d d' left right before
    cases x with
    | flt f => cases plain
    | int i =>
      cases left
      cases y with
      | flt f => cases plain'
      | int j =>
        cases right
        have less := (lt_int_int _ _).mp before
        simpa using less
      | rat m e =>
        cases right
        have less := (lt_int_rat _ _ _).mp before
        simpa using less
    | rat m e =>
      cases left
      cases y with
      | flt f => cases plain'
      | int j =>
        cases right
        have less := (lt_rat_int _ _ _).mp before
        simpa using less
      | rat m' e' =>
        cases right
        exact (lt_rat_rat _ _ _ _).mp before
  rintro ⟨one, two, three⟩
  obtain ⟨a, p, left, pos⟩ := fraction hx plain.1
  obtain ⟨b, q, middle, pos'⟩ := fraction hy plain.2.1
  obtain ⟨c, r, right, pos''⟩ := fraction hz plain.2.2
  exact fractions (Int.natCast_pos.mpr pos'') (exact_ plain.1 plain.2.1 left middle one)
    (Int.natCast_pos.mpr pos) (Int.natCast_pos.mpr pos') (exact_ plain.2.1 plain.2.2 middle right two).le
    (exact_ plain.2.2 plain.1 right left three).le

theorem not_round_floats (f g k : Nat) : ¬ Round (flt f) (flt g) (flt k) := by
  rintro ⟨one, two, three⟩
  rw [lt_flt_flt] at one two three
  omega

theorem not_round_ints {i j : Int} {f : Nat} (hi : (int i).Proper) (hj : (int j).Proper) :
    ¬ Round (int i) (int j) (flt f) := by
  rintro ⟨one, two, three⟩
  rw [lt_int_int] at one
  rw [(lt_value hj rfl (cross_int j f)).1] at two
  rw [(lt_value hi rfl (cross_int i f)).2] at three
  have mono := place_int_mono hi.1 one.le hj.2
  simp only [value] at two three
  omega

theorem not_round_int_floats {i : Int} {f g : Nat} (hi : (int i).Proper) : ¬ Round (int i) (flt f) (flt g) := by
  rintro ⟨one, two, three⟩
  rw [(lt_value hi rfl (cross_int i f)).1] at one
  rw [lt_flt_flt] at two
  rw [(lt_value hi rfl (cross_int i g)).2] at three
  omega

/-- A double that is no fraction is a NaN, far out, or small. -/
theorem place_apart {f : Nat} (apart : doubleRat f = none) :
    (power 63 : Nat) ≤ place f ∨ place f ≤ -(power 63 : Nat) ∨ 0 < place f ∧ place f < power 0 ∨
      place f < 0 ∧ -(power 0 : Nat) < place f := by
  have size := doubleRat_none apart
  generalize power 63 = p at size
  generalize power 0 = p' at size
  unfold place
  split <;> omega

theorem power_order : 0 < power 0 ∧ power 62 < power 63 := by decide

theorem times_bounds (i : Int) {d : Nat} (above : 1 < d) :
    (0 ≤ i → 0 ≤ i * d) ∧ (1 ≤ i → d ≤ i * d ∧ 2 * i ≤ i * d) ∧ (i ≤ 0 → i * d ≤ 0) ∧
      (i ≤ -1 → i * d ≤ -d ∧ i * d ≤ 2 * i) := by
  have two : (2 : Int) ≤ d := by omega
  refine ⟨fun le => by positivity, fun le => ⟨?_, ?_⟩, fun le => ?_, fun le => ⟨?_, ?_⟩⟩ <;> nlinarith

/-- A NaN is before every number. -/
theorem number_of_before {x : Number} {f : Nat} (proper : x.Proper) (plain : x.isFlt = false)
    (before : 2 * place x.value < rank f) : isNan f = false := by
  by_contra nan
  have low := rank_nan (Bool.not_eq_false _ ▸ nan : isNan f = true)
  have bounds := place_bounds (isNan_value proper plain)
  have small : (infinite : Int) < 2 ^ 63 := by decide
  omega

theorem round_int_rat {i n : Int} {d f : Nat} (hi : (int i).Proper) (hr : (rat n d).Proper)
    (round : Round (int i) (rat n d) (flt f)) : Knot (int i) (rat n d) (flt f) := by
  obtain ⟨one, two, three⟩ := round
  rw [lt_int_rat] at one
  rw [(lt_value hi rfl (cross_int i f)).2] at three
  simp only [value] at three
  have pos : (0 : Int) < d := by have := hr.1; omega
  cases is : doubleRat f with
  | some q =>
    obtain ⟨m, e⟩ := q
    rw [(lt_rat_fraction is).1] at two
    rw [rank_le (number_of_fraction is)] at three
    have pos' : (0 : Int) < e := Int.natCast_pos.mpr (doubleRat_some is).1
    have below : i * e ≤ m := by
      have more : i * e * d < m * d := by
        calc i * e * d = i * d * e := by ring
          _ < n * e := Int.mul_lt_mul_of_pos_right one pos'
          _ < m * d := two
      exact (Int.lt_of_mul_lt_mul_right more pos.le).le
    exact .integer is one two (Int.le_antisymm ((place_int_fraction hi.1 hi.2 is).2 below) three)
  | none =>
    exfalso
    rw [(lt_value hr rfl (cross_rat is)).1] at two
    have number := number_of_before hr rfl two
    rw [rank_le number] at three
    rw [← (rank_number number).2] at two
    simp only [value] at two
    have ints := place_int hi.1 hi.2
    have rats := place_rat hr
    have times := times_bounds i hr.1
    have far := place_apart is
    have powers := power_order
    have high := hr.2.2.2.1
    generalize power 0 = p at *
    generalize power 62 = p' at *
    generalize power 63 = p'' at *
    generalize i * (d : Int) = t at *
    omega

theorem not_round_int_flt_rat {i n : Int} {d f : Nat} (hi : (int i).Proper) (hr : (rat n d).Proper) :
    ¬ Round (int i) (flt f) (rat n d) := by
  rintro ⟨one, two, three⟩
  rw [(lt_value hi rfl (cross_int i f)).1] at one
  rw [lt_rat_int] at three
  have number := number_of_before hi rfl one
  rw [← (rank_number number).2] at one
  simp only [value] at one
  have pos : (0 : Int) < d := by have := hr.1; omega
  cases is : doubleRat f with
  | some q =>
    obtain ⟨m, e⟩ := q
    rw [(lt_rat_fraction is).2] at two
    have pos' : (0 : Int) < e := Int.natCast_pos.mpr (doubleRat_some is).1
    have above : m ≤ i * e := by
      have more : m * d < i * e * d := by
        calc m * d ≤ n * e := two
          _ < i * d * e := Int.mul_lt_mul_of_pos_right three pos'
          _ = i * e * d := by ring
      exact (Int.lt_of_mul_lt_mul_right more pos.le).le
    have back := (place_int_fraction hi.1 hi.2 is).1 above
    omega
  | none =>
    rw [(lt_value hr rfl (cross_rat is)).2, rank_le number] at two
    simp only [value] at two
    have ints := place_int hi.1 hi.2
    have rats := place_rat hr
    have times := times_bounds i hr.1
    have far := place_apart is
    have powers := power_order
    have low := hr.2.2.1
    generalize power 0 = p at *
    generalize power 62 = p' at *
    generalize power 63 = p'' at *
    generalize i * (d : Int) = t at *
    omega

theorem round_rats {n n' : Int} {d d' f : Nat} (hr : (rat n d).Proper) (hr' : (rat n' d').Proper)
    (round : Round (rat n d) (rat n' d') (flt f)) : Knot (rat n d) (rat n' d') (flt f) := by
  obtain ⟨one, two, three⟩ := round
  rw [lt_rat_rat] at one
  have pos : (0 : Int) < d := by have := hr.1; omega
  have pos' : (0 : Int) < d' := by have := hr'.1; omega
  cases is : doubleRat f with
  | some q =>
    obtain ⟨m, e⟩ := q
    rw [(lt_rat_fraction is).1] at two
    rw [(lt_rat_fraction is).2] at three
    exact (fractions (Int.natCast_pos.mpr (doubleRat_some is).1) one pos pos' two.le three).elim
  | none =>
    rw [(lt_value hr' rfl (cross_rat is)).1] at two
    rw [(lt_value hr rfl (cross_rat is)).2] at three
    have number := number_of_before hr' rfl two
    rw [← (rank_number number).2] at two
    rw [rank_le number] at three
    exact .rationals is number one two three

/-- Doubles of which one is a fraction and one is not stand apart. -/
theorem place_ne {f g : Nat} {q : Int × Nat} (fraction : doubleRat g = some q) (apart : doubleRat f = none) :
    place g ≠ place f := by
  intro same
  have one : mag g = mag f := by
    unfold place at same
    split at same <;> split at same <;> omega
  have parts : fields g = fields f := by rw [fields, fields, one]
  unfold doubleRat at fraction apart
  rw [one, parts] at fraction
  generalize strip 64 (fields f).1 (fields f).2 = stripped at fraction apart
  obtain ⟨man, e2⟩ := stripped
  simp only at fraction apart
  split_ifs at fraction apart

theorem place_le_of_rank {f g : Nat} (left : isNan f = false) (right : isNan g = false) (less : rank f < rank g) :
    place f ≤ place g := by
  have high : rank g ≤ 2 * place g := (rank_le right _).mpr (Int.le_refl _)
  exact (rank_le left _).mp (by omega)

theorem round_floats {n : Int} {d f g : Nat} (hr : (rat n d).Proper) (round : Round (rat n d) (flt f) (flt g)) :
    Knot (rat n d) (flt f) (flt g) ∨ Knot (flt f) (flt g) (rat n d) := by
  obtain ⟨one, two, three⟩ := round
  rw [lt_flt_flt] at two
  have pos : (0 : Int) < d := by have := hr.1; omega
  cases left : doubleRat f with
  | some q =>
    obtain ⟨m, e⟩ := q
    have number := number_of_fraction left
    rw [(lt_rat_fraction left).1] at one
    have pos' : (0 : Int) < e := Int.natCast_pos.mpr (doubleRat_some left).1
    have number' : isNan g = false := by
      by_contra nan
      have low := rank_nan (Bool.not_eq_false _ ▸ nan : isNan g = true)
      have high := (rank_number number).1
      omega
    have le := place_le_of_rank number number' two
    cases right : doubleRat g with
    | some q =>
      obtain ⟨m', e'⟩ := q
      rw [(lt_rat_fraction right).2] at three
      have pos'' : (0 : Int) < e' := Int.natCast_pos.mpr (doubleRat_some right).1
      exact (fractions pos'' one pos pos' (fraction_le left right le) three).elim
    | none =>
      rw [(lt_value hr rfl (cross_rat right)).2, rank_le number'] at three
      have off := place_ne left right
      exact .inl (.up left right number' one (by omega) three)
  | none =>
    rw [(lt_value hr rfl (cross_rat left)).1] at one
    have number := number_of_before hr rfl one
    cases right : doubleRat g with
    | some q =>
      obtain ⟨m', e'⟩ := q
      rw [(lt_rat_fraction right).2] at three
      rw [← (rank_number number).2] at one
      have le := place_le_of_rank number (number_of_fraction right) two
      have off := place_ne right left
      exact .inr (.down right left number (by omega) three one)
    | none =>
      rw [(lt_value hr rfl (cross_rat right)).2] at three
      omega

/-- Each of a knot's numbers is before the next. -/
theorem Knot.round {x y z : Number} (knot : Knot x y z) (hx : x.Proper) (hy : y.Proper) (hz : z.Proper) :
    Round x y z := by
  cases knot with
  | integer fraction above below rounded =>
    refine ⟨(lt_int_rat _ _ _).mpr above, (lt_rat_fraction fraction).1.mpr below, ?_⟩
    rw [(lt_value hx rfl (cross_int _ _)).2, rank_le (number_of_fraction fraction)]
    exact rounded.ge
  | rationals apart number above after before =>
    refine ⟨(lt_rat_rat _ _ _ _).mpr above, ?_, ?_⟩
    · rw [(lt_value hy rfl (cross_rat apart)).1, ← (rank_number number).2]
      exact after
    · rw [(lt_value hx rfl (cross_rat apart)).2, rank_le number]
      exact before
  | @up n m d e f g fraction apart number above next before =>
    refine ⟨(lt_rat_fraction fraction).1.mpr above, ?_, ?_⟩
    · have high : rank g ≤ 2 * place g := (rank_le (number_of_fraction fraction) _).mpr (Int.le_refl _)
      rw [lt_flt_flt]
      exact Int.lt_of_le_of_lt high (((rank_number number).2 _).mp next)
    · rw [(lt_value hx rfl (cross_rat apart)).2, rank_le number]
      exact before
  | @down n m d e f g fraction apart number next below after =>
    refine ⟨?_, (lt_rat_fraction fraction).2.mpr below, ?_⟩
    · have high : rank f ≤ 2 * place f := (rank_le number _).mpr (Int.le_refl _)
      rw [lt_flt_flt]
      exact Int.lt_of_le_of_lt high (((rank_number (number_of_fraction fraction)).2 _).mp next)
    · rw [(lt_value hz rfl (cross_rat apart)).1, ← (rank_number number).2]
      exact after

/-- Numbers go round exactly where they make a knot, from whichever of them it starts. -/
theorem round_iff {x y z : Number} (hx : x.Proper) (hy : y.Proper) (hz : z.Proper) :
    Round x y z ↔ Knot x y z ∨ Knot y z x ∨ Knot z x y := by
  constructor
  · intro round
    cases x with
    | int i =>
      cases y with
      | int j =>
        cases z with
        | flt f => exact absurd round (not_round_ints hx hy)
        | _ => exact absurd round (not_round_exact hx hy hz ⟨rfl, rfl, rfl⟩)
      | flt f =>
        cases z with
        | int j => exact absurd round.turn.turn (not_round_ints hz hx)
        | flt g => exact absurd round (not_round_int_floats hx)
        | rat n d => exact absurd round (not_round_int_flt_rat hx hz)
      | rat n d =>
        cases z with
        | flt f => exact .inl (round_int_rat hx hy round)
        | _ => exact absurd round (not_round_exact hx hy hz ⟨rfl, rfl, rfl⟩)
    | flt f =>
      cases y with
      | int i =>
        cases z with
        | int j => exact absurd round.turn (not_round_ints hy hz)
        | flt g => exact absurd round.turn (not_round_int_floats hy)
        | rat n d => exact .inr (.inl (round_int_rat hy hz round.turn))
      | flt g =>
        cases z with
        | int i => exact absurd round.turn.turn (not_round_int_floats hz)
        | flt k => exact absurd round (not_round_floats f g k)
        | rat n d =>
          rcases round_floats hz round.turn.turn with knot | knot
          · exact .inr (.inr knot)
          · exact .inl knot
      | rat n d =>
        cases z with
        | int i => exact absurd round.turn.turn (not_round_int_flt_rat hz hy)
        | flt g =>
          rcases round_floats hy round.turn with knot | knot
          · exact .inr (.inl knot)
          · exact .inr (.inr knot)
        | rat n' d' => exact .inr (.inl (round_rats hy hz round.turn))
    | rat n d =>
      cases y with
      | int i =>
        cases z with
        | flt f => exact absurd round.turn (not_round_int_flt_rat hy hx)
        | _ => exact absurd round (not_round_exact hx hy hz ⟨rfl, rfl, rfl⟩)
      | flt f =>
        cases z with
        | int i => exact .inr (.inr (round_int_rat hz hx round.turn.turn))
        | flt g =>
          rcases round_floats hx round with knot | knot
          · exact .inl knot
          · exact .inr (.inl knot)
        | rat n' d' => exact .inr (.inr (round_rats hz hx round.turn.turn))
      | rat n' d' =>
        cases z with
        | flt f => exact .inl (round_rats hx hy round)
        | _ => exact absurd round (not_round_exact hx hy hz ⟨rfl, rfl, rfl⟩)
  · rintro (knot | knot | knot)
    · exact knot.round hx hy hz
    · exact (knot.round hy hz hx).turn.turn
    · exact (knot.round hz hx hy).turn

end Number

end Cocolog.Term
