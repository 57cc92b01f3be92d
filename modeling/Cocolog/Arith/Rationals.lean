import Cocolog.Arith.Integers
import Mathlib.Data.Rat.Lemmas
import Mathlib.Data.Rat.Floor
import Mathlib.Tactic.FieldSimp

/-! Rational arithmetic is exact: a function answers its value as an integer or as a pair in
lowest terms, where the two parts fit. -/

set_option linter.all false

namespace Cocolog.Arith

open Cocolog.Lib.Words

namespace Value

/-- An integer, or a pair in lowest terms that is none. -/
def Canonical : Value → Prop
  | int _ => True
  | rat n d => 2 ≤ d.toInt ∧ n.toInt.natAbs.Coprime d.toInt.natAbs
  | flt _ => False

/-- The number a value stands for. -/
def rational : Value → ℚ
  | int v => v.toInt
  | rat n d => n.toInt / d.toInt
  | flt _ => 0

end Value

/-- A rational number in its parts, or `int_overflow`. -/
def exactRat (q : ℚ) : Answer :=
  if Fits q.num ∧ q.den < 2 ^ 63 then ratResult (Int64.ofInt q.num) (Int64.ofInt q.den) else .error .intOverflow

variable {n d : Int}

/-- A pair in lowest terms is answered as it is. -/
theorem exactRat_of_coprime (pos : 0 < d) (coprime : n.natAbs.Coprime d.natAbs) :
    exactRat (n / d) = if Fits n ∧ d < 2 ^ 63 then ratResult (Int64.ofInt n) (Int64.ofInt d) else .error .intOverflow := by
  have num : ((n : ℚ) / d).num = n := Rat.num_div_eq_of_coprime pos coprime
  have den : (((n : ℚ) / d).den : Int) = d := Rat.den_div_eq_of_coprime pos coprime
  have same : ((n : ℚ) / d).den < 2 ^ 63 ↔ d < 2 ^ 63 := by omega
  rw [exactRat, num, den]
  exact if_congr (and_congr Iff.rfl same) rfl rfl

theorem exactRat_int (z : Int) : exactRat z = exact z := by
  have parts := @exactRat_of_coprime z 1 Int.one_pos (Nat.coprime_one_right _)
  rw [Int.cast_one, div_one] at parts
  rw [parts, exact, narrowed]
  by_cases fits : Fits z
  · rw [if_pos ⟨fits, by decide⟩, if_pos fits]
    rfl
  · rw [if_neg (fun both => fits both.1), if_neg fits]
    rfl

/-- What is answered is the number, in canonical form. -/
theorem exactRat_ok {q : ℚ} {v : Value} (is : exactRat q = .ok v) : v.Canonical ∧ v.rational = q := by
  rw [exactRat] at is
  split at is
  · rename_i fits
    have whole_ : Fits (q.den : Int) := by unfold Fits; omega
    have one : (1 : Int64).toInt = 1 := rfl
    have numer := toInt_ofInt fits.1
    have denom := toInt_ofInt whole_
    rw [ratResult] at is
    split at is
    · rename_i integral
      cases is
      have den : q.den = 1 := by
        rw [integral, one] at denom
        omega
      refine ⟨trivial, ?_⟩
      show ((Int64.ofInt q.num).toInt : ℚ) = q
      rw [numer]
      exact Rat.coe_int_num_of_den_eq_one den
    · rename_i proper
      cases is
      have pos := q.den_pos
      have other : q.den ≠ 1 := fun is => proper (by rw [is]; rfl)
      refine ⟨⟨?_, ?_⟩, ?_⟩
      · rw [denom]
        omega
      · rw [numer, denom]
        exact q.reduced
      · show ((Int64.ofInt q.num).toInt : ℚ) / (Int64.ofInt q.den).toInt = q
        rw [numer, denom]
        exact Rat.num_div_den q
  · cases is

/- Packing. -/

theorem i128GcdLoop_eq (a b : Int) (ha : 0 ≤ a) (hb : 0 ≤ b) : i128GcdLoop a b = Int.gcd a b := by
  induction a, b using i128GcdLoop.induct with
  | case1 a =>
    rw [i128GcdLoop, if_pos rfl, Int.gcd_zero_right]
    omega
  | case2 a b some_ ih =>
    rw [i128GcdLoop, if_neg some_, ih hb (Int.tmod_nonneg b ha), Int.gcd, Int.gcd, Int.natAbs_tmod, Nat.gcd_comm,
      ← Nat.gcd_rec, Nat.gcd_comm]

theorem i128Gcd_eq (low : -2 ^ 127 < n) (low' : -2 ^ 127 < d) (high : n < 2 ^ 127) (high' : d < 2 ^ 127) :
    i128Gcd n d = Int.gcd n d := by
  have abs (z : Int) (low : -2 ^ 127 < z) (high : z < 2 ^ 127) : (if z < 0 then wrap128 (0 - z) else z) = z.natAbs := by
    split
    · rw [wrap128_of_lt] <;> omega
    · omega
  rw [i128Gcd, abs n low high, abs d low' high', i128GcdLoop_eq _ _ (by omega) (by omega)]
  rfl

theorem i128Fits_iff : i128Fits n d = true ↔ Fits n ∧ 1 ≤ d ∧ d < 2 ^ 63 := by
  unfold Fits
  simp only [i128Fits, Bool.and_eq_true, decide_eq_true_eq]
  omega

/-- What is left of a pair once what the two have in common is taken out. -/
theorem reduced (pos : 0 < d) :
    0 < d.tdiv (Int.gcd n d) ∧ (n.tdiv (Int.gcd n d)).natAbs.Coprime (d.tdiv (Int.gcd n d)).natAbs ∧
      ((n.tdiv (Int.gcd n d) : Int) : ℚ) / (d.tdiv (Int.gcd n d) : Int) = n / d := by
  have common : 0 < Int.gcd n d := Int.gcd_pos_of_ne_zero_right n (by omega)
  have left : n.tdiv (Int.gcd n d) * Int.gcd n d = n := Int.tdiv_mul_cancel (Int.gcd_dvd_left n d)
  have right : d.tdiv (Int.gcd n d) * Int.gcd n d = d := Int.tdiv_mul_cancel (Int.gcd_dvd_right n d)
  have above : 0 < d.tdiv (Int.gcd n d) := by
    by_contra low
    nlinarith
  refine ⟨above, ?_, ?_⟩
  · rw [Int.natAbs_tdiv, Int.natAbs_tdiv, Int.natAbs_natCast]
    exact Nat.coprime_div_gcd_div_gcd common
  · have gcd : (Int.gcd n d : ℚ) ≠ 0 := by exact_mod_cast common.ne'
    have den : ((d.tdiv (Int.gcd n d) : Int) : ℚ) ≠ 0 := by exact_mod_cast above.ne'
    have whole_ : (d : ℚ) ≠ 0 := by exact_mod_cast pos.ne'
    rw [div_eq_div_iff den whole_]
    have left' : ((n.tdiv (Int.gcd n d) : Int) : ℚ) * Int.gcd n d = n := by exact_mod_cast left
    have right' : ((d.tdiv (Int.gcd n d) : Int) : ℚ) * Int.gcd n d = d := by exact_mod_cast right
    rw [← left', ← right']
    ring

/-- `coco_rat_pack` of a pair within 128 bits is the number the pair is. -/
theorem packed_ratPack (some_ : d ≠ 0) (low : -2 ^ 127 < n) (high : n < 2 ^ 127) (low' : -2 ^ 127 < d)
    (high' : d < 2 ^ 127) : packed (ratPack n d) = exactRat (n / d) := by
  -- the sign goes to the numerator, which changes no quotient
  obtain ⟨n', d', signs, pos, same, inside, inside'⟩ : ∃ n' d' : Int,
      ((if d < 0 then wrap128 (0 - n) else n) = n' ∧ (if d < 0 then wrap128 (0 - d) else d) = d') ∧ 0 < d' ∧
        (n : ℚ) / d = n' / d' ∧ (-2 ^ 127 < n' ∧ n' < 2 ^ 127) ∧ (-2 ^ 127 < d' ∧ d' < 2 ^ 127) := by
    by_cases neg : d < 0
    · refine ⟨-n, -d, ⟨?_, ?_⟩, by omega, by push_cast; rw [neg_div_neg_eq], by omega, by omega⟩
      · rw [if_pos neg, Int.zero_sub, wrap128_of_lt] <;> omega
      · rw [if_pos neg, Int.zero_sub, wrap128_of_lt] <;> omega
    · exact ⟨n, d, ⟨if_neg neg, if_neg neg⟩, by omega, rfl, by omega, by omega⟩
  have gcd := i128Gcd_eq inside.1 inside'.1 inside.2 inside'.2
  have common : (Int.gcd n' d' : Int) ≠ 0 := by
    have := Int.gcd_pos_of_ne_zero_right n' (show d' ≠ 0 by omega)
    omega
  obtain ⟨above, coprime, quotient⟩ := @reduced n' d' pos
  rw [same, ← quotient, exactRat_of_coprime above coprime, ratPack, if_neg some_]
  dsimp only
  rw [signs.1, signs.2, gcd, if_pos common, if_pos common]
  by_cases fits : Fits (n'.tdiv (Int.gcd n' d')) ∧ d'.tdiv (Int.gcd n' d') < 2 ^ 63
  · rw [if_pos (i128Fits_iff.mpr ⟨fits.1, by omega, fits.2⟩), if_pos fits]
    rfl
  · rw [if_neg (fun is => fits ⟨(i128Fits_iff.mp is).1, (i128Fits_iff.mp is).2.2⟩), if_neg fits]
    rfl

/- The four operations. -/

variable {an ad bn bd : Int64}

theorem i128Mul_eq (a b : Int64) : i128Mul a b = a.toInt * b.toInt ∧ -2 ^ 126 ≤ a.toInt * b.toInt ∧
    a.toInt * b.toInt ≤ 2 ^ 126 := by
  obtain ⟨low, high⟩ := fits_toInt a
  obtain ⟨low', high'⟩ := fits_toInt b
  have bounds : -2 ^ 126 ≤ a.toInt * b.toInt ∧ a.toInt * b.toInt ≤ 2 ^ 126 := by constructor <;> nlinarith
  refine ⟨?_, bounds⟩
  rw [i128Mul, wrap128_of_lt] <;> omega

/-- The product with a denominator is not the extreme one. -/
theorem mul_den_bounds (a : Int64) (pos : 0 < bd.toInt) :
    -2 ^ 126 < a.toInt * bd.toInt ∧ a.toInt * bd.toInt < 2 ^ 126 := by
  obtain ⟨low, high⟩ := fits_toInt a
  obtain ⟨low', high'⟩ := fits_toInt bd
  constructor <;> nlinarith

theorem ratAdd_eq (pa : 0 < ad.toInt) (pb : 0 < bd.toInt) :
    packed (ratAdd an ad bn bd) = exactRat (an.toInt / ad.toInt + bn.toInt / bd.toInt) := by
  have left := mul_den_bounds an pb
  have right := mul_den_bounds bn pa
  have below := mul_den_bounds ad pb
  have denom : 0 < ad.toInt * bd.toInt := Int.mul_pos pa pb
  have qa : (ad.toInt : ℚ) ≠ 0 := by exact_mod_cast pa.ne'
  have qb : (bd.toInt : ℚ) ≠ 0 := by exact_mod_cast pb.ne'
  rw [ratAdd, (i128Mul_eq an bd).1, (i128Mul_eq bn ad).1, (i128Mul_eq ad bd).1, wrap128_of_lt (by omega) (by omega),
    packed_ratPack (by omega) (by omega) (by omega) (by omega) (by omega)]
  congr 1
  push_cast
  field_simp

theorem ratSub_eq (pa : 0 < ad.toInt) (pb : 0 < bd.toInt) :
    packed (ratSub an ad bn bd) = exactRat (an.toInt / ad.toInt - bn.toInt / bd.toInt) := by
  have left := mul_den_bounds an pb
  have right := mul_den_bounds bn pa
  have below := mul_den_bounds ad pb
  have denom : 0 < ad.toInt * bd.toInt := Int.mul_pos pa pb
  have qa : (ad.toInt : ℚ) ≠ 0 := by exact_mod_cast pa.ne'
  have qb : (bd.toInt : ℚ) ≠ 0 := by exact_mod_cast pb.ne'
  rw [ratSub, (i128Mul_eq an bd).1, (i128Mul_eq bn ad).1, (i128Mul_eq ad bd).1, wrap128_of_lt (by omega) (by omega),
    packed_ratPack (by omega) (by omega) (by omega) (by omega) (by omega)]
  congr 1
  push_cast
  field_simp

theorem ratMul_eq (pa : 0 < ad.toInt) (pb : 0 < bd.toInt) :
    packed (ratMul an ad bn bd) = exactRat (an.toInt / ad.toInt * (bn.toInt / bd.toInt)) := by
  obtain ⟨product, low, high⟩ := i128Mul_eq an bn
  have below := mul_den_bounds ad pb
  have denom : 0 < ad.toInt * bd.toInt := Int.mul_pos pa pb
  rw [ratMul, product, (i128Mul_eq ad bd).1,
    packed_ratPack (by omega) (by omega) (by omega) (by omega) (by omega)]
  congr 1
  push_cast
  rw [div_mul_div_comm]

theorem ratDiv_eq (pa : 0 < ad.toInt) (pb : 0 < bd.toInt) (some_ : bn.toInt ≠ 0) :
    packed (ratDiv an ad bn bd) = exactRat (an.toInt / ad.toInt / (bn.toInt / bd.toInt)) := by
  have left := mul_den_bounds an pb
  have right := mul_den_bounds bn pa
  have denom : ad.toInt * bn.toInt ≠ 0 := mul_ne_zero (by omega) some_
  have turned : ad.toInt * bn.toInt = bn.toInt * ad.toInt := Int.mul_comm _ _
  rw [ratDiv, (i128Mul_eq an bd).1, (i128Mul_eq ad bn).1,
    packed_ratPack denom (by omega) (by omega) (by omega) (by omega)]
  congr 1
  push_cast
  rw [div_div_div_eq]

theorem ratCmp_eq (pa : 0 < ad.toInt) (pb : 0 < bd.toInt) :
    ratCmp an ad bn bd = compare ((an.toInt : ℚ) / ad.toInt) (bn.toInt / bd.toInt) := by
  have qa : (0 : ℚ) < ad.toInt := by exact_mod_cast pa
  have qb : (0 : ℚ) < bd.toInt := by exact_mod_cast pb
  have less : (an.toInt : ℚ) / ad.toInt < bn.toInt / bd.toInt ↔ an.toInt * bd.toInt < bn.toInt * ad.toInt := by
    rw [div_lt_div_iff₀ qa qb]
    exact_mod_cast Iff.rfl
  have more : (bn.toInt : ℚ) / bd.toInt < an.toInt / ad.toInt ↔ bn.toInt * ad.toInt < an.toInt * bd.toInt := by
    rw [div_lt_div_iff₀ qb qa]
    exact_mod_cast Iff.rfl
  rw [ratCmp, (i128Mul_eq an bd).1, (i128Mul_eq bn ad).1]
  rcases lt_trichotomy (an.toInt * bd.toInt) (bn.toInt * ad.toInt) with lt | eq | gt
  · rw [compare_lt_iff_lt.mpr lt, compare_lt_iff_lt.mpr (less.mpr lt)]
  · have same : (an.toInt : ℚ) / ad.toInt = bn.toInt / bd.toInt := by
      refine le_antisymm (not_lt.mp (mt more.mp ?_)) (not_lt.mp (mt less.mp ?_)) <;> omega
    rw [compare_eq_iff_eq.mpr eq, compare_eq_iff_eq.mpr same]
  · rw [compare_gt_iff_gt.mpr gt, compare_gt_iff_gt.mpr (more.mpr gt)]

/- Powers. -/

/-- The powers of the two parts are taken side by side. -/
theorem ratPowLoop_eq (accn accd bn bd e : Int64) :
    ratPowLoop accn accd bn bd e =
      (ipowLoop accn bn e).bind fun n => (ipowLoop accd bd e).map fun d => (n, d) := by
  induction size : e.toInt.toNat using Nat.strongRecOn generalizing accn accd bn bd e with
  | ind k ih =>
    rw [ratPowLoop, ipowLoop, ipowLoop]
    split
    · rename_i pos
      have smaller := half_lt pos
      have again (accn accd bn bd : Int64) := ih _ (size ▸ smaller) accn accd bn bd (e >>> 1) rfl
      simp only [again]
      by_cases odd : e &&& 1 ≠ 0
      · rw [if_pos odd, if_pos odd, if_pos odd]
        by_cases more : (0 : Int64) < e >>> 1
        · simp only [if_pos more]
          cases mulOvf accn bn <;> cases mulOvf accd bd <;> cases mulOvf bn bn <;> cases mulOvf bd bd <;> simp
        · simp only [if_neg more]
          cases mulOvf accn bn <;> cases mulOvf accd bd <;> simp
      · rw [if_neg odd, if_neg odd, if_neg odd]
        by_cases more : (0 : Int64) < e >>> 1
        · simp only [if_pos more]
          cases mulOvf bn bn <;> cases mulOvf bd bd <;> simp
        · simp only [if_neg more]
          rfl
    · rfl

/-- Two parts that are powers, in lowest terms, are answered as they are or overflow. -/
theorem packed_powers {u v : Int64} {k : Int64} (nonneg : 0 ≤ k.toInt) (some_ : u.toInt ≠ 0) (some_' : v.toInt ≠ 0)
    (pos : 0 < v.toInt ^ k.toInt.toNat) (coprime : u.toInt.natAbs.Coprime v.toInt.natAbs) :
    packed (ratPowLoop 1 1 u v k) = exactRat ((u.toInt / v.toInt : ℚ) ^ k.toInt.toNat) := by
  have one : (1 : Int64).toInt = 1 := rfl
  have parts : ((u.toInt : ℚ) / v.toInt) ^ k.toInt.toNat = ((u.toInt ^ k.toInt.toNat : Int) : ℚ) / (v.toInt ^ k.toInt.toNat : Int) := by
    push_cast
    rw [div_pow]
  have lowest : (u.toInt ^ k.toInt.toNat).natAbs.Coprime (v.toInt ^ k.toInt.toNat).natAbs := by
    rw [Int.natAbs_pow, Int.natAbs_pow]
    exact coprime.pow _ _
  rw [ratPowLoop_eq, ipowLoop_eq nonneg (by decide) some_, ipowLoop_eq nonneg (by decide) some_', one, Int.one_mul,
    Int.one_mul, parts, exactRat_of_coprime pos lowest, narrowed, narrowed]
  by_cases fits : Fits (u.toInt ^ k.toInt.toNat)
  · by_cases fits' : v.toInt ^ k.toInt.toNat < 2 ^ 63
    · rw [if_pos fits, if_pos ⟨by omega, fits'⟩, if_pos ⟨fits, fits'⟩]
      rfl
    · rw [if_pos fits, if_neg (fun both => fits' both.2), if_neg (fun both => fits' both.2)]
      rfl
  · have out : ¬ (Fits (u.toInt ^ k.toInt.toNat) ∧ v.toInt ^ k.toInt.toNat < 2 ^ 63) := fun both => fits both.1
    rw [if_neg fits, if_neg out]
    rfl

theorem num_ne_zero {n d : Int64} (canonical : (Value.rat n d).Canonical) : n.toInt ≠ 0 := by
  intro zero
  obtain ⟨least, coprime⟩ := canonical
  rw [zero, Int.natAbs_zero, Nat.coprime_zero_left] at coprime
  omega

/-- A power of a rational, a negative one of a negative rational only when it is even. -/
theorem ratPow_eq {n d k : Int64} (canonical : (Value.rat n d).Canonical)
    (even : n.toInt < 0 → k.toInt < 0 → k.toInt % 2 = 0) :
    packed (ratPow n d k) = exactRat ((n.toInt / d.toInt : ℚ) ^ k.toInt) := by
  have some_ := num_ne_zero canonical
  obtain ⟨least, coprime⟩ := canonical
  rw [ratPow]
  split
  · rename_i neg
    have neg := (negative_iff k).mp neg
    have inverse : ((n.toInt : ℚ) / d.toInt) ^ k.toInt = ((d.toInt : ℚ) / n.toInt) ^ (-k.toInt).toNat := by
      have exponent : k.toInt = -((-k.toInt).toNat : Int) := by omega
      conv_lhs => rw [exponent]
      rw [zpow_neg, zpow_natCast, ← inv_pow, inv_div]
    have above : 0 < n.toInt ^ (-k.toInt).toNat := by
      rcases Int.lt_or_lt_of_ne some_ with low | high
      · have := even low neg
        exact Even.pow_pos (Nat.even_iff.mpr (by omega)) some_
      · exact pow_pos high _
    rw [inverse]
    split
    · rename_i least_
      -- past 2^62 places no denominator of 64 bits is left
      have lowest : (d.toInt ^ (-k.toInt).toNat).natAbs.Coprime (n.toInt ^ (-k.toInt).toNat).natAbs := by
        rw [Int.natAbs_pow, Int.natAbs_pow]
        exact coprime.symm.pow _ _
      have parts : ((d.toInt : ℚ) / n.toInt) ^ (-k.toInt).toNat =
          ((d.toInt ^ (-k.toInt).toNat : Int) : ℚ) / (n.toInt ^ (-k.toInt).toNat : Int) := by
        push_cast
        rw [div_pow]
      have exponent : (-k.toInt).toNat = 2 ^ 63 := by
        rw [least_]
        rfl
      have large : (2 : Int) ^ 63 ≤ d.toInt ^ (-k.toInt).toNat := by
        rw [exponent]
        calc (2 : Int) ^ 63 ≤ d.toInt ^ 63 := pow_le_pow_left₀ (by decide) least 63
          _ ≤ d.toInt ^ (2 ^ 63) := pow_le_pow_right₀ (by omega) (by decide)
      rw [parts, exactRat_of_coprime above lowest, if_neg]
      · rfl
      · rintro ⟨⟨-, high⟩, -⟩
        omega
    · rename_i other
      rw [if_neg (fun zero => some_ (by rw [zero]; rfl))]
      have turned : (0 - k).toInt = -k.toInt := by
        have zero : (0 : Int64).toInt = 0 := rfl
        rw [toInt_sub, zero, Int.zero_sub]
        rw [zero, Int.zero_sub]
        exact fits_neg other
      have powers := @packed_powers d n (0 - k) (by omega) (by omega) some_ (by rw [turned]; exact above) coprime.symm
      rw [turned] at powers
      exact powers
  · rename_i nonneg
    have nonneg := mt (negative_iff k).mpr nonneg
    have exponent : k.toInt = (k.toInt.toNat : Int) := by omega
    have above : 0 < d.toInt ^ k.toInt.toNat := pow_pos (by omega) _
    rw [packed_powers (by omega) some_ (by omega) above coprime]
    conv_rhs => rw [exponent, zpow_natCast]

/- Roundings. -/

/-- To the nearest integer, of two the one away from zero. -/
def roundAway (q : ℚ) : Int := if 0 ≤ q then ⌊q + 1 / 2⌋ else ⌈q - 1 / 2⌉

/-- Toward zero. -/
def truncated (q : ℚ) : Int := if 0 ≤ q then ⌊q⌋ else ⌈q⌉

/-- What a rounding is of a rational number. -/
def rounded : Rounding → ℚ → Int
  | .truncate, q => truncated q
  | .floor, q => ⌊q⌋
  | .ceiling, q => ⌈q⌉
  | .round, q => roundAway q

theorem floor_of {z : Int} (pos : 0 < d) (low : z * d ≤ n) (high : n < (z + 1) * d) : ⌊(n : ℚ) / d⌋ = z := by
  have pos' : (0 : ℚ) < d := by exact_mod_cast pos
  rw [Int.floor_eq_iff, le_div_iff₀ pos', div_lt_iff₀ pos']
  constructor
  · exact_mod_cast low
  · exact_mod_cast high

theorem ceil_of {z : Int} (pos : 0 < d) (low : (z - 1) * d < n) (high : n ≤ z * d) : ⌈(n : ℚ) / d⌉ = z := by
  have pos' : (0 : ℚ) < d := by exact_mod_cast pos
  rw [Int.ceil_eq_iff, lt_div_iff₀ pos', div_le_iff₀ pos']
  constructor
  · exact_mod_cast low
  · exact_mod_cast high

theorem nonneg_iff (pos : 0 < d) : (0 : ℚ) ≤ n / d ↔ 0 ≤ n := by
  have pos' : (0 : ℚ) < d := by exact_mod_cast pos
  rw [le_div_iff₀ pos', zero_mul]
  exact_mod_cast Iff.rfl

theorem roundAway_of {z : Int} (pos : 0 < d)
    (up : 0 ≤ n → z * (2 * d) ≤ 2 * n + d ∧ 2 * n + d < (z + 1) * (2 * d))
    (down : n < 0 → (z - 1) * (2 * d) < 2 * n - d ∧ 2 * n - d ≤ z * (2 * d)) : roundAway (n / d) = z := by
  have some_ : (d : ℚ) ≠ 0 := by exact_mod_cast pos.ne'
  rw [roundAway]
  by_cases nonneg : 0 ≤ n
  · have half : (n : ℚ) / d + 1 / 2 = ((2 * n + d : Int) : ℚ) / (2 * d : Int) := by
      push_cast
      field_simp
    rw [if_pos ((nonneg_iff pos).mpr nonneg), half]
    exact floor_of (by omega) (up nonneg).1 (up nonneg).2
  · have half : (n : ℚ) / d - 1 / 2 = ((2 * n - d : Int) : ℚ) / (2 * d : Int) := by
      push_cast
      field_simp
    rw [if_neg (mt (nonneg_iff pos).mp nonneg), half]
    exact ceil_of (by omega) (down (by omega)).1 (down (by omega)).2

/-- The quotient and the remainder of a canonical pair. -/
structure Divided (n d : Int64) : Prop where
  least : 2 ≤ d.toInt
  parts : d.toInt * (n / d).toInt + (n % d).toInt = n.toInt
  rest : (n % d).toInt ≠ 0
  small : -d.toInt < (n % d).toInt ∧ (n % d).toInt < d.toInt
  sign : (0 ≤ n.toInt → 0 ≤ (n % d).toInt) ∧ (n.toInt < 0 → (n % d).toInt ≤ 0)
  half : -2 ^ 62 ≤ (n / d).toInt ∧ (n / d).toInt ≤ 2 ^ 62

theorem divided {n d : Int64} (canonical : (Value.rat n d).Canonical) : Divided n d := by
  obtain ⟨least, coprime⟩ := canonical
  have other : d ≠ -1 := fun is => by rw [is] at least; exact absurd least (by decide)
  have bound := tmod_bound n.toInt (show d.toInt ≠ 0 by omega)
  have quotient := toInt_div (a := n) other
  have rest : (n % d).toInt = n.toInt.tmod d.toInt := Int64.toInt_mod n d
  refine ⟨least, ?_, ?_, ?_, ?_, ?_⟩
  · rw [quotient, rest]
    exact Int.mul_tdiv_add_tmod _ _
  · rw [rest]
    intro zero
    have divides : d.toInt.natAbs ∣ n.toInt.natAbs := Int.natAbs_dvd_natAbs.mpr (Int.dvd_iff_tmod_eq_zero.mpr zero)
    have one := Nat.Coprime.eq_one_of_dvd coprime.symm divides
    omega
  · rw [rest]
    omega
  · rw [rest]
    exact tmod_sign n.toInt d.toInt
  · have abs : (n.toInt.tdiv d.toInt).natAbs = n.toInt.natAbs / d.toInt.natAbs := Int.natAbs_tdiv _ _
    have halved : n.toInt.natAbs / d.toInt.natAbs ≤ n.toInt.natAbs / 2 := Nat.div_le_div_left (by omega) (by decide)
    obtain ⟨low, high⟩ := fits_toInt n
    rw [quotient]
    omega

theorem below_eq {q : Int64} (inside : -2 ^ 62 ≤ q.toInt) : below q = narrowed (q.toInt - 1) := by
  have one : (1 : Int64).toInt = 1 := rfl
  have high := q.toInt_lt
  have other : q ≠ Int64.minValue := fun is => by rw [is] at inside; exact absurd inside (by decide)
  rw [below, if_neg other]
  refine (narrowed_of_eq ?_).symm
  rw [toInt_sub, one]
  rw [one]
  unfold Fits
  omega

theorem above_eq {q : Int64} (inside : q.toInt ≤ 2 ^ 62) : above q = narrowed (q.toInt + 1) := by
  have one : (1 : Int64).toInt = 1 := rfl
  have low := q.le_toInt
  have other : q ≠ 9223372036854775807 := fun is => by rw [is] at inside; exact absurd inside (by decide)
  rw [above, if_neg other]
  refine (narrowed_of_eq ?_).symm
  rw [toInt_add, one]
  rw [one]
  unfold Fits
  omega

/-- Twice the remainder against the denominator, in unsigned words. -/
theorem half_iff {n d : Int64} (parts : Divided n d) :
    d.toUInt64 ≤ 2 * (if n % d < 0 then 0 - n % d else n % d).toUInt64 ↔ d.toInt ≤ 2 * (n % d).toInt.natAbs := by
  have high := d.toInt_lt
  have least := parts.least
  have small := parts.small
  have zero : (0 : Int64).toInt = 0 := rfl
  have size : (if n % d < 0 then 0 - n % d else n % d).toInt = (n % d).toInt.natAbs := by
    split
    · rename_i neg
      have neg := (negative_iff _).mp neg
      rw [toInt_sub, zero]
      · omega
      · rw [zero]
        unfold Fits
        omega
    · rename_i nonneg
      have nonneg := mt (negative_iff _).mpr nonneg
      omega
  have word := toInt_eq_toNat (if n % d < 0 then 0 - n % d else n % d)
  have word' := toInt_eq_toNat d
  have twice : (2 * (if n % d < 0 then 0 - n % d else n % d).toUInt64).toNat = 2 * (n % d).toInt.natAbs := by
    have two : (2 : UInt64).toNat = 2 := rfl
    rw [UInt64.toNat_mul, two]
    omega
  rw [UInt64.le_iff_toNat_le, twice]
  omega

/-- `coco_rat_round` of a canonical pair is the rounding of its number. -/
theorem ratRound_eq {n d : Int64} (how : Rounding) (canonical : (Value.rat n d).Canonical) :
    ratRound n d how = narrowed (rounded how (n.toInt / d.toInt)) := by
  have divided_ := divided canonical
  have some_ : n % d ≠ 0 := fun is => divided_.rest (by rw [is]; rfl)
  obtain ⟨least, parts, rest, small, sign, half⟩ := id divided_
  have nonzero := num_ne_zero canonical
  have pos : 0 < d.toInt := by omega
  have neg_iff := negative_iff n
  have pos_iff : 0 < n ↔ 0 < n.toInt := Int64.lt_iff_toInt_lt
  cases how with
  | truncate =>
    refine (narrowed_of_eq ?_).symm
    rw [rounded, truncated]
    by_cases nonneg : 0 ≤ n.toInt
    · have up := sign.1 nonneg
      rw [if_pos ((nonneg_iff pos).mpr nonneg), floor_of pos (z := (n / d).toInt) (by linarith) (by linarith)]
    · have down := sign.2 (by omega)
      rw [if_neg (mt (nonneg_iff pos).mp nonneg), ceil_of pos (z := (n / d).toInt) (by linarith) (by linarith)]
  | floor =>
    rw [ratRound, rounded]
    by_cases neg : n.toInt < 0
    · have down := sign.2 neg
      rw [if_pos ⟨some_, neg_iff.mpr neg⟩, below_eq half.1,
        floor_of pos (z := (n / d).toInt - 1) (by linarith) (by linarith [lt_of_le_of_ne down rest])]
    · have up := sign.1 (by omega)
      rw [if_neg (fun both => neg (neg_iff.mp both.2)), floor_of pos (z := (n / d).toInt) (by linarith) (by linarith)]
      exact (narrowed_of_eq rfl).symm
  | ceiling =>
    rw [ratRound, rounded]
    by_cases more : 0 < n.toInt
    · have up := sign.1 (by omega)
      rw [if_pos ⟨some_, pos_iff.mpr more⟩, above_eq half.2,
        ceil_of pos (z := (n / d).toInt + 1) (by linarith [lt_of_le_of_ne up rest.symm]) (by linarith)]
    · have down := sign.2 (by omega)
      rw [if_neg (fun both => more (pos_iff.mp both.2)), ceil_of pos (z := (n / d).toInt) (by linarith) (by linarith)]
      exact (narrowed_of_eq rfl).symm
  | round =>
    rw [ratRound, rounded]
    by_cases far : d.toInt ≤ 2 * (n % d).toInt.natAbs
    · rw [if_pos ((half_iff divided_).mpr far)]
      by_cases more : 0 < n.toInt
      · have up := sign.1 (by omega)
        have twice : d.toInt ≤ 2 * (n % d).toInt := by omega
        rw [if_pos (pos_iff.mpr more), above_eq half.2,
          roundAway_of pos (z := (n / d).toInt + 1) (fun _ => ⟨by linarith, by linarith⟩)
            (fun neg => absurd neg (by omega))]
      · have down := sign.2 (by omega)
        have twice : 2 * (n % d).toInt ≤ -d.toInt := by omega
        rw [if_neg (mt pos_iff.mp more), below_eq half.1,
          roundAway_of pos (z := (n / d).toInt - 1) (fun nonneg => absurd nonneg (by omega))
            (fun _ => ⟨by linarith, by linarith⟩)]
    · have near : -d.toInt < 2 * (n % d).toInt ∧ 2 * (n % d).toInt < d.toInt := by omega
      rw [if_neg (mt (half_iff divided_).mp far),
        roundAway_of pos (z := (n / d).toInt) (fun _ => ⟨by linarith, by linarith⟩)
          (fun _ => ⟨by linarith, by linarith⟩)]
      exact (narrowed_of_eq rfl).symm

/- The functions. -/

/-- A power over the rationals. An integer to a negative power is a float unless it is 1 or
-1, and 0 to one is a zero divisor; an odd negative power of a negative rational is left out. -/
def powerValue (infinity : Bool) (k : Int64) : Value → Option (Option ℚ)
  | .rat n d => if n.toInt < 0 ∧ k.toInt < 0 ∧ k.toInt % 2 = 1 then none else some (some ((n.toInt / d.toInt) ^ k.toInt))
  | .int a =>
    if 0 ≤ k.toInt ∨ a.toInt = 1 ∨ a.toInt = -1 then some (some ((a.toInt : ℚ) ^ k.toInt))
    else if a.toInt = 0 ∧ infinity = false then some none
    else none
  | .flt _ => none

/-- What a function of two exact operands is over the rationals; `none` where it divides by
zero. `/` of two integers is not one of them. -/
def rationalValue (infinity : Bool) : Binary → Value → Value → Option (Option ℚ)
  | .add, x, y => some (some (x.rational + y.rational))
  | .sub, x, y => some (some (x.rational - y.rational))
  | .mul, x, y => some (some (x.rational * y.rational))
  | .divide, x, y =>
    if x.isRat || y.isRat then some (if y.rational = 0 then none else some (x.rational / y.rational)) else none
  | .rdiv, x, y => some (if y.rational = 0 then none else some (x.rational / y.rational))
  | .min, x, y => some (some (min x.rational y.rational))
  | .max, x, y => some (some (max x.rational y.rational))
  | .power, x, .int k => powerValue infinity k x
  | .caret, x, .int k => powerValue infinity k x
  | _, _, _ => none

/-- What a function of one exact operand is over the rationals. The parts of an integer are
left out. -/
def rationalOf : Unary → Value → Option ℚ
  | .neg, x => some (-x.rational)
  | .abs, x => some |x.rational|
  | .sign, x => some (if 0 < x.rational then 1 else if x.rational < 0 then -1 else 0)
  | .numerator, .rat n d => some ((n.toInt / d.toInt : ℚ).num)
  | .denominator, .rat n d => some ((n.toInt / d.toInt : ℚ).den)
  | .floor, x => some (rounded .floor x.rational)
  | .ceiling, x => some (rounded .ceiling x.rational)
  | .round, x => some (rounded .round x.rational)
  | .truncate, x => some (rounded .truncate x.rational)
  | _, _ => none

/-- The function a zero divisor names. -/
def namedBy : Binary → Binary
  | .rdiv => .divide
  | .caret => .power
  | f => f

/-- A result over the rationals as the evaluator answers it. -/
def answeredRat (f : Binary) : Option ℚ → Answer
  | some q => exactRat q
  | none => .error (.zeroDivisor (namedBy f))

variable {x y : Value}

theorem pair_spec (canonical : x.Canonical) :
    0 < x.pair.2.toInt ∧ x.rational = x.pair.1.toInt / x.pair.2.toInt ∧ ratResult x.pair.1 x.pair.2 = .ok x := by
  have one : (1 : Int64).toInt = 1 := rfl
  cases x with
  | int v =>
    refine ⟨Int.one_pos, ?_, rfl⟩
    show (v.toInt : ℚ) = v.toInt / (1 : Int64).toInt
    rw [one, Int.cast_one, div_one]
  | rat n d =>
    obtain ⟨least, -⟩ := canonical
    have pos : 0 < d.toInt := by omega
    refine ⟨pos, rfl, ?_⟩
    show ratResult n d = _
    rw [ratResult, if_neg]
    intro is
    rw [is, one] at least
    omega
  | flt _ => exact canonical.elim

/-- A canonical value is the answer for its own number. -/
theorem exactRat_rational (canonical : x.Canonical) : exactRat x.rational = .ok x := by
  cases x with
  | int v => exact (exactRat_int v.toInt).trans (exact_of_eq rfl).symm
  | rat n d =>
    have pair := (pair_spec canonical).2.2
    obtain ⟨least, coprime⟩ := canonical
    show exactRat ((n.toInt : ℚ) / d.toInt) = _
    rw [exactRat_of_coprime (by omega) coprime, if_pos ⟨fits_toInt n, d.toInt_lt⟩, ← eq_ofInt rfl, ← eq_ofInt rfl]
    exact pair
  | flt _ => exact canonical.elim

theorem not_flt (canonical : x.Canonical) : x.isFlt = false := by
  cases x with
  | flt _ => exact canonical.elim
  | _ => rfl

theorem exactPower_eq {n d k : Int64} {infinity : Bool} {r : Option ℚ} {f : Binary} (canonical : (Value.rat n d).Canonical)
    (value : powerValue infinity k (.rat n d) = some r) :
    (if n = 0 ∧ k < 0 then .error (.zeroDivisor .power) else packed (ratPow n d k)) = answeredRat f r := by
  have zero : n ≠ 0 := fun is => num_ne_zero canonical (by rw [is]; rfl)
  simp only [powerValue] at value
  split at value
  · cases value
  · rename_i even
    cases value
    rw [if_neg (fun both => zero both.1), ratPow_eq canonical]
    · rfl
    · intro low neg
      by_contra odd
      exact even ⟨low, neg, by omega⟩

/-- The exact functions of two canonical operands that a pair each is enough for. -/
theorem exactBinary_eq (F : Floats) {f : Binary} {r : Option ℚ} (cx : x.Canonical) (cy : y.Canonical)
    (rational_ : x.isRat = true ∨ y.isRat = true ∨ f = .rdiv) (value : rationalValue F.zeroDivInfinity f x y = some r) :
    exactBinary F f x y = answeredRat f r := by
  obtain ⟨px, qx, rx⟩ := pair_spec cx
  obtain ⟨py, qy, ry⟩ := pair_spec cy
  have divisor : y.pair.1 = 0 ↔ y.rational = 0 := by
    have some_ : (y.pair.2.toInt : ℚ) ≠ 0 := by exact_mod_cast py.ne'
    rw [qy, div_eq_zero_iff, or_iff_left some_, Int.cast_eq_zero]
    exact ⟨fun is => by rw [is]; rfl, fun is => Int64.toInt_inj.mp is⟩
  have quotient : (if y.pair.1 = 0 then .error (.zeroDivisor .divide) else packed (ratDiv x.pair.1 x.pair.2 y.pair.1 y.pair.2)) =
      answeredRat .divide (if y.rational = 0 then none else some (x.rational / y.rational)) := by
    by_cases zero : y.rational = 0
    · rw [if_pos (divisor.mpr zero), if_pos zero]
      rfl
    · rw [if_neg (mt divisor.mp zero), if_neg zero, ratDiv_eq px py, qx, qy]
      · rfl
      · exact toInt_ne_zero (mt divisor.mp zero)
  have order := @ratCmp_eq x.pair.1 x.pair.2 y.pair.1 y.pair.2 px py
  rw [← qx, ← qy] at order
  cases f with
  | add =>
    cases value
    show packed (ratAdd x.pair.1 x.pair.2 y.pair.1 y.pair.2) = exactRat (x.rational + y.rational)
    rw [ratAdd_eq px py, ← qx, ← qy]
  | sub =>
    cases value
    show packed (ratSub x.pair.1 x.pair.2 y.pair.1 y.pair.2) = exactRat (x.rational - y.rational)
    rw [ratSub_eq px py, ← qx, ← qy]
  | mul =>
    cases value
    show packed (ratMul x.pair.1 x.pair.2 y.pair.1 y.pair.2) = exactRat (x.rational * y.rational)
    rw [ratMul_eq px py, ← qx, ← qy]
  | divide =>
    rw [rationalValue] at value
    split at value
    · cases value
      exact quotient
    · cases value
  | rdiv => cases value; exact quotient
  | max =>
    cases value
    show (if ratCmp x.pair.1 x.pair.2 y.pair.1 y.pair.2 ≠ .lt then ratResult x.pair.1 x.pair.2
      else ratResult y.pair.1 y.pair.2) = exactRat (max x.rational y.rational)
    rw [order, rx, ry]
    by_cases less : x.rational < y.rational
    · rw [if_neg (not_not.mpr (compare_lt_iff_lt.mpr less)), max_eq_right (le_of_lt less), exactRat_rational cy]
    · rw [if_pos (mt compare_lt_iff_lt.mp less), max_eq_left (not_lt.mp less), exactRat_rational cx]
  | min =>
    cases value
    show (if ratCmp x.pair.1 x.pair.2 y.pair.1 y.pair.2 ≠ .gt then ratResult x.pair.1 x.pair.2
      else ratResult y.pair.1 y.pair.2) = exactRat (min x.rational y.rational)
    rw [order, rx, ry]
    by_cases more : y.rational < x.rational
    · rw [if_neg (not_not.mpr (compare_gt_iff_gt.mpr more)), min_eq_right (le_of_lt more), exactRat_rational cy]
    · rw [if_pos (mt compare_gt_iff_gt.mp more), min_eq_left (not_lt.mp more), exactRat_rational cx]
  | power =>
    cases y with
    | int k =>
      cases x with
      | rat n d => exact @exactPower_eq n d k F.zeroDivInfinity r .power cx value
      | int a => exact (rational_.elim Bool.false_ne_true fun more => more.elim Bool.false_ne_true (by simp)).elim
      | flt _ => exact cx.elim
    | _ => cases value
  | caret =>
    cases y with
    | int k =>
      cases x with
      | rat n d => exact @exactPower_eq n d k F.zeroDivInfinity r .caret cx value
      | int a => exact (rational_.elim Bool.false_ne_true fun more => more.elim Bool.false_ne_true (by simp)).elim
      | flt _ => exact cx.elim
    | _ => cases value
  | _ => cases value

/-- A power of two integers, where it is not a float. -/
theorem integerPower_eq {F : Floats} {f : Binary} {a k : Int64} {r : Option ℚ}
    (named : namedBy f = .power) (value : powerValue F.zeroDivInfinity k (.int a) = some r) :
    power F f a k = answeredRat f r := by
  obtain ⟨zero, negative⟩ := exponent_sign k
  by_cases nonneg : 0 ≤ k.toInt
  · have exponent : k.toInt = (k.toInt.toNat : Int) := by omega
    simp only [powerValue, if_pos (Or.inl nonneg)] at value
    cases value
    rw [power_eq F f nonneg, ← exactRat_int]
    show _ = exactRat _
    conv_rhs => rw [exponent, zpow_natCast]
    push_cast
    rfl
  · have below : k.toInt < 0 := by omega
    have some_ : ¬ exponentZero k = true := by rw [zero]; omega
    have one : (1 : Int64).toInt = 1 := rfl
    have minus : (-1 : Int64).toInt = -1 := rfl
    rw [power, if_neg some_]
    by_cases unit : a = 1
    · rw [unit] at value
      simp only [powerValue, one, true_or, or_true, if_true] at value
      cases value
      show _ = exactRat _
      rw [if_pos unit, Int.cast_one, one_zpow]
      exact (exact_of_eq one).trans (exactRat_int 1).symm
    · rw [if_neg unit]
      by_cases none_ : a = 0
      · have nil : a.toInt = 0 := by rw [none_]; rfl
        have other : ¬ (0 ≤ k.toInt ∨ a.toInt = 1 ∨ a.toInt = -1) := by omega
        simp only [powerValue] at value
        rw [if_neg other] at value
        split at value
        · rename_i finite
          cases value
          rw [if_pos none_, if_pos (negative.mpr below), zeroDivFn, if_neg (by decide), finite.2, answeredRat, named]
          rfl
        · cases value
      · rw [if_neg none_]
        by_cases unit' : a = -1
        · rw [unit'] at value
          simp only [powerValue, minus, or_true, if_true] at value
          cases value
          show _ = exactRat _
          have bit := @toInt_and_one k
          rw [if_pos unit', Int.cast_neg, Int.cast_one]
          by_cases odd : k &&& 1 = 0
          · have even : Even k.toInt := by
              rw [odd] at bit
              exact Int.even_iff.mpr bit.symm
            rw [if_pos odd, even.neg_one_zpow]
            exact (exact_of_eq one).trans (exactRat_int 1).symm
          · rw [if_neg odd, (Int.odd_iff.mpr (odd_iff.mp odd)).neg_one_zpow]
            exact (exact_of_eq minus).trans (by rw [← exactRat_int]; push_cast; rfl)
        · have other : ¬ (0 ≤ k.toInt ∨ a.toInt = 1 ∨ a.toInt = -1) := by
            rintro (high | is | is)
            · omega
            · exact unit (Int64.toInt_inj.mp is)
            · exact unit' (Int64.toInt_inj.mp is)
          have some' : ¬ (a.toInt = 0 ∧ F.zeroDivInfinity = false) := fun both => none_ (Int64.toInt_inj.mp both.1)
          simp only [powerValue, if_neg other, if_neg some'] at value
          cases value

/-- The exact functions of two integers agree with the integer ones. -/
theorem integerBinary_rational (F : Floats) {f : Binary} {a b : Int64} {r : Option ℚ} (other : f ≠ .rdiv)
    (value : rationalValue F.zeroDivInfinity f (.int a) (.int b) = some r) :
    integerBinary F f a b = answeredRat f r := by
  have whole_ (z : Int) (is : integerValue f a.toInt b.toInt = some (some z)) :
      integerBinary F f a b = exactRat z := (integerBinary_eq F is).trans (exactRat_int z).symm
  cases f with
  | add => cases value; exact (whole_ _ rfl).trans (by push_cast; rfl)
  | sub => cases value; exact (whole_ _ rfl).trans (by push_cast; rfl)
  | mul => cases value; exact (whole_ _ rfl).trans (by push_cast; rfl)
  | min => cases value; exact (whole_ _ rfl).trans (by push_cast; rfl)
  | max => cases value; exact (whole_ _ rfl).trans (by push_cast; rfl)
  | rdiv => exact absurd rfl other
  | power => exact integerPower_eq rfl value
  | caret => exact integerPower_eq rfl value
  | _ => cases value

theorem binary_rational (F : Floats) {f : Binary} {r : Option ℚ} (cx : x.Canonical) (cy : y.Canonical)
    (value : rationalValue F.zeroDivInfinity f x y = some r) : binary F f x y = answeredRat f r := by
  unfold binary
  split
  · rename_i plain
    simp only [Bool.and_eq_true, Bool.not_eq_true', decide_eq_true_eq] at plain
    obtain ⟨⟨nx, ny⟩, other⟩ := plain
    cases x with
    | int a =>
      cases y with
      | int b => exact integerBinary_rational F other value
      | rat _ _ => cases ny
      | flt _ => exact cy.elim
    | rat _ _ => cases nx
    | flt _ => exact cx.elim
  · rename_i exact_
    rw [ratBinary, not_flt cx, not_flt cy, Bool.or_false, if_neg Bool.false_ne_true]
    refine exactBinary_eq F cx cy ?_ value
    by_contra none_
    simp only [not_or, Bool.not_eq_true] at none_
    exact exact_ (by simp [none_.1, none_.2.1, none_.2.2])

theorem rounded_int (how : Rounding) (z : Int) : rounded how (z : ℚ) = z := by
  cases how with
  | truncate =>
    rw [rounded, truncated, Int.floor_intCast, Int.ceil_intCast, ite_self]
  | floor => exact Int.floor_intCast z
  | ceiling => exact Int.ceil_intCast z
  | round =>
    have same := @roundAway_of z 1 z Int.one_pos (fun _ => ⟨by omega, by omega⟩) (fun _ => ⟨by omega, by omega⟩)
    rwa [Int.cast_one, div_one] at same

theorem exactRat_signOf {n d : Int64} (pos : 0 < d.toInt) :
    (.ok (.int (signOf n)) : Answer) =
      exactRat (if (0 : ℚ) < n.toInt / d.toInt then 1 else if (n.toInt : ℚ) / d.toInt < 0 then -1 else 0) := by
  have pos' : (0 : ℚ) < d.toInt := by exact_mod_cast pos
  have above : (0 : ℚ) < n.toInt / d.toInt ↔ 0 < n.toInt := by
    rw [lt_div_iff₀ pos', zero_mul]
    exact_mod_cast Iff.rfl
  have below : (n.toInt : ℚ) / d.toInt < 0 ↔ n.toInt < 0 := by
    rw [div_lt_iff₀ pos', zero_mul]
    exact_mod_cast Iff.rfl
  have value : (if (0 : ℚ) < n.toInt / d.toInt then 1 else if (n.toInt : ℚ) / d.toInt < 0 then -1 else 0) =
      ((signOf n).toInt : ℚ) := by
    unfold signOf
    rw [if_congr above rfl (if_congr below rfl rfl)]
    have more : 0 < n ↔ 0 < n.toInt := Int64.lt_iff_toInt_lt
    rw [apply_ite Int64.toInt, apply_ite Int64.toInt, if_congr more rfl (if_congr (negative_iff n) rfl rfl)]
    split
    · rfl
    · split <;> simp
  rw [value, exactRat_int]
  exact exact_of_eq rfl

/-- The opposite of a rational, whose numerator the least integer has not. -/
theorem negated_rat {n d : Int64} (canonical : (Value.rat n d).Canonical) :
    (if n = Int64.minValue then .error .intOverflow else .ok (.rat (0 - n) d)) = exactRat (-(n.toInt / d.toInt)) := by
  have pair : ratResult n d = .ok (.rat n d) := (pair_spec canonical).2.2
  obtain ⟨least, coprime⟩ := canonical
  have parts : -((n.toInt : ℚ) / d.toInt) = ((-n.toInt : Int) : ℚ) / d.toInt := by
    push_cast
    rw [neg_div]
  have coprime' : (-n.toInt).natAbs.Coprime d.toInt.natAbs := by rwa [Int.natAbs_neg]
  rw [parts, exactRat_of_coprime (by omega) coprime']
  have opposite := @negated_eq n
  rw [narrowed] at opposite
  split
  · rename_i is
    rw [if_pos is] at opposite
    rw [if_neg]
    rintro ⟨fits, -⟩
    rw [if_pos fits] at opposite
    cases opposite
  · rename_i other
    rw [if_neg other, if_pos (fits_neg other)] at opposite
    have value := Option.some.inj opposite
    rw [if_pos ⟨fits_neg other, d.toInt_lt⟩, ← value, ← eq_ofInt rfl, ratResult, if_neg]
    intro is
    rw [is] at least
    exact absurd least (by decide)

theorem abs_rat {n d : Int64} (canonical : (Value.rat n d).Canonical) :
    (if n = Int64.minValue then .error .intOverflow else .ok (.rat (if n < 0 then 0 - n else n) d)) =
      exactRat |(n.toInt : ℚ) / d.toInt| := by
  have pos' : (0 : ℚ) < d.toInt := by
    have pos := (pair_spec canonical).1
    exact_mod_cast pos
  by_cases neg : n.toInt < 0
  · have below : (n.toInt : ℚ) / d.toInt < 0 := by
      rw [div_lt_iff₀ pos', zero_mul]
      exact_mod_cast neg
    rw [abs_of_neg below, if_pos ((negative_iff n).mpr neg)]
    exact negated_rat canonical
  · have above : (0 : ℚ) ≤ n.toInt / d.toInt := (nonneg_iff (by exact_mod_cast pos')).mpr (by omega)
    have other : n ≠ Int64.minValue := fun is => neg (by rw [is]; decide)
    rw [abs_of_nonneg above, if_neg other, if_neg (mt (negative_iff n).mp neg)]
    exact (exactRat_rational canonical).symm

/-- The functions of one canonical operand. -/
theorem unary_rational (F : Floats) {f : Unary} {q : ℚ} (cx : x.Canonical) (value : rationalOf f x = some q) :
    unary F f x = exactRat q := by
  obtain ⟨pos, quotient, -⟩ := pair_spec cx
  cases x with
  | int a =>
    have whole_ (how : Rounding) : (.ok (.int a) : Answer) = exactRat (rounded how (a.toInt : ℚ)) := by
      rw [rounded_int, exactRat_int]
      exact exact_of_eq rfl
    cases f with
    | neg => cases value; exact (exact_of_narrowed negated_eq).trans (by rw [← exactRat_int]; push_cast; rfl)
    | abs => cases value; exact (exact_of_narrowed abs_eq).trans (by rw [← exactRat_int]; push_cast; rfl)
    | sign =>
      cases value
      rw [quotient]
      exact exactRat_signOf pos
    | floor => cases value; exact whole_ .floor
    | ceiling => cases value; exact whole_ .ceiling
    | round => cases value; exact whole_ .round
    | truncate => cases value; exact whole_ .truncate
    | _ => cases value
  | rat n d =>
    have whole_ (how : Rounding) : whole (ratRound n d how) = exactRat (rounded how ((n.toInt : ℚ) / d.toInt)) := by
      rw [exactRat_int]
      exact exact_of_narrowed (ratRound_eq how cx)
    have pos : 0 < d.toInt := pos
    have num : ((n.toInt : ℚ) / d.toInt).num = n.toInt := Rat.num_div_eq_of_coprime pos cx.2
    have den : (((n.toInt : ℚ) / d.toInt).den : Int) = d.toInt := Rat.den_div_eq_of_coprime pos cx.2
    cases f with
    | neg => cases value; exact negated_rat cx
    | abs => cases value; exact abs_rat cx
    | sign => cases value; exact exactRat_signOf pos
    | numerator =>
      cases value
      rw [num, exactRat_int]
      exact exact_of_eq rfl
    | denominator =>
      cases value
      have whole_ : ((((n.toInt : ℚ) / d.toInt).den : Nat) : ℚ) = (d.toInt : ℚ) := by exact_mod_cast den
      rw [whole_, exactRat_int]
      exact exact_of_eq rfl
    | floor => cases value; exact whole_ .floor
    | ceiling => cases value; exact whole_ .ceiling
    | round => cases value; exact whole_ .round
    | truncate => cases value; exact whole_ .truncate
    | _ => cases value
  | flt _ => exact cx.elim

/-- The comparisons of two canonical values are those of their numbers. -/
theorem numCmp_rational (mixed : Value → Value → Option Ordering) (cx : x.Canonical) (cy : y.Canonical) :
    numCmp mixed x y = some (compare x.rational y.rational) := by
  obtain ⟨px, qx, -⟩ := pair_spec cx
  obtain ⟨py, qy, -⟩ := pair_spec cy
  have exact_ : ratCmp x.pair.1 x.pair.2 y.pair.1 y.pair.2 = compare x.rational y.rational := by
    rw [ratCmp_eq px py, ← qx, ← qy]
  have slow : (if x.isFlt || y.isFlt then mixed x y else some (ratCmp x.pair.1 x.pair.2 y.pair.1 y.pair.2)) =
      some (compare x.rational y.rational) := by
    rw [not_flt cx, not_flt cy, Bool.or_false, if_neg Bool.false_ne_true, exact_]
  cases x with
  | int a =>
    cases y with
    | int b =>
      show some (compare a.toInt b.toInt) = _
      have cross : ratCmp a 1 b 1 = compare a.toInt b.toInt := by
        have one : (1 : Int64).toInt = 1 := rfl
        rw [ratCmp, (i128Mul_eq a 1).1, (i128Mul_eq b 1).1, one, Int.mul_one, Int.mul_one]
      rw [← cross]
      exact congrArg some exact_
    | _ => exact slow
  | _ => exact slow

variable {F : Floats} {ea eb : Expr}

end Cocolog.Arith
