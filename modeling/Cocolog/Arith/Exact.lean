import Cocolog.Lib.Words

/-! The exact arithmetic of `coco_arith`: integers of 64 bits, and pairs of them for the
rationals, the products in 128 bits. `none` is an overflow. -/

set_option linter.all false

namespace Cocolog.Arith

open Cocolog.Lib.Words

/- Integers. -/

/-- `coco_add_ovf`. -/
def addOvf (a b : Int64) : Option Int64 := if Fits (a.toInt + b.toInt) then some (a + b) else none

/-- `coco_sub_ovf`. -/
def subOvf (a b : Int64) : Option Int64 := if Fits (a.toInt - b.toInt) then some (a - b) else none

/-- `coco_mul_ovf`. -/
def mulOvf (a b : Int64) : Option Int64 := if Fits (a.toInt * b.toInt) then some (a * b) else none

/-- `coco_floor_adjusts`: the signs compared, never multiplied. -/
def floorAdjusts (a b : Int64) : Bool := a % b ≠ 0 && (decide (a % b < 0) != decide (b < 0))

/-- `coco_lsh`. -/
def lsh (a k : Int64) : Option Int64 :=
  if a = 0 then some 0
  else if 63 < k then none
  else
    let r := (a.toUInt64 <<< k.toUInt64).toInt64
    if r >>> k ≠ a then none else some r

/-- `coco_shift_right`. -/
def shiftRight (a n : Int64) : Option Int64 :=
  if n < 0 then if n < -63 then lsh a 64 else lsh a (0 - n)
  else if 63 < n then some (if a < 0 then -1 else 0)
  else some (a >>> n)

/-- `coco_shift_left`. -/
def shiftLeft (a n : Int64) : Option Int64 :=
  if n < 0 then if n < -63 then some (if a < 0 then -1 else 0) else some (a >>> (0 - n))
  else lsh a n

theorem half_lt {k : Int64} (pos : 0 < k) : (k >>> 1).toInt.toNat < k.toInt.toNat := by
  have some_ : (0 : Int64).toInt < k.toInt := Int64.lt_iff_toInt_lt.mp pos
  have zero : (0 : Int64).toInt = 0 := rfl
  have half := @toInt_shiftRight k 1 (by decide) (by decide)
  have one : (2 : Int) ^ (1 : Int64).toInt.toNat = 2 := rfl
  rw [one] at half
  omega

/-- The loop of `coco_ipow`: the square is taken only while a bit is left to use it. -/
def ipowLoop (acc b k : Int64) : Option Int64 :=
  if pos : 0 < k then
    let acc' := if k &&& 1 ≠ 0 then mulOvf acc b else some acc
    acc'.bind fun acc =>
      if (0 : Int64) < k >>> 1 then (mulOvf b b).bind fun b => ipowLoop acc b (k >>> 1) else some acc
  else some acc
termination_by k.toInt.toNat
decreasing_by exact half_lt pos

/-- `coco_ipow`. -/
def ipow (base n : Int64) : Option Int64 := ipowLoop 1 base n

/-- The magnitude of an integer, 2^63 for the least. -/
def magnitude (a : Int64) : UInt64 := if a < 0 then 0 - a.toUInt64 else a.toUInt64

/-- The loop of `gcd`. -/
def gcdLoop (a b : UInt64) : UInt64 :=
  if b = 0 then a else gcdLoop b (a % b)
termination_by b.toNat
decreasing_by
  rename_i some_
  have pos : 0 < b.toNat := Nat.pos_of_ne_zero fun zero => some_ (UInt64.toNat_inj.mp zero)
  rw [UInt64.toNat_mod]
  exact Nat.mod_lt _ pos

/-- `gcd`, in magnitudes. -/
def gcd (a b : Int64) : Option Int64 :=
  let g := gcdLoop (magnitude a) (magnitude b)
  if 9223372036854775807 < g then none else some g.toInt64

/-- `lcm`, the product in 128 bits. -/
def lcm (a b : Int64) : Option Int64 :=
  let g := gcdLoop (magnitude a) (magnitude b)
  if g = 0 then some 0
  else
    let m := wrap128 ((magnitude a / g).toNat * (magnitude b).toNat)
    if 9223372036854775807 < m then none else some (Int64.ofInt m)

/-- The places of `msb`, counted down to the sign. -/
def msbLoop (b v : Int64) : Int64 :=
  if _pos : 0 < v then msbLoop (b + 1) (v >>> 1) else b
termination_by v.toInt.toNat
decreasing_by exact half_lt _pos

/-- `coco_mulmod`. -/
def mulmod (a b m : UInt64) : UInt64 :=
  if m = 0 then 0 else UInt64.ofNat ((wrap128 (a.toNat * b.toNat)).tmod m.toNat).toNat

theorem halved_lt {b : UInt64} (pos : 0 < b) : (b >>> 1).toNat < b.toNat := by
  have some_ : (0 : UInt64).toNat < b.toNat := UInt64.lt_iff_toNat_lt.mp pos
  have zero : (0 : UInt64).toNat = 0 := rfl
  have half : (b >>> 1).toNat = b.toNat / 2 := by
    rw [UInt64.toNat_shiftRight]
    exact Nat.shiftRight_eq_div_pow _ 1
  omega

/-- The loop of `coco_powm64`. -/
def powmLoop (m r a b : UInt64) : UInt64 :=
  if _pos : 0 < b then
    let r := if b &&& 1 = 1 then mulmod r a m else r
    let a := if (0 : UInt64) < b >>> 1 then mulmod a a m else a
    powmLoop m r a (b >>> 1)
  else r
termination_by b.toNat
decreasing_by exact halved_lt _pos

/-- `coco_powm64`. -/
def powm64 (a b m : UInt64) : UInt64 := powmLoop m 1 (a % m) b

/- Rationals. -/

/-- The loop of `coco_i128_gcd`, both signs off. -/
def i128GcdLoop (a b : Int) : Int :=
  if b = 0 then a else i128GcdLoop b (a.tmod b)
termination_by b.natAbs
decreasing_by
  rename_i some_
  rw [Int.natAbs_tmod]
  exact Nat.mod_lt _ (Int.natAbs_pos.mpr some_)

/-- `coco_i128_gcd`. -/
def i128Gcd (a b : Int) : Int :=
  i128GcdLoop (if a < 0 then wrap128 (0 - a) else a) (if b < 0 then wrap128 (0 - b) else b)

/-- `coco_i128_fits`. -/
def i128Fits (n d : Int) : Bool :=
  decide (-9223372036854775807 - 1 ≤ n) && decide (n ≤ 9223372036854775807) && decide (1 ≤ d) &&
    decide (d ≤ 9223372036854775807)

/-- `coco_rat_pack`. -/
def ratPack (n d : Int) : Option (Int64 × Int64) :=
  if d = 0 then none
  else
    let n' := if d < 0 then wrap128 (0 - n) else n
    let d' := if d < 0 then wrap128 (0 - d) else d
    let g := i128Gcd n' d'
    let n'' := if g ≠ 0 then n'.tdiv g else n'
    let d'' := if g ≠ 0 then d'.tdiv g else d'
    if i128Fits n'' d'' then some (Int64.ofInt n'', Int64.ofInt d'') else none

/-- The product of two words as an i128. -/
def i128Mul (a b : Int64) : Int := wrap128 (a.toInt * b.toInt)

/-- `coco_rat_add`. -/
def ratAdd (an ad bn bd : Int64) : Option (Int64 × Int64) :=
  ratPack (wrap128 (i128Mul an bd + i128Mul bn ad)) (i128Mul ad bd)

/-- `coco_rat_sub`. -/
def ratSub (an ad bn bd : Int64) : Option (Int64 × Int64) :=
  ratPack (wrap128 (i128Mul an bd - i128Mul bn ad)) (i128Mul ad bd)

/-- `coco_rat_mul`. -/
def ratMul (an ad bn bd : Int64) : Option (Int64 × Int64) := ratPack (i128Mul an bn) (i128Mul ad bd)

/-- `coco_rat_div`. -/
def ratDiv (an ad bn bd : Int64) : Option (Int64 × Int64) := ratPack (i128Mul an bd) (i128Mul ad bn)

/-- `coco_rat_cmp`. -/
def ratCmp (an ad bn bd : Int64) : Ordering := compare (i128Mul an bd) (i128Mul bn ad)

/-- The loop of `coco_rat_pow`. -/
def ratPowLoop (accn accd bn bd e : Int64) : Option (Int64 × Int64) :=
  if pos : 0 < e then
    let acc := if e &&& 1 ≠ 0 then (mulOvf accn bn).bind fun n => (mulOvf accd bd).map (n, ·) else some (accn, accd)
    acc.bind fun acc =>
      if (0 : Int64) < e >>> 1 then
        (mulOvf bn bn).bind fun bn => (mulOvf bd bd).bind fun bd => ratPowLoop acc.1 acc.2 bn bd (e >>> 1)
      else some acc
  else some (accn, accd)
termination_by e.toInt.toNat
decreasing_by exact half_lt pos

/-- `coco_rat_pow`: a negative power swaps the pair. -/
def ratPow (n d k : Int64) : Option (Int64 × Int64) :=
  if k < 0 then
    if k = Int64.minValue then none
    else if n = 0 then none
    else ratPowLoop 1 1 d n (0 - k)
  else ratPowLoop 1 1 n d k

/-- The four roundings of `coco_rat_round`. -/
inductive Rounding where
  | truncate
  | floor
  | ceiling
  | round
deriving Repr, DecidableEq

/-- One less, unless it is the least. -/
def below (q : Int64) : Option Int64 := if q = Int64.minValue then none else some (q - 1)

/-- One more, unless it is the largest. -/
def above (q : Int64) : Option Int64 := if q = 9223372036854775807 then none else some (q + 1)

/-- `coco_rat_round`. -/
def ratRound (n d : Int64) (how : Rounding) : Option Int64 :=
  let q := n / d
  let r := n % d
  match how with
  | .truncate => some q
  | .floor => if r ≠ 0 ∧ n < 0 then below q else some q
  | .ceiling => if r ≠ 0 ∧ 0 < n then above q else some q
  | .round =>
    let ar := (if r < 0 then 0 - r else r).toUInt64
    if d.toUInt64 ≤ 2 * ar then if 0 < n then above q else below q else some q

end Cocolog.Arith
