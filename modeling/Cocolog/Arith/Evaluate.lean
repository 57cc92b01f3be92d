import Cocolog.Arith.Exact
import Cocolog.Lib.Double

/-! `coco_arith`: an expression's value, an integer, a float or a rational. What a function
makes of a float is a parameter; integers and rationals are followed to the end. -/

set_option linter.all false

namespace Cocolog.Arith

open Cocolog.Lib Cocolog.Lib.Words

/-- The functions of libm that `coco_float_fn` checks. -/
inductive Libm where
  | sqrt | sin | cos | tan | asin | acos | atan | exp | log | sinh | cosh | tanh | asinh | acosh | atanh
  | log10 | lgamma | erf | erfc | float
deriving Repr, DecidableEq

/-- The functions of one operand. -/
inductive Unary where
  | neg | plus | not | msb | abs | sign | integer | truncate | round | floor | ceiling | ceil
  | numerator | denominator | eval | rational | rationalize | integerPart | fractionalPart
  | libm (f : Libm)
deriving Repr, DecidableEq

/-- The functions of two operands: `divide` is `/`, `quotient` is `//`, `power` is `**` and
`caret` is `^`. -/
inductive Binary where
  | add | sub | mul | divide | quotient | div | mod | rem | max | min | power | caret | gcd
  | shiftRight | shiftLeft | and | or | xor | lcm | getbit | atan | atan2 | copysign | nexttoward | rdiv
deriving Repr, DecidableEq

/-- What an expression comes to. A float is its bits; a rational is the pair the machine
keeps in `arith_n` and `arith_d`. -/
inductive Value where
  | int (v : Int64)
  | flt (x : Nat)
  | rat (n d : Int64)
deriving Repr, DecidableEq

/-- The function an error names. -/
inductive Named where
  | one (f : Unary)
  | two (f : Binary)
  | bit
  | powm
deriving Repr, DecidableEq

inductive Domain where
  | notLessThanZero
  | notLessThanOne
deriving Repr, DecidableEq

inductive Error where
  | instantiation
  | intOverflow
  | zeroDivisor (f : Binary)
  | undefined
  | floatOverflow
  | floatUnderflow
  | rationalOverflow
  | notInteger (x : Value) (f : Named)
  | notRational (x : Value) (f : Named)
  | domain (d : Domain) (x : Int64) (f : Named)
  | notEvaluable (f : Named)
deriving Repr, DecidableEq

abbrev Answer := Except Error Value

/-- The float side: what a function makes of operands one of which is a float, or of exact
operands it has no exact value for, and two of the float flags. -/
structure Floats where
  unary : Unary → Value → Answer
  binary : Binary → Value → Value → Answer
  undefinedNan : Bool
  zeroDivInfinity : Bool

/-- A float side that answers nothing. -/
def noFloats : Floats := ⟨fun _ _ => .error .undefined, fun _ _ _ => .error .undefined, false, false⟩

/-- An integer, or `coco_int_overflow`. -/
def whole : Option Int64 → Answer
  | some v => .ok (.int v)
  | none => .error .intOverflow

/-- `coco_rat_result`: an integer when the denominator is 1. -/
def ratResult (n d : Int64) : Answer := if d = 1 then .ok (.int n) else .ok (.rat n d)

/-- A packed pair, or `coco_int_overflow`. -/
def packed : Option (Int64 × Int64) → Answer
  | some (n, d) => ratResult n d
  | none => .error .intOverflow

/-- `coco_zero_div_fn`. -/
def zeroDivFn (F : Floats) (f : Binary) (sgn : Int) : Answer :=
  if sgn = 0 then if F.undefinedNan then .ok (.flt 9221120237041090560) else .error (.zeroDivisor f)
  else if F.zeroDivInfinity then .ok (.flt (if sgn < 0 then 2 ^ 63 + 9218868437227405312 else 9218868437227405312))
  else .error (.zeroDivisor f)

/-- The sign of an integer, as `sign/1` answers it. -/
def signOf (v : Int64) : Int64 := if 0 < v then 1 else if v < 0 then -1 else 0

/-- The sign of an exponent's double, and whether it is zero: `coco_fsign`. -/
def exponentZero (b : Int64) : Bool := Double.place (Double.ofInt b.toInt) == 0

def exponentNegative (b : Int64) : Bool := decide (Double.place (Double.ofInt b.toInt) < 0)

/-- `**` and `^` of two integers. -/
def power (F : Floats) (f : Binary) (a b : Int64) : Answer :=
  if exponentZero b then .ok (.int 1)
  else if a = 1 then .ok (.int 1)
  else if a = 0 then if exponentNegative b then zeroDivFn F .power 1 else .ok (.int 0)
  else if a = -1 then .ok (.int (if b &&& 1 = 0 then 1 else -1))
  else if 0 ≤ b then whole (ipow a b)
  else F.binary f (.int a) (.int b)

/-- X's magnitude with a sign, in X's type. -/
def copySign (a : Int64) (neg : Bool) : Option Int64 :=
  let an := decide (a < 0)
  if a = Int64.minValue then if neg = an then some a else none
  else
    let mg := if an then 0 - a else a
    some (if neg then 0 - mg else mg)

/-- `coco_arith_binary` of two integers. -/
def integerBinary (F : Floats) (f : Binary) (a b : Int64) : Answer :=
  match f with
  | .add => whole (addOvf a b)
  | .sub => whole (subOvf a b)
  | .mul => whole (mulOvf a b)
  | .divide =>
    if b = 0 then zeroDivFn F .divide (if 0 < a then 1 else if a < 0 then -1 else 0)
    else if b = -1 then whole (if a = Int64.minValue then none else some (0 - a))
    else if a % b = 0 then .ok (.int (a / b))
    else F.binary .divide (.int a) (.int b)
  | .quotient =>
    if b = 0 then .error (.zeroDivisor .quotient)
    else if b = -1 then whole (if a = Int64.minValue then none else some (0 - a))
    else .ok (.int (a / b))
  | .div =>
    if b = 0 then .error (.zeroDivisor .div)
    else if b = -1 then whole (if a = Int64.minValue then none else some (0 - a))
    else .ok (.int (a / b - if floorAdjusts a b then 1 else 0))
  | .mod =>
    if b = 0 then .error (.zeroDivisor .mod)
    else if b = -1 then .ok (.int 0)
    else .ok (.int (a % b + if floorAdjusts a b then b else 0))
  | .rem =>
    if b = 0 then .error (.zeroDivisor .rem)
    else if b = -1 then .ok (.int 0)
    else .ok (.int (a % b))
  | .max => .ok (.int (if a < b then b else a))
  | .min => .ok (.int (if b < a then b else a))
  | .power | .caret => power F f a b
  | .gcd => whole (gcd a b)
  | .shiftRight => whole (shiftRight a b)
  | .shiftLeft => whole (shiftLeft a b)
  | .and => .ok (.int (a &&& b))
  | .or => .ok (.int (a ||| b))
  | .xor => .ok (.int (a ^^^ b))
  | .lcm => whole (lcm a b)
  | .getbit =>
    if b < 0 then .error (.domain .notLessThanZero b .bit)
    else if a < 0 then .error (.domain .notLessThanZero a .bit)
    else if 64 ≤ b then .ok (.int 0)
    else .ok (.int ((a.toUInt64 >>> b.toUInt64) &&& 1).toInt64)
  | .copysign => whole (copySign a (b < 0))
  | .atan | .atan2 | .nexttoward => F.binary f (.int a) (.int b)
  | .rdiv => .error (.notEvaluable (.two .rdiv))

/-- `coco_integer_only_bin`. -/
def integerOnly : Binary → Bool
  | .quotient | .div | .mod | .rem | .gcd | .lcm | .shiftRight | .shiftLeft | .xor | .getbit | .and | .or => true
  | _ => false

namespace Value

def isFlt : Value → Bool
  | flt _ => true
  | _ => false

def isRat : Value → Bool
  | rat _ _ => true
  | _ => false

/-- An exact operand as a pair, an integer over 1. -/
def pair : Value → Int64 × Int64
  | int v => (v, 1)
  | rat n d => (n, d)
  | flt _ => (0, 1)

def negative : Value → Bool
  | int v => v < 0
  | rat n _ => n < 0
  | flt x => Double.negative x

end Value

/-- The first operand that an integer's function names. -/
def nameRational (f : Binary) (x y : Value) : Answer :=
  if x.isRat then .error (.notInteger x (.two f)) else .error (.notInteger y (.two f))

/-- `coco_arith_rat_binary` of two exact operands. -/
def exactBinary (F : Floats) (f : Binary) (x y : Value) : Answer :=
  let (an, ad) := x.pair
  let (bn, bd) := y.pair
  match f with
  | .rdiv => if bn = 0 then .error (.zeroDivisor .divide) else packed (ratDiv an ad bn bd)
  | .max => if ratCmp an ad bn bd ≠ .lt then ratResult an ad else ratResult bn bd
  | .min => if ratCmp an ad bn bd ≠ .gt then ratResult an ad else ratResult bn bd
  | .copysign =>
    match x with
    | .rat n d =>
      match copySign n y.negative with
      | some n => .ok (.rat n d)
      | none => .error .intOverflow
    | _ => whole (copySign an y.negative)
  | .add => packed (ratAdd an ad bn bd)
  | .sub => packed (ratSub an ad bn bd)
  | .mul => packed (ratMul an ad bn bd)
  | .divide => if bn = 0 then .error (.zeroDivisor .divide) else packed (ratDiv an ad bn bd)
  | .power | .caret =>
    match x, y with
    | .rat n d, .int k =>
      if n = 0 ∧ k < 0 then .error (.zeroDivisor .power) else packed (ratPow n d k)
    | _, _ => F.binary f x y
  | .atan | .atan2 | .nexttoward => F.binary f x y
  | _ => if integerOnly f then nameRational f x y else .error (.notEvaluable (.two f))

/-- `coco_arith_rat_binary`, a float beside the rational left to the float side. -/
def ratBinary (F : Floats) (f : Binary) (x y : Value) : Answer :=
  if x.isFlt || y.isFlt then
    if f = .rdiv then .error (.notRational (if x.isFlt then x else y) (.two .rdiv)) else F.binary f x y
  else exactBinary F f x y

/-- The two ways of a binary function: a rational operand, or `rdiv`, goes to the exact one. -/
def binary (F : Floats) (f : Binary) (x y : Value) : Answer :=
  if !x.isRat && !y.isRat && f ≠ .rdiv then
    match x, y with
    | .int a, .int b => integerBinary F f a b
    | _, _ => F.binary f x y
  else ratBinary F f x y

/-- The rounding a function of a rational asks for. -/
def roundingOf : Unary → Option Rounding
  | .integer | .round => some .round
  | .truncate | .integerPart => some .truncate
  | .floor => some .floor
  | .ceiling | .ceil => some .ceiling
  | _ => none

/-- The unary functions of a rational. -/
def rationalUnary (F : Floats) (f : Unary) (n d : Int64) : Answer :=
  match f with
  | .not | .msb => .error (.notInteger (.rat n d) (.one f))
  | .neg => if n = Int64.minValue then .error .intOverflow else .ok (.rat (0 - n) d)
  | .abs => if n = Int64.minValue then .error .intOverflow else .ok (.rat (if n < 0 then 0 - n else n) d)
  | .sign => .ok (.int (signOf n))
  | .numerator => .ok (.int n)
  | .denominator => .ok (.int d)
  | .plus | .eval | .rational | .rationalize => .ok (.rat n d)
  | .fractionalPart => if n % d = 0 then .ok (.int 0) else .ok (.rat (n % d) d)
  | .libm _ => F.unary f (.rat n d)
  | _ =>
    match roundingOf f with
    | some how => whole (ratRound n d how)
    | none => .error (.notEvaluable (.one f))

/-- The unary functions of an integer. -/
def integerUnary (F : Floats) (f : Unary) (a : Int64) : Answer :=
  match f with
  | .neg => whole (if a = Int64.minValue then none else some (0 - a))
  | .abs => whole (if a = Int64.minValue then none else some (if a < 0 then 0 - a else a))
  | .sign => .ok (.int (signOf a))
  | .not => .ok (.int (-1 - a))
  | .msb => if a ≤ 0 then .error (.domain .notLessThanOne a (.one .msb)) else .ok (.int (msbLoop (-1) a))
  | .plus | .eval | .rational | .rationalize | .integer | .truncate | .round | .floor | .ceiling | .integerPart =>
    .ok (.int a)
  | .fractionalPart => .ok (.int 0)
  | .libm _ => F.unary f (.int a)
  | .ceil | .numerator | .denominator => .error (.notEvaluable (.one f))

def unary (F : Floats) (f : Unary) : Value → Answer
  | .int a => integerUnary F f a
  | .rat n d => rationalUnary F f n d
  | .flt x => F.unary f (.flt x)

/-- `powm/3`, its operands asked for in order. -/
def powm : Value → Value → Value → Answer
  | .int a, .int b, .int m =>
    if a < 0 then .error (.domain .notLessThanZero a .powm)
    else if b < 0 then .error (.domain .notLessThanZero b .powm)
    else if m < 1 then .error (.domain .notLessThanOne m .powm)
    else .ok (.int (powm64 a.toUInt64 b.toUInt64 m.toUInt64).toInt64)
  | .int _, .int _, z => .error (.notInteger z .powm)
  | .int _, y, _ => .error (.notInteger y .powm)
  | x, _, _ => .error (.notInteger x .powm)

/-- An integer that is in its cell. -/
structure Small where
  value : Int64
  narrow : -2 ^ 59 ≤ value.toInt ∧ value.toInt < 2 ^ 59

/-- An expression: the leaves by their cells. -/
inductive Expr where
  | var
  | int (v : Small)
  | big (v : Int64)
  | flt (x : Nat)
  | rat (n d : Int64)
  | one (f : Unary) (a : Expr)
  | two (f : Binary) (a b : Expr)
  | powm (a b m : Expr)

/-- Two integer leaves under `+`, `-` or `*`: no check for a sum or a difference. -/
def fastLeaf (f : Binary) : Expr → Expr → Option Answer
  | .int a, .int b =>
    match f with
    | .add => some (.ok (.int (a.value + b.value)))
    | .sub => some (.ok (.int (a.value - b.value)))
    | .mul => some (whole (mulOvf a.value b.value))
    | _ => none
  | _, _ => none

/-- `coco_arith`. -/
def arith (F : Floats) : Expr → Answer
  | .var => .error .instantiation
  | .int v => .ok (.int v.value)
  | .big v => .ok (.int v)
  | .flt x => .ok (.flt x)
  | .rat n d => .ok (.rat n d)
  | .one f a => do unary F f (← arith F a)
  | .two f a b =>
    match fastLeaf f a b with
    | some r => r
    | none => do
      let x ← arith F a
      let y ← arith F b
      binary F f x y
  | .powm a b m => do
    let x ← arith F a
    let y ← arith F b
    let z ← arith F m
    powm x y z

/-- The order of two numbers that are not both exact is the float side's. -/
def numCmp (mixed : Value → Value → Option Ordering) : Value → Value → Option Ordering
  | .int a, .int b => some (compare a.toInt b.toInt)
  | x, y =>
    if x.isFlt || y.isFlt then mixed x y
    else some (ratCmp x.pair.1 x.pair.2 y.pair.1 y.pair.2)

/- The rules of evaluation. -/

variable {F : Floats} {f : Binary} {a b c : Expr} {x y z : Value}

theorem arith_one {f : Unary} (is : arith F a = .ok x) : arith F (.one f a) = unary F f x := by
  rw [arith, is]
  rfl

theorem arith_powm (ia : arith F a = .ok x) (ib : arith F b = .ok y) (ic : arith F c = .ok z) :
    arith F (.powm a b c) = powm x y z := by
  rw [arith, ia, ib, ic]
  rfl

theorem fits_small_add (v w : Small) : Fits (v.value.toInt + w.value.toInt) := by
  obtain ⟨low, high⟩ := v.narrow
  obtain ⟨low', high'⟩ := w.narrow
  unfold Fits
  omega

theorem fits_small_sub (v w : Small) : Fits (v.value.toInt - w.value.toInt) := by
  obtain ⟨low, high⟩ := v.narrow
  obtain ⟨low', high'⟩ := w.narrow
  unfold Fits
  omega

/-- The leaves read at once come to what the two recursions come to. -/
theorem arith_two (ia : arith F a = .ok x) (ib : arith F b = .ok y) : arith F (.two f a b) = binary F f x y := by
  have slow : (do let x ← arith F a; let y ← arith F b; binary F f x y) = binary F f x y := by
    rw [ia, ib]
    rfl
  rw [arith]
  split
  · rename_i r fast
    cases a with
    | int v =>
      cases b with
      | int w =>
        cases ia
        cases ib
        cases f with
        | add =>
          cases fast
          show _ = whole (addOvf v.value w.value)
          rw [addOvf, if_pos (fits_small_add v w)]
          rfl
        | sub =>
          cases fast
          show _ = whole (subOvf v.value w.value)
          rw [subOvf, if_pos (fits_small_sub v w)]
          rfl
        | mul =>
          cases fast
          rfl
        | _ => cases fast
      | _ => cases fast
    | _ => cases fast
  · exact slow

end Cocolog.Arith
