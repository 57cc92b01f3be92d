import Cocolog.Lib.Json
import Mathlib.Tactic.Ring

/-! Numbers as text: `coco_sb_put_i64` and `coco_sb_put_double` write one, and
`coco_read_number_text` reads one from digits, a sign, a point and an exponent. -/

set_option linter.all false

namespace Cocolog.Json
open Lib.Json

/-- `[-]d.ddde±X`: what `printf` writes for `%.*e`. -/
structure Scientific where
  minus : Bool
  digits : List Nat
  exp : Int
deriving DecidableEq

/-- The doubles, with the functions of C's library and the comparisons these files make. -/
structure Doubles (F : Type) where
  strtod : Text → F
  value : Scientific → F
  printf : Nat → F → Scientific
  neg : F → F
  nan : F → Bool
  infinite : F → Bool
  negative : F → Bool
  /-- Nearer to zero than 2.2250738585072014e-308. -/
  small : F → Bool
  /-- Greater than 1.7976931348623157e308. -/
  huge : F → Bool
  same : F → F → Bool
  less : F → F → Bool

inductive Number (F : Type) where
  | int (i : Int)
  | flt (x : F)
deriving DecidableEq

section
variable {F : Type} (D : Doubles F)

/-- `%llu`. -/
def decimal (n : Nat) : Text := if n = 0 then [48] else ((Nat.digits 10 n).map (48 + ·)).reverse

/-- `coco_sb_put_i64`. -/
def putI64 (i : Int) : Text := if i < 0 then 45 :: decimal i.natAbs else decimal i.natAbs

/-- One more in the last place, the digits from the last one on, and whether all were 9. -/
def carry : List Nat → List Nat × Bool
  | [] => ([], true)
  | d :: ds => if d = 9 then (0 :: (carry ds).1, (carry ds).2) else ((d + 1) :: ds, false)

/-- One less in the last place. -/
def borrow : List Nat → List Nat
  | [] => []
  | d :: ds => if d = 0 then 9 :: borrow ds else (d - 1) :: ds

/-- The neighbour that `coco_float_nudge` tries: towards greater numbers when `up`. -/
def nudge (t : Scientific) (up : Bool) : Scientific :=
  if up ≠ t.minus then
    let c := carry t.digits.reverse
    if c.2 then { t with digits := 1 :: c.1.reverse.tail, exp := t.exp + 1 }
    else { t with digits := c.1.reverse }
  else
    let ds := (borrow t.digits.reverse).reverse
    if ds.head? = some 0 then
      { t with digits := List.replicate t.digits.length 9, exp := t.exp - 1 }
    else { t with digits := ds }

/-- The loop over the number of digits, with `left` of them to try before 17. -/
def fewest (v : F) : Nat → Scientific
  | 0 => D.printf 17 v
  | left + 1 =>
    let t := D.printf (16 - left) v
    let w := D.value t
    if D.same w v then t
    else
      let t' := nudge t (D.less w v)
      if D.same (D.value t') v then t' else fewest v left

/-- The zeros off the end, the digits from the last one on. -/
def stripped : List Nat → List Nat
  | [] => []
  | [d] => [d]
  | d :: e :: ds => if d = 0 then stripped (e :: ds) else d :: e :: ds

/-- `%+d`. -/
def signed (i : Int) : Text := (if i < 0 then 45 else 43) :: decimal i.natAbs

/-- How the digits are set out, `exp + 1` of them before the point. -/
def layout (digits : List Nat) (exp : Int) : Text :=
  let ds := digits.map (48 + ·)
  let dp := exp + 1
  if dp ≤ 0 ∧ -4 < dp then 48 :: 46 :: (List.replicate (-dp).toNat 48 ++ ds)
  else if 0 < dp ∧ dp < ds.length then ds.take dp.toNat ++ 46 :: ds.drop dp.toNat
  else if 0 < dp ∧ dp ≤ 15 then ds ++ (List.replicate (dp.toNat - ds.length) 48 ++ [46, 48])
  else
    (ds.head?.getD 48 :: 46 :: (if 1 < ds.length then ds.tail else [48])) ++ 101 :: signed (dp - 1)

/-- `coco_sb_put_double`. -/
def putDouble (v : F) : Text :=
  if D.nan v then [49, 46, 53, 78, 97, 78]
  else if D.infinite v then
    if D.negative v then [45, 49, 46, 48, 73, 110, 102] else [49, 46, 48, 73, 110, 102]
  else
    let t := fewest D v (if D.small v then 16 else 2)
    (if t.minus then [45] else []) ++ layout (stripped t.digits.reverse).reverse t.exp

/-- `number_codes(+N, -Codes)`. -/
def numberCodes : Number F → Text
  | .int i => putI64 i
  | .flt x => putDouble D x

/-- `coco_mag_digit` over the digits of a literal: none past 2^63. -/
def magnitude (v : Nat) : Text → Option Nat
  | [] => some v
  | d :: ds => if (2 ^ 63 - (d - 48)) / 10 < v then none else magnitude (v * 10 + (d - 48)) ds

/-- `coco_mag_token` and the sign: 2^63 is a number below zero only. -/
def readInt (neg : Bool) (ds : Text) : Option Int :=
  match magnitude 0 ds with
  | none => none
  | some v =>
    if 2 ^ 63 - 1 < v then (if neg then some (-2 ^ 63) else none)
    else some (if neg then -(v : Int) else v)

/-- A fraction, where a digit follows the point. -/
def lexFrac : Text → Text × Text
  | c :: d :: w =>
    if c = 46 ∧ Digit d then (46 :: (d :: w).takeWhile Digit, (d :: w).dropWhile Digit)
    else ([], c :: d :: w)
  | w => ([], w)

/-- The sign an exponent may have. -/
def lexSign : Text → Text × Text
  | c :: w => if c = 43 ∨ c = 45 then ([c], w) else ([], c :: w)
  | [] => ([], [])

/-- An exponent, where a digit follows the letter and the sign. -/
def lexExp : Text → Text × Text
  | e :: w =>
    let s := lexSign w
    if (e = 101 ∨ e = 69) ∧ ∃ d ∈ s.2.head?, Digit d then
      (e :: (s.1 ++ s.2.takeWhile Digit), s.2.dropWhile Digit)
    else ([], e :: w)
  | [] => ([], [])

/-- `coco_read_number_text` for a decimal number: no layout, no digit group, no radix and no
denominator. -/
def readNumberText (w : Text) : Option (Number F) :=
  let neg := decide (w.head? = some 45)
  let u := if w.head? = some 45 ∨ w.head? = some 43 then w.tail else w
  let whole := u.takeWhile Digit
  let frac := lexFrac (u.dropWhile Digit)
  let exp := lexExp frac.2
  if whole = [] ∨ exp.2 ≠ [] then none
  else if frac.1 = [] ∧ exp.1 = [] then (readInt neg whole).map .int
  else
    let x := D.strtod (whole ++ (frac.1 ++ exp.1))
    if D.huge x then none else some (.flt (if neg ∧ D.nan x = false then D.neg x else x))

/-- What the reader makes of a numeral of JSON. -/
def numberOf (n : Numeral) : Option (Number F) :=
  if n.Integral then (readInt (decide (n.minus ≠ [])) n.whole).map .int
  else
    let x := D.strtod (n.whole ++ (n.frac ++ n.exp))
    if D.huge x then none
    else some (.flt (if n.minus ≠ [] ∧ D.nan x = false then D.neg x else x))

end

/-! ## A numeral is read whole -/

theorem lexFrac_numeral (n : Numeral) : lexFrac (n.frac ++ n.exp) = (n.frac, n.exp) := by
  have stop : Undigited n.exp := by simpa using n.exp_eq.head undigited_nil
  rcases n.frac_eq with is | ⟨d, ds, is, digit, digits⟩
  · rw [is]
    rcases n.exp_eq with none | ⟨e, sign, d, ds, exp, letter, _⟩
    · rw [none]; rfl
    · rw [exp]
      rcases letter with rfl | rfl <;> cases sign <;> simp [lexFrac]
  · rw [is]
    show lexFrac (46 :: d :: (ds ++ n.exp)) = _
    have all := Digits.cons digit digits
    have taken := takeWhile_digits all stop
    have left := dropWhile_digits all stop
    simp only [List.cons_append] at taken left
    simp only [lexFrac, taken, left, digit, and_self, if_pos]

theorem lexExp_numeral (n : Numeral) : lexExp n.exp = (n.exp, []) := by
  rcases n.exp_eq with is | ⟨e, sign, d, ds, is, letter, signs, digit, digits⟩
  · rw [is]; rfl
  · have all := Digits.cons digit digits
    have taken := takeWhile_digits all undigited_nil
    have left := dropWhile_digits all undigited_nil
    have plain : ¬(d = 43 ∨ d = 45) := by unfold Digit at digit; omega
    rw [List.append_nil] at taken left
    have lexed : lexSign (sign ++ d :: ds) = (sign, d :: ds) := by
      rcases signs with rfl | rfl | rfl <;> simp [lexSign, plain]
    rw [is]
    simp only [lexExp, lexed, taken, left]
    rw [if_pos ⟨letter, d, rfl, digit⟩]

theorem readNumberText_numeral {F : Type} (D : Doubles F) (n : Numeral) :
    readNumberText D n.text = numberOf D n := by
  obtain ⟨present, digits⟩ := n.whole_eq.digits
  have stop : Undigited (n.frac ++ n.exp) := n.frac_eq.head (by simpa using n.exp_eq.head undigited_nil)
  have taken := takeWhile_digits digits stop
  have left := dropWhile_digits digits stop
  have unsigned : ∀ c ∈ n.whole.head?, c ≠ 45 ∧ c ≠ 43 := by
    intro c head
    have := digits c (List.mem_of_mem_head? head)
    unfold Digit at this
    omega
  have sign : (n.text.head? = some 45 ↔ n.minus ≠ []) ∧
      (if n.text.head? = some 45 ∨ n.text.head? = some 43 then n.text.tail else n.text) =
        n.whole ++ (n.frac ++ n.exp) := by
    rcases n.minus_eq with is | is
    · obtain ⟨c, w, whole⟩ := List.exists_cons_of_ne_nil present
      have := unsigned c (by rw [whole]; rfl)
      simp [Numeral.text, is, whole, this]
    · simp [Numeral.text, is]
  simp only [readNumberText, numberOf, sign.2, taken, left, lexFrac_numeral, lexExp_numeral]
  rw [if_neg (by simp [present]), decide_eq_decide.mpr sign.1]
  by_cases integral : n.frac = [] ∧ n.exp = []
  · rw [if_pos integral]
    exact (if_pos integral).symm
  · rw [if_neg integral]
    refine Eq.trans ?_ (if_neg integral).symm
    simp

/-! ## Integers -/

theorem natOf_cons (d : Nat) (ds : Text) : natOf (d :: ds) = (d - 48) * 10 ^ ds.length + natOf ds := by
  simp [natOf, Nat.ofDigits_append]
  ring

theorem magnitude_eq {ds : Text} (digits : Digits ds) {v : Nat} (le : v ≤ 2 ^ 63) :
    magnitude v ds =
      if v * 10 ^ ds.length + natOf ds ≤ 2 ^ 63 then some (v * 10 ^ ds.length + natOf ds) else none := by
  induction ds generalizing v with
  | nil => simpa [magnitude, natOf] using le
  | cons d ds ih =>
    have digit : d - 48 ≤ 9 := by have := (digits d List.mem_cons_self).2; omega
    have total : v * 10 ^ (d :: ds).length + natOf (d :: ds) =
        (v * 10 + (d - 48)) * 10 ^ ds.length + natOf ds := by
      rw [natOf_cons, List.length_cons, pow_succ]
      ring
    rw [total]
    unfold magnitude
    split
    · next wide =>
      have past : 2 ^ 63 < v * 10 + (d - 48) := by omega
      have : v * 10 + (d - 48) ≤ (v * 10 + (d - 48)) * 10 ^ ds.length :=
        Nat.le_mul_of_pos_right _ (Nat.pow_pos (by decide))
      exact (if_neg (by omega)).symm
    · next narrow => exact ih (fun c mem => digits c (List.mem_cons_of_mem d mem)) (by omega)

/-- An integer is read when it fits 64 bits. -/
theorem readInt_numeral (n : Numeral) :
    readInt (decide (n.minus ≠ [])) n.whole =
      if -2 ^ 63 ≤ n.int ∧ n.int < 2 ^ 63 then some n.int else none := by
  have read := magnitude_eq n.whole_eq.digits.2 (Nat.zero_le (2 ^ 63))
  simp only [Nat.zero_mul, Nat.zero_add] at read
  unfold readInt Numeral.int
  rw [read]
  by_cases fits : natOf n.whole ≤ 2 ^ 63
  · rw [if_pos fits]
    by_cases minus : n.minus = [] <;> simp only [minus] <;> grind
  · rw [if_neg fits]
    by_cases minus : n.minus = [] <;> simp only [minus] <;> grind

theorem decimal_digits (n : Nat) : Digits (decimal n) := by
  intro c mem
  unfold decimal at mem
  split at mem
  · simp_all [Digit]
  · obtain ⟨d, digit, rfl⟩ := List.mem_map.mp (List.mem_reverse.mp mem)
    have := Nat.digits_lt_base (by decide) digit
    exact ⟨by omega, by omega⟩

theorem natOf_decimal (n : Nat) : natOf (decimal n) = n := by
  unfold decimal natOf
  split
  · next zero => simp [zero]
  · have back : ((· - 48) ∘ (48 + ·) : Nat → Nat) = id := by
      funext c
      simp
    rw [List.map_reverse, List.reverse_reverse, List.map_map, back, List.map_id, Nat.ofDigits_digits]

theorem decimal_head {n : Nat} (pos : n ≠ 0) : ∃ d ds, decimal n = d :: ds ∧ 49 ≤ d := by
  have last := Nat.getLast_digit_ne_zero 10 pos
  have nonempty := Nat.digits_ne_nil_iff_ne_zero (b := 10) |>.mpr pos
  refine ⟨48 + (Nat.digits 10 n).getLast nonempty, ((Nat.digits 10 n).dropLast.map (48 + ·)).reverse,
    ?_, by omega⟩
  rw [decimal, if_neg pos]
  conv_lhs => rw [← List.dropLast_append_getLast nonempty]
  simp

theorem decimal_natOf (n : Numeral) : decimal (natOf n.whole) = n.whole := by
  rcases n.whole_eq with is | ⟨d, ds, is, low, high, digits⟩
  · rw [is]; rfl
  · have all : Digits (d :: ds) := Digits.cons ⟨by omega, high⟩ digits
    have read : Nat.digits 10 (natOf (d :: ds)) = ((d :: ds).map (· - 48)).reverse := by
      refine Nat.digits_ofDigits 10 (by decide) _ ?_ ?_
      · intro x mem
        obtain ⟨c, digit, rfl⟩ := List.mem_map.mp (List.mem_reverse.mp mem)
        have := (all c digit).2
        omega
      · intro nonempty
        simp only [List.getLast_reverse, List.map_cons, List.head_cons]
        omega
    have pos : natOf (d :: ds) ≠ 0 := by
      rw [natOf_cons]
      have : 0 < (d - 48) * 10 ^ ds.length := Nat.mul_pos (by omega) (Nat.pow_pos (by decide))
      omega
    rw [is, decimal, if_neg pos, read, List.map_reverse, List.reverse_reverse, List.map_map]
    conv_rhs => rw [← List.map_id (d :: ds)]
    refine List.map_congr_left fun c mem => ?_
    have := (all c mem).1
    simp only [Function.comp_apply, id_eq]
    omega

/-- An integer is written as it was read. The only other way to write one is `-0`. -/
theorem putI64_int {n : Numeral} (integral : n.Integral) :
    putI64 n.int = n.text ∨ n.text = [45, 48] := by
  have back := decimal_natOf n
  rcases n.minus_eq with is | is
  · left
    have : ¬((natOf n.whole : Int) < 0) := by omega
    simp [putI64, Numeral.int, Numeral.text, is, this, integral.1, integral.2, back]
  · rcases n.whole_eq with zero | ⟨d, ds, whole, low, _, _⟩
    · right
      simp [Numeral.text, is, zero, integral.1, integral.2]
    · left
      have pos : 0 < natOf n.whole := by
        rw [whole, natOf_cons]
        exact Nat.add_pos_left (Nat.mul_pos (by omega) (Nat.pow_pos (by decide))) _
      simp [putI64, Numeral.int, Numeral.text, is, integral.1, integral.2, back, pos.ne']

end Cocolog.Json
