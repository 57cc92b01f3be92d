import Cocolog.Lib.Popcount

/-! The collector's bitmap: one bit a cell, and where a marked cell lands, which is how
many marked cells there are below it. -/

set_option linter.all false

namespace Cocolog.Gc

open Cocolog.Lib Cocolog.Lib.Popcount

/-- `coco_gc_popcount`. -/
def popcount (x : Nat) : Nat :=
  let x := x - ((x >>> 1) &&& 6148914691236517205)
  let x := (x &&& 3689348814741910323) + ((x >>> 2) &&& 3689348814741910323)
  let x := (x + x >>> 4) &&& 1085102592571150095
  (x * 72340172838076673 % 2 ^ 64) >>> 56

theorem popcount_ones {x : Nat} (hx : x < 2 ^ 64) : popcount x = ones x 64 := popcount_eq hx

/-- The bitmap's words. -/
structure Bits where
  words : Nat → Nat
  small : ∀ w, words w < 2 ^ 64

namespace Bits

def empty : Bits := ⟨fun _ => 0, fun _ => by decide⟩

/-- `coco_gc_marked`. -/
def marked (bits : Bits) (i : Nat) : Bool :=
  (bits.words (i >>> 6) &&& (1 <<< (i &&& 63))) != 0

theorem bit_lt (i : Nat) : (1 <<< (i &&& 63)) < 2 ^ 64 := by
  rw [Nat.one_shiftLeft]
  refine Nat.pow_lt_pow_right (by decide) ?_
  exact Nat.lt_of_le_of_lt Nat.and_le_right (by decide)

/-- The bitmap with cell `i` marked. -/
def mark (bits : Bits) (i : Nat) : Bits where
  words := Function.update bits.words (i >>> 6) (bits.words (i >>> 6) ||| (1 <<< (i &&& 63)))
  small := by
    intro w
    by_cases here : w = i >>> 6
    · rw [here, Function.update_self]
      exact Nat.or_lt_two_pow (bits.small _) (bit_lt i)
    · rw [Function.update_of_ne here]
      exact bits.small w

/-- The marked cells before each word, `pre`. -/
def pre (bits : Bits) : Nat → Nat
  | 0 => 0
  | w + 1 => bits.pre w + popcount (bits.words w)

/-- `coco_gc_rank`. -/
def rank (bits : Bits) (i : Nat) : Nat :=
  let w := i >>> 6
  let b := i &&& 63
  if b = 0 then bits.pre w else bits.pre w + popcount (bits.words w &&& ((1 <<< b) - 1))

theorem word_of (i : Nat) : i >>> 6 = i / 64 := Nat.shiftRight_eq_div_pow i 6

theorem place_of (i : Nat) : i &&& 63 = i % 64 := Nat.and_two_pow_sub_one_eq_mod i 6

theorem marked_testBit (bits : Bits) (i : Nat) :
    bits.marked i = (bits.words (i / 64)).testBit (i % 64) := by
  rw [marked, word_of, place_of, Nat.one_shiftLeft, Nat.and_two_pow]
  cases (bits.words (i / 64)).testBit (i % 64) with
  | false => simp
  | true => simp

theorem marked_empty (i : Nat) : empty.marked i = false := by
  rw [marked, empty, Nat.zero_and]
  rfl

theorem marked_mark (bits : Bits) (i j : Nat) :
    (bits.mark i).marked j = (decide (j = i) || bits.marked j) := by
  rw [marked_testBit, marked_testBit, mark]
  dsimp only
  rw [word_of, place_of]
  by_cases same : j / 64 = i / 64
  · rw [same, Function.update_self, Nat.testBit_or, Nat.one_shiftLeft, Nat.testBit_two_pow,
      Bool.or_comm]
    congr 1
    rw [decide_eq_decide]
    omega
  · rw [Function.update_of_ne same]
    have apart : j ≠ i := by
      rintro rfl
      exact same rfl
    rw [decide_eq_false apart, Bool.false_or]

/-- How many marked cells there are below `i`. -/
def below (bits : Bits) (i : Nat) : Nat := Nat.count (fun j => bits.marked j = true) i

theorem pre_below (bits : Bits) (w : Nat) : bits.pre w = bits.below (64 * w) := by
  induction w with
  | zero => exact (Nat.count_zero _).symm
  | succ w ih =>
    rw [pre, ih, popcount_ones (bits.small w), Nat.mul_succ, below, below, Nat.count_add]
    congr 1
    refine count_congr ?_
    intro b hb
    rw [marked_testBit, show (64 * w + b) / 64 = w by omega, show (64 * w + b) % 64 = b by omega]

/-- The rank of a cell is the number of marked cells below it. -/
theorem rank_eq (bits : Bits) (i : Nat) : bits.rank i = bits.below i := by
  have parts : i = 64 * (i / 64) + i % 64 := (Nat.div_add_mod i 64).symm
  have place : i % 64 < 64 := Nat.mod_lt _ (by decide)
  have count : bits.below i = bits.below (64 * (i / 64)) + ones (bits.words (i / 64)) (i % 64) := by
    conv_lhs => rw [parts, below, Nat.count_add]
    congr 1
    refine count_congr ?_
    intro b hb
    rw [marked_testBit, show (64 * (i / 64) + b) / 64 = i / 64 by omega,
      show (64 * (i / 64) + b) % 64 = b by omega]
  rw [count, rank, word_of, place_of, pre_below]
  split
  · rename_i zero
    rw [zero, ones, Nat.count_zero, Nat.add_zero]
  · have low : bits.words (i / 64) &&& ((1 <<< (i % 64)) - 1) < 2 ^ 64 :=
      Nat.lt_of_le_of_lt Nat.and_le_left (bits.small _)
    have mask := ones_mask (bits.words (i / 64)) (i % 64) (64 - i % 64)
    rw [Nat.add_sub_cancel' (Nat.le_of_lt place)] at mask
    rw [popcount_ones low, Nat.one_shiftLeft, mask]

theorem below_lt {bits : Bits} {i j : Nat} (kept : bits.marked i = true) (older : i < j) :
    bits.below i < bits.below j :=
  Nat.count_strict_mono kept older

theorem below_mono {bits : Bits} {i j : Nat} (le : i ≤ j) : bits.below i ≤ bits.below j :=
  Nat.count_monotone _ le

theorem below_le (bits : Bits) (i : Nat) : bits.below i ≤ i := Nat.count_le _

theorem below_succ {bits : Bits} {i : Nat} (kept : bits.marked i = true) :
    bits.below (i + 1) = bits.below i + 1 := by
  rw [below, Nat.count_succ, if_pos kept]
  rfl

theorem below_skip {bits : Bits} {i : Nat} (dropped : bits.marked i = false) :
    bits.below (i + 1) = bits.below i := by
  rw [below, Nat.count_succ, if_neg (by rw [dropped]; decide)]
  rfl

theorem below_inj {bits : Bits} {i j : Nat} (hi : bits.marked i = true) (hj : bits.marked j = true)
    (same : bits.below i = bits.below j) : i = j :=
  Nat.count_injective hi hj same

/-- A stretch of marked cells stays a stretch. -/
theorem below_add {bits : Bits} {i k : Nat} (kept : ∀ j < k, bits.marked (i + j) = true) :
    bits.below (i + k) = bits.below i + k := by
  induction k with
  | zero => rfl
  | succ k ih =>
    rw [← Nat.add_assoc, below_succ (kept k (Nat.lt_succ_self k)),
      ih fun j hj => kept j (Nat.lt_succ_of_lt hj)]
    rfl

end Bits

end Cocolog.Gc
