import Mathlib.Data.Nat.Count
import Mathlib.Data.Nat.Bitwise

/-! The number of bits set in a word by the parallel sum: pairs, then nibbles, then
bytes, and one multiplication that adds the bytes up. Each stage works byte by byte. -/

set_option linter.all false

namespace Cocolog.Lib.Popcount

/-- The number of bits set below `n`. -/
def ones (x n : Nat) : Nat := Nat.count (fun i => x.testBit i = true) n

/-- One byte in each of `k` places. -/
def rep (byte : Nat) : Nat → Nat
  | 0 => 0
  | k + 1 => byte + 256 * rep byte k

/-- The count in every pair of bits. -/
def pairs (k x : Nat) : Nat := x - ((x >>> 1) &&& rep 85 k)

/-- The count in every nibble. -/
def nibbles (k x : Nat) : Nat := (pairs k x &&& rep 51 k) + ((pairs k x >>> 2) &&& rep 51 k)

/-- The count in every byte. -/
def bytes (k x : Nat) : Nat := (nibbles k x + nibbles k x >>> 4) &&& rep 15 k

theorem and_split {a b : Nat} (c d : Nat) (ha : a < 256) (hb : b < 256) :
    (a + 256 * c) &&& (b + 256 * d) = (a &&& b) + 256 * (c &&& d) := by
  have low : ((a + 256 * c) &&& (b + 256 * d)) % 2 ^ 8 = a &&& b := by
    rw [Nat.and_mod_two_pow]
    congr 1 <;> omega
  have high : ((a + 256 * c) &&& (b + 256 * d)) / 2 ^ 8 = c &&& d := by
    rw [Nat.and_div_two_pow]
    congr 1 <;> omega
  omega

/-- A mask that keeps no bit the shift brings in from the next byte. -/
theorem shift_and_split {s a b : Nat} (c d : Nat) (hs : s ≤ 8) (ha : a < 256) (hb : b < 2 ^ (8 - s)) :
    ((a + 256 * c) >>> s) &&& (b + 256 * d) = ((a >>> s) &&& b) + 256 * ((c >>> s) &&& d) := by
  have whole : 2 ^ (8 - s) * 2 ^ s = 256 := by
    rw [← Nat.pow_add, Nat.sub_add_cancel hs]
  have positive : 0 < 2 ^ s := Nat.two_pow_pos s
  have small : b < 256 := Nat.lt_of_lt_of_le hb (by
    rw [← whole]
    exact Nat.le_mul_of_pos_right _ positive)
  have shifted : (a + 256 * c) >>> s = a >>> s + 2 ^ (8 - s) * c := by
    rw [Nat.shiftRight_eq_div_pow, Nat.shiftRight_eq_div_pow, ← whole, Nat.mul_assoc,
      Nat.mul_comm (2 ^ s) c, ← Nat.mul_assoc, Nat.add_mul_div_right _ _ positive]
  have low : ((a >>> s + 2 ^ (8 - s) * c) &&& b) = (a >>> s) &&& b := by
    have inside : (a >>> s) < 2 ^ (8 - s) := by
      rw [Nat.shiftRight_eq_div_pow, Nat.div_lt_iff_lt_mul positive, whole]
      exact ha
    have reduce : ∀ x, x &&& b = (x % 2 ^ (8 - s)) &&& b := by
      intro x
      have cut := @Nat.and_mod_two_pow x b (8 - s)
      rwa [Nat.mod_eq_of_lt hb, Nat.mod_eq_of_lt (Nat.lt_of_le_of_lt Nat.and_le_right hb)] at cut
    rw [reduce, Nat.add_mul_mod_self_left, Nat.mod_eq_of_lt inside]
  have high : (a + 256 * c) >>> s / 256 = c >>> s := by
    rw [Nat.shiftRight_eq_div_pow, Nat.shiftRight_eq_div_pow, Nat.div_div_eq_div_mul,
      Nat.mul_comm (2 ^ s) 256, ← Nat.div_div_eq_div_mul]
    congr 1
    omega
  have bottom : ((a + 256 * c) >>> s % 256) &&& b = (a >>> s) &&& b := by
    have cut := @Nat.and_mod_two_pow ((a + 256 * c) >>> s) b 8
    rw [Nat.mod_eq_of_lt (show b < 2 ^ 8 from small),
      Nat.mod_eq_of_lt (Nat.lt_of_le_of_lt Nat.and_le_right (show b < 2 ^ 8 from small))] at cut
    rw [← low, ← shifted]
    exact cut.symm
  have parts := and_split ((a + 256 * c) >>> s / 256) d
    (Nat.mod_lt ((a + 256 * c) >>> s) (show 0 < 256 by decide)) small
  rw [Nat.mod_add_div, bottom, high] at parts
  exact parts

/- A byte alone, by looking at all of them. -/

theorem of_all_bytes {P : Nat → Prop} [DecidablePred P] (all : (List.range 256).all (fun b => decide (P b)) = true) :
    ∀ b < 256, P b :=
  fun b lt => of_decide_eq_true (List.all_eq_true.mp all b (List.mem_range.mpr lt))

theorem pairs_byte : ∀ b < 256, (b >>> 1) &&& 85 ≤ b ∧ b - ((b >>> 1) &&& 85) < 256 := by
  intro b hb
  have half : b >>> 1 ≤ b := by
    rw [Nat.shiftRight_eq_div_pow]
    exact Nat.div_le_self _ _
  exact ⟨Nat.le_trans Nat.and_le_left half, Nat.lt_of_le_of_lt (Nat.sub_le _ _) hb⟩

theorem nibbles_byte : ∀ b < 256,
    (((b - ((b >>> 1) &&& 85)) &&& 51) + (((b - ((b >>> 1) &&& 85)) >>> 2) &&& 51)) ≤ 68 ∧
    (((b - ((b >>> 1) &&& 85)) &&& 51) + (((b - ((b >>> 1) &&& 85)) >>> 2) &&& 51)) % 16 ≤ 4 :=
  of_all_bytes (by decide +kernel)

theorem bytes_byte : ∀ b < 256, bytes 1 b = ones b 8 ∧ bytes 1 b ≤ 8 := of_all_bytes (by decide +kernel)

theorem rep_one (byte : Nat) : rep byte 1 = byte := by rw [rep, rep]; rfl

theorem and_le_pairs (k q : Nat) : ((q >>> 1) &&& rep 85 k) ≤ q := by
  refine Nat.le_trans Nat.and_le_left ?_
  rw [Nat.shiftRight_eq_div_pow]
  exact Nat.div_le_self _ _

theorem pairs_succ (k : Nat) {b : Nat} (hb : b < 256) (q : Nat) :
    pairs (k + 1) (b + 256 * q) = pairs 1 b + 256 * pairs k q := by
  have split_ := shift_and_split (s := 1) (b := 85) q (rep 85 k) (by decide) hb (by decide)
  have low := (pairs_byte b hb).1
  have high := and_le_pairs k q
  simp only [pairs, rep_one]
  rw [rep, split_]
  omega

theorem pairs_lt {b : Nat} (hb : b < 256) : pairs 1 b < 256 := by
  rw [pairs, rep_one]
  exact (pairs_byte b hb).2

theorem nibbles_succ (k : Nat) {b : Nat} (hb : b < 256) (q : Nat) :
    nibbles (k + 1) (b + 256 * q) = nibbles 1 b + 256 * nibbles k q := by
  simp only [nibbles, rep_one]
  rw [pairs_succ k hb q, rep, and_split _ _ (pairs_lt hb) (by decide),
    shift_and_split _ _ (by decide) (pairs_lt hb) (by decide)]
  omega

theorem nibbles_bound {b : Nat} (hb : b < 256) : nibbles 1 b ≤ 68 ∧ nibbles 1 b % 16 ≤ 4 := by
  rw [nibbles, pairs, rep_one, rep_one]
  exact nibbles_byte b hb

theorem nibbles_low {k x : Nat} (hx : x < 256 ^ k) : nibbles k x % 16 ≤ 4 := by
  cases k with
  | zero =>
    have none_ : x = 0 := by simpa using hx
    rw [none_]
    decide
  | succ k =>
    rw [← Nat.mod_add_div x 256, nibbles_succ k (Nat.mod_lt _ (by decide))]
    have low := (nibbles_bound (Nat.mod_lt x (show 0 < 256 by decide))).2
    omega

theorem bytes_succ (k : Nat) {b : Nat} (hb : b < 256) {q : Nat} (hq : q < 256 ^ k) :
    bytes (k + 1) (b + 256 * q) = bytes 1 b + 256 * bytes k q := by
  obtain ⟨small, -⟩ := nibbles_bound hb
  have low := nibbles_low hq
  simp only [bytes, rep_one]
  rw [nibbles_succ k hb q, rep]
  generalize nibbles 1 b = u at small
  generalize nibbles k q = v at low
  have sum : u + 256 * v + (u + 256 * v) >>> 4 = (u + u >>> 4 + 16 * (v % 16)) + 256 * (v + v >>> 4) := by
    simp only [Nat.shiftRight_eq_div_pow]
    omega
  rw [sum, and_split _ _ (by simp only [Nat.shiftRight_eq_div_pow]; omega) (by decide)]
  have cut : ∀ x, x &&& 15 = x % 16 := fun x => Nat.and_two_pow_sub_one_eq_mod x 4
  rw [cut, cut]
  omega

theorem count_congr {p q : Nat → Prop} [DecidablePred p] [DecidablePred q] {n : Nat}
    (same : ∀ i < n, p i ↔ q i) : Nat.count p n = Nat.count q n :=
  Nat.le_antisymm (Nat.count_mono_left fun i below => (same i below).mp)
    (Nat.count_mono_left fun i below => (same i below).mpr)

theorem ones_split {b : Nat} (hb : b < 256) (q n : Nat) :
    ones (b + 256 * q) (8 + n) = ones b 8 + ones q n := by
  have split_ : ∀ i, (b + 256 * q).testBit i = if i < 8 then b.testBit i else q.testBit (i - 8) := by
    intro i
    rw [Nat.add_comm]
    exact Nat.testBit_two_pow_mul_add q (show b < 2 ^ 8 from hb) i
  unfold ones
  rw [Nat.count_add]
  refine congr (congrArg HAdd.hAdd (count_congr ?_)) (count_congr ?_)
  · intro i below
    rw [split_, if_pos below]
  · intro i _
    rw [split_, if_neg (by omega), Nat.add_sub_cancel_left]

theorem top_byte {low sum rest : Nat} (hlow : low < 2 ^ 56) (hsum : sum < 256) :
    (low + 2 ^ 56 * (sum + 256 * rest)) % 2 ^ 64 / 2 ^ 56 = sum := by
  omega

/-- The multiplication adds eight bytes up in the top one. -/
theorem sum_bytes {a b c d e f g h : Nat} (ha : a ≤ 8) (hb : b ≤ 8) (hc : c ≤ 8) (hd : d ≤ 8)
    (he : e ≤ 8) (hf : f ≤ 8) (hg : g ≤ 8) (hh : h ≤ 8) :
    ((a + 256 * (b + 256 * (c + 256 * (d + 256 * (e + 256 * (f + 256 * (g + 256 * h))))))) *
      72340172838076673 % 2 ^ 64) >>> 56 = a + b + c + d + e + f + g + h := by
  -- the prefix sums below the top byte, the whole sum in it, the suffix sums past it
  have product : (a + 256 * (b + 256 * (c + 256 * (d + 256 * (e + 256 * (f + 256 * (g + 256 * h))))))) *
      72340172838076673 =
      (a + 256 * ((a + b) + 256 * ((a + b + c) + 256 * ((a + b + c + d) + 256 *
        ((a + b + c + d + e) + 256 * ((a + b + c + d + e + f) + 256 *
          (a + b + c + d + e + f + g))))))) +
      2 ^ 56 * ((a + b + c + d + e + f + g + h) + 256 * ((b + c + d + e + f + g + h) + 256 *
        ((c + d + e + f + g + h) + 256 * ((d + e + f + g + h) + 256 * ((e + f + g + h) + 256 *
          ((f + g + h) + 256 * ((g + h) + 256 * h))))))) := by
    omega
  rw [Nat.shiftRight_eq_div_pow, product]
  refine top_byte ?_ ?_
  · omega
  · omega

theorem bytes_cons (k : Nat) {b : Nat} (hb : b < 256) {q : Nat} (hq : q < 256 ^ k) :
    bytes (k + 1) (b + 256 * q) = ones b 8 + 256 * bytes k q := by
  rw [bytes_succ k hb hq, (bytes_byte b hb).1]

theorem ones_le {b : Nat} (hb : b < 256) : ones b 8 ≤ 8 := by
  rw [← (bytes_byte b hb).1]
  exact (bytes_byte b hb).2

theorem split_byte {k x : Nat} (hx : x < 256 ^ (k + 1)) :
    ∃ b q, x = b + 256 * q ∧ b < 256 ∧ q < 256 ^ k := by
  refine ⟨x % 256, x / 256, (Nat.mod_add_div x 256).symm, Nat.mod_lt _ (by decide), ?_⟩
  rw [Nat.div_lt_iff_lt_mul (by decide), ← Nat.pow_succ]
  exact hx

/-- The parallel sum counts the bits of a 64-bit word. -/
theorem popcount_eq {x : Nat} (hx : x < 2 ^ 64) :
    (bytes 8 x * 72340172838076673 % 2 ^ 64) >>> 56 = ones x 64 := by
  obtain ⟨a, x, rfl, ha, hx⟩ := split_byte (k := 7) hx
  obtain ⟨b, y, rfl, hb, hy⟩ := split_byte (k := 6) hx
  obtain ⟨c, z, rfl, hc, hz⟩ := split_byte (k := 5) hy
  obtain ⟨d, u, rfl, hd, hu⟩ := split_byte (k := 4) hz
  obtain ⟨e, v, rfl, he, hv⟩ := split_byte (k := 3) hu
  obtain ⟨f, w, rfl, hf, hw⟩ := split_byte (k := 2) hv
  obtain ⟨g, h, rfl, hg, hh⟩ := split_byte (k := 1) hw
  rw [bytes_cons 7 ha hx, bytes_cons 6 hb hy, bytes_cons 5 hc hz, bytes_cons 4 hd hu,
    bytes_cons 3 he hv, bytes_cons 2 hf hw, bytes_cons 1 hg hh, (bytes_byte h hh).1,
    sum_bytes (ones_le ha) (ones_le hb) (ones_le hc) (ones_le hd) (ones_le he) (ones_le hf)
      (ones_le hg) (ones_le hh)]
  rw [show 64 = 8 + (8 + (8 + (8 + (8 + (8 + (8 + 8)))))) from rfl, ones_split ha, ones_split hb,
    ones_split hc, ones_split hd, ones_split he, ones_split hf, ones_split hg]
  omega

/-- A word cut down to its low bits has only those to count. -/
theorem ones_mask (x b k : Nat) : ones (x &&& (2 ^ b - 1)) (b + k) = ones x b := by
  unfold ones
  rw [Nat.count_add]
  have rest : Nat.count (fun j => (x &&& (2 ^ b - 1)).testBit (b + j) = true) k = 0 := by
    rw [Nat.count_iff_forall_not]
    intro j _
    rw [Nat.testBit_and, Nat.testBit_two_pow_sub_one]
    simp
  rw [rest, Nat.add_zero]
  refine count_congr ?_
  intro i below
  rw [Nat.testBit_and, Nat.testBit_two_pow_sub_one, decide_eq_true below, Bool.and_true]

end Cocolog.Lib.Popcount
