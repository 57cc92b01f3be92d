import Mathlib.Data.Nat.Bitwise
import Mathlib.Data.List.Basic

/-! SHA-1 as the standard has it: the message padded, cut into blocks of sixteen words, and each
block's schedule run through eighty rounds. -/

set_option linter.all false

namespace Cocolog.Lib.Sha1

/-- The five words of a hash value, and of the working variables. -/
structure Five where
  a : UInt32
  b : UInt32
  c : UInt32
  d : UInt32
  e : UInt32
deriving Repr, DecidableEq

/-- `ROTL`, by fewer than 32 places. -/
def rotl (n : Nat) (x : UInt32) : UInt32 := x <<< UInt32.ofNat n ||| x >>> UInt32.ofNat (32 - n)

def ch (x y z : UInt32) : UInt32 := (x &&& y) ^^^ (~~~x &&& z)

def parity (x y z : UInt32) : UInt32 := x ^^^ y ^^^ z

def maj (x y z : UInt32) : UInt32 := (x &&& y) ^^^ (x &&& z) ^^^ (y &&& z)

/-- The function of round `t`. -/
def f (t : Nat) : UInt32 → UInt32 → UInt32 → UInt32 :=
  if t < 20 then ch else if t < 40 then parity else if t < 60 then maj else parity

/-- Its constant. -/
def k (t : Nat) : UInt32 :=
  if t < 20 then 0x5a827999 else if t < 40 then 0x6ed9eba1 else if t < 60 then 0x8f1bbcdc else 0xca62c1d6

/-- The first words of a block and `n` more of its schedule. -/
def schedule (m : List UInt32) : Nat → List UInt32
  | 0 => m
  | n + 1 =>
    let w := schedule m n
    w ++ [rotl 1 (w.getD (n + 13) 0 ^^^ w.getD (n + 8) 0 ^^^ w.getD (n + 2) 0 ^^^ w.getD n 0)]

theorem length_schedule (m : List UInt32) (n : Nat) : (schedule m n).length = m.length + n := by
  induction n with
  | zero => rfl
  | succ n ih => rw [schedule, List.length_append, ih, List.length_singleton, Nat.add_assoc]

theorem schedule_stays (m : List UInt32) {i n : Nat} (in_ : i < m.length + n) (more : Nat) :
    (schedule m (n + more)).getD i 0 = (schedule m n).getD i 0 := by
  induction more with
  | zero => rfl
  | succ more ih => rw [← Nat.add_assoc, schedule, List.getD_append _ _ _ _ (by rw [length_schedule]; omega), ih]

/-- Each word of the schedule after the first sixteen. -/
theorem schedule_next {m : List UInt32} (sixteen : m.length = 16) {n last : Nat} (lt : n < last) :
    (schedule m last).getD (n + 16) 0 = rotl 1 ((schedule m last).getD (n + 13) 0 ^^^ (schedule m last).getD (n + 8) 0 ^^^
      (schedule m last).getD (n + 2) 0 ^^^ (schedule m last).getD n 0) := by
  obtain ⟨more, rfl⟩ : ∃ more, last = n + 1 + more := ⟨last - (n + 1), by omega⟩
  have old : ∀ i < n + 16, (schedule m (n + 1 + more)).getD i 0 = (schedule m n).getD i 0 := by
    intro i lt
    rw [Nat.add_assoc]
    exact schedule_stays m (by omega) (1 + more)
  have length : (schedule m n).length = n + 16 := by rw [length_schedule, sixteen, Nat.add_comm]
  have new : (schedule m (n + 1 + more)).getD (n + 16) 0 = rotl 1 ((schedule m n).getD (n + 13) 0 ^^^ (schedule m n).getD (n + 8) 0 ^^^
      (schedule m n).getD (n + 2) 0 ^^^ (schedule m n).getD n 0) := by
    rw [schedule_stays m (by omega), schedule, List.getD_append_right _ _ _ _ (by omega), length, Nat.sub_self]
    rfl
  rw [new, old (n + 13) (by omega), old (n + 8) (by omega), old (n + 2) (by omega), old n (by omega)]

/-- Round `t` with the schedule's word `w`. -/
def round (t : Nat) (w : UInt32) (v : Five) : Five :=
  ⟨rotl 5 v.a + f t v.b v.c v.d + v.e + k t + w, v.a, rotl 30 v.b, v.c, v.d⟩

/-- The eighty rounds over the words of a schedule. -/
def rounds (w : List UInt32) (v : Five) : Five := (List.range 80).foldl (fun v t => round t (w.getD t 0) v) v

/-- The big-endian word at `i`. -/
def wordAt (bytes : List UInt8) (i : Nat) : UInt32 :=
  (bytes.getD i 0).toUInt32 <<< 24 ||| (bytes.getD (i + 1) 0).toUInt32 <<< 16 ||| (bytes.getD (i + 2) 0).toUInt32 <<< 8 |||
    (bytes.getD (i + 3) 0).toUInt32

/-- A block's sixteen words. -/
def words (block : List UInt8) : List UInt32 := (List.range 16).map fun t => wordAt block (4 * t)

/-- One block into the hash value. -/
def compress (h : Five) (block : List UInt8) : Five :=
  let v := rounds (schedule (words block) 64) h
  ⟨h.a + v.a, h.b + v.b, h.c + v.c, h.d + v.d, h.e + v.e⟩

/-- The first hash value. -/
def initial : Five := ⟨0x67452301, 0xefcdab89, 0x98badcfe, 0x10325476, 0xc3d2e1f0⟩

/-- Eight bytes, most significant first. -/
def length64 (n : Nat) : List UInt8 := (List.range 8).map fun i => UInt8.ofNat (n / 256 ^ (7 - i))

/-- The zero bytes between the one bit and the length: as few as end the message eight bytes before a
block's end. -/
def zeros (len : Nat) : Nat := (119 - len % 64) % 64

theorem zeros_least (len : Nat) :
    (len + 1 + zeros len) % 64 = 56 ∧ ∀ z, (len + 1 + z) % 64 = 56 → zeros len ≤ z := by
  unfold zeros
  constructor
  · omega
  · intro z ends_
    omega

def pad (message : List UInt8) : List UInt8 :=
  message ++ [128] ++ List.replicate (zeros message.length) 0 ++ length64 (8 * message.length)

/-- Whole blocks into a hash value. -/
def absorb (bytes : List UInt8) (h : Five) : Five :=
  (List.range (bytes.length / 64)).foldl (fun h i => compress h ((bytes.drop (64 * i)).take 64)) h

/-- A word, most significant byte first. -/
def wordBytes (w : UInt32) : List UInt8 := [(w >>> 24).toUInt8, (w >>> 16).toUInt8, (w >>> 8).toUInt8, w.toUInt8]

def digest (message : List UInt8) : List UInt8 :=
  let h := absorb (pad message) initial
  [h.a, h.b, h.c, h.d, h.e].flatMap wordBytes

end Cocolog.Lib.Sha1
