import Mathlib.Data.Nat.Bitwise
import Mathlib.Data.List.Basic

/-! Base64 in `library(websocket)`: bytes in groups of three, the alphabet, the padding. Both ways
answer at most once. -/

set_option linter.all false

namespace Cocolog.WebSocket

def wsB64Char (i : Nat) : Option Nat :=
  if i < 26 then some (65 + i)
  else if i < 52 then some (97 + i - 26)
  else if i < 62 then some (48 + i - 52)
  else if i = 62 then some 43
  else if i = 63 then some 47
  else none

def wsB64Enc : List Nat → Option (List Nat)
  | [] => some []
  | [a] => do
    let c1 ← wsB64Char (a >>> 2)
    let c2 ← wsB64Char ((a &&& 3) <<< 4)
    some [c1, c2, 61, 61]
  | [a, b] => do
    let c1 ← wsB64Char (a >>> 2)
    let c2 ← wsB64Char ((a &&& 3) <<< 4 ||| b >>> 4)
    let c3 ← wsB64Char ((b &&& 15) <<< 2)
    some [c1, c2, c3, 61]
  | a :: b :: c :: t => do
    let c1 ← wsB64Char (a >>> 2)
    let c2 ← wsB64Char ((a &&& 3) <<< 4 ||| b >>> 4)
    let c3 ← wsB64Char ((b &&& 15) <<< 2 ||| c >>> 6)
    let c4 ← wsB64Char (c &&& 63)
    let cs ← wsB64Enc t
    some (c1 :: c2 :: c3 :: c4 :: cs)

/-- The atom's text. -/
def wsBase64 (bytes : List Nat) : Option (List Nat) := wsB64Enc bytes

def wsB64Val (c : Nat) : Option Nat :=
  if 65 ≤ c ∧ c ≤ 90 then some (c - 65)
  else if 97 ≤ c ∧ c ≤ 122 then some (c - 97 + 26)
  else if 48 ≤ c ∧ c ≤ 57 then some (c - 48 + 52)
  else if c = 43 then some 62
  else if c = 47 then some 63
  else none

/-- The padded groups are the last. -/
def wsB64Dec : List Nat → Option (List Nat)
  | [] => some []
  | c1 :: c2 :: c3 :: c4 :: cs =>
    if c3 = 61 ∧ c4 = 61 ∧ cs = [] then do
      let i1 ← wsB64Val c1
      let i2 ← wsB64Val c2
      if i2 &&& 15 = 0 then some [i1 <<< 2 ||| i2 >>> 4] else none
    else if c4 = 61 ∧ cs = [] then do
      let i1 ← wsB64Val c1
      let i2 ← wsB64Val c2
      let i3 ← wsB64Val c3
      if i3 &&& 3 = 0 then some [i1 <<< 2 ||| i2 >>> 4, (i2 &&& 15) <<< 4 ||| i3 >>> 2] else none
    else do
      let i1 ← wsB64Val c1
      let i2 ← wsB64Val c2
      let i3 ← wsB64Val c3
      let i4 ← wsB64Val c4
      let bs ← wsB64Dec cs
      some ((i1 <<< 2 ||| i2 >>> 4) :: ((i2 &&& 15) <<< 4 ||| i3 >>> 2) :: ((i3 &&& 3) <<< 6 ||| i4) :: bs)
  | _ => none

/-- Of an atom's text. -/
def wsUnbase64 (codes : List Nat) : Option (List Nat) := if codes.length % 4 = 0 then wsB64Dec codes else none

variable {a b c i j : Nat} {bytes codes : List Nat}

/- The six bits. -/

theorem b64_val_of_char (is : wsB64Char i = some c) : wsB64Val c = some i := by
  unfold wsB64Char at is
  unfold wsB64Val
  rcases ite_eq_iff.mp is with ⟨_, is⟩ | ⟨_, is⟩
  · cases is
    rw [if_pos (by omega), Nat.add_sub_cancel_left]
  rcases ite_eq_iff.mp is with ⟨_, is⟩ | ⟨_, is⟩
  · cases is
    rw [if_neg (by omega), if_pos (by omega)]
    exact congrArg some (by omega)
  rcases ite_eq_iff.mp is with ⟨_, is⟩ | ⟨_, is⟩
  · cases is
    rw [if_neg (by omega), if_neg (by omega), if_pos (by omega)]
    exact congrArg some (by omega)
  rcases ite_eq_iff.mp is with ⟨rfl, is⟩ | ⟨_, is⟩
  · cases is
    rfl
  rcases ite_eq_iff.mp is with ⟨rfl, is⟩ | ⟨_, is⟩
  · cases is
    rfl
  · cases is

theorem b64_char_of_val (is : wsB64Val c = some i) : wsB64Char i = some c := by
  unfold wsB64Val at is
  unfold wsB64Char
  rcases ite_eq_iff.mp is with ⟨_, is⟩ | ⟨_, is⟩
  · cases is
    rw [if_pos (by omega)]
    exact congrArg some (by omega)
  rcases ite_eq_iff.mp is with ⟨_, is⟩ | ⟨_, is⟩
  · cases is
    rw [if_neg (by omega), if_pos (by omega)]
    exact congrArg some (by omega)
  rcases ite_eq_iff.mp is with ⟨_, is⟩ | ⟨_, is⟩
  · cases is
    rw [if_neg (by omega), if_neg (by omega), if_pos (by omega)]
    exact congrArg some (by omega)
  rcases ite_eq_iff.mp is with ⟨rfl, is⟩ | ⟨_, is⟩
  · cases is
    rfl
  rcases ite_eq_iff.mp is with ⟨rfl, is⟩ | ⟨_, is⟩
  · cases is
    rfl
  · cases is

theorem b64_char_iff : wsB64Char i = some c ↔ wsB64Val c = some i := ⟨b64_val_of_char, b64_char_of_val⟩

theorem b64_val_spec (is : wsB64Val c = some i) : i < 64 ∧ c ≠ 61 := by
  unfold wsB64Val at is
  split_ifs at is <;> cases is <;> omega

theorem b64_joined (x : Nat) {y k : Nat} (small : y < 2 ^ k) : x <<< k ||| y = x * 2 ^ k + y := by
  rw [← Nat.shiftLeft_add_eq_or_of_lt small, Nat.shiftLeft_eq]

theorem b64_low (x k : Nat) : x &&& (2 ^ k - 1) = x % 2 ^ k := Nat.and_two_pow_sub_one_eq_mod x k

theorem b64_char_lt (small : i < 64) : ∃ c, wsB64Char i = some c := by
  unfold wsB64Char
  split_ifs
  · exact ⟨_, rfl⟩
  · exact ⟨_, rfl⟩
  · exact ⟨_, rfl⟩
  · exact ⟨_, rfl⟩
  · exact ⟨_, rfl⟩
  · omega

/- The six-bit parts of bytes and the bytes of six-bit parts, as sums. -/

theorem b64_first_part (a : Nat) : a >>> 2 = a / 4 := Nat.shiftRight_eq_div_pow a 2

theorem b64_second_part (a : Nat) (small : b < 256) : (a &&& 3) <<< 4 ||| b >>> 4 = a % 4 * 16 + b / 16 := by
  have sum : (a &&& (2 ^ 2 - 1)) <<< 4 ||| b >>> 4 = a % 2 ^ 2 * 2 ^ 4 + b / 2 ^ 4 := by
    rw [Nat.shiftRight_eq_div_pow, b64_joined _ (by omega), b64_low]
  exact sum

theorem b64_third_part (b : Nat) (small : c < 256) : (b &&& 15) <<< 2 ||| c >>> 6 = b % 16 * 4 + c / 64 := by
  have sum : (b &&& (2 ^ 4 - 1)) <<< 2 ||| c >>> 6 = b % 2 ^ 4 * 2 ^ 2 + c / 2 ^ 6 := by
    rw [Nat.shiftRight_eq_div_pow, b64_joined _ (by omega), b64_low]
  exact sum

theorem b64_last_part (c : Nat) : c &&& 63 = c % 64 := b64_low c 6

theorem b64_first_byte (i : Nat) (small : j < 64) : i <<< 2 ||| j >>> 4 = i * 4 + j / 16 := by
  have sum : i <<< 2 ||| j >>> 4 = i * 2 ^ 2 + j / 2 ^ 4 := by
    rw [Nat.shiftRight_eq_div_pow, b64_joined _ (by omega)]
  exact sum

theorem b64_second_byte (i : Nat) (small : j < 64) : (i &&& 15) <<< 4 ||| j >>> 2 = i % 16 * 16 + j / 4 := by
  have sum : (i &&& (2 ^ 4 - 1)) <<< 4 ||| j >>> 2 = i % 2 ^ 4 * 2 ^ 4 + j / 2 ^ 2 := by
    rw [Nat.shiftRight_eq_div_pow, b64_joined _ (by omega), b64_low]
  exact sum

theorem b64_third_byte (i : Nat) (small : j < 64) : (i &&& 3) <<< 6 ||| j = i % 4 * 64 + j := by
  have sum : (i &&& (2 ^ 2 - 1)) <<< 6 ||| j = i % 2 ^ 2 * 2 ^ 6 + j := by
    rw [b64_joined _ (by omega), b64_low]
  exact sum

/-- Encoding a list of bytes, in sums: a text is the encoding where its characters have these values. -/
theorem b64_enc_one : wsB64Enc [a] = some codes ↔
    ∃ c1 c2, codes = [c1, c2, 61, 61] ∧ wsB64Val c1 = some (a / 4) ∧ wsB64Val c2 = some (a % 4 * 16) := by
  have second : (a &&& 3) <<< 4 = a % 4 * 16 := by
    have sum := @b64_second_part 0 a (by decide)
    rwa [Nat.zero_shiftRight, Nat.or_zero, Nat.zero_div, Nat.add_zero] at sum
  rw [wsB64Enc, b64_first_part, second]
  simp only [Option.bind_eq_bind, Option.bind_eq_some_iff, b64_char_iff, Option.some.injEq]
  constructor
  · rintro ⟨c1, is1, c2, is2, rfl⟩
    exact ⟨c1, c2, rfl, is1, is2⟩
  · rintro ⟨c1, c2, rfl, is1, is2⟩
    exact ⟨c1, is1, c2, is2, rfl⟩

theorem b64_enc_two (small : b < 256) : wsB64Enc [a, b] = some codes ↔
    ∃ c1 c2 c3, codes = [c1, c2, c3, 61] ∧ wsB64Val c1 = some (a / 4) ∧ wsB64Val c2 = some (a % 4 * 16 + b / 16) ∧
      wsB64Val c3 = some (b % 16 * 4) := by
  have third : (b &&& 15) <<< 2 = b % 16 * 4 := by
    have sum := @b64_third_part 0 b (by decide)
    rwa [Nat.zero_shiftRight, Nat.or_zero, Nat.zero_div, Nat.add_zero] at sum
  rw [wsB64Enc, b64_first_part, b64_second_part a small, third]
  simp only [Option.bind_eq_bind, Option.bind_eq_some_iff, b64_char_iff, Option.some.injEq]
  constructor
  · rintro ⟨c1, is1, c2, is2, c3, is3, rfl⟩
    exact ⟨c1, c2, c3, rfl, is1, is2, is3⟩
  · rintro ⟨c1, c2, c3, rfl, is1, is2, is3⟩
    exact ⟨c1, is1, c2, is2, c3, is3, rfl⟩

theorem b64_enc_more (smallb : b < 256) (smallc : c < 256) : wsB64Enc (a :: b :: c :: bytes) = some codes ↔
    ∃ c1 c2 c3 c4 cs, codes = c1 :: c2 :: c3 :: c4 :: cs ∧ wsB64Val c1 = some (a / 4) ∧
      wsB64Val c2 = some (a % 4 * 16 + b / 16) ∧ wsB64Val c3 = some (b % 16 * 4 + c / 64) ∧ wsB64Val c4 = some (c % 64) ∧
      wsB64Enc bytes = some cs := by
  rw [wsB64Enc, b64_first_part, b64_second_part a smallb, b64_third_part b smallc, b64_last_part]
  simp only [Option.bind_eq_bind, Option.bind_eq_some_iff, b64_char_iff, Option.some.injEq]
  constructor
  · rintro ⟨c1, is1, c2, is2, c3, is3, c4, is4, cs, rest, rfl⟩
    exact ⟨c1, c2, c3, c4, cs, rfl, is1, is2, is3, is4, rest⟩
  · rintro ⟨c1, c2, c3, c4, cs, rfl, is1, is2, is3, is4, rest⟩
    exact ⟨c1, is1, c2, is2, c3, is3, c4, is4, cs, rest, rfl⟩

/-- What was encoded is decoded. -/
theorem dec_of_enc (small : ∀ b ∈ bytes, b < 256) (enc : wsB64Enc bytes = some codes) :
    wsB64Dec codes = some bytes ∧ codes.length % 4 = 0 := by
  induction bytes using wsB64Enc.induct generalizing codes with
  | case1 =>
    cases enc
    exact ⟨rfl, rfl⟩
  | case2 a =>
    have lt := small a List.mem_cons_self
    obtain ⟨c1, c2, rfl, is1, is2⟩ := b64_enc_one.mp enc
    refine ⟨?_, Nat.mod_self 4⟩
    rw [wsB64Dec, if_pos ⟨rfl, rfl, rfl⟩, is1, is2]
    show (if (a % 4 * 16) &&& (2 ^ 4 - 1) = 0 then some [_] else none) = _
    rw [b64_low, if_pos (by omega), b64_first_byte _ (by omega), show a / 4 * 4 + a % 4 * 16 / 16 = a by omega]
  | case3 a b =>
    have lt := small b (List.mem_cons_of_mem _ List.mem_cons_self)
    obtain ⟨c1, c2, c3, rfl, is1, is2, is3⟩ := (b64_enc_two lt).mp enc
    refine ⟨?_, Nat.mod_self 4⟩
    rw [wsB64Dec, if_neg (fun pad => (b64_val_spec is3).2 pad.1), if_pos ⟨rfl, rfl⟩, is1, is2, is3]
    show (if (b % 16 * 4) &&& (2 ^ 2 - 1) = 0 then some [_, _] else none) = _
    rw [b64_low, if_pos (by omega), b64_first_byte _ (by omega), b64_second_byte _ (by omega),
      show a / 4 * 4 + (a % 4 * 16 + b / 16) / 16 = a by omega,
      show (a % 4 * 16 + b / 16) % 16 * 16 + b % 16 * 4 / 4 = b by omega]
  | case4 a b c t ih =>
    have lta := small a List.mem_cons_self
    have ltb := small b (List.mem_cons_of_mem _ List.mem_cons_self)
    have ltc := small c (List.mem_cons_of_mem _ (List.mem_cons_of_mem _ List.mem_cons_self))
    obtain ⟨c1, c2, c3, c4, cs, rfl, is1, is2, is3, is4, rest⟩ := (b64_enc_more ltb ltc).mp enc
    obtain ⟨dec, length⟩ := ih (fun x mem => small x (List.mem_cons_of_mem _ (List.mem_cons_of_mem _ (List.mem_cons_of_mem _ mem)))) rest
    refine ⟨?_, ?_⟩
    · rw [wsB64Dec, if_neg (fun pad => (b64_val_spec is4).2 pad.2.1), if_neg (fun pad => (b64_val_spec is4).2 pad.1), is1, is2, is3, is4, dec]
      show some (_ :: _ :: _ :: t) = _
      rw [b64_first_byte _ (by omega), b64_second_byte _ (by omega), b64_third_byte _ (by omega),
        show a / 4 * 4 + (a % 4 * 16 + b / 16) / 16 = a by omega,
        show (a % 4 * 16 + b / 16) % 16 * 16 + (b % 16 * 4 + c / 64) / 4 = b by omega,
        show (b % 16 * 4 + c / 64) % 4 * 64 + c % 64 = c by omega]
    · rw [List.length_cons, List.length_cons, List.length_cons, List.length_cons]
      omega

/-- What is decoded was encoded, from bytes. -/
theorem enc_of_dec (dec : wsB64Dec codes = some bytes) : wsB64Enc bytes = some codes ∧ ∀ b ∈ bytes, b < 256 := by
  induction codes using wsB64Dec.induct generalizing bytes with
  | case1 =>
    cases dec
    exact ⟨rfl, fun b mem => absurd mem List.not_mem_nil⟩
  | case2 c1 c2 c3 c4 cs pad =>
    obtain ⟨rfl, rfl, rfl⟩ := pad
    rw [wsB64Dec, if_pos ⟨rfl, rfl, rfl⟩] at dec
    simp only [Option.bind_eq_bind, Option.bind_eq_some_iff] at dec
    obtain ⟨i1, is1, i2, is2, dec⟩ := dec
    have lt1 := (b64_val_spec is1).1
    have lt2 := (b64_val_spec is2).1
    rw [show i2 &&& 15 = i2 % 16 from b64_low i2 4] at dec
    split at dec
    · rename_i spare
      cases dec
      rw [b64_first_byte _ lt2]
      refine ⟨b64_enc_one.mpr ⟨c1, c2, rfl, ?_, ?_⟩, fun b mem => ?_⟩
      · rw [is1, show (i1 * 4 + i2 / 16) / 4 = i1 by omega]
      · rw [is2, show (i1 * 4 + i2 / 16) % 4 * 16 = i2 by omega]
      · rw [List.mem_singleton] at mem
        omega
    · cases dec
  | case3 c1 c2 c3 c4 cs more pad =>
    obtain ⟨rfl, rfl⟩ := pad
    rw [wsB64Dec, if_neg more, if_pos ⟨rfl, rfl⟩] at dec
    simp only [Option.bind_eq_bind, Option.bind_eq_some_iff] at dec
    obtain ⟨i1, is1, i2, is2, i3, is3, dec⟩ := dec
    have lt1 := (b64_val_spec is1).1
    have lt2 := (b64_val_spec is2).1
    have lt3 := (b64_val_spec is3).1
    rw [show i3 &&& 3 = i3 % 4 from b64_low i3 2] at dec
    split at dec
    · rename_i spare
      cases dec
      rw [b64_first_byte _ lt2, b64_second_byte _ lt3]
      refine ⟨(b64_enc_two (by omega)).mpr ⟨c1, c2, c3, rfl, ?_, ?_, ?_⟩, fun b mem => ?_⟩
      · rw [is1, show (i1 * 4 + i2 / 16) / 4 = i1 by omega]
      · rw [is2, show (i1 * 4 + i2 / 16) % 4 * 16 + (i2 % 16 * 16 + i3 / 4) / 16 = i2 by omega]
      · rw [is3, show (i2 % 16 * 16 + i3 / 4) % 16 * 4 = i3 by omega]
      · rcases List.mem_cons.mp mem with here | mem
        · omega
        · rw [List.mem_singleton] at mem
          omega
    · cases dec
  | case4 c1 c2 c3 c4 cs more more' ih =>
    rw [wsB64Dec, if_neg more, if_neg more'] at dec
    simp only [Option.bind_eq_bind, Option.bind_eq_some_iff] at dec
    obtain ⟨i1, is1, i2, is2, i3, is3, i4, is4, bs, rest, dec⟩ := dec
    have lt1 := (b64_val_spec is1).1
    have lt2 := (b64_val_spec is2).1
    have lt3 := (b64_val_spec is3).1
    have lt4 := (b64_val_spec is4).1
    obtain ⟨enc, small⟩ := ih rest
    cases dec
    rw [b64_first_byte _ lt2, b64_second_byte _ lt3, b64_third_byte _ lt4]
    refine ⟨(b64_enc_more (by omega) (by omega)).mpr ⟨c1, c2, c3, c4, cs, rfl, ?_, ?_, ?_, ?_, enc⟩, fun b mem => ?_⟩
    · rw [is1, show (i1 * 4 + i2 / 16) / 4 = i1 by omega]
    · rw [is2, show (i1 * 4 + i2 / 16) % 4 * 16 + (i2 % 16 * 16 + i3 / 4) / 16 = i2 by omega]
    · rw [is3, show (i2 % 16 * 16 + i3 / 4) % 16 * 4 + (i3 % 4 * 64 + i4) / 64 = i3 by omega]
    · rw [is4, show (i3 % 4 * 64 + i4) % 64 = i4 by omega]
    · rcases List.mem_cons.mp mem with here | mem
      · omega
      · rcases List.mem_cons.mp mem with here | mem
        · omega
        · rcases List.mem_cons.mp mem with here | mem
          · omega
          · exact small b mem
  | case5 codes none_ some_ =>
    rcases codes with _ | ⟨c1, _ | ⟨c2, _ | ⟨c3, _ | ⟨c4, cs⟩⟩⟩⟩
    · exact absurd rfl none_
    · cases dec
    · cases dec
    · cases dec
    · exact absurd rfl (some_ c1 c2 c3 c4 cs)

/-- Decoding answers the bytes whose encoding the text is. -/
theorem unbase64_iff (small : ∀ b ∈ bytes, b < 256) : wsUnbase64 codes = some bytes ↔ wsBase64 bytes = some codes := by
  rw [wsUnbase64, wsBase64]
  constructor
  · intro is
    split at is
    · exact (enc_of_dec is).1
    · cases is
  · intro enc
    obtain ⟨dec, length⟩ := dec_of_enc small enc
    rw [if_pos length, dec]

/-- A text that encodes nothing is refused. -/
theorem unbase64_none_iff : wsUnbase64 codes = none ↔ ∀ bytes, (∀ b ∈ bytes, b < 256) → wsBase64 bytes ≠ some codes := by
  constructor
  · intro refused bytes small enc
    rw [(unbase64_iff small).mpr enc] at refused
    cases refused
  · intro none_
    cases is : wsUnbase64 codes with
    | none => rfl
    | some bytes =>
      rw [wsUnbase64] at is
      split at is
      · obtain ⟨enc, small⟩ := enc_of_dec is
        exact absurd enc (none_ bytes small)
      · cases is

end Cocolog.WebSocket
