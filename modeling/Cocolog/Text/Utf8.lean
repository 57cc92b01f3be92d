import Mathlib.Data.Nat.Bitwise
import Mathlib.Tactic.NormNum

/-! Text and its characters: `coco_utf8_get` reads one character, `coco_utf8_enc` writes
one. A byte that begins no well-formed sequence is the character U+DC00 plus the byte, so
any bytes at all are characters. -/

set_option linter.all false

namespace Cocolog.Text

abbrev Bytes := List UInt8

/-- `(uchar) s[k]`. -/
def byte (s : Bytes) (k : Nat) : Nat := (s.getD k 0).toNat

/-- What a first byte from 128 on says: the bits it holds, how many bytes follow, and the
least code point of that length. -/
def lead (b : Nat) : Option (Nat × Nat × Nat) :=
  if b &&& 224 = 192 then some (b &&& 31, 1, 128)
  else if b &&& 240 = 224 then some (b &&& 15, 2, 2048)
  else if b &&& 248 = 240 then some (b &&& 7, 3, 65536)
  else none

/-- The loop over the bytes that follow, `need` of them from `p` on. -/
def following (s : Bytes) : Nat → Nat → Nat → Option Nat
  | 0, _, cp => some cp
  | need + 1, p, cp =>
    if byte s p &&& 192 ≠ 128 then none
    else following s need (p + 1) (cp <<< 6 ||| byte s p &&& 63)

/-- `coco_utf8_get`: the character at `k` and where the next one is. -/
def utf8Get (s : Bytes) (k : Nat) : Int × Nat :=
  let b0 := byte s k
  let stray : Int × Nat := ((56320 + b0 : Nat), k + 1)
  if b0 < 128 then (b0, k + 1)
  else match lead b0 with
    | none => stray
    | some (bits, need, low) =>
      if s.length ≤ k + need then stray
      else match following s need (k + 1) bits with
        | none => stray
        | some cp =>
          if cp < low ∨ 1114111 < cp ∨ 56448 ≤ cp ∧ cp ≤ 56575 then stray
          else (cp, k + (need + 1))

/-- `coco_utf8_enc`: no bytes for what is no character. -/
def utf8Enc (cp : Int) : Bytes :=
  if cp < 0 ∨ 1114111 < cp then []
  else
    let c := cp.toNat
    if c < 128 then [UInt8.ofNat c]
    else if 56448 ≤ c ∧ c ≤ 56575 then [UInt8.ofNat (c - 56320)]
    else if c < 2048 then [UInt8.ofNat (192 ||| c >>> 6), UInt8.ofNat (128 ||| c &&& 63)]
    else if c < 65536 then
      [UInt8.ofNat (224 ||| c >>> 12), UInt8.ofNat (128 ||| c >>> 6 &&& 63),
        UInt8.ofNat (128 ||| c &&& 63)]
    else
      [UInt8.ofNat (240 ||| c >>> 18), UInt8.ofNat (128 ||| c >>> 12 &&& 63),
        UInt8.ofNat (128 ||| c >>> 6 &&& 63), UInt8.ofNat (128 ||| c &&& 63)]

/-- `coco_utf8_put` with room in the buffer. -/
def utf8Put (b : Bytes) (cp : Int) : Option Bytes :=
  if utf8Enc cp = [] then none else some (b ++ utf8Enc cp)

/- A character is read from at least one byte. -/

theorem utf8Get_next (s : Bytes) (k : Nat) : k < (utf8Get s k).2 := by
  dsimp only [utf8Get]
  split
  · exact Nat.lt_succ_self k
  · split
    · exact Nat.lt_succ_self k
    · split
      · exact Nat.lt_succ_self k
      · split
        · exact Nat.lt_succ_self k
        · split
          · exact Nat.lt_succ_self k
          · show k < k + (_ + 1)
            omega

/-- The characters from byte `i` on, as every loop of `coco_utf8_get` reads them. -/
def decodeFrom (s : Bytes) (i : Nat) : List Int :=
  if _h : i < s.length then (utf8Get s i).1 :: decodeFrom s (utf8Get s i).2 else []
termination_by s.length - i
decreasing_by have := utf8Get_next s i; omega

def decode (s : Bytes) : List Int := decodeFrom s 0

/-- Where the character at `i` ends, an ASCII one without asking. -/
def skipOne (s : Bytes) (i : Nat) : Nat :=
  if byte s i < 128 then i + 1 else (utf8Get s i).2

theorem skipOne_eq (s : Bytes) (i : Nat) : skipOne s i = (utf8Get s i).2 := by
  unfold skipOne
  split
  · rename_i ascii
    simp only [utf8Get, if_pos ascii]
  · rfl

/-- The loop of `coco_utf8_count`. -/
def countFrom (s : Bytes) (i c : Nat) : Nat :=
  if _h : i < s.length then countFrom s (skipOne s i) (c + 1) else c
termination_by s.length - i
decreasing_by have := utf8Get_next s i; rw [skipOne_eq]; omega

/-- `coco_utf8_count`. -/
def utf8Count (s : Bytes) : Nat := countFrom s 0 0

/-- The loop of `coco_utf8_at`, `none` its (size_t)-1. -/
def atFrom (s : Bytes) : Nat → Nat → Option Nat
  | 0, i => some i
  | k + 1, i => if i < s.length then atFrom s k (skipOne s i) else none

/-- `coco_utf8_at`. -/
def utf8At (s : Bytes) (k : Nat) : Option Nat := atFrom s k 0

/-- `coco_utf8_one`, of text without a NUL: the character it is, or -1. -/
def utf8One (s : Bytes) : Int :=
  if s = [] then -1
  else if (utf8Get s 0).2 = s.length then (utf8Get s 0).1 else -1

/- The tests and shifts as arithmetic. -/

theorem byte_lt (s : Bytes) (k : Nat) : byte s k < 256 := (s.getD k 0).toNat_lt

theorem lead_eq {b : Nat} (high : 128 ≤ b) (lt : b < 256) : lead b =
    if b < 192 then none else if b < 224 then some (b - 192, 1, 128)
    else if b < 240 then some (b - 224, 2, 2048)
    else if b < 248 then some (b - 240, 3, 65536) else none := by
  have all : ∀ b ∈ List.range 256, 128 ≤ b → lead b =
      if b < 192 then none else if b < 224 then some (b - 192, 1, 128)
      else if b < 240 then some (b - 224, 2, 2048)
      else if b < 248 then some (b - 240, 3, 65536) else none := by decide +kernel
  exact all b (List.mem_range.mpr lt) high

theorem continues_iff {b : Nat} (lt : b < 256) : b &&& 192 ≠ 128 ↔ ¬(128 ≤ b ∧ b < 192) := by
  have all : ∀ b ∈ List.range 256, (b &&& 192 ≠ 128 ↔ ¬(128 ≤ b ∧ b < 192)) := by decide +kernel
  exact all b (List.mem_range.mpr lt)

theorem and_63 (n : Nat) : n &&& 63 = n % 64 := Nat.and_two_pow_sub_one_eq_mod n 6

theorem append_bits (cp b : Nat) : cp <<< 6 ||| b &&& 63 = cp * 64 + b % 64 := by
  have small : b % 64 < 2 ^ 6 := Nat.mod_lt _ (by decide)
  rw [and_63, ← Nat.shiftLeft_add_eq_or_of_lt small, Nat.shiftLeft_eq]

theorem or_of_lt {high low : Nat} (i : Nat) (lt : low < 2 ^ i) : high * 2 ^ i ||| low = high * 2 ^ i + low := by
  rw [← Nat.shiftLeft_eq, ← Nat.shiftLeft_add_eq_or_of_lt lt]

theorem following_succ (s : Bytes) (need p cp : Nat) : following s (need + 1) p cp =
    if 128 ≤ byte s p ∧ byte s p < 192 then following s need (p + 1) (cp * 64 + (byte s p - 128)) else none := by
  rw [following]
  by_cases more : 128 ≤ byte s p ∧ byte s p < 192
  · have bits : byte s p % 64 = byte s p - 128 := by omega
    rw [if_neg (mt (continues_iff (byte_lt s p)).mp (not_not.mpr more)), if_pos more, append_bits, bits]
  · rw [if_pos ((continues_iff (byte_lt s p)).mpr more), if_neg more]

/-- A character's bytes by division, for each of the four lengths. -/
theorem utf8Enc_eq {c : Nat} (le : c ≤ 1114111) : utf8Enc c =
    if c < 128 then [UInt8.ofNat c]
    else if 56448 ≤ c ∧ c ≤ 56575 then [UInt8.ofNat (c - 56320)]
    else if c < 2048 then [UInt8.ofNat (192 + c / 64), UInt8.ofNat (128 + c % 64)]
    else if c < 65536 then
      [UInt8.ofNat (224 + c / 4096), UInt8.ofNat (128 + c / 64 % 64), UInt8.ofNat (128 + c % 64)]
    else
      [UInt8.ofNat (240 + c / 262144), UInt8.ofNat (128 + c / 4096 % 64),
        UInt8.ofNat (128 + c / 64 % 64), UInt8.ofNat (128 + c % 64)] := by
  have inside : ¬ ((c : Int) < 0 ∨ 1114111 < (c : Int)) := by omega
  have tail (n : Nat) : 128 ||| n &&& 63 = 128 + n % 64 := by
    rw [and_63]
    exact @or_of_lt 2 _ 6 (Nat.mod_lt _ (by decide))
  have shift6 : c >>> 6 = c / 64 := Nat.shiftRight_eq_div_pow c 6
  have shift12 : c >>> 12 = c / 4096 := Nat.shiftRight_eq_div_pow c 12
  have shift18 : c >>> 18 = c / 262144 := Nat.shiftRight_eq_div_pow c 18
  simp only [utf8Enc, if_neg inside, Int.toNat_natCast, tail, shift6, shift12, shift18]
  split_ifs with h1 h2 h3 h4
  · rfl
  · rfl
  · have two : 192 ||| c / 64 = 192 + c / 64 := @or_of_lt 6 (c / 64) 5 (by omega)
    rw [two]
  · have three : 224 ||| c / 4096 = 224 + c / 4096 := @or_of_lt 14 (c / 4096) 4 (by omega)
    rw [three]
  · have four : 240 ||| c / 262144 = 240 + c / 262144 := @or_of_lt 30 (c / 262144) 3 (by omega)
    rw [four]

/- One character, read where it was written and written where it was read. -/

theorem drop_byte {s : Bytes} {k : Nat} (lt : k < s.length) : s.drop k = UInt8.ofNat (byte s k) :: s.drop (k + 1) := by
  rw [List.drop_eq_getElem_cons lt, byte, List.getD_eq_getElem s 0 lt, UInt8.ofNat_toNat]

theorem byte_of_drop {s t : Bytes} {k b : Nat} (lt : b < 256) (is : s.drop k = UInt8.ofNat b :: t) :
    k < s.length ∧ byte s k = b ∧ s.drop (k + 1) = t := by
  have inside : k < s.length := by
    by_contra past
    rw [List.drop_eq_nil_of_le (by omega)] at is
    exact absurd is (List.cons_ne_nil _ _).symm
  rw [drop_byte inside] at is
  obtain ⟨head, rest⟩ := List.cons.inj is
  have same := congrArg UInt8.toNat head
  rw [UInt8.toNat_ofNat', UInt8.toNat_ofNat', Nat.mod_eq_of_lt (byte_lt s k), Nat.mod_eq_of_lt lt] at same
  exact ⟨inside, same, rest⟩

/-- A character is in range and its bytes are those it was read from. -/
def Reads (s : Bytes) (k : Nat) (got : Int × Nat) : Prop :=
  ∃ c : Nat, got.1 = c ∧ c ≤ 1114111 ∧ got.2 ≤ s.length ∧ s.drop k = utf8Enc c ++ s.drop got.2

theorem reads_stray {s : Bytes} {k : Nat} (lt : k < s.length) (high : 128 ≤ byte s k) :
    Reads s k ((56320 + byte s k : Nat), k + 1) := by
  have small := byte_lt s k
  have inside : 56448 ≤ 56320 + byte s k ∧ 56320 + byte s k ≤ 56575 := by omega
  have back : 56320 + byte s k - 56320 = byte s k := by omega
  refine ⟨56320 + byte s k, rfl, by omega, lt, ?_⟩
  rw [utf8Enc_eq (by omega), if_neg (by omega), if_pos inside, back, drop_byte lt]
  rfl

theorem reads_two {s : Bytes} {k cp : Nat} (fits : k + 1 < s.length) (first : 192 ≤ byte s k ∧ byte s k < 224)
    (all : following s 1 (k + 1) (byte s k - 192) = some cp) (low : 128 ≤ cp) : Reads s k (cp, k + 2) := by
  rw [following_succ] at all
  split at all
  · rename_i second
    have is : (byte s k - 192) * 64 + (byte s (k + 1) - 128) = cp := Option.some.inj all
    have one : 192 + cp / 64 = byte s k := by omega
    have two : 128 + cp % 64 = byte s (k + 1) := by omega
    refine ⟨cp, rfl, by omega, fits, ?_⟩
    rw [utf8Enc_eq (by omega), if_neg (by omega), if_neg (by omega), if_pos (by omega), one, two,
      drop_byte (by omega), drop_byte fits]
    rfl
  · cases all

theorem reads_three {s : Bytes} {k cp : Nat} (fits : k + 2 < s.length) (first : 224 ≤ byte s k ∧ byte s k < 240)
    (all : following s 2 (k + 1) (byte s k - 224) = some cp) (low : 2048 ≤ cp)
    (plain : ¬(56448 ≤ cp ∧ cp ≤ 56575)) : Reads s k (cp, k + 3) := by
  rw [following_succ] at all
  split at all
  · rename_i second
    rw [following_succ] at all
    split at all
    · rename_i third
      have is : ((byte s k - 224) * 64 + (byte s (k + 1) - 128)) * 64 + (byte s (k + 1 + 1) - 128) = cp :=
        Option.some.inj all
      have one : 224 + cp / 4096 = byte s k := by omega
      have two : 128 + cp / 64 % 64 = byte s (k + 1) := by omega
      have three : 128 + cp % 64 = byte s (k + 1 + 1) := by omega
      refine ⟨cp, rfl, by omega, fits, ?_⟩
      rw [utf8Enc_eq (by omega), if_neg (by omega), if_neg plain, if_neg (by omega), if_pos (by omega), one, two,
        three, drop_byte (by omega), @drop_byte s (k + 1) (by omega), @drop_byte s (k + 1 + 1) fits]
      rfl
    · cases all
  · cases all

theorem reads_four {s : Bytes} {k cp : Nat} (fits : k + 3 < s.length) (first : 240 ≤ byte s k ∧ byte s k < 248)
    (all : following s 3 (k + 1) (byte s k - 240) = some cp) (low : 65536 ≤ cp) (high : cp ≤ 1114111) :
    Reads s k (cp, k + 4) := by
  rw [following_succ] at all
  split at all
  · rename_i second
    rw [following_succ] at all
    split at all
    · rename_i third
      rw [following_succ] at all
      split at all
      · rename_i fourth
        have is : (((byte s k - 240) * 64 + (byte s (k + 1) - 128)) * 64 + (byte s (k + 1 + 1) - 128)) * 64 +
          (byte s (k + 1 + 1 + 1) - 128) = cp := Option.some.inj all
        have one : 240 + cp / 262144 = byte s k := by omega
        have two : 128 + cp / 4096 % 64 = byte s (k + 1) := by omega
        have three : 128 + cp / 64 % 64 = byte s (k + 1 + 1) := by omega
        have four : 128 + cp % 64 = byte s (k + 1 + 1 + 1) := by omega
        refine ⟨cp, rfl, high, fits, ?_⟩
        rw [utf8Enc_eq high, if_neg (by omega), if_neg (by omega), if_neg (by omega), if_neg (by omega), one, two,
          three, four, drop_byte (by omega), @drop_byte s (k + 1) (by omega), @drop_byte s (k + 1 + 1) (by omega),
          @drop_byte s (k + 1 + 1 + 1) fits]
        rfl
      · cases all
    · cases all
  · cases all

theorem utf8Get_reads {s : Bytes} {k : Nat} (lt : k < s.length) : Reads s k (utf8Get s k) := by
  by_cases ascii : byte s k < 128
  · refine ⟨byte s k, ?_, by omega, ?_, ?_⟩
    · rw [utf8Get, if_pos ascii]
    · rw [utf8Get, if_pos ascii]
      exact lt
    · rw [utf8Get, if_pos ascii, utf8Enc_eq (by omega), if_pos ascii, drop_byte lt]
      rfl
  · have high : 128 ≤ byte s k := by omega
    have stray := reads_stray lt high
    rw [utf8Get, if_neg ascii, lead_eq high (byte_lt s k)]
    -- what the first byte asks for: nothing, one, two or three bytes more
    by_cases below : byte s k < 192
    · rw [if_pos below]
      exact stray
    rw [if_neg below]
    by_cases one : byte s k < 224
    · rw [if_pos one]
      dsimp only
      split_ifs with short
      · exact stray
      · split
        · exact stray
        · rename_i cp all
          split_ifs with bad
          · exact stray
          · exact reads_two (by omega) ⟨by omega, one⟩ all (by omega)
    rw [if_neg one]
    by_cases two : byte s k < 240
    · rw [if_pos two]
      dsimp only
      split_ifs with short
      · exact stray
      · split
        · exact stray
        · rename_i cp all
          split_ifs with bad
          · exact stray
          · exact reads_three (by omega) ⟨by omega, two⟩ all (by omega) (by omega)
    rw [if_neg two]
    by_cases three : byte s k < 248
    · rw [if_pos three]
      dsimp only
      split_ifs with short
      · exact stray
      · split
        · exact stray
        · rename_i cp all
          split_ifs with bad
          · exact stray
          · exact reads_four (by omega) ⟨by omega, three⟩ all (by omega) (by omega)
    · rw [if_neg three]
      exact stray

theorem utf8Get_enc {s t : Bytes} {k c : Nat} (le : c ≤ 1114111) (plain : ¬(56448 ≤ c ∧ c ≤ 56575))
    (is : s.drop k = utf8Enc c ++ t) : utf8Get s k = ((c : Int), k + (utf8Enc c).length) := by
  rw [utf8Enc_eq le] at is ⊢
  rw [if_neg plain] at is ⊢
  -- one, two, three or four bytes, each read back as it was written
  by_cases ascii : c < 128
  · rw [if_pos ascii] at is ⊢
    obtain ⟨-, b0, -⟩ := byte_of_drop (by omega) is
    rw [utf8Get, b0, if_pos ascii]
    rfl
  rw [if_neg ascii] at is ⊢
  by_cases two : c < 2048
  · rw [if_pos two] at is ⊢
    obtain ⟨-, b0, is⟩ := byte_of_drop (by omega) is
    obtain ⟨inside, b1, -⟩ := byte_of_drop (by omega) is
    have all : following s 1 (k + 1) (byte s k - 192) = some c := by
      rw [following_succ, if_pos (by omega), following]
      exact congrArg some (by omega)
    simp only [List.length_cons, List.length_nil]
    rw [utf8Get, if_neg (by omega), lead_eq (by omega) (byte_lt s k), if_neg (by omega), if_pos (by omega)]
    dsimp only
    rw [if_neg (by omega), all]
    dsimp only
    rw [if_neg (by omega)]
  rw [if_neg two] at is ⊢
  by_cases three : c < 65536
  · rw [if_pos three] at is ⊢
    obtain ⟨-, b0, is⟩ := byte_of_drop (by omega) is
    obtain ⟨-, b1, is⟩ := byte_of_drop (by omega) is
    obtain ⟨inside, b2, -⟩ := byte_of_drop (by omega) is
    have all : following s 2 (k + 1) (byte s k - 224) = some c := by
      rw [following_succ, if_pos (by omega), following_succ, if_pos (by omega), following]
      exact congrArg some (by omega)
    simp only [List.length_cons, List.length_nil]
    rw [utf8Get, if_neg (by omega), lead_eq (by omega) (byte_lt s k), if_neg (by omega), if_neg (by omega),
      if_pos (by omega)]
    dsimp only
    rw [if_neg (by omega), all]
    dsimp only
    rw [if_neg (by omega)]
  · rw [if_neg three] at is ⊢
    obtain ⟨-, b0, is⟩ := byte_of_drop (by omega) is
    obtain ⟨-, b1, is⟩ := byte_of_drop (by omega) is
    obtain ⟨-, b2, is⟩ := byte_of_drop (by omega) is
    obtain ⟨inside, b3, -⟩ := byte_of_drop (by omega) is
    have all : following s 3 (k + 1) (byte s k - 240) = some c := by
      rw [following_succ, if_pos (by omega), following_succ, if_pos (by omega), following_succ, if_pos (by omega),
        following]
      exact congrArg some (by omega)
    simp only [List.length_cons, List.length_nil]
    rw [utf8Get, if_neg (by omega), lead_eq (by omega) (byte_lt s k), if_neg (by omega), if_neg (by omega),
      if_neg (by omega), if_pos (by omega)]
    dsimp only
    rw [if_neg (by omega), all]
    dsimp only
    rw [if_neg (by omega)]

/- Whole texts. -/

/-- The characters put one after another into an empty buffer. -/
def encode (l : List Int) : Option Bytes := l.foldlM utf8Put []

theorem utf8Enc_ne_nil {c : Nat} (le : c ≤ 1114111) : utf8Enc c ≠ [] := by
  rw [utf8Enc_eq le]
  split_ifs <;> exact List.cons_ne_nil _ _

theorem put_all {l : List Int} (ok : ∀ cp ∈ l, ∃ c : Nat, cp = c ∧ c ≤ 1114111) (b : Bytes) :
    l.foldlM utf8Put b = some (b ++ l.flatMap utf8Enc) := by
  induction l generalizing b with
  | nil => rw [List.foldlM_nil, List.flatMap_nil, List.append_nil]; rfl
  | cons cp l ih =>
    obtain ⟨c, is, le⟩ := ok cp List.mem_cons_self
    have one : utf8Put b cp = some (b ++ utf8Enc cp) := by
      rw [utf8Put, if_neg]
      rw [is]
      exact utf8Enc_ne_nil le
    rw [List.foldlM_cons, one]
    show l.foldlM utf8Put (b ++ utf8Enc cp) = _
    rw [ih (fun cp mem => ok cp (List.mem_cons_of_mem _ mem)), List.flatMap_cons, List.append_assoc]

/-- The characters read from `i` on are encodable, and their bytes are the bytes from `i` on. -/
theorem decodeFrom_spec (s : Bytes) (i : Nat) :
    (∀ cp ∈ decodeFrom s i, ∃ c : Nat, cp = c ∧ c ≤ 1114111) ∧ (decodeFrom s i).flatMap utf8Enc = s.drop i := by
  induction i using decodeFrom.induct s with
  | case1 i lt ih =>
    obtain ⟨c, is, le, -, bytes⟩ := utf8Get_reads lt
    rw [decodeFrom, dif_pos lt]
    constructor
    · intro cp mem
      rcases List.mem_cons.mp mem with rfl | mem
      · exact ⟨c, is, le⟩
      · exact ih.1 cp mem
    · rw [List.flatMap_cons, ih.2, bytes, is]
  | case2 i past =>
    rw [decodeFrom, dif_neg past, List.drop_eq_nil_of_le (by omega)]
    exact ⟨fun cp mem => absurd mem List.not_mem_nil, rfl⟩

theorem countFrom_eq (s : Bytes) (i c : Nat) : countFrom s i c = c + (decodeFrom s i).length := by
  induction i, c using countFrom.induct s with
  | case1 i c lt ih =>
    rw [countFrom, dif_pos lt, ih, skipOne_eq]
    conv_rhs => rw [decodeFrom, dif_pos lt, List.length_cons]
    omega
  | case2 i c past =>
    rw [countFrom, dif_neg past, decodeFrom, dif_neg past]
    rfl

/-- The walk to a character `k` further on ends where the characters before it end, and
reading goes on from there with that character. -/
theorem atFrom_spec (s : Bytes) (k i : Nat) (le : k ≤ (decodeFrom s i).length) :
    atFrom s k i = some (i + (((decodeFrom s i).take k).flatMap utf8Enc).length) ∧
      decodeFrom s (i + (((decodeFrom s i).take k).flatMap utf8Enc).length) = (decodeFrom s i).drop k := by
  induction k generalizing i with
  | zero => exact ⟨rfl, rfl⟩
  | succ k ih =>
    have lt : i < s.length := by
      by_contra past
      rw [decodeFrom, dif_neg past] at le
      exact Nat.not_succ_le_zero k le
    have unfolded : decodeFrom s i = (utf8Get s i).1 :: decodeFrom s (utf8Get s i).2 := by
      rw [decodeFrom, dif_pos lt]
    obtain ⟨c, is, -, inside, bytes⟩ := utf8Get_reads lt
    have size : i + (utf8Enc (utf8Get s i).1).length = (utf8Get s i).2 := by
      have sizes := congrArg List.length bytes
      rw [List.length_drop, List.length_append, List.length_drop] at sizes
      have next := utf8Get_next s i
      rw [is]
      omega
    have rest : k ≤ (decodeFrom s (utf8Get s i).2).length := by
      rw [unfolded, List.length_cons] at le
      omega
    obtain ⟨reach, left⟩ := ih (utf8Get s i).2 rest
    rw [unfolded, List.take_succ_cons, List.flatMap_cons, List.length_append, ← Nat.add_assoc, size,
      List.drop_succ_cons, atFrom, if_pos lt, skipOne_eq]
    exact ⟨reach, left⟩

theorem atFrom_past (s : Bytes) (k i : Nat) (lt : (decodeFrom s i).length < k) : atFrom s k i = none := by
  induction k generalizing i with
  | zero => exact absurd lt (Nat.not_lt_zero _)
  | succ k ih =>
    rw [atFrom]
    split
    · rename_i inside
      rw [decodeFrom, dif_pos inside, List.length_cons] at lt
      rw [skipOne_eq]
      exact ih _ (by omega)
    · rfl

/-- A character that is no escaped byte is read back as itself, whatever is around it. -/
theorem decodeFrom_encoded {l : List Int}
    (ok : ∀ cp ∈ l, ∃ c : Nat, cp = c ∧ c ≤ 1114111 ∧ ¬(56448 ≤ c ∧ c ≤ 56575))
    {s : Bytes} {i : Nat} (is : s.drop i = l.flatMap utf8Enc) : decodeFrom s i = l := by
  induction l generalizing i with
  | nil =>
    have past : ¬ i < s.length := by
      have none_ := List.drop_eq_nil_iff.mp is
      omega
    rw [decodeFrom, dif_neg past]
  | cons cp l ih =>
    obtain ⟨c, rfl, le, plain⟩ := ok cp List.mem_cons_self
    rw [List.flatMap_cons] at is
    have inside : i < s.length := by
      by_contra past
      rw [List.drop_eq_nil_of_le (by omega)] at is
      exact utf8Enc_ne_nil le (List.append_eq_nil_iff.mp is.symm).1
    have rest : s.drop (i + (utf8Enc c).length) = l.flatMap utf8Enc := by
      rw [← List.drop_drop, is, List.drop_left]
    rw [decodeFrom, dif_pos inside, utf8Get_enc le plain is]
    dsimp only
    rw [ih (fun cp mem => ok cp (List.mem_cons_of_mem _ mem)) rest]

/-- The place of a character: the bytes before it are those of the characters before it,
and it is read there. -/
theorem utf8At_spec {s : Bytes} {k : Nat} (lt : k < (decode s).length) :
    ∃ i, utf8At s k = some i ∧ i < s.length ∧ encode ((decode s).take k) = some (s.take i) ∧
      (decode s)[k]? = some (utf8Get s i).1 := by
  obtain ⟨fit, bytes⟩ := decodeFrom_spec s 0
  obtain ⟨reach, left⟩ := atFrom_spec s k 0 (le_of_lt lt)
  rw [Nat.zero_add] at reach left
  have inside : (((decode s).take k).flatMap utf8Enc).length < s.length := by
    by_contra past
    have none_ : decodeFrom s (((decode s).take k).flatMap utf8Enc).length = [] := by
      rw [decodeFrom, dif_neg past]
    exact absurd (List.drop_eq_nil_iff.mp (left.symm.trans none_)) (Nat.not_le.mpr lt)
  refine ⟨_, reach, inside, ?_, ?_⟩
  · have whole : s = ((decode s).take k).flatMap utf8Enc ++ ((decode s).drop k).flatMap utf8Enc := by
      rw [← List.flatMap_append, List.take_append_drop]
      exact bytes.symm
    have before : s.take (((decode s).take k).flatMap utf8Enc).length = ((decode s).take k).flatMap utf8Enc := by
      calc s.take (((decode s).take k).flatMap utf8Enc).length
          = List.take (((decode s).take k).flatMap utf8Enc).length
              (((decode s).take k).flatMap utf8Enc ++ ((decode s).drop k).flatMap utf8Enc) := congrArg _ whole
        _ = ((decode s).take k).flatMap utf8Enc := List.take_left
    have put := put_all (fun cp mem => fit cp (List.mem_of_mem_take mem)) (l := (decode s).take k) []
    rw [encode, put, List.nil_append]
    exact congrArg some before.symm
  · have first : ((decode s).drop k)[0]? = some (utf8Get s (((decode s).take k).flatMap utf8Enc).length).1 := by
      show (List.drop k (decodeFrom s 0))[0]? = _
      rw [← left]
      show (decodeFrom s (((decode s).take k).flatMap utf8Enc).length)[0]? = _
      rw [decodeFrom, dif_pos inside]
      rfl
    rwa [List.getElem?_drop, Nat.add_zero] at first

/-- One character is what is read as one. -/
theorem utf8One_spec (s : Bytes) : utf8One s = match decode s with | [cp] => cp | _ => -1 := by
  unfold utf8One decode
  split
  · rename_i empty
    rw [empty, decodeFrom, dif_neg (show ¬ 0 < ([] : Bytes).length from Nat.lt_irrefl 0)]
  · rename_i some_
    have pos : 0 < s.length := List.length_pos_iff.mpr some_
    rw [decodeFrom, dif_pos pos]
    split
    · rename_i whole
      rw [decodeFrom, dif_neg (by omega)]
    · rename_i more
      obtain ⟨-, -, -, inside, -⟩ := utf8Get_reads pos
      have rest : (utf8Get s 0).2 < s.length := by omega
      rw [decodeFrom, dif_pos rest]

/-- Bytes are characters and back, characters other than the escapes bytes and back, and
the count and the places are those of the characters. -/
theorem utf8_round_trip :
    (∀ s : Bytes, encode (decode s) = some s) ∧
    (∀ s : Bytes, utf8Count s = (decode s).length) ∧
    (∀ (s : Bytes) (k : Nat), k < (decode s).length →
      ∃ i, utf8At s k = some i ∧ i < s.length ∧ encode ((decode s).take k) = some (s.take i) ∧
        (decode s)[k]? = some (utf8Get s i).1) ∧
    (∀ (s : Bytes) (k : Nat), (decode s).length < k → utf8At s k = none) ∧
    (∀ l : List Int, (∀ cp ∈ l, 0 ≤ cp ∧ cp ≤ 0x10FFFF ∧ ¬(0xDC80 ≤ cp ∧ cp ≤ 0xDCFF)) →
      ∃ s, encode l = some s ∧ decode s = l) := by
  refine ⟨fun s => ?_, fun s => ?_, fun s k => utf8At_spec, fun s k => atFrom_past s k 0, fun l ok => ?_⟩
  · obtain ⟨fit, bytes⟩ := decodeFrom_spec s 0
    rw [encode, decode, put_all fit, bytes, List.drop_zero, List.nil_append]
  · rw [utf8Count, countFrom_eq, Nat.zero_add, decode]
  · have nat : ∀ cp ∈ l, ∃ c : Nat, cp = c ∧ c ≤ 1114111 ∧ ¬(56448 ≤ c ∧ c ≤ 56575) := by
      intro cp mem
      obtain ⟨low, high, plain⟩ := ok cp mem
      exact ⟨cp.toNat, by omega, by omega, by omega⟩
    refine ⟨l.flatMap utf8Enc, ?_, ?_⟩
    · rw [encode, put_all fun cp mem => by obtain ⟨c, is, le, -⟩ := nat cp mem; exact ⟨c, is, le⟩, List.nil_append]
    · exact decodeFrom_encoded nat (List.drop_zero)

end Cocolog.Text
