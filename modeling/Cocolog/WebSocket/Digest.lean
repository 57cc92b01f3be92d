import Cocolog.Arith.Naturals
import Cocolog.Lib.Sha1
import Cocolog.WebSocket.Base64
import Cocolog.WebSocket.RoundTrip

/-! SHA-1 in `library(websocket)`. The words are integers masked after each step; `is/2` is the
evaluator's, so a sum that left the machine's integers would raise. -/

set_option linter.all false

namespace Cocolog.WebSocket

open Cocolog.Lib Cocolog.Lib.Sha1 Cocolog.Arith

section Model

variable (F : Floats)

/-- `X is E`, of an expression that comes to a natural number. -/
def is_ (e : Expr) : Answers Arith.Error Nat :=
  match arith F e with
  | .ok (.int v) => .one v.toInt.toNat
  | .ok _ => .fail
  | .error e => .throw e

/-- `(X << L \/ X >> R) /\ 4294967295`. -/
def rotated (x l r : Nat) : Expr :=
  .two .and (.two .or (.two .shiftLeft (num x) (num l)) (.two .shiftRight (num x) (num r))) (num 4294967295)

/-- `(H + A) /\ 4294967295`. -/
def summed (h a : Nat) : Expr := .two .and (.two .add (num h) (num a)) (num 4294967295)

def wsSha1F (t b c d : Nat) : Answers Arith.Error (Nat × Nat) :=
  if t < 20 then do
    let f ← is_ F (.two .or (.two .and (num b) (num c)) (.two .and (.two .xor (num b) (num 4294967295)) (num d)))
    .one (f, 1518500249)
  else if t < 40 then do
    let f ← is_ F (.two .xor (.two .xor (num b) (num c)) (num d))
    .one (f, 1859775393)
  else if t < 60 then do
    let f ← is_ F (.two .or (.two .or (.two .and (num b) (num c)) (.two .and (num b) (num d))) (.two .and (num c) (num d)))
    .one (f, 2400959708)
  else do
    let f ← is_ F (.two .xor (.two .xor (num b) (num c)) (num d))
    .one (f, 3395469782)

/-- `A`, `B`, `C`, `D` and `E`. -/
abbrev Words := Nat × Nat × Nat × Nat × Nat

def wsSha1Rounds : List Nat → Nat → Words → Answers Arith.Error Words
  | [], _, v => .one v
  | w :: ws, t, (a, b, c, d, e) => do
    let (f, k) ← wsSha1F F t b c d
    let rot ← is_ F (rotated a 5 27)
    let temp ← is_ F (.two .and (.two .add (.two .add (.two .add (.two .add (num rot) (num f)) (num e)) (num k)) (num w)) (num 4294967295))
    let b30 ← is_ F (rotated b 30 2)
    let t1 ← is_ F (.two .add (num t) (num 1))
    wsSha1Rounds ws t1 (temp, a, b30, c, d)

/-- The window slides along: its first word goes and the new one comes. -/
def wsSha1More : Nat → List Nat → Answers Arith.Error (List Nat)
  | 0, _ => .one []
  | n + 1, [w0, w1, w2, w3, w4, w5, w6, w7, w8, w9, w10, w11, w12, w13, w14, w15] => do
    let x ← is_ F (.two .xor (.two .xor (num w13) (num w8)) (.two .xor (num w2) (num w0)))
    let w ← is_ F (rotated x 1 31)
    let ws ← wsSha1More n [w1, w2, w3, w4, w5, w6, w7, w8, w9, w10, w11, w12, w13, w14, w15, w]
    .one (w :: ws)
  | _, _ => .fail

def wsSha1Schedule (w16 : List Nat) : Answers Arith.Error (List Nat) := do
  let more ← wsSha1More F 64 w16
  .one (w16 ++ more)

def wsBytesWords : List Nat → Answers Arith.Error (List Nat)
  | [] => .one []
  | a :: b :: c :: d :: t => do
    let w ← is_ F (.two .or (.two .or (.two .or (.two .shiftLeft (num a) (num 24)) (.two .shiftLeft (num b) (num 16)))
      (.two .shiftLeft (num c) (num 8))) (num d))
    let ws ← wsBytesWords t
    .one (w :: ws)
  | _ => .fail

/-- `W >> S /\ 255`. -/
def byteOf (w s : Nat) : Expr := .two .and (.two .shiftRight (num w) (num s)) (num 255)

def wsWordsBytes : List Nat → Answers Arith.Error (List Nat)
  | [] => .one []
  | w :: ws => do
    let a ← is_ F (byteOf w 24)
    let b ← is_ F (byteOf w 16)
    let c ← is_ F (byteOf w 8)
    let d ← is_ F (.two .and (num w) (num 255))
    let t ← wsWordsBytes ws
    .one (a :: b :: c :: d :: t)

/-- A block fewer is to come at each turn. -/
def wsSha1Blocks (bytes : List Nat) (h : Words) : Answers Arith.Error Words :=
  if bytes = [] then .one h
  else if bytes.length < 64 then .fail
  else do
    let (h0, h1, h2, h3, h4) := h
    let w16 ← wsBytesWords F (bytes.take 64)
    let w80 ← wsSha1Schedule F w16
    let (a, b, c, d, e) ← wsSha1Rounds F w80 0 (h0, h1, h2, h3, h4)
    let n0 ← is_ F (summed h0 a)
    let n1 ← is_ F (summed h1 b)
    let n2 ← is_ F (summed h2 c)
    let n3 ← is_ F (summed h3 d)
    let n4 ← is_ F (summed h4 e)
    wsSha1Blocks (bytes.drop 64) (n0, n1, n2, n3, n4)
termination_by bytes.length
decreasing_by
  rw [List.length_drop]
  omega

def wsSha1 (bytes : List Nat) : Answers Arith.Error (List Nat) := do
  let zeros ← is_ F (.two .mod (.two .sub (num 55) (num bytes.length)) (num 64))
  let zs := List.replicate zeros 0
  let bits ← is_ F (.two .mul (num bytes.length) (num 8))
  let padded := bytes ++ [128] ++ zs ++ wsBeBytes 8 bits
  let (h0, h1, h2, h3, h4) ← wsSha1Blocks F padded (1732584193, 4023233417, 2562383102, 271733878, 3285377520)
  wsWordsBytes F [h0, h1, h2, h3, h4]

end Model

variable {F : Floats}

theorem is_of {e : Expr} {n : Nat} (comes : Comes F e n) : is_ F e = .one n := by
  rw [is_, comes.is]
  show Answers.one _ = _
  rw [toInt_ofNat comes.small, Int.toNat_natCast]

variable (F) in
/-- A word's leaf. -/
theorem word (w : UInt32) : Comes F (num w.toNat) w.toNat := .num (by have := w.toNat_lt; omega)

theorem mask_eq (n : Nat) : n &&& 4294967295 = n % 2 ^ 32 := Nat.and_two_pow_sub_one_eq_mod n 32

variable (F) in
theorem comes_mask : Comes F (num 4294967295) 4294967295 := .num (by decide)

theorem rotl_toNat (x : UInt32) {l : Nat} (some_ : 0 < l) (few : l < 32) :
    (rotl l x).toNat = (x.toNat <<< l ||| x.toNat >>> (32 - l)) % 2 ^ 32 := by
  have lt := x.toNat_lt
  have left : (UInt32.ofNat l).toNat % 32 = l := by
    rw [UInt32.toNat_ofNat']
    omega
  have right : (UInt32.ofNat (32 - l)).toNat % 32 = 32 - l := by
    rw [UInt32.toNat_ofNat']
    omega
  have low : x.toNat >>> (32 - l) < 2 ^ 32 := Nat.lt_of_le_of_lt (Nat.shiftRight_le ..) lt
  rw [rotl, UInt32.toNat_or, UInt32.toNat_shiftLeft, UInt32.toNat_shiftRight, left, right, Nat.or_mod_two_pow, Nat.mod_eq_of_lt low]

theorem comes_rotated (x : UInt32) {l : Nat} (some_ : 0 < l) (few : l ≤ 30) :
    Comes F (rotated x.toNat l (32 - l)) (rotl l x).toNat := by
  have lt := x.toNat_lt
  have small : x.toNat <<< l < 2 ^ 63 := by
    rw [Nat.shiftLeft_eq]
    have power : 2 ^ l ≤ 2 ^ 30 := Nat.pow_le_pow_right (by decide) few
    calc x.toNat * 2 ^ l ≤ x.toNat * 2 ^ 30 := Nat.mul_le_mul_left _ power
      _ < 2 ^ 63 := by omega
  have comes := ((((word F x).shiftLeft (.num (n := l) (by omega)) small).or ((word F x).shiftRight (.num (n := 32 - l) (by omega)))).and
    (comes_mask F))
  rw [mask_eq, ← rotl_toNat x some_ (by omega)] at comes
  exact comes

theorem comes_summed (h a : UInt32) : Comes F (summed h.toNat a.toNat) (h + a).toNat := by
  have lth := h.toNat_lt
  have lta := a.toNat_lt
  have comes := (((word F h).add (word F a) (by omega)).and (comes_mask F))
  rw [mask_eq, ← UInt32.toNat_add] at comes
  exact comes

/-- The functions with `\/` are the ones with `xor`. -/
theorem ch_eq (x y z : UInt32) : (x &&& y) ||| ((x ^^^ 4294967295) &&& z) = ch x y z := by
  rw [show (4294967295 : UInt32) = -1 from rfl, UInt32.xor_neg_one, ch]
  refine UInt32.toBitVec_inj.mp (BitVec.eq_of_getLsbD_eq fun i lt => ?_)
  simp only [UInt32.toBitVec_or, UInt32.toBitVec_and, UInt32.toBitVec_xor, UInt32.toBitVec_not, BitVec.getLsbD_or, BitVec.getLsbD_and,
    BitVec.getLsbD_xor, BitVec.getLsbD_not, lt, decide_true, Bool.true_and]
  cases x.toBitVec.getLsbD i <;> cases y.toBitVec.getLsbD i <;> cases z.toBitVec.getLsbD i <;> rfl

theorem maj_eq (x y z : UInt32) : ((x &&& y) ||| (x &&& z)) ||| (y &&& z) = maj x y z := by
  refine UInt32.toBitVec_inj.mp (BitVec.eq_of_getLsbD_eq fun i lt => ?_)
  rw [maj]
  simp only [UInt32.toBitVec_or, UInt32.toBitVec_and, UInt32.toBitVec_xor, BitVec.getLsbD_or, BitVec.getLsbD_and, BitVec.getLsbD_xor]
  cases x.toBitVec.getLsbD i <;> cases y.toBitVec.getLsbD i <;> cases z.toBitVec.getLsbD i <;> rfl

theorem wsSha1F_eq (t : Nat) (b c d : UInt32) : wsSha1F F t b.toNat c.toNat d.toNat = .one ((f t b c d).toNat, (k t).toNat) := by
  have parity_ : is_ F (.two .xor (.two .xor (num b.toNat) (num c.toNat)) (num d.toNat)) = .one (parity b c d).toNat :=
    is_of (((word F b).xor (word F c)).xor (word F d))
  have ch_ := is_of (((word F b).and (word F c)).or (((word F b).xor (comes_mask F)).and (word F d)))
  have maj_ := is_of ((((word F b).and (word F c)).or ((word F b).and (word F d))).or ((word F c).and (word F d)))
  rw [show (b.toNat &&& c.toNat ||| (b.toNat ^^^ 4294967295) &&& d.toNat) = (ch b c d).toNat from (congrArg UInt32.toNat (ch_eq b c d))] at ch_
  rw [show ((b.toNat &&& c.toNat ||| b.toNat &&& d.toNat) ||| c.toNat &&& d.toNat) = (maj b c d).toNat from (congrArg UInt32.toNat (maj_eq b c d))] at maj_
  rw [wsSha1F, f, k]
  split
  · rw [ch_]; rfl
  · split
    · rw [parity_]; rfl
    · split
      · rw [maj_]; rfl
      · rw [parity_]; rfl

/-- A hash value's words. -/
def nats (v : Five) : Words := (v.a.toNat, v.b.toNat, v.c.toNat, v.d.toNat, v.e.toNat)

theorem temp_eq (a e k w f : UInt32) : is_ F (.two .and (.two .add (.two .add (.two .add (.two .add (num a.toNat) (num f.toNat))
    (num e.toNat)) (num k.toNat)) (num w.toNat)) (num 4294967295)) = .one (a + f + e + k + w).toNat := by
  have lta := a.toNat_lt
  have lte := e.toNat_lt
  have ltk := k.toNat_lt
  have ltw := w.toNat_lt
  have ltf := f.toNat_lt
  have comes := ((((((word F a).add (word F f) (by omega)).add (word F e) (by omega)).add (word F k) (by omega)).add (word F w)
    (by omega)).and (comes_mask F))
  rw [is_of comes, mask_eq, UInt32.toNat_add, UInt32.toNat_add, UInt32.toNat_add, UInt32.toNat_add]
  refine congrArg Answers.one ?_
  omega

theorem wsSha1Rounds_eq (g : Nat → UInt32) (n t : Nat) (small : t + n < 2 ^ 59) (v : Five) :
    wsSha1Rounds F ((List.range' t n).map fun t => (g t).toNat) t (nats v) =
      .one (nats ((List.range' t n).foldl (fun v t => round t (g t) v) v)) := by
  induction n generalizing t v with
  | zero => rfl
  | succ n ih =>
    have next := is_of ((Comes.num (F := F) (n := t) (by omega)).add (.num (n := 1) (by decide)) (by omega))
    have rot := is_of (comes_rotated (F := F) v.a (l := 5) (by decide) (by decide))
    have b30 := is_of (comes_rotated (F := F) v.b (l := 30) (by decide) (by decide))
    rw [List.range'_succ, List.map_cons, nats, wsSha1Rounds, wsSha1F_eq, Answers.one_bind]
    dsimp only
    rw [rot, Answers.one_bind, temp_eq, Answers.one_bind, b30, Answers.one_bind, next, Answers.one_bind]
    exact ih (t + 1) (by omega) (round t (g t) v)

/-- The window slides along the schedule. -/
theorem wsSha1More_eq {g : Nat → UInt32} {last : Nat}
    (next : ∀ t < last, g (t + 16) = rotl 1 (g (t + 13) ^^^ g (t + 8) ^^^ g (t + 2) ^^^ g t)) (n t : Nat) (within : t + n ≤ last) :
    wsSha1More F n ((List.range' t 16).map fun t => (g t).toNat) = .one ((List.range' (t + 16) n).map fun t => (g t).toNat) := by
  induction n generalizing t with
  | zero => rfl
  | succ n ih =>
    have window : (List.range' t 16).map (fun t => (g t).toNat) = [(g t).toNat, (g (t + 1)).toNat, (g (t + 2)).toNat,
      (g (t + 3)).toNat, (g (t + 4)).toNat, (g (t + 5)).toNat, (g (t + 6)).toNat, (g (t + 7)).toNat, (g (t + 8)).toNat,
      (g (t + 9)).toNat, (g (t + 10)).toNat, (g (t + 11)).toNat, (g (t + 12)).toNat, (g (t + 13)).toNat, (g (t + 14)).toNat,
      (g (t + 15)).toNat] := rfl
    have x := is_of (((word F (g (t + 13))).xor (word F (g (t + 8)))).xor ((word F (g (t + 2))).xor (word F (g t))))
    have mixed : ((g (t + 13)).toNat ^^^ (g (t + 8)).toNat) ^^^ ((g (t + 2)).toNat ^^^ (g t).toNat) =
        (g (t + 13) ^^^ g (t + 8) ^^^ g (t + 2) ^^^ g t).toNat := by
      rw [UInt32.toNat_xor, UInt32.toNat_xor, UInt32.toNat_xor]
      exact (Nat.xor_assoc _ _ _).symm
    have w := is_of (comes_rotated (F := F) (g (t + 13) ^^^ g (t + 8) ^^^ g (t + 2) ^^^ g t) (l := 1) (by decide) (by decide))
    rw [← next t (by omega)] at w
    rw [window, wsSha1More, x, Answers.one_bind, mixed, w, Answers.one_bind]
    have later := ih (t + 1) (by omega)
    have window' : (List.range' (t + 1) 16).map (fun t => (g t).toNat) = [(g (t + 1)).toNat, (g (t + 2)).toNat,
      (g (t + 3)).toNat, (g (t + 4)).toNat, (g (t + 5)).toNat, (g (t + 6)).toNat, (g (t + 7)).toNat, (g (t + 8)).toNat,
      (g (t + 9)).toNat, (g (t + 10)).toNat, (g (t + 11)).toNat, (g (t + 12)).toNat, (g (t + 13)).toNat, (g (t + 14)).toNat,
      (g (t + 15)).toNat, (g (t + 16)).toNat] := rfl
    rw [window'] at later
    rw [later, Answers.one_bind, List.range'_succ, List.map_cons, show t + 16 + 1 = t + 1 + 16 by omega]

/-- Four bytes joined are their word. -/
theorem word_eq (a b c d : UInt8) : is_ F (.two .or (.two .or (.two .or (.two .shiftLeft (num a.toNat) (num 24))
    (.two .shiftLeft (num b.toNat) (num 16))) (.two .shiftLeft (num c.toNat) (num 8))) (num d.toNat)) =
      .one (a.toUInt32 <<< 24 ||| b.toUInt32 <<< 16 ||| c.toUInt32 <<< 8 ||| d.toUInt32).toNat := by
  have byte : ∀ x : UInt8, Comes F (num x.toNat) x.toNat := fun x => .num (by have := x.toNat_lt; omega)
  have shifted : ∀ (x : UInt8) l, l ≤ 24 → x.toNat <<< l < 2 ^ 32 := by
    intro x l few
    have lt := x.toNat_lt
    have power : 2 ^ l ≤ 2 ^ 24 := Nat.pow_le_pow_right (by decide) few
    rw [Nat.shiftLeft_eq]
    calc x.toNat * 2 ^ l ≤ x.toNat * 2 ^ 24 := Nat.mul_le_mul_left _ power
      _ < 2 ^ 32 := by omega
  have part : ∀ (x : UInt8) l, l ≤ 24 → Comes F (.two .shiftLeft (num x.toNat) (num l)) (x.toNat <<< l) := fun x l few =>
    (byte x).shiftLeft (.num (by omega)) (Nat.lt_trans (shifted x l few) (by decide))
  have comes := (((part a 24 (by decide)).or (part b 16 (by decide))).or (part c 8 (by decide))).or (byte d)
  rw [is_of comes, UInt32.toNat_or, UInt32.toNat_or, UInt32.toNat_or, UInt32.toNat_shiftLeft, UInt32.toNat_shiftLeft,
    UInt32.toNat_shiftLeft, UInt8.toNat_toUInt32, UInt8.toNat_toUInt32, UInt8.toNat_toUInt32, UInt8.toNat_toUInt32]
  refine congrArg Answers.one ?_
  show _ = a.toNat <<< 24 % 2 ^ 32 ||| b.toNat <<< 16 % 2 ^ 32 ||| c.toNat <<< 8 % 2 ^ 32 ||| d.toNat
  rw [Nat.mod_eq_of_lt (shifted a 24 (by decide)), Nat.mod_eq_of_lt (shifted b 16 (by decide)), Nat.mod_eq_of_lt (shifted c 8 (by decide))]

theorem wsBytesWords_eq (n : Nat) (block : List UInt8) (length : block.length = 4 * n) :
    wsBytesWords F (block.map UInt8.toNat) = .one ((List.range n).map fun t => (wordAt block (4 * t)).toNat) := by
  induction n generalizing block with
  | zero =>
    rw [List.length_eq_zero_iff.mp length]
    rfl
  | succ n ih =>
    obtain ⟨a, b, c, d, rest, rfl⟩ : ∃ a b c d rest, block = a :: b :: c :: d :: rest := by
      rcases block with _ | ⟨a, _ | ⟨b, _ | ⟨c, _ | ⟨d, rest⟩⟩⟩⟩
      · cases length
      · rw [List.length_singleton] at length
        omega
      · rw [List.length_cons, List.length_singleton] at length
        omega
      · rw [List.length_cons, List.length_cons, List.length_singleton] at length
        omega
      · exact ⟨a, b, c, d, rest, rfl⟩
    have shifted : ∀ t, wordAt (a :: b :: c :: d :: rest) (4 * (t + 1)) = wordAt rest (4 * t) := fun t => rfl
    have here : wordAt (a :: b :: c :: d :: rest) (4 * 0) = a.toUInt32 <<< 24 ||| b.toUInt32 <<< 16 ||| c.toUInt32 <<< 8 ||| d.toUInt32 := rfl
    rw [List.length_cons, List.length_cons, List.length_cons, List.length_cons] at length
    rw [List.map_cons, List.map_cons, List.map_cons, List.map_cons, wsBytesWords, word_eq, Answers.one_bind, ih rest (by omega),
      Answers.one_bind, List.range_succ_eq_map, List.map_cons, here, List.map_map]
    refine congrArg Answers.one (congrArg (List.cons _) (List.map_congr_left fun t _ => ?_))
    exact congrArg UInt32.toNat (shifted t).symm

theorem wsWordsBytes_eq (ws : List UInt32) : wsWordsBytes F (ws.map UInt32.toNat) = .one ((ws.flatMap wordBytes).map UInt8.toNat) := by
  induction ws with
  | nil => rfl
  | cons w ws ih =>
    have byte : ∀ s < 32, is_ F (byteOf w.toNat s) = .one (w >>> UInt32.ofNat s).toUInt8.toNat := by
      intro s few
      have comes := is_of (((word F w).shiftRight (.num (n := s) (by omega))).and (.num (n := 255) (F := F) (by decide)))
      have place : (UInt32.ofNat s).toNat % 32 = s := by
        rw [UInt32.toNat_ofNat']
        omega
      rw [byteOf, comes, UInt32.toNat_toUInt8, UInt32.toNat_shiftRight, place]
      exact congrArg Answers.one (Nat.and_two_pow_sub_one_eq_mod _ 8)
    have low : is_ F (.two .and (num w.toNat) (num 255)) = .one w.toUInt8.toNat := by
      rw [is_of ((word F w).and (.num (n := 255) (F := F) (by decide))), UInt32.toNat_toUInt8]
      exact congrArg Answers.one (Nat.and_two_pow_sub_one_eq_mod _ 8)
    rw [List.map_cons, wsWordsBytes, byte 24 (by decide), Answers.one_bind, byte 16 (by decide), Answers.one_bind, byte 8 (by decide),
      Answers.one_bind, low, Answers.one_bind, ih, Answers.one_bind]
    rfl

/-- One block's words, schedule and rounds. -/
theorem compress_words (block : List UInt8) (length : block.length = 64) (h : Five) :
    ∃ w16 w80, wsBytesWords F (block.map UInt8.toNat) = .one w16 ∧ wsSha1Schedule F w16 = .one w80 ∧
      wsSha1Rounds F w80 0 (nats h) = .one (nats (rounds (schedule (words block) 64) h)) := by
  obtain ⟨g, hg⟩ : ∃ g : Nat → UInt32, g = fun t => (schedule (words block) 64).getD t 0 := ⟨_, rfl⟩
  have sixteen : (words block).length = 16 := by rw [words, List.length_map, List.length_range]
  have next : ∀ t < 64, g (t + 16) = rotl 1 (g (t + 13) ^^^ g (t + 8) ^^^ g (t + 2) ^^^ g t) := fun t lt => hg ▸ schedule_next sixteen lt
  have first : (List.range 16).map (fun t => (wordAt block (4 * t)).toNat) = (List.range' 0 16).map fun t => (g t).toNat := by
    rw [← List.range_eq_range']
    refine List.map_congr_left fun t mem => congrArg UInt32.toNat ?_
    have lt := List.mem_range.mp mem
    rw [hg]
    have stays := schedule_stays (words block) (i := t) (n := 0) (by omega) 64
    rw [Nat.zero_add] at stays
    refine Eq.trans ?_ stays.symm
    show _ = (words block).getD t 0
    rw [List.getD_eq_getElem?_getD, words, List.getElem?_map, List.getElem?_range lt]
    rfl
  have more := wsSha1More_eq (F := F) next 64 0 (by decide)
  have all : (List.range' 0 16).map (fun t => (g t).toNat) ++ (List.range' (0 + 16) 64).map (fun t => (g t).toNat) =
      (List.range' 0 80).map fun t => (g t).toNat := by
    rw [← List.map_append]
    exact congrArg _ (List.range'_append_1 (s := 0) (m := 16) (n := 64))
  refine ⟨_, _, wsBytesWords_eq 16 block length, by rw [first, wsSha1Schedule, more, Answers.one_bind, all], ?_⟩
  rw [wsSha1Rounds_eq g 80 0 (by decide), rounds, hg, List.range_eq_range']

theorem absorb_next (bytes : List UInt8) (m : Nat) (length : bytes.length = 64 * (m + 1)) (h : Five) :
    absorb bytes h = absorb (bytes.drop 64) (compress h (bytes.take 64)) := by
  have blocks : bytes.length / 64 = m + 1 := by omega
  have blocks' : (bytes.drop 64).length / 64 = m := by
    rw [List.length_drop]
    omega
  rw [absorb, absorb, blocks, blocks', List.range_succ_eq_map, List.foldl_cons, List.foldl_map, Nat.mul_zero, List.drop_zero]
  refine congrArg (fun step => List.foldl step _ _) (funext fun h => funext fun i => ?_)
  rw [List.drop_drop, Nat.mul_succ, Nat.add_comm]

theorem wsSha1Blocks_eq (m : Nat) (bytes : List UInt8) (length : bytes.length = 64 * m) (h : Five) :
    wsSha1Blocks F (bytes.map UInt8.toNat) (nats h) = .one (nats (absorb bytes h)) := by
  induction m generalizing bytes h with
  | zero =>
    rw [List.length_eq_zero_iff.mp length, List.map_nil, wsSha1Blocks, if_pos rfl]
    rfl
  | succ m ih =>
    have some_ : bytes.map UInt8.toNat ≠ [] := by
      intro none_
      rw [List.map_eq_nil_iff] at none_
      rw [none_] at length
      cases length
    obtain ⟨w16, w80, words_, schedule_, rounds_⟩ := compress_words (F := F) (bytes.take 64) (by rw [List.length_take]; omega) h
    rw [wsSha1Blocks, if_neg some_, if_neg (by rw [List.length_map]; omega), nats]
    dsimp only
    rw [← List.map_take, words_, Answers.one_bind, schedule_, Answers.one_bind, ← nats, rounds_, Answers.one_bind]
    dsimp only [nats]
    rw [is_of (comes_summed ..), Answers.one_bind, is_of (comes_summed ..), Answers.one_bind, is_of (comes_summed ..), Answers.one_bind,
      is_of (comes_summed ..), Answers.one_bind, is_of (comes_summed ..), Answers.one_bind, ← List.map_drop, absorb_next bytes m length]
    exact ih (bytes.drop 64) (by rw [List.length_drop]; omega) (compress h (bytes.take 64))

/-- The zeros of the padding, floored under a remainder of a negative number. -/
theorem comes_zeros (len : Nat) (small : len < 2 ^ 63) :
    Comes F (.two .mod (.two .sub (num 55) (num len)) (num 64)) (zeros len) := by
  have least : zeros len < 64 := by
    rw [zeros]
    omega
  have fits : Words.Fits (55 - (len : Int)) := by
    unfold Words.Fits
    omega
  have len_ := Comes.num (F := F) small
  have below : arith F (.two .sub (num 55) (num len)) = .ok (.int (Int64.ofInt (55 - len))) := by
    have value : integerValue .sub (Int64.ofNat 55).toInt (Int64.ofNat len).toInt = some (some (55 - (len : Int))) := by
      rw [toInt_ofNat (by decide), toInt_ofNat small]
      rfl
    rw [arith_integer (Comes.num (by decide)).is len_.is value, answered, exact, narrowed, if_pos fits]
    rfl
  refine ⟨by omega, ?_⟩
  have value : integerValue .mod (Int64.ofInt (55 - len)).toInt (Int64.ofNat 64).toInt = some (some (zeros len : Int)) := by
    rw [Words.toInt_ofInt fits, toInt_ofNat (by decide), integerValue, if_neg (by decide)]
    refine congrArg (some <| some ·) ?_
    rw [Int.fmod_eq_emod_of_nonneg _ (by decide), zeros]
    omega
  rw [arith_integer below (Comes.num (by decide)).is value]
  exact (exact_of_eq (toInt_ofNat (by omega))).symm

/-- The length in eight bytes. -/
theorem wsBeBytes_length64 (v : Nat) : wsBeBytes 8 v = (length64 v).map UInt8.toNat := by
  have byte : ∀ n : Nat, (UInt8.ofNat n).toNat = n % 256 := fun n => UInt8.toNat_ofNat'
  rw [length64, List.map_map]
  simp only [wsBeBytes, wsBeBytes_, low_byte, shift_byte, Nat.div_div_eq_div_mul]
  show _ = [_, _, _, _, _, _, _, _]
  simp only [Function.comp, byte]
  rw [show v / 256 ^ (7 - 7) % 256 = v % 256 by rw [Nat.sub_self, Nat.pow_zero, Nat.div_one]]
  rfl

/-- `ws_sha1` is SHA-1, and base64 answers a text's bytes exactly where the text is their encoding. -/
theorem sha1_and_base64 :
    (∀ (F : Floats) (bytes : List UInt8), bytes.length < 2 ^ 56 →
      wsSha1 F (bytes.map UInt8.toNat) = .one ((digest bytes).map UInt8.toNat)) ∧
    (∀ bytes codes : List Nat, (∀ b ∈ bytes, b < 256) → (wsUnbase64 codes = some bytes ↔ wsBase64 bytes = some codes)) ∧
    ∀ codes, wsUnbase64 codes = none ↔ ∀ bytes, (∀ b ∈ bytes, b < 256) → wsBase64 bytes ≠ some codes := by
  refine ⟨fun F bytes small => ?_, fun _ _ => unbase64_iff, fun _ => unbase64_none_iff⟩
  have long : (bytes.map UInt8.toNat).length = bytes.length := List.length_map _
  have bits := is_of ((Comes.num (F := F) (n := bytes.length) (by omega)).mul (.num (n := 8) (by decide)) (by omega))
  have padded : bytes.map UInt8.toNat ++ [128] ++ List.replicate (zeros bytes.length) 0 ++ wsBeBytes 8 (bytes.length * 8) =
      (pad bytes).map UInt8.toNat := by
    rw [pad, List.map_append, List.map_append, List.map_append, List.map_replicate, wsBeBytes_length64, Nat.mul_comm]
    rfl
  have blocks : ∃ m, (pad bytes).length = 64 * m := by
    have ends_ := (zeros_least bytes.length).1
    rw [pad, List.length_append, List.length_append, List.length_append, List.length_replicate, List.length_singleton, length64,
      List.length_map, List.length_range]
    exact ⟨(bytes.length + 1 + zeros bytes.length + 8) / 64, by omega⟩
  obtain ⟨m, blocks⟩ := blocks
  have whole := wsSha1Blocks_eq (F := F) m (pad bytes) blocks initial
  rw [wsSha1, long, is_of (comes_zeros _ (by omega)), Answers.one_bind, bits, Answers.one_bind]
  dsimp only
  rw [padded]
  rw [show (1732584193, 4023233417, 2562383102, 271733878, 3285377520) = nats initial from rfl, whole, Answers.one_bind, nats]
  dsimp only
  rw [digest]
  exact wsWordsBytes_eq [_, _, _, _, _]

/-- Three bytes: their digest, and their text undone. -/
theorem sha1_and_base64_abc :
    wsSha1 noFloats [97, 98, 99] = .one [169, 153, 62, 54, 71, 6, 129, 106, 186, 62, 37, 113, 120, 80, 194, 108, 156, 208, 216, 157] ∧
      wsUnbase64 [89, 87, 74, 106] = some [97, 98, 99] := by
  have text : wsBase64 [97, 98, 99] = some [89, 87, 74, 106] := by decide
  have answer : (digest [97, 98, 99]).map UInt8.toNat =
      [169, 153, 62, 54, 71, 6, 129, 106, 186, 62, 37, 113, 120, 80, 194, 108, 156, 208, 216, 157] := by decide +kernel
  refine ⟨?_, (sha1_and_base64.2.1 [97, 98, 99] [89, 87, 74, 106] (by decide)).mpr text⟩
  rw [← answer]
  exact sha1_and_base64.1 noFloats [97, 98, 99] (by decide)

end Cocolog.WebSocket
