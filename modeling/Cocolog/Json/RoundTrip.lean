import Cocolog.Json.Documents
import Cocolog.Json.Writer
import Mathlib.Data.List.TakeWhile

/-! `json_parse` reads back what `json_codes` writes: the text of a term is a text of the
grammar, whatever the indent, and it stands for the term. -/

set_option linter.all false

namespace Cocolog.Json
open Lib Lib.Json Text

variable {F : Type} {C : Bool} {D : Doubles F}

/-! ## Numbers are numerals -/

/-- As `printf` prints a finite double: the first digit is no zero, but for zero itself, whose
exponent is zero. -/
structure Printed (t : Scientific) : Prop where
  present : t.digits ≠ []
  digits : ∀ d ∈ t.digits, d ≤ 9
  first : t.digits.head? ≠ some 0 ∨ t.exp = 0

theorem carry_digits {ds : List Nat} (digits : ∀ d ∈ ds, d ≤ 9) :
    (carry ds).1.length = ds.length ∧ ∀ d ∈ (carry ds).1, d ≤ 9 := by
  induction ds with
  | nil => exact ⟨rfl, digits⟩
  | cons d ds ih =>
    have rest := ih fun e mem => digits e (List.mem_cons_of_mem d mem)
    have le := digits d List.mem_cons_self
    unfold carry
    split
    · exact ⟨by simp [rest.1], by simpa using rest.2⟩
    · refine ⟨by simp, ?_⟩
      intro e mem
      rcases List.mem_cons.mp mem with rfl | mem
      · omega
      · exact digits e (List.mem_cons_of_mem d mem)

/-- Where a carry stops, the last digit it saw is no less than before. -/
theorem carry_last {ds : List Nat} (stops : (carry ds).2 = false) {x : Nat}
    (last : (carry ds).1.getLast? = some x) : ∃ y, ds.getLast? = some y ∧ y ≤ x := by
  induction ds with
  | nil => cases stops
  | cons d ds ih =>
    unfold carry at stops last
    split at stops
    · next nine =>
      rw [if_pos nine] at last
      cases ds with
      | nil => cases stops
      | cons e ds =>
        have long : (carry (e :: ds)).1 ≠ [] := by
          unfold carry
          split <;> simp
        rw [List.getLast?_cons_of_ne_nil long] at last
        obtain ⟨y, is, le⟩ := ih stops last
        exact ⟨y, by simpa using is, le⟩
    · next other =>
      rw [if_neg other] at last
      cases ds with
      | nil =>
        simp only [List.getLast?_singleton, Option.some.injEq] at last
        exact ⟨d, rfl, by omega⟩
      | cons e ds => exact ⟨x, by simpa using last, Nat.le_refl x⟩

theorem borrow_digits {ds : List Nat} (digits : ∀ d ∈ ds, d ≤ 9) :
    (borrow ds).length = ds.length ∧ ∀ d ∈ borrow ds, d ≤ 9 := by
  induction ds with
  | nil => exact ⟨rfl, digits⟩
  | cons d ds ih =>
    have rest := ih fun e mem => digits e (List.mem_cons_of_mem d mem)
    have le := digits d List.mem_cons_self
    unfold borrow
    split
    · exact ⟨by simp [rest.1], by simpa using rest.2⟩
    · refine ⟨by simp, ?_⟩
      intro e mem
      rcases List.mem_cons.mp mem with rfl | mem
      · omega
      · exact digits e (List.mem_cons_of_mem d mem)

theorem Printed.nudge {t : Scientific} (printed : Printed t) (up : Bool) : Printed (nudge t up) := by
  have digits : ∀ d ∈ t.digits.reverse, d ≤ 9 := by simpa using printed.digits
  have long : 0 < t.digits.length := List.length_pos_iff.mpr printed.present
  unfold Json.nudge
  split
  · have carried := carry_digits digits
    dsimp only
    split
    · refine ⟨by simp, ?_, .inl (by simp)⟩
      intro d mem
      rcases List.mem_cons.mp mem with rfl | mem
      · decide
      · exact carried.2 d (by simpa using List.mem_of_mem_tail mem)
    · next stops =>
      refine ⟨?_, by simpa using carried.2, ?_⟩
      · rw [← List.length_pos_iff]
        simp [carried.1, long]
      · rcases printed.first with first | zero
        · refine .inl fun head => first ?_
          obtain ⟨y, is, le⟩ := carry_last (by simpa using stops) (x := 0) (by simpa using head)
          have : y = 0 := by omega
          rw [← this]
          simpa using is
        · exact .inr zero
  · have borrowed := borrow_digits digits
    dsimp only
    split
    · refine ⟨?_, ?_, .inl ?_⟩
      · rw [← List.length_pos_iff]
        simp [long]
      · intro d mem
        exact (List.eq_of_mem_replicate mem).le
      · rw [List.head?_replicate]
        simp [printed.present]
    · next first =>
      refine ⟨?_, by simpa using borrowed.2, .inl first⟩
      rw [← List.length_pos_iff]
      simp [borrowed.1, long]

theorem fewest_printed {v : F} (prints : ∀ p, Printed (D.printf p v)) (left : Nat) :
    Printed (fewest D v left) := by
  induction left with
  | zero => exact prints 17
  | succ left ih =>
    unfold fewest
    dsimp only
    split
    · exact prints _
    · split
      · exact (prints _).nudge _
      · exact ih

theorem stripped_suffix (l : List Nat) : stripped l <:+ l ∧ (l ≠ [] → stripped l ≠ []) := by
  fun_induction stripped l with
  | case1 => exact ⟨List.suffix_refl _, id⟩
  | case2 d => exact ⟨List.suffix_refl _, id⟩
  | case3 e ds ih => exact ⟨ih.1.trans (List.suffix_cons 0 _), fun _ => ih.2 (by simp)⟩
  | case4 d e ds other => exact ⟨List.suffix_refl _, id⟩

theorem isWhole_of {d : Nat} {ds : Text} (digits : Digits (d :: ds)) (first : d ≠ 48 ∨ ds = []) :
    IsWhole (d :: ds) := by
  have digit := digits d List.mem_cons_self
  by_cases zero : d = 48
  · exact .inl (by rw [zero, first.resolve_left (not_not.mpr zero)])
  · unfold Digit at digit
    exact .inr ⟨d, ds, rfl, by omega, digit.2, fun c mem => digits c (List.mem_cons_of_mem d mem)⟩

theorem isFrac_of {ds : Text} (present : ds ≠ []) (digits : Digits ds) : IsFrac (46 :: ds) := by
  obtain ⟨d, ds, rfl⟩ := List.exists_cons_of_ne_nil present
  exact .inr ⟨d, ds, rfl, digits d List.mem_cons_self, fun c mem => digits c (List.mem_cons_of_mem d mem)⟩

theorem decimal_ne_nil (n : Nat) : decimal n ≠ [] := by
  by_cases zero : n = 0
  · simp [decimal, zero]
  · obtain ⟨d, ds, is, _⟩ := decimal_head zero
    rw [is]
    simp

theorem isExp_signed (i : Int) : IsExp (101 :: signed i) := by
  obtain ⟨d, ds, is⟩ := List.exists_cons_of_ne_nil (decimal_ne_nil i.natAbs)
  have digits := decimal_digits i.natAbs
  rw [is] at digits
  refine .inr ⟨101, [if i < 0 then 45 else 43], d, ds, by simp [signed, is], .inl rfl, ?_,
    digits d List.mem_cons_self, fun c mem => digits c (List.mem_cons_of_mem d mem)⟩
  split <;> simp

/-- However they are set out, the digits are a numeral with a fraction. -/
theorem layout_numeral {digits : List Nat} {exp : Int} (present : digits ≠ [])
    (small : ∀ d ∈ digits, d ≤ 9) (first : digits.head? ≠ some 0 ∨ exp = 0) :
    ∃ whole frac e, layout digits exp = whole ++ (frac ++ e) ∧ IsWhole whole ∧ IsFrac frac ∧
      frac ≠ [] ∧ IsExp e := by
  obtain ⟨d, rest, rfl⟩ := List.exists_cons_of_ne_nil present
  have all : Digits ((d :: rest).map (48 + ·)) := by
    intro c mem
    obtain ⟨e, digit, rfl⟩ := List.mem_map.mp mem
    have := small e digit
    exact ⟨by omega, by omega⟩
  have zeros (n : Nat) : Digits (List.replicate n 48) := fun c mem => by
    rw [List.eq_of_mem_replicate mem]
    decide
  have first' : d ≠ 0 ∨ exp = 0 := by simpa using first
  have append {a b : Text} (ha : Digits a) (hb : Digits b) : Digits (a ++ b) := fun c mem =>
    (List.mem_append.mp mem).elim (ha c) (hb c)
  unfold layout
  dsimp only
  have single : IsWhole [48 + d] :=
    isWhole_of (fun c mem => all c (by simp at mem; simp [mem])) (.inr rfl)
  split_ifs with before inside after long
  · exact ⟨[48], 46 :: (List.replicate (-(exp + 1)).toNat 48 ++ (d :: rest).map (48 + ·)), [],
      by rw [List.append_nil]; rfl, .inl rfl, isFrac_of (by simp) (append (zeros _) all), by simp,
      .inl rfl⟩
  · obtain ⟨k, is⟩ : ∃ k, (exp + 1).toNat = k + 1 := ⟨(exp + 1).toNat - 1, by omega⟩
    simp only [List.length_map] at inside
    refine ⟨((d :: rest).map (48 + ·)).take (k + 1), 46 :: ((d :: rest).map (48 + ·)).drop (k + 1), [],
      by rw [is, List.append_nil], ?_, isFrac_of ?_ ?_, by simp, .inl rfl⟩
    · refine isWhole_of (d := 48 + d) (fun c mem => all c (List.mem_of_mem_take (i := k + 1) mem)) ?_
      rcases first' with nonzero | zero
      · exact .inl (by omega)
      · exact .inr (by simp [show k = 0 by omega])
    · rw [← List.length_pos_iff]
      simp only [List.length_drop, List.length_map]
      omega
    · exact fun c mem => all c (List.mem_of_mem_drop mem)
  · simp only [List.length_map] at inside ⊢
    refine ⟨(d :: rest).map (48 + ·) ++ List.replicate ((exp + 1).toNat - (d :: rest).length) 48,
      [46, 48], [], by simp, ?_, isFrac_of (by simp) (zeros 1), by simp, .inl rfl⟩
    refine isWhole_of (d := 48 + d) (append all (zeros _)) ?_
    rcases first' with nonzero | zero
    · exact .inl (by omega)
    · simp only [List.length_cons] at inside
      have short : rest = [] := List.length_eq_zero_iff.mp (by omega)
      exact .inr (by simp [short, zero])
  · refine ⟨[48 + d], 46 :: ((d :: rest).map (48 + ·)).tail, 101 :: signed (exp + 1 - 1), by simp,
      single, isFrac_of ?_ (fun c mem => all c (List.mem_of_mem_tail mem)), by simp, isExp_signed _⟩
    rw [← List.length_pos_iff, List.length_tail]
    omega
  · exact ⟨[48 + d], [46, 48], 101 :: signed (exp + 1 - 1), by simp, single,
      isFrac_of (by simp) (zeros 1), by simp, isExp_signed _⟩

/-- A double that has a text of digits. -/
def Finite (D : Doubles F) (x : F) : Prop := D.nan x = false ∧ D.infinite x = false

/-- `printf` prints every finite double as its manual has it. -/
def Prints (D : Doubles F) : Prop := ∀ x, Finite D x → ∀ p, Printed (D.printf p x)

/-- `number_codes/2` reads back the text that it writes for a finite double. -/
def ReadsBack (D : Doubles F) : Prop :=
  ∀ x, Finite D x → readNumberText D (numberCodes D (.flt x)) = some (.flt x)

theorem putDouble_numeral (prints : Prints D) {x : F} (finite : Finite D x) :
    ∃ n : Numeral, n.text = putDouble D x ∧ ¬n.Integral := by
  unfold putDouble
  rw [if_neg (by simp [finite.1]), if_neg (by simp [finite.2])]
  dsimp only
  have printed := fewest_printed (prints x finite) (if D.small x then 16 else 2)
  generalize fewest D x (if D.small x then 16 else 2) = t at *
  have suffix := stripped_suffix t.digits.reverse
  have start : (stripped t.digits.reverse).reverse <+: t.digits := by
    rw [← List.reverse_suffix, List.reverse_reverse]
    exact suffix.1
  have present : (stripped t.digits.reverse).reverse ≠ [] := by
    simpa using suffix.2 (by simpa using printed.present)
  have first : (stripped t.digits.reverse).reverse.head? ≠ some 0 ∨ t.exp = 0 := by
    obtain ⟨rest, is⟩ := start
    obtain ⟨d, ds, cons⟩ := List.exists_cons_of_ne_nil present
    have := printed.first
    rw [← is, cons] at this
    simpa [cons] using this
  obtain ⟨whole, frac, e, laid, isWhole, isFrac, pointed, isExp⟩ :=
    layout_numeral present (fun d mem => printed.digits d (start.subset mem)) first
  refine ⟨⟨if t.minus then [45] else [], whole, frac, e, ?_, isWhole, isFrac, isExp⟩, ?_,
    fun integral => pointed integral.1⟩
  · unfold IsMinus
    split <;> simp
  · simp only [Numeral.text, laid]

theorem isWhole_decimal (n : Nat) : IsWhole (decimal n) := by
  by_cases zero : n = 0
  · exact .inl (by simp [decimal, zero])
  · obtain ⟨d, ds, is, le⟩ := decimal_head zero
    have digits := decimal_digits n
    rw [is] at digits ⊢
    exact isWhole_of digits (.inl (by omega))

theorem putI64_numeral (i : Int) : ∃ n : Numeral, n.text = putI64 i ∧ n.Integral ∧ n.int = i := by
  by_cases neg : i < 0
  · refine ⟨⟨[45], decimal i.natAbs, [], [], .inr rfl, isWhole_decimal _, .inl rfl, .inl rfl⟩, ?_,
      ⟨rfl, rfl⟩, ?_⟩
    · simp [Numeral.text, putI64, neg]
    · simp only [Numeral.int, natOf_decimal]
      grind
  · refine ⟨⟨[], decimal i.natAbs, [], [], .inl rfl, isWhole_decimal _, .inl rfl, .inl rfl⟩, ?_,
      ⟨rfl, rfl⟩, ?_⟩
    · simp [Numeral.text, putI64, neg]
    · simp only [Numeral.int, natOf_decimal]
      grind

/-- A number that JSON can write: an integer of 64 bits or a finite double. -/
def Writable (D : Doubles F) : Number F → Prop
  | .int i => -2 ^ 63 ≤ i ∧ i < 2 ^ 63
  | .flt x => Finite D x

/-- The text of a number is a numeral, and it stands for the number. -/
theorem numberCodes_numeral (prints : Prints D) (back : ReadsBack D) {x : Number F}
    (writable : Writable D x) :
    ∃ n : Numeral, n.text = numberCodes D x ∧ numberValue D n = some x := by
  cases x with
  | int i =>
    obtain ⟨n, text, integral, is⟩ := putI64_numeral i
    refine ⟨n, text, ?_⟩
    unfold numberValue
    rw [if_pos integral, is]
    exact if_pos writable
  | flt x =>
    obtain ⟨n, text, float⟩ := putDouble_numeral prints writable
    refine ⟨n, text, ?_⟩
    have read := back x writable
    rwa [← show n.text = numberCodes D (.flt x) from text, readNumberText_numeral, numberOf_eq] at read

/-- The codes that `json_finite` lets through. -/
def NumberCode (c : Nat) : Prop := Digit c ∨ c = 45 ∨ c = 43 ∨ c = 46 ∨ c = 101 ∨ c = 69

theorem numeral_codes (n : Numeral) : ∀ c ∈ n.text, NumberCode c := by
  have digits {ds : Text} (h : Digits ds) : ∀ c ∈ ds, NumberCode c := fun c mem => .inl (h c mem)
  intro c mem
  unfold Numeral.text at mem
  rcases List.mem_append.mp mem with mem | mem
  · rcases n.minus_eq with is | is <;> rw [is] at mem <;> simp at mem
    exact .inr (.inl mem)
  rcases List.mem_append.mp mem with mem | mem
  · exact digits n.whole_eq.digits.2 c mem
  rcases List.mem_append.mp mem with mem | mem
  · rcases n.frac_eq with is | ⟨d, ds, is, digit, rest⟩ <;> rw [is] at mem
    · simp at mem
    · rcases List.mem_cons.mp mem with rfl | mem
      · exact .inr (.inr (.inr (.inl rfl)))
      · exact digits (Digits.cons digit rest) c mem
  · rcases n.exp_eq with is | ⟨e, sign, d, ds, is, letter, signs, digit, rest⟩ <;> rw [is] at mem
    · simp at mem
    · rcases List.mem_cons.mp mem with rfl | mem
      · exact .inr (.inr (.inr (.inr letter)))
      · rcases List.mem_append.mp mem with mem | mem
        · rcases signs with rfl | rfl | rfl
          · cases mem
          · exact .inr (.inr (.inl (List.mem_singleton.mp mem)))
          · exact .inr (.inl (List.mem_singleton.mp mem))
        · exact digits (Digits.cons digit rest) c mem

theorem jsonFinite_of (n : Number F) {cs : Text} (codes : ∀ c ∈ cs, NumberCode c) :
    (jsonFinite n cs : Answers (Ball F) Unit) = .one () := by
  induction cs with
  | nil => rfl
  | cons c cs ih =>
    have code := codes c List.mem_cons_self
    have le : c ≤ 0x10FFFF := by unfold NumberCode Digit at code; omega
    have lets : (jsonNumberCode c : Answers (Ball F) Unit) = .one () := by
      unfold jsonNumberCode
      rw [codeTypeDigit_coded le, Answers.commit_ask]
      split
      · rfl
      · next other => exact Answers.ask_of (code.resolve_left other)
    rw [jsonFinite, lets, Answers.commit_one, ih fun d mem => codes d (List.mem_cons_of_mem c mem)]

/-! ## Atoms are strings -/

def NulFree (a : Bytes) : Prop := (0 : UInt8) ∉ a

/-- How a code of a string is written. -/
def written (c : Nat) : Mark := if c = 34 ∨ c = 92 ∨ c < 32 then .escaped c else .plain c

theorem hex4_low : ∀ c < 32,
    hex4 48 48 (jsonHexDigit (c >>> 4 &&& 0xF)) (jsonHexDigit (c &&& 0xF)) = some c := by decide

/-- A code as it is written is the code again. -/
theorem escaped_chars {c : Nat} (le : c ≤ 0x10FFFF) {w w' : Text} {l : List Mark} (more : Chars w l w') :
    Chars (jsonEscape c ++ w) (written c :: l) w' := by
  have short {e : Nat} (is : Json.named e = some c) (low : c = 34 ∨ c = 92 ∨ c < 32) :
      Chars (92 :: e :: w) (written c :: l) w' := by
    rw [written, if_pos low]
    exact .escape (.named w is) more
  unfold jsonEscape
  by_cases quote : c = 34
  · rw [if_pos quote]
    exact short (by rw [quote]; rfl) (.inl quote)
  by_cases slash : c = 92
  · rw [if_neg quote, if_pos slash]
    exact short (by rw [slash]; rfl) (.inr (.inl slash))
  rw [if_neg quote, if_neg slash]
  by_cases b : c = 8
  · rw [if_pos b]
    exact short (by rw [b]; rfl) (by omega)
  by_cases f : c = 12
  · rw [if_neg b, if_pos f]
    exact short (by rw [f]; rfl) (by omega)
  rw [if_neg b, if_neg f]
  by_cases n : c = 10
  · rw [if_pos n]
    exact short (by rw [n]; rfl) (by omega)
  by_cases r : c = 13
  · rw [if_neg n, if_pos r]
    exact short (by rw [r]; rfl) (by omega)
  rw [if_neg n, if_neg r]
  by_cases t : c = 9
  · rw [if_pos t]
    exact short (by rw [t]; rfl) (by omega)
  rw [if_neg t]
  by_cases low : c < 32
  · rw [if_pos low, written, if_pos (by omega)]
    refine .escape (.unit w (hex4_low c low) ?_ ?_) more
    · unfold High; omega
    · unfold Low; omega
  · rw [if_neg low, written, if_neg (by omega)]
    exact .plain (by omega) le quote slash more

theorem jsonEscaped_chars {cs : Text} (codes : ∀ c ∈ cs, 0 < c ∧ c ≤ 0x10FFFF) (rest : Text) :
    Chars (jsonEscaped cs ++ 34 :: rest) (cs.map written) rest ∧
      stringCodes C (cs.map written) = some cs := by
  induction cs with
  | nil => exact ⟨.close rest, rfl⟩
  | cons c cs ih =>
    obtain ⟨chars, same⟩ := ih fun d mem => codes d (List.mem_cons_of_mem c mem)
    have code := codes c List.mem_cons_self
    constructor
    · rw [jsonEscaped, List.append_assoc]
      exact escaped_chars code.2 chars
    · have mark : markCodes C (written c) = some [c] := by
        unfold written
        split
        · rw [markCodes_escaped (by omega), utf8Codes, if_pos (by omega)]
        · rfl
      simp [stringCodes, mark, same]

/-- The codes of an atom are characters and no NUL, and they make the atom. -/
theorem codesOf_spec {a : Bytes} (nulFree : NulFree a) :
    (∀ c ∈ codesOf C a, 0 < c ∧ c ≤ 0x10FFFF) ∧ textOf C (codesOf C a) = .ok a := by
  cases C with
  | true =>
    have spec := decodeFrom_spec a 0
    rw [List.drop_zero] at spec
    have each (l : List Int) (ok : ∀ cp ∈ l, ∃ c : Nat, cp = c ∧ c ≤ 1114111) :
        textOf true (l.map Int.toNat) = .ok (l.flatMap utf8Enc) := by
      induction l with
      | nil => rfl
      | cons cp l ih =>
        obtain ⟨c, rfl, le⟩ := ok cp List.mem_cons_self
        have rest := ih fun d mem => ok d (List.mem_cons_of_mem _ mem)
        have room : ¬(1114111 < c ∨ utf8Enc c = []) := by
          rintro (out | empty)
          · omega
          · exact utf8Enc_ne_nil le empty
        simp only [List.map_cons, Int.toNat_natCast, textOf, rest, true_or, if_true, if_neg room,
          List.flatMap_cons]
        rfl
    refine ⟨?_, ?_⟩
    · intro c mem
      obtain ⟨cp, char, rfl⟩ := List.mem_map.mp mem
      obtain ⟨d, rfl, le⟩ := spec.1 cp char
      refine ⟨?_, by simpa using le⟩
      rw [Int.toNat_natCast, Nat.pos_iff_ne_zero]
      rintro rfl
      refine nulFree ?_
      rw [← spec.2]
      exact List.mem_flatMap.mpr ⟨0, char, by decide⟩
    · rw [codesOf, if_pos rfl, decode, each _ spec.1, spec.2]
  | false =>
    have bytes (a : Bytes) : textOf false (a.map UInt8.toNat) = .ok a := by
      induction a with
      | nil => rfl
      | cons b a ih =>
        have lt : b.toNat < 256 := b.toNat_lt
        have plain : ¬(false = true ∨ 255 < b.toNat) := by simp; omega
        have room : ¬(1114111 < b.toNat ∨ [b] = []) := by simp; omega
        simp only [List.map_cons, textOf, ih, if_neg plain, UInt8.ofNat_toNat, if_neg room]
        rfl
    refine ⟨?_, bytes a⟩
    intro c mem
    obtain ⟨b, byte, rfl⟩ := List.mem_map.mp mem
    have lt : b.toNat < 256 := b.toNat_lt
    refine ⟨?_, by omega⟩
    rw [Nat.pos_iff_ne_zero]
    intro zero
    have : b = 0 := UInt8.toNat_inj.mp zero
    exact nulFree (this ▸ byte)

theorem takeWhile_nulFree {a : Bytes} (nulFree : NulFree a) : a.takeWhile (· ≠ 0) = a := by
  refine List.takeWhile_eq_self_iff.mpr fun b mem => ?_
  simpa using fun zero : b = 0 => nulFree (zero ▸ mem)

/-- An atom is written as a string that stands for it. -/
theorem jsonString_chars {a : Bytes} (nulFree : NulFree a) :
    ∃ w l, jsonString C D (.atom a) = .one (34 :: (w ++ [34])) ∧ atomName C l = some a ∧
      ∀ rest, Chars (w ++ 34 :: rest) l rest := by
  obtain ⟨codes, text⟩ := codesOf_spec (C := C) nulFree
  refine ⟨jsonEscaped (codesOf C a), (codesOf C a).map written, by simp [jsonString, jsonTextCodes], ?_,
    fun rest => (jsonEscaped_chars (C := C) codes rest).1⟩
  have same := (jsonEscaped_chars (C := C) codes []).2
  have whole := takeWhile_nulFree nulFree
  simp only [atomName, same, Option.bind_some, text]
  exact congrArg some whole

/-! ## Terms are documents -/

/-- The terms that JSON has: objects with atoms for keys and `-` for their pairs, lists, atoms
without a NUL, integers of 64 bits, finite doubles and the three literals. -/
inductive JsonTerm (D : Doubles F) : Term F → Prop where
  | literal (l : Literal) : JsonTerm D (literal l)
  | number {x : Number F} (writable : Writable D x) : JsonTerm D (.num x)
  | atom {a : Bytes} (nulFree : NulFree a) : JsonTerm D (.atom a)
  | list {ts : List (Term F)} (each : ∀ t ∈ ts, JsonTerm D t) : JsonTerm D (.list ts)
  | object {ms : List (Bytes × Term F)} (keys : ∀ m ∈ ms, NulFree m.1)
      (each : ∀ m ∈ ms, JsonTerm D m.2) : JsonTerm D (.object ms)

theorem blanks_jsonBreak (step depth : Nat) (w : Text) : Blanks (jsonBreak step depth ++ w) w := by
  have spaces (n : Nat) : Blanks (List.replicate n 32 ++ w) w := by
    induction n with
    | zero => exact .done w
    | succ n ih => exact .more (by decide) ih
  unfold jsonBreak
  split
  · exact .done w
  · exact .more (by decide) (spaces _)

theorem blanks_jsonSpace (step : Nat) (w : Text) : Blanks (jsonSpace step ++ w) w := by
  unfold jsonSpace
  split
  · exact .done w
  · exact .more (by decide) (.done w)

/-- Written, at any indent, as a text that stands for the term. -/
def Emits (C : Bool) (D : Doubles F) (t : Term F) : Prop :=
  ∀ step depth, ∃ w, jsonEmit C D t step depth = .one w ∧
    ∀ rest, Derives (reading C D) (.value t) (w ++ rest) rest

/-- The elements after the first one, between white space and the closing bracket. -/
theorem more_items {ts : List (Term F)} (each : ∀ t ∈ ts, Emits C D t) (step depth : Nat) :
    ∃ w, jsonMoreItems C D (.list ts) step depth = .one w ∧
      ∀ (t : Term F) (b v b' rest : Text), (∀ r, Blanks (b ++ r) r) → (∀ r, Blanks (b' ++ r) r) →
        (∀ r, Derives (reading C D) (.value t) (v ++ r) r) →
        Derives (reading C D) (.elements (t :: ts)) (b ++ (v ++ (w ++ (b' ++ 93 :: rest)))) (93 :: rest) := by
  induction ts with
  | nil =>
    exact ⟨[], by simp [Term.list, jsonMoreItems], fun t b v b' rest before after value =>
      .lastElement (before _) (value _) (after _)⟩
  | cons t ts ih =>
    obtain ⟨v, emitted, value⟩ := each t List.mem_cons_self step depth
    obtain ⟨w, more, rest⟩ := ih fun u mem => each u (List.mem_cons_of_mem t mem)
    refine ⟨44 :: (jsonBreak step depth ++ (v ++ w)), by simp [Term.list, jsonMoreItems, emitted, more], ?_⟩
    intro t' b v' b' left before after value'
    refine .element (before _) (value' _) (.done _) ?_
    have := rest t (jsonBreak step depth) v b' left (blanks_jsonBreak step depth) after value
    simpa using this

/-- The members after the first one, between white space and the closing brace. -/
theorem more_members {ms : List (Bytes × Term F)} (keys : ∀ m ∈ ms, NulFree m.1)
    (each : ∀ m ∈ ms, Emits C D m.2) (step depth : Nat) :
    ∃ w, jsonMoreMembers C D (.list (ms.map fun m => .binary (name "-") (.atom m.1) m.2)) step depth =
        .one w ∧
      ∀ (k : Bytes) (t : Term F) (u v b' rest : Text), (∀ r, Key (reading C D) k (u ++ r) r) →
        (∀ r, Blanks (b' ++ r) r) → (∀ r, Derives (reading C D) (.value t) (v ++ r) r) →
        Derives (reading C D) (.members ((k, t) :: ms)) (u ++ (v ++ (w ++ (b' ++ 125 :: rest))))
          (125 :: rest) := by
  induction ms with
  | nil =>
    exact ⟨[], by simp [Term.list, jsonMoreMembers], fun k t u v b' rest key after value =>
      .lastMember (key _) (value _) (after _)⟩
  | cons m ms ih =>
    obtain ⟨v, emitted, value⟩ := each m List.mem_cons_self step depth
    obtain ⟨q, l, string, named, chars⟩ := jsonString_chars (C := C) (D := D) (keys m List.mem_cons_self)
    obtain ⟨w, more, rest⟩ := ih (fun u mem => keys u (List.mem_cons_of_mem m mem))
      fun u mem => each u (List.mem_cons_of_mem m mem)
    refine ⟨44 :: (jsonBreak step depth ++ (34 :: (q ++ [34]) ++ (58 :: (jsonSpace step ++ v)) ++ w)),
      by simp [Term.list, jsonMoreMembers, jsonMember, string, emitted, more], ?_⟩
    intro k t u v' b' left key after value'
    refine .member (key _) (value' _) (.done _) ?_
    have keyed (r : Text) : Key (reading C D) m.1
        ((jsonBreak step depth ++ (34 :: (q ++ [34]) ++ 58 :: jsonSpace step)) ++ r) r := by
      refine .mk (l := l) ?_ (chars (58 :: (jsonSpace step ++ r))) named (.done _)
        (blanks_jsonSpace step r)
      simpa using blanks_jsonBreak step depth _
    have := rest m.1 m.2 _ v b' left keyed after value
    simpa using this

/-- The text of a term is a text of the grammar that stands for it. -/
theorem jsonEmit_derives (prints : Prints D) (back : ReadsBack D) {t : Term F} (is : JsonTerm D t) :
    Emits C D t := by
  induction is with
  | literal l =>
    intro step depth
    refine ⟨l.text, ?_, fun rest => .literal (r := reading C D) l rest⟩
    cases l <;> rfl
  | number writable =>
    intro step depth
    obtain ⟨n, text, value⟩ := numberCodes_numeral prints back writable
    refine ⟨n.text, ?_, fun rest => .number rest (by simp [reading, value])⟩
    simp [jsonEmit, jsonNumber, ← text, jsonFinite_of _ (numeral_codes n)]
  | atom nulFree =>
    intro step depth
    obtain ⟨w, l, string, named, chars⟩ := jsonString_chars (C := C) (D := D) nulFree
    refine ⟨_, by rw [jsonEmit]; exact string, fun rest => ?_⟩
    have := Derives.string (r := reading C D) (chars rest) (by simp [reading, named]; rfl)
    simpa using this
  | @list ts each ih =>
    intro step depth
    cases ts with
    | nil => exact ⟨[91, 93], rfl, fun rest => .noElements (r := reading C D) (.done _)⟩
    | cons t ts =>
      obtain ⟨v, emitted, value⟩ := ih t List.mem_cons_self step (depth + 1)
      obtain ⟨w, more, rest⟩ := more_items (fun u mem => ih u (List.mem_cons_of_mem t mem)) step (depth + 1)
      refine ⟨_, by simp only [Term.list, jsonEmit, emitted, more, Answers.one_bind]; rfl, fun left => ?_⟩
      have := rest t (jsonBreak step (depth + 1)) v (jsonBreak step depth) left
        (blanks_jsonBreak step (depth + 1)) (blanks_jsonBreak step depth) value
      show Derives (reading C D) (.value ((reading C D).array (t :: ts))) _ _
      simpa using Derives.array this
  | @object ms keys each ih =>
    intro step depth
    cases ms with
    | nil => exact ⟨[123, 125], rfl, fun rest => .noMembers (r := reading C D) (.done _)⟩
    | cons m ms =>
      obtain ⟨v, emitted, value⟩ := ih m List.mem_cons_self step (depth + 1)
      obtain ⟨q, l, string, named, chars⟩ := jsonString_chars (C := C) (D := D) (keys m List.mem_cons_self)
      obtain ⟨w, more, rest⟩ := more_members (fun u mem => keys u (List.mem_cons_of_mem m mem))
        (fun u mem => ih u (List.mem_cons_of_mem m mem)) step (depth + 1)
      have keyed (r : Text) : Key (reading C D) m.1
          ((jsonBreak step (depth + 1) ++ (34 :: (q ++ [34]) ++ 58 :: jsonSpace step)) ++ r) r := by
        refine .mk (l := l) ?_ (chars (58 :: (jsonSpace step ++ r))) named (.done _)
          (blanks_jsonSpace step r)
        simpa using blanks_jsonBreak step (depth + 1) _
      have object : jsonEmit C D (.object (m :: ms)) step depth =
          jsonObject C D (.list ((m :: ms).map fun m => .binary (name "-") (.atom m.1) m.2)) step depth := by
        simp [Term.object, jsonEmit, name]
      refine ⟨123 :: (jsonBreak step (depth + 1) ++ ((34 :: (q ++ [34]) ++ (58 :: (jsonSpace step ++ v))) ++
        (w ++ (jsonBreak step depth ++ [125])))), ?_, fun left => ?_⟩
      · rw [object]
        simp [Term.list, jsonObject, jsonMember, string, emitted, more]
      · have := rest m.1 m.2 _ v (jsonBreak step depth) left keyed (blanks_jsonBreak step depth) value
        show Derives (reading C D) (.value ((reading C D).object (m :: ms))) _ _
        simpa using Derives.object this

/-! ## Writing and reading -/

/-- What is written, at any indent, is read back as the term, and the term as it was read is
written compactly as it was before. -/
theorem json_codes_parse (prints : Prints D) (back : ReadsBack D) {t : Term F} (is : JsonTerm D t) :
    (∀ options, ∃ cs, jsonCodes C D t options = .one cs ∧
      ∀ n, cs.length < n → jsonParse C D n cs = .one t) ∧
    ∀ cs, jsonCodes C D t [] = .one cs → ∀ n, cs.length < n → ∀ t', jsonParse C D n cs = .one t' →
      jsonCodes C D t' [] = .one cs := by
  have round (options : List (Term F)) : ∃ cs, jsonCodes C D t options = .one cs ∧
      ∀ n, cs.length < n → jsonParse C D n cs = .one t := by
    obtain ⟨cs, emitted, value⟩ := jsonEmit_derives (C := C) prints back is (jsonStep options) 0
    have whole := value []
    rw [List.append_nil] at whole
    have coded : Coded cs := whole.coded fun c mem => absurd mem List.not_mem_nil
    exact ⟨cs, emitted, fun n calls =>
      jsonParse_of_document ⟨cs, [], .done cs, whole, .done []⟩ coded calls⟩
  refine ⟨round, fun cs compact n calls t' read => ?_⟩
  obtain ⟨cs', written, parsed⟩ := round []
  obtain rfl : cs' = cs := Answers.one_inj.mp (written.symm.trans compact)
  obtain rfl : t' = t := Answers.one_inj.mp (read.symm.trans (parsed n calls))
  exact compact

/-- The double 1.0 alone. -/
def oneDouble : Doubles Unit :=
  { strtod := fun _ => ()
    value := fun _ => ()
    printf := fun p _ => ⟨false, 1 :: List.replicate (p - 1) 0, 0⟩
    neg := id
    nan := fun _ => false
    infinite := fun _ => false
    negative := fun _ => false
    small := fun _ => false
    huge := fun _ => false
    same := fun _ _ => true
    less := fun _ _ => false }

/-- `json([a-[1.0, -2, 'b"']])`. -/
def sampleTerm : Term Unit :=
  .object [([97], .list [.num (.flt ()), .num (.int (-2)), .atom [98, 34]])]

theorem json_codes_parse_sample :
    (∀ options, ∃ cs, jsonCodes true oneDouble sampleTerm options = .one cs ∧
      ∀ n, cs.length < n → jsonParse true oneDouble n cs = .one sampleTerm) ∧
    ∀ cs, jsonCodes true oneDouble sampleTerm [] = .one cs → ∀ n, cs.length < n → ∀ t',
      jsonParse true oneDouble n cs = .one t' → jsonCodes true oneDouble t' [] = .one cs := by
  refine json_codes_parse (fun x _ p => ⟨by simp [oneDouble], ?_, .inr rfl⟩) (fun | (), _ => by decide) ?_
  · intro d mem
    rcases List.mem_cons.mp mem with rfl | mem
    · decide
    · rw [List.eq_of_mem_replicate mem]
      decide
  · refine .object (by unfold NulFree; decide) ?_
    intro m mem
    rw [List.mem_singleton.mp mem]
    refine .list ?_
    intro t mem
    simp only [List.mem_cons, List.not_mem_nil, or_false] at mem
    rcases mem with rfl | rfl | rfl
    · exact .number ⟨rfl, rfl⟩
    · exact .number ⟨by decide, by decide⟩
    · exact .atom (by unfold NulFree; decide)

end Cocolog.Json
