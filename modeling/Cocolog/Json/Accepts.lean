import Cocolog.Json.Reader

/-! What `json_parse` accepts. Each nonterminal reads what the grammar derives, raises a
syntax error, or fails on a number that it collected and `number_codes/2` refused. -/

set_option linter.all false

namespace Cocolog.Json
open Lib Lib.Json Text

variable {F α β : Type} {C : Bool} {D : Doubles F}

/-- Answered with a syntax error. -/
def Refused (r : Answers (Ball F) α) : Prop := ∃ what context, r = .throw (syntaxError what context)

theorem Refused.bind {r : Answers (Ball F) α} (refused : Refused r) (f : α → Answers (Ball F) β) :
    Refused (r >>= f) := by
  obtain ⟨what, context, rfl⟩ := refused
  exact ⟨what, context, rfl⟩

theorem refused_throw (what context : Term F) :
    Refused (.throw (syntaxError what context) : Answers (Ball F) α) := ⟨what, context, rfl⟩

theorem Refused.ne_fail {r : Answers (Ball F) α} (refused : Refused r) : r ≠ .fail := by
  obtain ⟨what, context, rfl⟩ := refused
  simp

/-! ## Text -/

theorem textOf_coded {w : Text} (coded : Coded w) : ∃ b, textOf C w = .ok b := by
  induction w with
  | nil => exact ⟨[], rfl⟩
  | cons c w ih =>
    obtain ⟨b, ok⟩ := ih coded.tail
    have room : ¬(1114111 < c ∨ (if C ∨ 255 < c then utf8Enc c else [UInt8.ofNat c]) = []) := by
      have le := coded.head
      rintro (out | empty)
      · omega
      · split at empty
        · exact utf8Enc_ne_nil le empty
        · simp at empty
    exact ⟨_, by simp only [textOf, ok, if_neg room]; rfl⟩

theorem coded_snippet {w : Text} (coded : Coded w) (n : Nat) : Coded (jsonSnippet n w) := by
  induction n generalizing w with
  | zero => intro c mem; simp [jsonSnippet] at mem
  | succ n ih =>
    cases w with
    | nil => intro c mem; simp [jsonSnippet] at mem
    | cons d w =>
      intro c mem
      unfold jsonSnippet at mem
      split at mem
      · simp at mem
      · rcases List.mem_cons.mp mem with rfl | mem
        · exact coded.head
        · exact ih coded.tail c mem

theorem refused_jsonOops (what : Term F) {w : Text} (coded : Coded w) :
    Refused (jsonOops C what w : Answers (Ball F) α) := by
  obtain ⟨b, ok⟩ := textOf_coded (C := C) (coded_snippet coded 40)
  refine ⟨what, jsonAt (.atom (b.takeWhile (· ≠ 0))), ?_⟩
  simp [jsonOops, atomOf, ok]

theorem refused_oops (what : String) {w : Text} (coded : Coded w) :
    Refused (oops C what w : Answers (Ball F) α) := refused_jsonOops _ coded

theorem codeTypeDigit_coded {c : Nat} (le : c ≤ 0x10FFFF) :
    (codeTypeDigit c : Answers (Ball F) Unit) = .ask (Digit c) := if_neg (Nat.not_lt.mpr le)

theorem terminal_cons (c d : Nat) (w : Text) (f : Text → Answers (Ball F) α)
    (rest : Answers (Ball F) α) :
    (terminal c (d :: w)).commit f rest = if d = c then f w else rest := by
  by_cases is : d = c <;> simp [terminal, is]

/-! ## White space -/

theorem jsonWs_eq (w : Text) : (jsonWs w : Answers (Ball F) Text) = .one (w.dropWhile Blank) := by
  induction w with
  | nil => rfl
  | cons c w ih =>
    simp only [jsonWs, Answers.commit_ask, ih, List.dropWhile_cons, decide_eq_true_eq]
    split <;> rfl

/-! ## Strings -/

/-- A character that an escape names, as the codes of a text: `json_utf8`. -/
def utf8Codes (C : Bool) (c : Nat) : Text :=
  if c < 0x80 then [c]
  else if C then [c]
  else if c < 0x800 then [0xC0 ||| c >>> 6, 0x80 ||| c &&& 0x3F]
  else if c < 0x10000 then [0xE0 ||| c >>> 12, 0x80 ||| c >>> 6 &&& 0x3F, 0x80 ||| c &&& 0x3F]
  else
    [0xF0 ||| c >>> 18, 0x80 ||| c >>> 12 &&& 0x3F, 0x80 ||| c >>> 6 &&& 0x3F, 0x80 ||| c &&& 0x3F]

/-- The codes of a character: none for a NUL and for half of one. -/
def markCodes (C : Bool) : Mark → Option Text
  | .plain c => some [c]
  | .escaped c => if c = 0 then none else some (utf8Codes C c)
  | .half _ => none

/-- The codes of a string that holds no NUL and no half of a character. -/
def stringCodes (C : Bool) : List Mark → Option Text
  | [] => some []
  | m :: l => do return (← markCodes C m) ++ (← stringCodes C l)

theorem markCodes_escaped {c : Nat} (code : c ≠ 0) :
    markCodes C (.escaped c) = some (utf8Codes C c) := if_neg code

theorem jsonUtf8_eq (c : Nat) : (jsonUtf8 C c : Answers (Ball F) Text) =
    match markCodes C (.escaped c) with
    | some cs => .one cs
    | none => .throw (syntaxError (.atom (name "any character but a NUL -- an atom stops there"))
        (jsonAt (.atom (name "u0000")))) := by
  unfold jsonUtf8 markCodes utf8Codes
  by_cases zero : c = 0
  · simp [zero]
  · simp only [zero, if_false]
    split_ifs <;> rfl

theorem jsonHex_eq (c : Nat) : (jsonHex c : Answers (Ball F) Nat) =
    match hexDigit c with
    | some v => .one v
    | none => .throw (syntaxError (.atom (name "a hex digit")) (jsonAt (.int c))) := by
  simp only [jsonHex, hexDigit, Answers.commit_ask]
  split_ifs <;> rfl

theorem jsonHex4_some {a b c d u : Nat} (w : Text) (hex : hex4 a b c d = some u) :
    (jsonHex4 C (a :: b :: c :: d :: w) : Answers (Ball F) (Nat × Text)) = .one (u, w) := by
  simp only [hex4, Option.bind_eq_bind, Option.bind_eq_some_iff, Option.pure_def,
    Option.some.injEq] at hex
  obtain ⟨p, ha, q, hb, r, hc, s, hd, rfl⟩ := hex
  simp [jsonHex4, jsonHex_eq, ha, hb, hc, hd]

theorem jsonHex4_cases {w : Text} (coded : Coded w) :
    (∃ a b c d u w', w = a :: b :: c :: d :: w' ∧ hex4 a b c d = some u) ∨
      Refused (jsonHex4 C w : Answers (Ball F) (Nat × Text)) := by
  match w with
  | a :: b :: c :: d :: w =>
    cases hex : hex4 a b c d with
    | some u => exact .inl ⟨a, b, c, d, u, w, rfl, hex⟩
    | none =>
      refine .inr ?_
      simp only [jsonHex4, jsonHex_eq]
      cases ha : hexDigit a with
      | none => exact refused_throw _ _
      | some p => cases hb : hexDigit b with
        | none => exact refused_throw _ _
        | some q => cases hc : hexDigit c with
          | none => exact refused_throw _ _
          | some r => cases hd : hexDigit d with
            | none => exact refused_throw _ _
            | some s => simp [hex4, ha, hb, hc, hd] at hex
  | [] | [_] | [_, _] | [_, _, _] => exact .inr (refused_oops _ coded)

theorem Low.not_high {u : Nat} (low : Low u) : ¬High u := by
  unfold Low at low
  unfold High
  omega

/-- An escape is read as the grammar has it. -/
theorem jsonEscapeIn_of {w w' cs : Text} {m : Mark} (escape : Escape w m w')
    (codes : markCodes C m = some cs) :
    (jsonEscapeIn C w : Answers (Ball F) (Text × Text)) = .one (cs, w') := by
  cases escape with
  | @named e c w is =>
    unfold Json.named at is
    split at is <;> cases is <;> cases codes <;> rfl
  | unit w hex high low =>
    have code := jsonUtf8_eq (F := F) (C := C)
    simp [jsonEscapeIn, shortEscapes, terminal_cons, jsonUIn, jsonHex4_some w' hex, high, low, code,
      codes]
  | pair w hex high hex' low =>
    have code := jsonUtf8_eq (F := F) (C := C)
    have shifted (k : Nat) : k <<< 10 = k * 1024 := by simp [Nat.shiftLeft_eq]
    unfold paired at codes
    simp [jsonEscapeIn, shortEscapes, terminal_cons, jsonUIn, jsonLowSurrogate, jsonHex4_some _ hex,
      jsonHex4_some _ hex', high, low, code, shifted, codes]
  | half w hex is => cases codes

theorem jsonLowSurrogate_cases {w : Text} (coded : Coded w) :
    (∃ a b c d u w', w = 92 :: 117 :: a :: b :: c :: d :: w' ∧ hex4 a b c d = some u ∧ Low u) ∨
      Refused (jsonLowSurrogate C w : Answers (Ball F) (Nat × Text)) := by
  by_cases is : ∃ w', w = 92 :: 117 :: w'
  · obtain ⟨w, rfl⟩ := is
    rcases jsonHex4_cases (F := F) (C := C) coded.tail.tail with ⟨a, b, c, d, u, w, rfl, hex⟩ | refused
    · by_cases low : Low u
      · exact .inl ⟨a, b, c, d, u, w, rfl, hex, low⟩
      · refine .inr ?_
        simp only [jsonLowSurrogate, jsonHex4_some w hex, Answers.one_bind, low, if_false]
        exact refused_throw _ _
    · exact .inr (refused.bind _)
  · refine .inr ?_
    unfold jsonLowSurrogate
    split
    · next w => exact absurd ⟨w, rfl⟩ is
    · exact refused_oops _ coded

theorem jsonUIn_cases {w : Text} (coded : Coded w) :
    (∃ m w' cs, Escape (117 :: w) m w' ∧ markCodes C m = some cs) ∨
      Refused (jsonUIn C w : Answers (Ball F) (Text × Text)) := by
  rcases jsonHex4_cases (F := F) (C := C) coded with ⟨a, b, c, d, u, w, rfl, hex⟩ | refused
  · have left : Coded w := coded.tail.tail.tail.tail
    by_cases high : High u
    · rcases jsonLowSurrogate_cases (F := F) (C := C) left with
        ⟨a', b', c', d', u', w', rfl, hex', low⟩ | refused
      · have code : paired u u' ≠ 0 := by unfold paired; omega
        exact .inl ⟨_, w', _, .pair w' hex high hex' low, markCodes_escaped code⟩
      · refine .inr ?_
        simp only [jsonUIn, jsonHex4_some w hex, Answers.one_bind, high, if_true]
        exact refused.bind _
    · by_cases low : Low u
      · refine .inr ?_
        simp only [jsonUIn, jsonHex4_some w hex, Answers.one_bind, high, low, if_false, if_true]
        exact refused_throw _ _
      · by_cases zero : u = 0
        · refine .inr ?_
          subst zero
          simp only [jsonUIn, jsonHex4_some w hex, Answers.one_bind, high, low, if_false, jsonUtf8_eq]
          exact refused_throw _ _
        · exact .inl ⟨_, w, _, .unit w hex high low, markCodes_escaped zero⟩
  · exact .inr (refused.bind _)

theorem jsonEscapeIn_cases {w : Text} (coded : Coded w) :
    (∃ m w' cs, Escape w m w' ∧ markCodes C m = some cs) ∨
      Refused (jsonEscapeIn C w : Answers (Ball F) (Text × Text)) := by
  cases w with
  | nil => exact .inr (refused_oops _ coded)
  | cons e w =>
    cases is : Json.named e with
    | some c =>
      have code : c ≠ 0 := by
        unfold Json.named at is
        split at is <;> cases is <;> decide
      exact .inl ⟨_, w, _, .named w is, markCodes_escaped code⟩
    | none =>
      have other (c d : Nat) (mem : (c, d) ∈ shortEscapes) : e ≠ c := by
        rintro rfl
        simp only [shortEscapes, List.mem_cons, Prod.mk.injEq, List.not_mem_nil, or_false] at mem
        rcases mem with ⟨rfl, _⟩ | ⟨rfl, _⟩ | ⟨rfl, _⟩ | ⟨rfl, _⟩ | ⟨rfl, _⟩ | ⟨rfl, _⟩ | ⟨rfl, _⟩ | ⟨rfl, _⟩ <;>
          cases is
      have last : (jsonEscapeIn C (e :: w) : Answers (Ball F) (Text × Text)) =
          if e = 117 then jsonUIn C w
          else oops C "a legal escape after the backslash" (e :: w) := by
        unfold jsonEscapeIn shortEscapes at *
        simp only [List.foldr, terminal_cons]
        rw [if_neg (other 34 34 (by simp)), if_neg (other 92 92 (by simp)),
          if_neg (other 47 47 (by simp)), if_neg (other 98 8 (by simp)),
          if_neg (other 102 12 (by simp)), if_neg (other 110 10 (by simp)),
          if_neg (other 114 13 (by simp)), if_neg (other 116 9 (by simp))]
      rw [last]
      split
      · next letter => rw [letter]; exact jsonUIn_cases coded.tail
      · exact .inr (refused_oops _ coded)

theorem jsonStringIn_plain {c : Nat} (n : Nat) (w : Text) (le : 32 ≤ c) (quote : c ≠ 34)
    (slash : c ≠ 92) : (jsonStringIn C (n + 1) (c :: w) : Answers (Ball F) (Text × Text)) = do
      let (cs, w) ← jsonStringIn C n w
      return (c :: cs, w) := by
  simp [jsonStringIn, terminal_cons, quote, slash, rawControl, Answers.commit_ask,
    Nat.not_lt.mpr le, anyCode]

theorem jsonStringIn_escape (n : Nat) (w : Text) :
    (jsonStringIn C (n + 1) (92 :: w) : Answers (Ball F) (Text × Text)) = do
      let (cs, w) ← jsonEscapeIn C w
      let (rest, w) ← jsonStringIn C n w
      return (cs ++ rest, w) := by
  simp [jsonStringIn, terminal_cons]

/-- A string of the grammar is read as its codes. -/
theorem jsonStringIn_of {w w' : Text} {l : List Mark} (chars : Chars w l w') {cs : Text}
    (codes : stringCodes C l = some cs) {n : Nat} (calls : w.length < n) :
    (jsonStringIn C n w : Answers (Ball F) (Text × Text)) = .one (cs, w') := by
  induction chars generalizing n cs with
  | close w =>
    cases codes
    obtain ⟨n, rfl⟩ := Nat.exists_eq_add_of_lt calls
    simp [jsonStringIn, terminal_cons]
  | @plain c w w' l le ge quote slash more ih =>
    simp only [stringCodes, markCodes, Option.bind_eq_bind, Option.bind_some, Option.pure_def,
      Option.bind_eq_some_iff, Option.some.injEq] at codes
    obtain ⟨cs, codes, rfl⟩ := codes
    obtain ⟨n, rfl⟩ : ∃ m, n = m + 1 := ⟨n - 1, by omega⟩
    rw [jsonStringIn_plain n w le quote slash, ih codes (by simpa using calls)]
    simp
  | @escape w w₁ w' m l escape more ih =>
    simp only [stringCodes, Option.bind_eq_bind, Option.bind_eq_some_iff, Option.pure_def,
      Option.some.injEq] at codes
    obtain ⟨c, mark, cs, codes, rfl⟩ := codes
    obtain ⟨n, rfl⟩ : ∃ m, n = m + 1 := ⟨n - 1, by omega⟩
    have shorter := escape.suffix.length_le
    rw [jsonStringIn_escape n w, jsonEscapeIn_of escape mark, Answers.one_bind]
    show (jsonStringIn C n w₁ >>= _) = _
    rw [ih codes (by simp at calls; omega)]
    simp

/-- A string is read as the grammar has it, or is refused. -/
theorem jsonStringIn_cases {n : Nat} {w : Text} (coded : Coded w) (calls : w.length < n) :
    (∃ l w' cs, Chars w l w' ∧ stringCodes C l = some cs) ∨
      Refused (jsonStringIn C n w : Answers (Ball F) (Text × Text)) := by
  induction n generalizing w with
  | zero => omega
  | succ n ih =>
    cases w with
    | nil => exact .inr (refused_oops _ coded)
    | cons c w =>
      have calls' : w.length < n := by simpa using calls
      by_cases quote : c = 34
      · subst quote
        exact .inl ⟨[], w, [], .close w, rfl⟩
      by_cases slash : c = 92
      · subst slash
        rw [jsonStringIn_escape]
        rcases jsonEscapeIn_cases (F := F) (C := C) coded.tail with ⟨m, w₁, cs, escape, mark⟩ | refused
        · rw [jsonEscapeIn_of escape mark, Answers.one_bind]
          rcases ih (coded.tail.suffix escape.suffix) (escape.suffix.length_le.trans_lt calls') with
            ⟨l, w', rest, chars, codes⟩ | refused
          · exact .inl ⟨m :: l, w', cs ++ rest, .escape escape chars, by simp [stringCodes, mark, codes]⟩
          · exact .inr (refused.bind _)
        · exact .inr (refused.bind _)
      by_cases low : c < 32
      · refine .inr ?_
        simp only [jsonStringIn, terminal_cons, quote, slash, if_false, rawControl,
          Answers.commit_ask, low, if_true]
        exact refused_oops _ coded
      · rw [jsonStringIn_plain n w (by omega) quote slash]
        rcases ih coded.tail calls' with ⟨l, w', cs, chars, codes⟩ | refused
        · exact .inl ⟨.plain c :: l, w', c :: cs,
            .plain (by omega) coded.head quote slash chars, by simp [stringCodes, markCodes, codes]⟩
        · exact .inr (refused.bind _)

/-! ## Numbers -/

/-- The number that a numeral stands for: an integer of 64 bits, or what `strtod` makes of it
when that is no more than the largest double. -/
def numberValue (D : Doubles F) (n : Numeral) : Option (Number F) :=
  if n.Integral then if -2 ^ 63 ≤ n.int ∧ n.int < 2 ^ 63 then some (.int n.int) else none
  else
    let x := D.strtod (n.whole ++ (n.frac ++ n.exp))
    if D.huge x then none
    else some (.flt (if n.minus ≠ [] ∧ D.nan x = false then D.neg x else x))

theorem numberOf_eq (n : Numeral) : numberOf D n = numberValue D n := by
  unfold numberOf numberValue
  by_cases integral : n.Integral
  · rw [if_pos integral, if_pos integral, readInt_numeral]
    split <;> rfl
  · rw [if_neg integral, if_neg integral]

def WholeEnds (whole rest : Text) : Prop := whole = [48] ∨ Undigited rest

def FracEnds (frac rest : Text) : Prop :=
  (frac = [] → ¬∃ d w, rest = 46 :: d :: w ∧ Digit d) ∧ (frac ≠ [] → Undigited rest)

def ExpEnds (exp rest : Text) : Prop :=
  (exp = [] → ∀ c ∈ rest.head?, c ≠ 101 ∧ c ≠ 69) ∧ (exp ≠ [] → Undigited rest)

/-- The numeral is all that can be read as one: none of its parts goes on in `rest`. -/
structure Ends (n : Numeral) (rest : Text) : Prop where
  whole : WholeEnds n.whole (n.frac ++ (n.exp ++ rest))
  frac : FracEnds n.frac (n.exp ++ rest)
  exp : ExpEnds n.exp rest

/-- The text goes on with nothing that a number can go on with. -/
def Loose (w : Text) : Prop := ∀ c ∈ w.head?, ¬Digit c ∧ c ≠ 46 ∧ c ≠ 101 ∧ c ≠ 69

theorem Loose.ends {rest : Text} (loose : Loose rest) (n : Numeral) : Ends n rest := by
  have stop : Undigited rest := fun c head => (loose c head).1
  refine ⟨.inr ?_, ⟨?_, fun _ => n.exp_eq.head stop⟩, ⟨?_, fun _ => stop⟩⟩
  · rw [← List.append_assoc]
    have := n.frac_eq.head (n.exp_eq.head stop)
    rwa [← List.append_assoc] at this
  · rintro none ⟨d, w, is, _⟩
    rcases n.exp_eq with exp | ⟨e, sign, d, ds, exp, letter, _⟩
    · rw [exp, List.nil_append] at is
      exact (loose 46 (by rw [is]; rfl)).2.1 rfl
    · rw [exp] at is
      simp only [List.cons_append, List.cons.injEq] at is
      omega
  · exact fun _ c head => ⟨(loose c head).2.2.1, (loose c head).2.2.2⟩

theorem jsonDigitsIn_eq {w : Text} (coded : Coded w) :
    (jsonDigitsIn w : Answers (Ball F) (Text × Text)) =
      .one (w.takeWhile Digit, w.dropWhile Digit) := by
  induction w with
  | nil => rfl
  | cons d w ih =>
    simp only [jsonDigitsIn, codeTypeDigit_coded coded.head, Answers.commit_ask, ih coded.tail,
      List.takeWhile_cons, List.dropWhile_cons, decide_eq_true_eq]
    split <;> simp

theorem jsonDigitsIn_of {ds rest : Text} (coded : Coded (ds ++ rest)) (digits : Digits ds)
    (stop : Undigited rest) :
    (jsonDigitsIn (ds ++ rest) : Answers (Ball F) (Text × Text)) = .one (ds, rest) := by
  rw [jsonDigitsIn_eq coded, takeWhile_digits digits stop, dropWhile_digits digits stop]

theorem jsonMinusIn_of {minus whole : Text} (rest : Text) (is : IsMinus minus)
    (then' : IsWhole whole) :
    (jsonMinusIn (minus ++ (whole ++ rest)) : Answers (Ball F) (Text × Text)) =
      .one (minus, whole ++ rest) := by
  rcases is with rfl | rfl
  · obtain ⟨present, digits⟩ := then'.digits
    obtain ⟨c, w, rfl⟩ := List.exists_cons_of_ne_nil present
    have : c ≠ 45 := by
      have := digits c List.mem_cons_self
      unfold Digit at this
      omega
    simp [jsonMinusIn, terminal_cons, this]
  · simp [jsonMinusIn, terminal_cons]

theorem jsonIntIn_of {whole rest : Text} (is : IsWhole whole) (coded : Coded (whole ++ rest))
    (ends : WholeEnds whole rest) :
    (jsonIntIn C (whole ++ rest) : Answers (Ball F) (Text × Text)) = .one (whole, rest) := by
  rcases is with is | ⟨d, ds, is, low, high, digits⟩
  · simp [jsonIntIn, is, terminal_cons]
  · rw [is, List.cons_append] at coded ⊢
    have stop : Undigited rest := ends.resolve_left (by rw [is]; grind)
    have first : d ≠ 48 := by omega
    simp [jsonIntIn, terminal_cons, first, Answers.commit_ask, low, high,
      jsonDigitsIn_of coded.tail digits stop]

theorem jsonFracIn_of {frac rest : Text} (is : IsFrac frac) (coded : Coded (frac ++ rest))
    (ends : FracEnds frac rest) :
    (jsonFracIn (frac ++ rest) : Answers (Ball F) (Text × Text)) = .one (frac, rest) := by
  rcases is with is | ⟨d, ds, is, digit, digits⟩
  · rw [is, List.nil_append] at coded ⊢
    match rest with
    | [] | [_] => rfl
    | p :: d :: w =>
      have not : ¬(p = 46 ∧ Digit d) := by
        rintro ⟨rfl, digit⟩
        exact ends.1 is ⟨d, w, rfl, digit⟩
      simp only [jsonFracIn, codeTypeDigit_coded coded.tail.head]
      by_cases point : p = 46
      · simp [Answers.ask, point, show ¬Digit d from fun digit => not ⟨point, digit⟩]
      · simp [Answers.ask, point]
  · have stop : Undigited rest := ends.2 (by rw [is]; simp)
    rw [is] at coded ⊢
    simp only [List.cons_append] at coded ⊢
    simp [jsonFracIn, codeTypeDigit_coded coded.tail.head, Answers.ask, digit,
      jsonDigitsIn_of coded.tail.tail digits stop]

theorem jsonExpIn_of {exp rest : Text} (is : IsExp exp) (coded : Coded (exp ++ rest))
    (ends : ExpEnds exp rest) :
    (jsonExpIn C (exp ++ rest) : Answers (Ball F) (Text × Text)) = .one (exp, rest) := by
  rcases is with is | ⟨e, sign, d, ds, is, letter, signs, digit, digits⟩
  · rw [is, List.nil_append]
    cases rest with
    | nil => rfl
    | cons c w =>
      have := ends.1 is c rfl
      simp [jsonExpIn, Answers.ask, this]
  · have stop : Undigited rest := ends.2 (by rw [is]; simp)
    have unsigned : d ≠ 43 ∧ d ≠ 45 := by unfold Digit at digit; omega
    rw [is] at coded ⊢
    have marked (body : Unit → Answers (Ball F) (Text × Text)) (others : Answers (Ball F) (Text × Text)) :
        ((Answers.ask (e = 101)).orElse (Answers.ask (e = 69))).commit body others = body () := by
      rcases letter with rfl | rfl <;> rfl
    have signed : (jsonExpSign (sign ++ d :: (ds ++ rest)) : Answers (Ball F) (Text × Text)) =
        .one (sign, d :: (ds ++ rest)) := by
      rcases signs with rfl | rfl | rfl <;> simp [jsonExpSign, Answers.ask, unsigned, Answers.orElse, Answers.one, Answers.fail, Answers.commit]
    have left : Coded (d :: (ds ++ rest)) := by
      simp only [List.cons_append, List.append_assoc] at coded
      exact coded.tail.suffix (List.suffix_append _ _)
    simp only [List.cons_append, List.append_assoc, jsonExpIn, marked, signed, Answers.one_bind]
    simp [jsonExpDigits, codeTypeDigit_coded left.head, Answers.ask, digit,
      jsonDigitsIn_of left.tail digits stop]

theorem minus_cases (w : Text) : ∃ minus w', w = minus ++ w' ∧ IsMinus minus ∧
    (jsonMinusIn w : Answers (Ball F) (Text × Text)) = .one (minus, w') := by
  by_cases is : ∃ w', w = 45 :: w'
  · obtain ⟨w', rfl⟩ := is
    exact ⟨[45], w', rfl, .inr rfl, by simp [jsonMinusIn, terminal_cons]⟩
  · refine ⟨[], w, rfl, .inl rfl, ?_⟩
    cases w with
    | nil => rfl
    | cons c w =>
      have : c ≠ 45 := fun eq => is ⟨w, by rw [eq]⟩
      simp [jsonMinusIn, terminal_cons, this]

theorem undigited_left (w : Text) : Undigited (w.dropWhile Digit) := by
  intro c head
  have := List.head?_dropWhile_not (fun c => decide (Digit c)) w
  rw [Option.mem_def.mp head] at this
  simpa using this

theorem digits_taken (w : Text) : Digits (w.takeWhile Digit) := by
  intro c mem
  simpa using List.all_eq_true.mp List.all_takeWhile c mem

theorem int_cases {w : Text} (coded : Coded w) :
    (∃ whole rest, w = whole ++ rest ∧ IsWhole whole ∧ WholeEnds whole rest) ∨
      Refused (jsonIntIn C w : Answers (Ball F) (Text × Text)) := by
  cases w with
  | nil => exact .inr (refused_oops _ coded)
  | cons d w =>
    by_cases zero : d = 48
    · exact .inl ⟨[48], w, by rw [zero]; rfl, .inl rfl, .inl rfl⟩
    by_cases digit : 49 ≤ d ∧ d ≤ 57
    · refine .inl ⟨d :: w.takeWhile Digit, w.dropWhile Digit, ?_,
        .inr ⟨d, _, rfl, digit.1, digit.2, digits_taken w⟩, .inr (undigited_left w)⟩
      rw [List.cons_append, List.takeWhile_append_dropWhile]
    · refine .inr ?_
      simp only [jsonIntIn, terminal_cons, zero, if_false, Answers.commit_ask, digit]
      exact refused_oops _ coded

theorem frac_cases (w : Text) : ∃ frac rest, w = frac ++ rest ∧ IsFrac frac ∧ FracEnds frac rest := by
  by_cases is : ∃ d w', w = 46 :: d :: w' ∧ Digit d
  · obtain ⟨d, w, rfl, digit⟩ := is
    refine ⟨46 :: d :: w.takeWhile Digit, w.dropWhile Digit, ?_,
      .inr ⟨d, _, rfl, digit, digits_taken w⟩, by simp, fun _ => undigited_left w⟩
    rw [List.cons_append, List.cons_append, List.takeWhile_append_dropWhile]
  · exact ⟨[], w, rfl, .inl rfl, fun _ => is, by simp⟩

/-- The sign of an exponent, as far as it goes. -/
theorem sign_cases (w : Text) : ∃ sign w', w = sign ++ w' ∧ (sign = [] ∨ sign = [43] ∨ sign = [45]) ∧
    (jsonExpSign w : Answers (Ball F) (Text × Text)) = .one (sign, w') := by
  cases w with
  | nil => exact ⟨[], [], rfl, .inl rfl, rfl⟩
  | cons c w =>
    by_cases plus : c = 43
    · exact ⟨[43], w, by rw [plus]; rfl, by simp, by rw [plus]; rfl⟩
    by_cases minus : c = 45
    · exact ⟨[45], w, by rw [minus]; rfl, by simp, by rw [minus]; rfl⟩
    · exact ⟨[], c :: w, rfl, .inl rfl, by simp [jsonExpSign, Answers.ask, plus, minus]⟩

theorem exp_cases {w : Text} (coded : Coded w) :
    (∃ exp rest, w = exp ++ rest ∧ IsExp exp ∧ ExpEnds exp rest) ∨
      Refused (jsonExpIn C w : Answers (Ball F) (Text × Text)) := by
  cases w with
  | nil => exact .inl ⟨[], [], rfl, .inl rfl, by simp, by simp⟩
  | cons e w =>
    by_cases letter : e = 101 ∨ e = 69
    · have marked (body : Unit → Answers (Ball F) (Text × Text))
          (others : Answers (Ball F) (Text × Text)) :
          ((Answers.ask (e = 101)).orElse (Answers.ask (e = 69))).commit body others = body () := by
        rcases letter with rfl | rfl <;> rfl
      obtain ⟨sign, w, rfl, signs, signed⟩ := sign_cases (F := F) w
      have left : Coded w := coded.tail.suffix (List.suffix_append _ _)
      have reached : (jsonExpIn C (e :: (sign ++ w)) : Answers (Ball F) (Text × Text)) =
          jsonExpDigits C w >>= fun (ds, w) => .one (e :: (sign ++ ds), w) := by
        simp only [jsonExpIn, marked, signed, Answers.one_bind]
        rfl
      rw [reached]
      cases w with
      | nil => exact .inr ((refused_oops _ left).bind _)
      | cons d w =>
        by_cases digit : Digit d
        · refine .inl ⟨e :: (sign ++ d :: w.takeWhile Digit), w.dropWhile Digit, ?_,
            .inr ⟨e, sign, d, _, rfl, letter, signs, digit, digits_taken w⟩, by simp,
            fun _ => undigited_left w⟩
          simp
        · refine .inr (Refused.bind ?_ _)
          simp only [jsonExpDigits, codeTypeDigit_coded left.head, Answers.commit_ask, digit, if_false]
          exact refused_oops _ left
    · refine .inl ⟨[], e :: w, rfl, .inl rfl, ?_, by simp⟩
      rintro _ c head
      simp only [List.head?_cons, Option.mem_def, Option.some.injEq] at head
      rw [← head]
      exact ⟨fun eq => letter (.inl eq), fun eq => letter (.inr eq)⟩

theorem jsonNumeral_eq (n : Numeral) :
    (jsonNumeral C D n.text n.frac n.exp : Answers (Ball F) (Number F)) =
      match numberValue D n with
      | some x => .one x
      | none =>
        if n.Integral then oops C "an integer this machine can hold -- 64 bits" n.text else .fail := by
  unfold jsonNumeral numberOfCodes
  rw [readNumberText_numeral, numberOf_eq]
  cases numberValue D n with
  | some x => rfl
  | none =>
    -- the ball of `number_codes/2` is caught, and the catch fails
    rfl

theorem jsonNumberFits_eq {n : Numeral} {x : Number F} (value : numberValue D n = some x) :
    (jsonNumberFits C D n.text n.frac n.exp x : Answers (Ball F) Unit) = .one () := by
  unfold jsonNumberFits
  split_ifs with frac exp
  · rfl
  · rfl
  · rfl
  · rfl
  · exfalso
    have integral : n.Integral := ⟨by simpa using frac, by simpa using exp⟩
    unfold numberValue at value
    rw [if_pos integral] at value
    split at value
    · cases value
      have := putI64_int integral
      tauto
    · cases value

theorem jsonNumberIn_eq {n : Numeral} {rest : Text} (coded : Coded (n.text ++ rest))
    (ends : Ends n rest) :
    jsonNumberIn C D (n.text ++ rest) = do
      let x ← jsonNumeral C D n.text n.frac n.exp
      jsonNumberFits C D n.text n.frac n.exp x
      return (x, rest) := by
  have text : n.text ++ rest = n.minus ++ (n.whole ++ (n.frac ++ (n.exp ++ rest))) := by
    simp [Numeral.text]
  have collected : (n.minus ++ n.whole) ++ (n.frac ++ n.exp) = n.text := by simp [Numeral.text]
  rw [text] at coded ⊢
  have whole := coded.suffix (List.suffix_append _ _)
  have frac := whole.suffix (List.suffix_append _ _)
  have exp := frac.suffix (List.suffix_append _ _)
  unfold jsonNumberIn
  rw [jsonMinusIn_of _ n.minus_eq n.whole_eq, Answers.one_bind]
  show jsonIntIn C _ >>= _ = _
  rw [jsonIntIn_of n.whole_eq whole ends.whole, Answers.one_bind]
  show jsonFracIn _ >>= _ = _
  rw [jsonFracIn_of n.frac_eq frac ends.frac, Answers.one_bind]
  show jsonExpIn C _ >>= _ = _
  rw [jsonExpIn_of n.exp_eq exp ends.exp, Answers.one_bind]
  simp only [collected]

/-- A number is read, refused as an integer past 64 bits, or fails as a number past the
largest double. -/
theorem jsonNumberIn_of {n : Numeral} {rest : Text} (coded : Coded (n.text ++ rest))
    (ends : Ends n rest) :
    match numberValue D n with
    | some x => jsonNumberIn C D (n.text ++ rest) = .one (x, rest)
    | none =>
      if n.Integral then Refused (jsonNumberIn C D (n.text ++ rest))
      else jsonNumberIn C D (n.text ++ rest) = .fail := by
  rw [jsonNumberIn_eq coded ends, jsonNumeral_eq]
  cases value : numberValue D n with
  | some x => simp [jsonNumberFits_eq value]
  | none =>
    by_cases integral : n.Integral
    · simp only [integral, if_true]
      have text : Coded n.text := fun c mem => coded c (List.mem_append_left _ mem)
      exact (refused_oops _ text).bind _
    · simp [integral]

theorem jsonNumberIn_cases {w : Text} (coded : Coded w) :
    (∃ (n : Numeral) (rest : Text), w = n.text ++ rest ∧ Ends n rest) ∨
      Refused (jsonNumberIn C D w) := by
  obtain ⟨minus, w, rfl, isMinus, minusIn⟩ := minus_cases (F := F) w
  have coded' := coded.suffix (List.suffix_append minus w)
  unfold jsonNumberIn
  rw [minusIn, Answers.one_bind]
  rcases int_cases (F := F) (C := C) coded' with ⟨whole, w, rfl, isWhole, wholeEnds⟩ | refused
  · have intIn := jsonIntIn_of (F := F) (C := C) isWhole coded' wholeEnds
    obtain ⟨frac, w, rfl, isFrac, fracEnds⟩ := frac_cases w
    have coded₁ := coded'.suffix (List.suffix_append _ _)
    have fracIn := jsonFracIn_of (F := F) isFrac coded₁ fracEnds
    have coded₂ := coded₁.suffix (List.suffix_append _ _)
    rcases exp_cases (F := F) (C := C) coded₂ with ⟨exp, w, rfl, isExp, expEnds⟩ | refused
    · refine .inl ⟨⟨minus, whole, frac, exp, isMinus, isWhole, isFrac, isExp⟩, w, ?_,
        ⟨wholeEnds, fracEnds, expEnds⟩⟩
      simp [Numeral.text]
    · refine .inr ?_
      show Refused (jsonIntIn C _ >>= _)
      rw [intIn, Answers.one_bind]
      show Refused (jsonFracIn _ >>= _)
      rw [fracIn, Answers.one_bind]
      exact refused.bind _
  · exact .inr (refused.bind _)

end Cocolog.Json
