import Cocolog.Syntax.Parser
import Mathlib.Data.Nat.Digits.Defs
import Mathlib.Data.List.Infix

/-! Integer literals as they are written: digits of a radix, alone or in groups, after a radix
prefix or a radix and a quote. The lexer's token is the number the digits denote. -/

set_option linter.all false

namespace Cocolog.Syntax
open Text Lib

/- The text from the reader on. -/

section text
variable {s t w : Bytes} {p : Nat} {c : UInt8}

theorem drop_past (is : s.drop p = w ++ t) : s.drop (p + w.length) = t := by
  rw [← List.drop_drop, is, List.drop_left]

theorem drop_next (is : s.drop p = c :: t) : s.drop (p + 1) = t := drop_past (w := [c]) is

theorem lt_of_drop (is : s.drop p = c :: t) : p < s.length := by
  by_contra beyond
  rw [List.drop_eq_nil_of_le (by omega)] at is
  cases is

theorem getD_drop (is : s.drop p = c :: t) : s.getD p 0 = c := by
  have lt := lt_of_drop is
  rw [List.getD_eq_getElem _ _ lt]
  rw [List.drop_eq_getElem_cons lt] at is
  exact (List.cons.inj is).1

theorem peek_drop (is : s.drop p = c :: t) : peek s p = (c.toNat : Int) := by
  rw [peek, if_neg (by have := lt_of_drop is; omega), byte, getD_drop is]

theorem peek_nil (is : s.drop p = []) : peek s p = -1 := by
  rw [peek, if_pos (List.drop_eq_nil_iff.mp is)]

theorem length_past (is : s.drop p = w ++ t) (some_ : w ≠ []) : p + w.length ≤ s.length := by
  have := congrArg List.length is
  rw [List.length_drop, List.length_append] at this
  have := List.length_pos_iff.mpr some_
  omega

end text

/- Layout. -/

/-- One piece of layout. -/
inductive Blank (ct : Classes) : Bytes → Prop where
  | space {c : UInt8} (is : isSpace (c.toNat : Int)) : Blank ct [c]
  | line {body : Bytes} (plain : 10 ∉ body) : Blank ct (37 :: body ++ [10])
  | block {body : Bytes} (inside : ¬[42, 47] <:+: body ++ [42]) : Blank ct (47 :: 42 :: body ++ [42, 47])
  | wide {c : Nat} (le : c ≤ 1114111) (plain : ¬(56448 ≤ c ∧ c ≤ 56575)) (past : 128 ≤ c)
      (is : ct.flags c &&& 1 ≠ 0) : Blank ct (utf8Enc c)

inductive Layout (ct : Classes) : Bytes → Prop where
  | empty : Layout ct []
  | more {w v : Bytes} (blank : Blank ct w) (rest : Layout ct v) : Layout ct (w ++ v)

variable {ct : Classes} {s w t : Bytes} {p : Nat}

theorem within_peek {test : Nat → Prop} [DecidablePred test] (here : ∀ q, test q → peek s q ≠ -1) :
    Within (fun q => if test q then 1 else 0) s.length := by
  intro q moves
  have inside : test q := by
    by_contra no
    exact moves (if_neg no)
  have := here q inside
  dsimp only
  rw [if_pos inside]
  by_contra beyond
  exact this (if_pos (by omega))

theorem lineEnd_eq {body : Bytes} (plain : 10 ∉ body) (is : s.drop p = body ++ 10 :: t) (le : p ≤ s.length) :
    lineEnd s p = p + body.length := by
  have walk : Strides (fun q => if peek s q ≠ -1 ∧ peek s q ≠ 10 then 1 else 0) p (p + body.length) := by
    clear le
    induction body generalizing p with
    | nil => exact .stop (if_neg fun h => h.2 (peek_drop is))
    | cons c body ih =>
      have here : peek s p ≠ -1 ∧ peek s p ≠ 10 := by
        rw [peek_drop is]
        refine ⟨by omega, fun same => plain ?_⟩
        have : c = 10 := UInt8.toNat_inj.mp (Int.ofNat.inj same)
        rw [this]
        exact List.mem_cons_self
      have moves : (if peek s p ≠ -1 ∧ peek s p ≠ 10 then 1 else 0) = 1 := if_pos here
      refine .more (by rw [moves]; decide) ?_
      rw [moves, List.length_cons, show p + (body.length + 1) = p + 1 + body.length by omega]
      exact ih (fun mem => plain (List.mem_cons_of_mem c mem)) (drop_next is)
  exact walk.eq (within_peek fun q here => here.1) (Nat.le_refl _) le

theorem blockEnd_eq {body : Bytes} (inside : ¬[42, 47] <:+: body ++ [42]) (is : s.drop p = body ++ 42 :: 47 :: t)
    (le : p ≤ s.length) : blockEnd s p = p + body.length := by
  have walk : Strides (fun q => if peek s q ≠ -1 ∧ ¬(peek s q = 42 ∧ peek s (q + 1) = 47) then 1 else 0) p (p + body.length) := by
    clear le
    induction body generalizing p with
    | nil => exact .stop (if_neg fun h => h.2 ⟨peek_drop is, peek_drop (drop_next is)⟩)
    | cons c body ih =>
      have here : peek s p ≠ -1 ∧ ¬(peek s p = 42 ∧ peek s (p + 1) = 47) := by
        rw [peek_drop is]
        refine ⟨by omega, fun both => ?_⟩
        have star : c = 42 := UInt8.toNat_inj.mp (Int.ofNat.inj both.1)
        cases body with
        | nil =>
          have := both.2
          rw [peek_drop (drop_next is)] at this
          exact absurd this (by decide)
        | cons d body =>
          have := both.2
          rw [peek_drop (drop_next is)] at this
          have slash : d = 47 := UInt8.toNat_inj.mp (Int.ofNat.inj this)
          exact inside ⟨[], body ++ [42], by rw [star, slash]; rfl⟩
      have moves : (if peek s p ≠ -1 ∧ ¬(peek s p = 42 ∧ peek s (p + 1) = 47) then 1 else 0) = 1 := if_pos here
      refine .more (by rw [moves]; decide) ?_
      rw [moves, List.length_cons, show p + (body.length + 1) = p + 1 + body.length by omega]
      exact ih (fun mem => inside (List.infix_cons mem)) (drop_next is)
  exact walk.eq (within_peek fun q here => here.1) (Nat.le_refl _) le

/-- The character at the reader begins no layout. -/
def Solid (ct : Classes) (s : Bytes) (p : Nat) : Prop :=
  isSpace (peek s p) = false ∧ peek s p ≠ 37 ∧ ¬(peek s p = 47 ∧ peek s (p + 1) = 42) ∧ wideAt ct s p 1 = 0

theorem skip_solid {turns : Nat} {k : Skipped} (solid : Solid ct s k.pos) : skipLayout ct s turns k = k := by
  obtain ⟨space, line, block, wide⟩ := solid
  cases turns with
  | zero => rfl
  | succ turns =>
    simp only [skipLayout, space, Bool.false_eq_true, if_false, if_neg line, if_neg block, wide, if_true, ite_self]

/-- One piece of layout is skipped, in one turn or two. -/
theorem skip_blank (blank : Blank ct w) (is : s.drop p = w ++ t) {turns : Nat} (enough : s.length - p ≤ turns)
    (any : Bool) (ec : Nat) : ∃ left, s.length - (p + w.length) ≤ left ∧
      skipLayout ct s turns ⟨p, any, ec⟩ = skipLayout ct s left ⟨p + w.length, true, ec⟩ := by
  cases blank with
  | @space c space =>
    have lt := lt_of_drop is
    obtain ⟨turns, rfl⟩ : ∃ k, turns = k + 1 := ⟨turns - 1, by omega⟩
    refine ⟨turns, by simp only [List.length_singleton]; omega, ?_⟩
    rw [skipLayout]
    dsimp only
    rw [peek_drop is, if_pos space]
    rfl
  | @line body plain =>
    have at_ : s.drop p = (37 :: body) ++ 10 :: t := by rw [is]; simp
    have lt := lt_of_drop at_
    have fits := length_past is (by simp)
    simp only [List.length_append, List.length_cons, List.length_nil] at fits
    obtain ⟨turns, rfl⟩ : ∃ k, turns = k + 2 := ⟨turns - 2, by omega⟩
    have newline := drop_past at_
    refine ⟨turns, by simp only [List.length_append, List.length_cons, List.length_nil]; omega, ?_⟩
    rw [skipLayout]
    dsimp only
    rw [peek_drop at_, if_neg (by decide), if_pos (by decide),
      @lineEnd_eq _ _ _ (37 :: body) (by simpa using plain) at_ (by omega), skipLayout]
    dsimp only
    rw [peek_drop newline, if_pos (by decide)]
    simp only [List.length_cons, List.length_append, List.length_nil, Nat.add_assoc]
  | @block body inside =>
    have at_ : s.drop p = [47, 42] ++ (body ++ 42 :: 47 :: t) := by rw [is]; simp
    have lt := lt_of_drop at_
    have fits := length_past is (by simp)
    simp only [List.length_append, List.length_cons, List.length_nil] at fits
    obtain ⟨turns, rfl⟩ : ∃ k, turns = k + 1 := ⟨turns - 1, by omega⟩
    have after := drop_past at_
    have close : blockEnd s (p + 2) = p + 2 + body.length := blockEnd_eq inside after (by omega)
    have star := drop_past after
    refine ⟨turns, by simp only [List.length_append, List.length_cons, List.length_nil]; omega, ?_⟩
    rw [skipLayout]
    dsimp only
    rw [peek_drop at_, if_neg (by decide), if_neg (by decide), if_pos ⟨rfl, peek_drop (drop_next at_)⟩, close,
      if_pos (by rw [peek_drop (p := p + 2 + body.length) star]; decide)]
    simp only [List.length_cons, List.length_append, List.length_nil]
    rw [show p + 2 + body.length + 2 = p + (body.length + (0 + 1 + 1) + 1 + 1) by omega]
  | @wide c le plain past layout =>
    have read := utf8Get_enc le plain is
    obtain ⟨d, rest, enc⟩ := List.exists_cons_of_ne_nil (utf8Enc_ne_nil le)
    have first : s.drop p = d :: (rest ++ t) := by rw [is, enc]; rfl
    have lt := lt_of_drop first
    obtain ⟨turns, rfl⟩ : ∃ k, turns = k + 1 := ⟨turns - 1, by omega⟩
    have high : ¬byte s p < 128 := by
      intro low
      rw [utf8Get, if_pos low] at read
      have : ((byte s p : Nat) : Int) = c := congrArg Prod.fst read
      omega
    have seen : peek s p = byte s p := if_neg (by omega)
    have width : cpAt s p = ((c : Int), (utf8Enc c).length) := by
      rw [cpAt, read]
      simp
    have is_ : rdIs ct c 1 = true := by
      rw [rdIs, if_neg (by omega), if_neg (by omega)]
      simpa using layout
    have step : wideAt ct s p 1 = (utf8Enc c).length := by
      rw [wideAt, if_neg (by omega), width, if_pos is_]
    have some_ : (utf8Enc c).length ≠ 0 := by rw [enc]; simp
    refine ⟨turns, by omega, ?_⟩
    rw [skipLayout]
    dsimp only
    have spaceless : isSpace (peek s p) = false := by
      rw [seen, isSpace]
      simp only [decide_eq_false_iff_not]
      omega
    rw [spaceless, if_neg (by decide), if_neg (by omega), if_neg (by omega), if_neg (by omega), step, if_neg some_]

theorem skip_layout (gap : Layout ct w) (is : s.drop p = w ++ t) (solid : Solid ct s (p + w.length)) {turns : Nat}
    (enough : s.length - p ≤ turns) (any : Bool) (ec : Nat) :
    skipLayout ct s turns ⟨p, any, ec⟩ = ⟨p + w.length, any || !w.isEmpty, ec⟩ := by
  induction gap generalizing p turns any with
  | empty =>
    rw [skip_solid (k := ⟨p, any, ec⟩) solid]
    simp
  | @more w v blank rest ih =>
    rw [List.append_assoc] at is
    obtain ⟨left, enough, more⟩ := skip_blank blank is enough any ec
    rw [more, ih (drop_past is) (by rwa [Nat.add_assoc, ← List.length_append]) enough]
    have some_ : w ≠ [] := by
      cases blank with
      | space => simp
      | line => simp
      | block => simp
      | wide le => exact utf8Enc_ne_nil le
    obtain ⟨c, rest, rfl⟩ := List.exists_cons_of_ne_nil some_
    simp [Nat.add_assoc, Nat.add_comm v.length]

/- Magnitudes. -/

/-- `coco_mag_digit` digit after digit, none more once one was too many. -/
def magnitude (base : Nat) (m : Nat × Bool) : List Nat → Nat × Bool
  | [] => m
  | d :: ds => magnitude base (if m.2 then m else magDigit m.1 base d) ds

theorem magnitude_wide (base v : Nat) (ds : List Nat) : magnitude base (v, true) ds = (v, true) := by
  induction ds with
  | nil => rfl
  | cons d ds ih => exact ih

theorem foldl_le {base : Nat} (pos : 0 < base) (v : Nat) (ds : List Nat) : v ≤ ds.foldl (fun v d => v * base + d) v := by
  induction ds generalizing v with
  | nil => exact Nat.le_refl v
  | cons d ds ih =>
    have : v ≤ v * base := Nat.le_mul_of_pos_right v pos
    exact Nat.le_trans (by omega) (ih (v * base + d))

theorem magnitude_exact {base v : Nat} (pos : 0 < base) {ds : List Nat} (small : ∀ d ∈ ds, d ≤ 2 ^ 63)
    (fits : ds.foldl (fun v d => v * base + d) v ≤ 2 ^ 63) :
    magnitude base (v, false) ds = (ds.foldl (fun v d => v * base + d) v, false) := by
  induction ds generalizing v with
  | nil => rfl
  | cons d ds ih =>
    have first : v * base + d ≤ 2 ^ 63 := Nat.le_trans (foldl_le pos _ ds) fits
    have room : ¬(2 ^ 63 - d) / base < v := by
      rw [Nat.not_lt, Nat.le_div_iff_mul_le pos]
      omega
    have step : (if (v, false).2 = true then (v, false) else magDigit v base d) = (v * base + d, false) := if_neg room
    rw [magnitude, step]
    exact ih (fun e mem => small e (List.mem_cons_of_mem d mem)) fits

theorem magnitude_over {base v : Nat} (pos : 0 < base) {ds : List Nat} (small : ∀ d ∈ ds, d ≤ 2 ^ 63) (le : v ≤ 2 ^ 63)
    (past : 2 ^ 63 < ds.foldl (fun v d => v * base + d) v) : (magnitude base (v, false) ds).2 = true := by
  induction ds generalizing v with
  | nil =>
    rw [List.foldl_nil] at past
    omega
  | cons d ds ih =>
    by_cases beyond : (2 ^ 63 - d) / base < v
    · have step : (if (v, false).2 = true then (v, false) else magDigit v base d) = (v, true) := if_pos beyond
      rw [magnitude, step, magnitude_wide]
    · have step : (if (v, false).2 = true then (v, false) else magDigit v base d) = (v * base + d, false) := if_neg beyond
      have first : v * base + d ≤ 2 ^ 63 := by
        rw [Nat.not_lt, Nat.le_div_iff_mul_le pos] at beyond
        have := small d List.mem_cons_self
        omega
      rw [magnitude, step]
      exact ih (fun e mem => small e (List.mem_cons_of_mem d mem)) first past

theorem ofDigits_reverse (base : Nat) (ds : List Nat) :
    Nat.ofDigits base ds.reverse = ds.foldl (fun v d => v * base + d) 0 := by
  rw [Nat.ofDigits_eq_foldr, List.foldr_reverse]
  congr 1
  funext v d
  rw [Nat.cast_id, Nat.add_comm, Nat.mul_comm]

variable {F : Type}

/-- The token of a number: itself below 2^63, marked at 2^63, refused past it. -/
def intToken (v : Nat) : Token F :=
  if v < 2 ^ 63 then .int v 0 false else if v = 2 ^ 63 then .int 0 1 false else .int 0 2 false

theorem magToken_magnitude {base : Nat} (pos : 0 < base) {ds : List Nat} (small : ∀ d ∈ ds, d ≤ 2 ^ 63) :
    magToken (magnitude base (0, false) ds).1 (magnitude base (0, false) ds).2
      = (intToken (Nat.ofDigits base ds.reverse) : Token F) := by
  rw [ofDigits_reverse]
  by_cases fits : ds.foldl (fun v d => v * base + d) 0 ≤ 2 ^ 63
  · rw [magnitude_exact pos small fits, magToken, intToken, if_neg Bool.false_ne_true]
    by_cases below : ds.foldl (fun v d => v * base + d) 0 < 2 ^ 63
    · rw [if_neg (by omega), if_pos below]
    · rw [if_pos (by omega), if_neg below, if_pos (by omega)]
  · rw [magnitude_over pos small (Nat.zero_le _) (by omega), magToken, if_pos rfl, intToken, if_neg (by omega),
      if_neg (by omega)]

/- Digits. -/

/-- What may stand between two digits of a radix. -/
inductive Gap (ct : Classes) (radix : Nat) : Bytes → Prop where
  | tight : Gap ct radix []
  | space (small : radix ≤ 10) : Gap ct radix [32]
  | underscore {w : Bytes} (layout : Layout ct w) : Gap ct radix (95 :: w)

/-- A text of digits, what they are, and whether they come in groups. -/
inductive Written (ct : Classes) (radix : Nat) : Bytes → List Nat → Bool → Prop where
  | last {c : UInt8} {d : Nat} (is : radixDigit (c.toNat : Int) radix = some d) : Written ct radix [c] [d] false
  | more {c : UInt8} {d : Nat} {gap w : Bytes} {ds : List Nat} {grouped : Bool}
      (is : radixDigit (c.toNat : Int) radix = some d) (between : Gap ct radix gap) (rest : Written ct radix w ds grouped) :
      Written ct radix (c :: (gap ++ w)) (d :: ds) (grouped || !gap.isEmpty)

/-- What follows does not go on with the number. -/
def Ended (t : Bytes) : Prop :=
  (∀ c ∈ t.head?, isAlnum (c.toNat : Int) = false ∧ c ≠ 39) ∧
    ∀ c ∈ t.head?, c = 32 ∨ c = 46 → ∀ d ∈ t.tail.head?, isDigit (d.toNat : Int) = false

theorem radixDigit_lt {c : Int} {radix d : Nat} (is : radixDigit c radix = some d) : d < radix := by
  rw [radixDigit, Option.filter_eq_some_iff] at is
  simpa using is.2

/-- A digit is a letter or a decimal digit. -/
theorem radixDigit_alnum {c : Int} {radix d : Nat} (is : radixDigit c radix = some d) : isAlnum c = true := by
  rw [radixDigit, Option.filter_eq_some_iff] at is
  rw [isAlnum, decide_eq_true_iff]
  have := is.1
  split at this
  · rename_i digit
    rw [isDigit, decide_eq_true_iff] at digit
    omega
  · split at this
    · omega
    · split at this
      · omega
      · cases this

theorem isDigit_alnum {c : Int} (is : isDigit c = true) : isAlnum c = true := by
  rw [isDigit, decide_eq_true_iff] at is
  rw [isAlnum, decide_eq_true_iff]
  omega

/-- A name's character is no layout. -/
theorem solid_alnum (is : isAlnum (peek s p) = true) : Solid ct s p := by
  rw [isAlnum, decide_eq_true_iff] at is
  refine ⟨?_, by omega, by omega, ?_⟩
  · rw [isSpace, decide_eq_false_iff_not]
    omega
  · rw [wideAt, if_pos]
    by_cases inside : s.length ≤ p
    · exact .inl inside
    · rw [peek, if_neg inside] at is
      exact .inr (by omega)

theorem radixDigit_decimal {c : Int} {radix d : Nat} (small : radix ≤ 10) (is : radixDigit c radix = some d) :
    isDigit c = true ∧ d = (c - 48).toNat := by
  have lt := radixDigit_lt is
  rw [radixDigit, Option.filter_eq_some_iff] at is
  have := is.1
  split at this
  · rename_i digit
    exact ⟨digit, (Option.some.inj this).symm⟩
  · split at this
    · have := Option.some.inj this
      omega
    · split at this
      · have := Option.some.inj this
        omega
      · cases this

/-- Nothing goes on with digits at the place: no digit, and no group. -/
def Halts (ct : Classes) (s : Bytes) (radix p : Nat) : Prop :=
  radixDigit (peek s p) radix = none ∧ ∀ ec, lexGroup ct s radix p ec = (none, ec)

theorem halts_ended {radix : Nat} (is : s.drop p = t) (ended : Ended t) : Halts ct s radix p := by
  cases t with
  | nil =>
    have here := peek_nil is
    constructor
    · rw [here]
      rfl
    · intro ec
      rw [lexGroup, here, if_neg (by decide), if_neg (by omega)]
  | cons c t =>
    have here := peek_drop is
    have plain := (ended.1 c rfl).1
    have none_ : radixDigit (peek s p) radix = none := by
      rw [here]
      by_contra some_
      obtain ⟨d, is⟩ := Option.ne_none_iff_exists'.mp some_
      rw [radixDigit_alnum is] at plain
      cases plain
    refine ⟨none_, fun ec => ?_⟩
    have no_mark : peek s p ≠ 95 := by
      rw [here]
      intro mark
      rw [mark] at plain
      cases plain
    rw [lexGroup, if_neg no_mark]
    by_cases space : peek s p = 32 ∧ radix ≤ 10
    · rw [if_pos space]
      have blank : c = 32 := by
        rw [here] at space
        exact UInt8.toNat_inj.mp (Int.ofNat.inj space.1)
      have after : radixDigit (peek s (p + 1)) radix = none := by
        by_contra some_
        obtain ⟨d, digit⟩ := Option.ne_none_iff_exists'.mp some_
        have digit := (radixDigit_decimal space.2 digit).1
        cases t with
        | nil =>
          rw [peek_nil (drop_next is)] at digit
          cases digit
        | cons e t =>
          rw [peek_drop (drop_next is), ended.2 c rfl (.inl blank) e rfl] at digit
          cases digit
      rw [after]
      rfl
    · rw [if_neg space]

theorem lexGroup_gap {radix d ec : Nat} {c : UInt8} {gap : Bytes} (between : Gap ct radix gap) (some_ : gap ≠ [])
    (is : s.drop p = gap ++ c :: t) (digit : radixDigit (c.toNat : Int) radix = some d) :
    lexGroup ct s radix p ec = (some (p + gap.length), ec) := by
  have at_ := drop_past is
  cases between with
  | tight => exact absurd rfl some_
  | space small =>
    rw [lexGroup, peek_drop is, if_neg (by decide), if_pos ⟨rfl, small⟩, peek_drop (p := p + 1) at_, digit]
    rfl
  | @underscore w gap =>
    have after := drop_next (c := 95) (t := w ++ c :: t) is
    have digit_ : peek s (p + 1 + w.length) = (c.toNat : Int) := peek_drop (drop_past after)
    have solid : Solid ct s (p + 1 + w.length) := solid_alnum (by rw [digit_]; exact radixDigit_alnum digit)
    have skip : layout ct s (p + 1) ec = _ := skip_layout gap after solid (Nat.le_refl _) false ec
    rw [lexGroup, peek_drop (c := 95) (t := w ++ c :: t) is, if_pos (by decide), skip]
    simp only [digit_, digit, Option.isSome_some, if_true, List.length_cons]
    rw [Nat.add_assoc, Nat.add_comm 1]

/-- One digit taken. -/
def Digits.took (radix d : Nat) (g : Digits) : Digits :=
  { g with n := g.n + 1, v := (magnitude radix (g.v, g.wide) [d]).1, wide := (magnitude radix (g.v, g.wide) [d]).2, pos := g.pos + 1 }

theorem radixDigits_digit {radix d turns : Nat} {g : Digits} (digit : radixDigit (peek s g.pos) radix = some d) :
    radixDigits ct s radix (turns + 1) g = radixDigits ct s radix turns (g.took radix d) := by
  obtain ⟨n, v, wide, pos, ec⟩ := g
  dsimp only at digit
  rw [radixDigits]
  dsimp only
  rw [digit]
  cases wide <;> rfl

theorem radixDigits_gap {radix turns q ec : Nat} {g : Digits} (still : radixDigit (peek s g.pos) radix = none)
    (some_ : g.n ≠ 0) (on : lexGroup ct s radix g.pos g.ecomment = (some q, ec)) :
    radixDigits ct s radix (turns + 1) g = radixDigits ct s radix turns { g with pos := q, ecomment := ec } := by
  rw [radixDigits]
  dsimp only
  rw [still]
  dsimp only
  rw [if_neg some_, on]

theorem radixDigits_halts {radix turns : Nat} {g : Digits} (some_ : g.n ≠ 0) (halts : Halts ct s radix g.pos) :
    radixDigits ct s radix turns g = g := by
  cases turns with
  | zero => rfl
  | succ turns =>
    rw [radixDigits]
    dsimp only
    rw [halts.1]
    dsimp only
    rw [if_neg some_, halts.2]

/-- Digits that are written begin with a digit. -/
theorem Written.first {radix : Nat} {ds : List Nat} {grouped : Bool} (written : Written ct radix w ds grouped) :
    ∃ c w' d, w = c :: w' ∧ radixDigit (c.toNat : Int) radix = some d := by
  cases written with
  | last is => exact ⟨_, [], _, rfl, is⟩
  | more is => exact ⟨_, _, _, rfl, is⟩

/-- A gap begins with no digit. -/
theorem Gap.still {radix : Nat} {gap : Bytes} (between : Gap ct radix gap) (some_ : gap ≠ []) (is : s.drop p = gap ++ t) :
    radixDigit (peek s p) radix = none := by
  cases between with
  | tight => exact absurd rfl some_
  | space small =>
    rw [peek_drop is]
    rfl
  | @underscore v layout =>
    rw [peek_drop (c := 95) (t := v ++ t) is]
    rfl

theorem digits_written {radix : Nat} {ds : List Nat} {grouped : Bool} (written : Written ct radix w ds grouped) {g : Digits}
    (is : s.drop g.pos = w ++ t) (halts : Halts ct s radix (g.pos + w.length)) {turns : Nat}
    (enough : s.length - g.pos ≤ turns) : radixDigits ct s radix turns g
      = ⟨g.n + ds.length, (magnitude radix (g.v, g.wide) ds).1, (magnitude radix (g.v, g.wide) ds).2,
          g.pos + w.length, g.ecomment⟩ := by
  induction written generalizing g turns with
  | @last c d digit =>
    have lt := lt_of_drop is
    obtain ⟨turns, rfl⟩ : ∃ k, turns = k + 1 := ⟨turns - 1, by omega⟩
    rw [radixDigits_digit ((congrArg (radixDigit · radix) (peek_drop is)).trans digit),
      radixDigits_halts (Nat.succ_ne_zero _) halts]
    rfl
  | @more c d gap w ds grouped digit between rest ih =>
    have lt := lt_of_drop is
    obtain ⟨turns, rfl⟩ : ∃ k, turns = k + 1 := ⟨turns - 1, by omega⟩
    have after : s.drop (g.pos + 1) = gap ++ (w ++ t) := (drop_next is).trans (List.append_assoc gap w t)
    have there := drop_past after
    have halts : Halts ct s radix (g.pos + 1 + gap.length + w.length) := by
      rw [List.length_cons, List.length_append] at halts
      rwa [show g.pos + 1 + gap.length + w.length = g.pos + (gap.length + w.length + 1) by omega]
    have whole : g.pos + 1 + gap.length + w.length = g.pos + (c :: (gap ++ w)).length := by
      rw [List.length_cons, List.length_append]
      omega
    rw [radixDigits_digit ((congrArg (radixDigit · radix) (peek_drop is)).trans digit)]
    by_cases none_ : gap = []
    · subst none_
      have room : s.length - (g.pos + 1) ≤ turns := by omega
      refine (ih (g := g.took radix d) there halts room).trans ?_
      simp only [Digits.took, magnitude, List.length_cons, List.nil_append, Nat.add_assoc, Nat.add_comm 1]
    · obtain ⟨first, w', d', rfl, digit'⟩ := rest.first
      have turned := @lexGroup_gap _ _ _ _ _ _ g.ecomment _ _ between none_ after digit'
      have len := length_past after none_
      have gaps := List.length_pos_iff.mpr none_
      obtain ⟨turns, rfl⟩ : ∃ k, turns = k + 1 := ⟨turns - 1, by omega⟩
      have room : s.length - (g.pos + 1 + gap.length) ≤ turns := by omega
      rw [radixDigits_gap (g := g.took radix d) (between.still none_ after) (Nat.succ_ne_zero _) turned]
      refine (ih (g := { g.took radix d with pos := g.pos + 1 + gap.length }) there halts room).trans ?_
      dsimp only
      rw [whole]
      simp only [Digits.took, magnitude, List.length_cons, Nat.add_assoc, Nat.add_comm 1]

/-- Digits alone or in groups of a decimal number, in the reader's text. -/
theorem decimal_written {ds : List Nat} {grouped : Bool} (written : Written ct 10 w ds grouped) {g : Decimal}
    (is : s.drop g.pos = w ++ t) (halts : Halts ct s 10 (g.pos + w.length)) {turns : Nat}
    (enough : s.length - g.pos ≤ turns) : ∃ text, text.map (fun c => c.toNat - 48) = ds ∧
      decimalDigits ct s turns g = ⟨g.text ++ text, g.grouped || grouped, g.pos + w.length, g.ecomment⟩ := by
  have take : ∀ (turns : Nat) (g : Decimal) (c : UInt8) (t : Bytes), s.drop g.pos = c :: t → isDigit (c.toNat : Int) = true →
      decimalDigits ct s (turns + 1) g = decimalDigits ct s turns ⟨g.text ++ [c], g.grouped, g.pos + 1, g.ecomment⟩ := by
    intro turns g c t is digit
    rw [decimalDigits, peek_drop is, if_pos digit, getD_drop is]
  have value : ∀ (c : UInt8) (d : Nat), d = ((c.toNat : Int) - 48).toNat → c.toNat - 48 = d := by
    intro c d is
    omega
  induction written generalizing g turns with
  | @last c d digit =>
    have lt := lt_of_drop is
    obtain ⟨digit, is_⟩ := radixDigit_decimal (Nat.le_refl 10) digit
    obtain ⟨turns, rfl⟩ : ∃ k, turns = k + 1 := ⟨turns - 1, by omega⟩
    refine ⟨[c], congrArg (fun d => [d]) (value c d is_), ?_⟩
    rw [take turns g c t is digit, Bool.or_false]
    cases turns with
    | zero => rfl
    | succ turns =>
      have none_ : isDigit (peek s (g.pos + 1)) = false := by
        have := halts.1
        rw [radixDigit] at this
        by_contra some_
        rw [Bool.not_eq_false] at some_
        rw [List.length_singleton] at this
        simp only [some_, if_true, Option.filter_eq_none_iff] at this
        have := this _ rfl
        rw [isDigit, decide_eq_true_iff] at some_
        simp only [decide_eq_true_iff] at this
        omega
      rw [decimalDigits]
      dsimp only
      rw [if_neg (by rw [none_]; decide), show lexGroup ct s 10 (g.pos + 1) g.ecomment = _ from halts.2 _]
      rfl
  | @more c d gap w ds grouped digit between rest ih =>
    have lt := lt_of_drop is
    obtain ⟨digit, is_⟩ := radixDigit_decimal (Nat.le_refl 10) digit
    obtain ⟨turns, rfl⟩ : ∃ k, turns = k + 1 := ⟨turns - 1, by omega⟩
    have after : s.drop (g.pos + 1) = gap ++ (w ++ t) := (drop_next is).trans (List.append_assoc gap w t)
    have there := drop_past after
    have whole : g.pos + 1 + gap.length + w.length = g.pos + (c :: (gap ++ w)).length := by
      rw [List.length_cons, List.length_append]
      omega
    rw [← whole] at halts ⊢
    rw [take turns g c _ is digit]
    by_cases none_ : gap = []
    · subst none_
      have room : s.length - (g.pos + 1) ≤ turns := by omega
      obtain ⟨text, same, more⟩ := ih (g := ⟨g.text ++ [c], g.grouped, g.pos + 1, g.ecomment⟩) there halts room
      refine ⟨c :: text, by rw [List.map_cons, same, value c d is_], ?_⟩
      rw [more]
      simp [List.append_assoc]
    · obtain ⟨first, w', d', rfl, digit'⟩ := rest.first
      have turned := @lexGroup_gap _ _ _ _ _ _ g.ecomment _ _ between none_ after digit'
      have len := length_past after none_
      have gaps := List.length_pos_iff.mpr none_
      obtain ⟨turns, rfl⟩ : ∃ k, turns = k + 1 := ⟨turns - 1, by omega⟩
      have room : s.length - (g.pos + 1 + gap.length) ≤ turns := by omega
      obtain ⟨text, same, more⟩ := ih (g := ⟨g.text ++ [c], true, g.pos + 1 + gap.length, g.ecomment⟩) there halts room
      have still : isDigit (peek s (g.pos + 1)) = false := by
        cases between with
        | tight => exact absurd rfl none_
        | space small =>
          rw [peek_drop after]
          rfl
        | @underscore v layout =>
          rw [peek_drop (c := 95) (t := v ++ (first :: w' ++ t)) after]
          rfl
      refine ⟨c :: text, by rw [List.map_cons, same, value c d is_], ?_⟩
      rw [decimalDigits]
      dsimp only
      rw [if_neg (by rw [still]; decide), turned]
      dsimp only
      rw [more]
      simp [List.append_assoc, none_]

/- The three ways a literal is written. -/

/-- Digits in decimal, after `0x`, `0o` or `0b`, or after a radix of one or two digits and a quote. -/
inductive Literal (ct : Classes) : Bytes → Nat → List Nat → Prop where
  | decimal {w : Bytes} {ds : List Nat} {grouped : Bool} (digits : Written ct 10 w ds grouped) : Literal ct w 10 ds
  | prefixed {c : UInt8} {radix : Nat} {w : Bytes} {ds : List Nat} {grouped : Bool}
      (letter : radixLetter (c.toNat : Int) = some radix) (digits : Written ct radix w ds grouped) :
      Literal ct (48 :: c :: w) radix ds
  | quoted {r w : Bytes} {rs ds : List Nat} {radix : Nat} {grouped : Bool} (plain : Written ct 10 r rs false)
      (short : rs.length ≤ 2) (is : Nat.ofDigits 10 rs.reverse = radix) (lo : 2 ≤ radix) (hi : radix ≤ 36)
      (digits : Written ct radix w ds grouped) : Literal ct (r ++ 39 :: w) radix ds

theorem radixLetter_alnum {c : Int} {radix : Nat} (letter : radixLetter c = some radix) :
    isAlnum c = true ∧ isDigit c = false ∧ (radix = 16 ∨ radix = 8 ∨ radix = 2) := by
  rw [isAlnum, isDigit, decide_eq_true_iff, decide_eq_false_iff_not]
  rw [radixLetter] at letter
  split at letter
  · exact ⟨by omega, by omega, .inl (Option.some.inj letter).symm⟩
  · split at letter
    · exact ⟨by omega, by omega, .inr (.inl (Option.some.inj letter).symm)⟩
    · split at letter
      · exact ⟨by omega, by omega, .inr (.inr (Option.some.inj letter).symm)⟩
      · cases letter

theorem radixLetter_none {c : Int} (plain : isAlnum c = false ∨ isDigit c = true ∨ c = 95) : radixLetter c = none := by
  by_contra some_
  obtain ⟨radix, letter⟩ := Option.ne_none_iff_exists'.mp some_
  have known := radixLetter_alnum letter
  rcases plain with other | digit | mark
  · rw [known.1] at other
    cases other
  · rw [known.2.1] at digit
    cases digit
  · rw [mark] at letter
    cases letter

/-- The second character of two or more is no quote and no radix's letter. -/
theorem written_second {ds : List Nat} {grouped : Bool} (written : Written ct 10 w ds grouped) (is : s.drop p = w ++ t) :
    (∃ c d, w = [c] ∧ ds = [d] ∧ radixDigit (c.toNat : Int) 10 = some d) ∨
      peek s (p + 1) ≠ 39 ∧ radixLetter (peek s (p + 1)) = none := by
  cases written with
  | @last c d digit => exact .inl ⟨c, d, rfl, rfl, digit⟩
  | @more c d gap w ds grouped digit between rest =>
    right
    have after : s.drop (p + 1) = gap ++ (w ++ t) := (drop_next is).trans (List.append_assoc gap w t)
    cases between with
    | tight =>
      obtain ⟨first, w', d', rfl, digit'⟩ := rest.first
      have digit' := (radixDigit_decimal (Nat.le_refl 10) digit').1
      rw [peek_drop (c := first) (t := w' ++ t) after]
      refine ⟨?_, radixLetter_none (.inr (.inl digit'))⟩
      intro quote
      rw [quote] at digit'
      cases digit'
    | space small =>
      rw [peek_drop after]
      exact ⟨by decide, by decide⟩
    | @underscore v layout =>
      rw [peek_drop (c := 95) (t := v ++ (w ++ t)) after]
      exact ⟨by decide, by decide⟩

theorem written_length {radix : Nat} {ds : List Nat} {grouped : Bool} (written : Written ct radix w ds grouped) : ds ≠ [] := by
  cases written with
  | last => simp
  | more => simp

theorem written_small {radix : Nat} {ds : List Nat} {grouped : Bool} (written : Written ct radix w ds grouped) :
    ∀ d ∈ ds, d < radix := by
  induction written with
  | last is =>
    intro d mem
    rw [List.mem_singleton] at mem
    exact mem ▸ radixDigit_lt is
  | more is _ _ ih =>
    intro d mem
    rcases List.mem_cons.mp mem with rfl | mem
    · exact radixDigit_lt is
    · exact ih d mem

variable (D : Doubles F)

theorem lexRadix_written {radix tstart ec : Nat} {ds : List Nat} {grouped : Bool} (pos : 0 < radix) (le : radix ≤ 36)
    (written : Written ct radix w ds grouped) (is : s.drop p = w ++ t) (halts : Halts ct s radix (p + w.length)) :
    (lexRadix ct s tstart radix p ec : Lexed F)
      = ⟨.ok (intToken (Nat.ofDigits radix ds.reverse), p + w.length), ec⟩ := by
  have run := digits_written written (g := ⟨0, 0, false, p, ec⟩) is halts (Nat.le_refl _)
  have some_ : 0 + ds.length ≠ 0 := by
    have := List.length_pos_iff.mpr (written_length written)
    omega
  have token : (magToken _ _ : Token F) = _ := magToken_magnitude pos fun d mem => by
    have := written_small written d mem
    omega
  rw [lexRadix, lexRadixDigits, run]
  dsimp only
  rw [if_neg some_, token]

theorem magText_eq (v : Nat) (text : Bytes) : magText v text = magnitude 10 (v, false) (text.map fun c => c.toNat - 48) := by
  induction text generalizing v with
  | nil => rfl
  | cons c text ih =>
    rw [magText, List.map_cons, magnitude]
    by_cases beyond : (magDigit v 10 (c.toNat - 48)).2 = true
    · have wide : magDigit v 10 (c.toNat - 48) = (v, true) := by
        rw [magDigit] at beyond ⊢
        split at beyond
        · rename_i past
          rw [if_pos past]
        · cases beyond
      rw [if_pos beyond, wide]
      exact (magnitude_wide 10 v _).symm
    · rw [if_neg beyond, ih]
      congr 1
      rw [if_neg Bool.false_ne_true]
      exact Prod.ext rfl (Bool.eq_false_iff.mpr beyond).symm

/-- An integer is all there is to a decimal number that ends. -/
theorem lexDecimalRest_ended {tstart : Nat} {g : Decimal} (is : s.drop g.pos = t) (ended : Ended t) :
    lexDecimalRest D ct s tstart g = ⟨.ok (magToken (magText 0 g.text).1 (magText 0 g.text).2, g.pos), g.ecomment⟩ := by
  have letter : ∀ c : Int, isAlnum c = true → peek s g.pos ≠ c := by
    intro c alnum same
    cases t with
    | nil =>
      rw [peek_nil is] at same
      rw [← same] at alnum
      cases alnum
    | cons d t =>
      rw [peek_drop is] at same
      rw [← same, (ended.1 d rfl).1] at alnum
      cases alnum
  have point : ¬(peek s g.pos = 46 ∧ isDigit (peek s (g.pos + 1)) = true) := by
    rintro ⟨point, digit⟩
    cases t with
    | nil =>
      rw [peek_nil is] at point
      cases point
    | cons d t =>
      rw [peek_drop is] at point
      cases t with
      | nil =>
        rw [peek_nil (drop_next is)] at digit
        cases digit
      | cons e t =>
        rw [peek_drop (drop_next is),
          ended.2 d rfl (.inr (UInt8.toNat_inj.mp (Int.ofNat.inj point))) e rfl] at digit
        cases digit
  have exponent : lexExponent s g.pos = none := by
    rw [lexExponent, if_neg]
    rintro (e | e)
    · exact letter 101 rfl e
    · exact letter 69 rfl e
  have fraction : lexFraction ct s g = none := if_neg point
  rw [lexDecimalRest, if_neg fun both => letter 114 rfl both.1, fraction, exponent]
  dsimp only
  rw [ite_self]

theorem atoi_eq (text : Bytes) : atoi text = Nat.ofDigits 10 (text.map fun c => c.toNat - 48).reverse := by
  rw [ofDigits_reverse, atoi, List.foldl_map]

/-- The place begins no character code and no radix prefix. -/
def Plain (s : Bytes) (p : Nat) : Prop := peek s p ≠ 48 ∨ peek s (p + 1) ≠ 39 ∧ radixLetter (peek s (p + 1)) = none

theorem Plain.code (plain : Plain s p) : ¬(peek s p = 48 ∧ peek s (p + 1) = 39) := by
  rintro ⟨zero, quote⟩
  rcases plain with other | ⟨other, -⟩
  · exact other zero
  · exact other quote

theorem Plain.letter (plain : Plain s p) : (if peek s p = 48 then radixLetter (peek s (p + 1)) else none) = none := by
  rcases plain with other | ⟨-, none_⟩
  · exact if_neg other
  · rw [none_, ite_self]

theorem decimal_plain {ds : List Nat} {grouped : Bool} (digits : Written ct 10 w ds grouped) (is : s.drop p = w ++ t)
    (ended : Ended t) : Plain s p := by
  rcases written_second digits is with ⟨c, d, rfl, -⟩ | known
  · have after : s.drop (p + 1) = t := drop_past is
    right
    cases t with
    | nil =>
      rw [peek_nil after]
      exact ⟨by decide, by decide⟩
    | cons e t =>
      rw [peek_drop after]
      refine ⟨fun quote => (ended.1 e rfl).2 (UInt8.toNat_inj.mp (Int.ofNat.inj quote)), ?_⟩
      exact radixLetter_none (.inl (ended.1 e rfl).1)
  · exact .inr known

/-- A lone zero is no radix. -/
theorem quoted_plain {rs : List Nat} (plain : Written ct 10 w rs false) (radix : 2 ≤ Nat.ofDigits 10 rs.reverse)
    (is : s.drop p = w ++ t) : Plain s p := by
  rcases written_second plain is with ⟨c, d, rfl, rfl, digit⟩ | known
  · left
    rw [peek_drop is]
    intro zero
    rw [zero] at digit
    have : d = 0 := (Option.some.inj digit).symm
    rw [this, List.reverse_singleton, Nat.ofDigits_singleton] at radix
    omega
  · exact .inr known

theorem literal_code {radix : Nat} {ds : List Nat} (lit : Literal ct w radix ds) (is : s.drop p = w ++ t) (ended : Ended t) :
    ¬(peek s p = 48 ∧ peek s (p + 1) = 39) := by
  cases lit with
  | decimal digits => exact (decimal_plain digits is ended).code
  | @prefixed c radix w ds grouped letter digits =>
    rintro ⟨-, quote⟩
    rw [peek_drop (t := w ++ t) (drop_next is)] at quote
    rw [quote] at letter
    cases letter
  | @quoted r w rs ds radix grouped plain short value lo hi digits =>
    rw [List.append_assoc] at is
    exact (quoted_plain plain (by omega) is).code

/-- A literal is read to its end, as the number its digits denote. -/
theorem literal_number {radix tstart ec : Nat} {chars : Bool} {ds : List Nat} (lit : Literal ct w radix ds)
    (is : s.drop tstart = w ++ t) (ended : Ended t) :
    lexNumber D ct s chars tstart ec = ⟨.ok (intToken (Nat.ofDigits radix ds.reverse), tstart + w.length), ec⟩ := by
  cases lit with
  | @decimal w ds grouped digits =>
    obtain ⟨c, w', d, first, digit⟩ := digits.first
    have after := drop_past is
    have halts : Halts ct s 10 (tstart + w.length) := halts_ended after ended
    have plain := decimal_plain digits is ended
    obtain ⟨text, same, run⟩ := decimal_written digits (g := ⟨[], false, tstart, ec⟩) is halts (Nat.le_refl _)
    have no_quote : peek s (tstart + w.length) ≠ 39 := by
      cases t with
      | nil =>
        rw [peek_nil after]
        decide
      | cons e t =>
        rw [peek_drop after]
        exact fun quote => (ended.1 e rfl).2 (UInt8.toNat_inj.mp (Int.ofNat.inj quote))
    have token : (magToken _ _ : Token F) = _ := magToken_magnitude (Nat.succ_pos 9) fun d mem => by
      have := written_small digits d mem
      omega
    rw [lexNumber, if_neg plain.code, plain.letter]
    dsimp only
    rw [run, quotedRadix, if_neg fun all => no_quote all.2.1]
    dsimp only
    rw [lexDecimalRest_ended D after ended]
    dsimp only
    rw [magText_eq, List.nil_append, same, token]
  | @prefixed c radix w ds grouped letter digits =>
    have alnum := radixLetter_alnum letter
    have second : peek s (tstart + 1) = (c.toNat : Int) := peek_drop (t := w ++ t) (drop_next is)
    have there : s.drop (tstart + 2) = w ++ t := drop_past (w := [48, c]) is
    have quoteless : (c.toNat : Int) ≠ 39 := by
      intro quote
      rw [quote] at letter
      cases letter
    rw [lexNumber, second, if_neg fun both => quoteless both.2, if_pos (show peek s tstart = 48 from peek_drop is), letter]
    dsimp only
    rw [lexRadix_written (by omega) (by omega) digits there (halts_ended (drop_past there) ended)]
    simp only [List.length_cons]
    rw [show tstart + 2 + w.length = tstart + (w.length + 1 + 1) by omega]
  | @quoted r w rs ds radix grouped plain short value lo hi digits =>
    rw [List.append_assoc] at is
    have after : s.drop (tstart + r.length) = 39 :: (w ++ t) := drop_past is
    have there := drop_next after
    have quote : peek s (tstart + r.length) = 39 := peek_drop after
    have halts : Halts ct s 10 (tstart + r.length) := by
      refine ⟨by rw [quote]; rfl, fun ec => ?_⟩
      rw [lexGroup, quote, if_neg (by decide), if_neg (by omega)]
    have opens := quoted_plain plain (by omega) is
    obtain ⟨text, same, run⟩ := decimal_written plain (g := ⟨[], false, tstart, ec⟩) is halts (Nat.le_refl _)
    obtain ⟨first, w', d', first_, digit⟩ := digits.first
    have begins : (radixDigit (peek s (tstart + r.length + 1)) radix).isSome = true := by
      rw [first_] at there
      rw [peek_drop (t := w' ++ t) there, digit]
      rfl
    have length : text.length ≤ 2 := by
      rw [← List.length_map (f := fun c : UInt8 => c.toNat - 48), same]
      exact short
    rw [lexNumber, if_neg opens.code, opens.letter]
    dsimp only
    rw [run, quotedRadix, if_pos ⟨rfl, quote, length⟩, List.nil_append, atoi_eq, same, value]
    dsimp only
    rw [if_pos ⟨lo, hi, begins⟩]
    dsimp only
    rw [lexRadix_written (by omega) hi digits there (halts_ended (drop_past there) ended)]
    simp only [List.length_append, List.length_cons]
    rw [show tstart + r.length + 1 + w.length = tstart + (r.length + (w.length + 1)) by omega]

/- The reader at a literal. -/

/-- What follows a full stop that ends a clause. -/
def AfterStop (t : Bytes) : Prop := ∀ c ∈ t.head?, isSpace (c.toNat : Int) = true ∨ c = 37

section tokens
variable {D} {c : UInt8} {chars : Bool} {ec : Nat}

theorem layout_solid (solid : Solid ct s p) (ec : Nat) : layout ct s p ec = ⟨p, false, ec⟩ :=
  skip_solid (k := ⟨p, false, ec⟩) solid

theorem nextToken_solid (solid : Solid ct s p) : nextToken D ct s chars p 0 = ⟨false, p, lexToken D ct s chars p 0⟩ := by
  rw [nextToken, layout_solid solid]
  rfl

theorem literal_first {radix : Nat} {ds : List Nat} (lit : Literal ct w radix ds) :
    ∃ c w', w = c :: w' ∧ isDigit (c.toNat : Int) = true := by
  cases lit with
  | decimal digits =>
    obtain ⟨c, w', d, first, digit⟩ := digits.first
    exact ⟨c, w', first, (radixDigit_decimal (Nat.le_refl 10) digit).1⟩
  | @prefixed c radix w => exact ⟨48, c :: w, rfl, rfl⟩
  | @quoted r w rs ds radix grouped plain =>
    obtain ⟨c, r', d, first, digit⟩ := plain.first
    exact ⟨c, r' ++ 39 :: w, by rw [first]; rfl, (radixDigit_decimal (Nat.le_refl 10) digit).1⟩

theorem literal_token {radix : Nat} {ds : List Nat} (lit : Literal ct w radix ds) (is : s.drop p = w ++ t) (ended : Ended t) :
    nextToken D ct s chars p 0 = ⟨false, p, .ok (intToken (Nat.ofDigits radix ds.reverse), p + w.length), 0⟩ := by
  obtain ⟨c, w', first, digit⟩ := literal_first lit
  have here : peek s p = (c.toNat : Int) := peek_drop (t := w' ++ t) (by rw [is, first]; rfl)
  rw [nextToken_solid (solid_alnum (by rw [here]; exact isDigit_alnum digit)), lexToken]
  dsimp only
  rw [here, if_neg (by omega), if_pos digit, literal_number D lit is ended]

/-- A character that is a symbol and what follows it no symbol. -/
theorem symbol_alone (symbol : isSymbol (c.toNat : Int) = true) (is : s.drop p = c :: t)
    (alone : ∀ d ∈ t.head?, d.toNat < 128 ∧ isSymbol (d.toNat : Int) = false) : runEnd ct s isSymbol 2 p = p + 1 := by
  have lt := lt_of_drop is
  have ascii : peek s p < 128 := by
    by_contra high
    rw [peek_drop is] at high
    rw [isSymbol, decide_eq_true_iff] at symbol
    simp only [List.mem_cons, List.not_mem_nil, or_false] at symbol
    omega
  have still : runStep ct s isSymbol 2 (p + 1) = 0 := by
    cases t with
    | nil =>
      rw [runStep, peek_nil (drop_next is)]
      rfl
    | cons d t =>
      obtain ⟨low, no⟩ := alone d rfl
      rw [runStep, peek_drop (drop_next is), no, if_neg Bool.false_ne_true, if_pos (by omega)]
  have walk : Strides (runStep ct s isSymbol 2) p (p + 1) := by
    have one : runStep ct s isSymbol 2 p = 1 := by
      rw [runStep, peek_drop is, if_pos symbol]
    refine .more (by omega) ?_
    rw [one]
    exact .stop still
  obtain ⟨k, room⟩ : ∃ k, s.length - p = k + 1 := ⟨s.length - p - 1, by omega⟩
  have one : runStep ct s isSymbol 2 p = 1 := by
    rw [runStep, peek_drop is, if_pos symbol]
  rw [runEnd, room, stride, if_neg (by omega), one]
  cases k with
  | zero => rfl
  | succ k => rw [stride, if_pos still]

theorem full_token (is : s.drop p = 46 :: t) (after : AfterStop t) :
    nextToken D ct s chars p 0 = ⟨false, p, .ok (.full, p + 1), 0⟩ := by
  have here : peek s p = 46 := peek_drop is
  have solid : Solid ct s p := by
    refine ⟨by rw [here]; rfl, by omega, by omega, ?_⟩
    rw [wideAt, if_pos]
    have lt := lt_of_drop is
    rw [peek, if_neg (by omega)] at here
    exact .inr (by omega)
  have alone : ∀ d ∈ t.head?, d.toNat < 128 ∧ isSymbol (d.toNat : Int) = false := by
    intro d mem
    rcases after d mem with space | percent
    · rw [isSpace, decide_eq_true_iff] at space
      refine ⟨by omega, ?_⟩
      rw [isSymbol, decide_eq_false_iff_not]
      simp only [List.mem_cons, List.not_mem_nil, or_false]
      omega
    · rw [percent]
      exact ⟨by decide, by decide⟩
  have ends : clauseEnds ct s (p + 1) = true := by
    rw [clauseEnds, decide_eq_true_iff]
    cases t with
    | nil => exact .inl (peek_nil (drop_next is))
    | cons d t =>
      rw [peek_drop (drop_next is)]
      rcases after d rfl with space | percent
      · exact .inr (.inl space)
      · rw [percent]
        exact .inr (.inr (.inl rfl))
  have run : runEnd ct s isSymbol 2 p = p + 1 := symbol_alone (by decide) is alone
  rw [nextToken_solid solid, lexToken]
  dsimp only
  rw [here, run, ends]
  have full : (if (46 : Int) = 46 ∧ p + 1 = p + 1 ∧ true = true then (.full : Token F) else .name (slice s p (p + 1)) false) = .full :=
    if_pos ⟨rfl, rfl, rfl⟩
  rw [full]
  rfl

theorem sign_token (sign : c = 43 ∨ c = 45) (is : s.drop p = c :: t)
    (digit : ∃ d t', t = d :: t' ∧ isDigit (d.toNat : Int) = true) :
    nextToken D ct s chars p 0 = ⟨false, p, .ok (.name [c] false, p + 1), 0⟩ := by
  obtain ⟨d, t', rfl, digit⟩ := digit
  have here : peek s p = (c.toNat : Int) := peek_drop is
  have lt := lt_of_drop is
  have solid : Solid ct s p := by
    refine ⟨?_, ?_, ?_, ?_⟩
    · rw [here]
      rcases sign with rfl | rfl <;> rfl
    · rw [here]
      rcases sign with rfl | rfl <;> decide
    · rw [here]
      rcases sign with rfl | rfl
      · exact fun both => absurd both.1 (by decide)
      · exact fun both => absurd both.1 (by decide)
    · rw [wideAt, if_pos]
      rw [peek, if_neg (by omega)] at here
      right
      rcases sign with rfl | rfl
      · exact Int.ofNat.inj here ▸ (by decide)
      · exact Int.ofNat.inj here ▸ (by decide)
  have alone : ∀ e ∈ (d :: t').head?, e.toNat < 128 ∧ isSymbol (e.toNat : Int) = false := by
    intro e mem
    obtain rfl := Option.some.inj mem
    rw [isDigit, decide_eq_true_iff] at digit
    refine ⟨by omega, ?_⟩
    rw [isSymbol, decide_eq_false_iff_not]
    simp only [List.mem_cons, List.not_mem_nil, or_false]
    omega
  have symbol : isSymbol (c.toNat : Int) = true := by
    rcases sign with rfl | rfl <;> decide
  have run : runEnd ct s isSymbol 2 p = p + 1 := symbol_alone symbol is alone
  have text : slice s p (p + 1) = [c] := by
    rw [slice, List.drop_take, is, Nat.add_sub_cancel_left]
    rfl
  rw [nextToken_solid solid, lexToken]
  dsimp only
  rw [here, run, text]
  rcases sign with rfl | rfl <;> rfl

end tokens

/- The clause reader and `coco_read_number_text`. -/

section readers
variable {M : Machine F} {r : Reader F} {lb : Bool} {ts pos ec : Nat} {tok : Token F}

theorem advance_ok (is : nextToken M.doubles M.classes s M.textChars r.pos r.ecomment = ⟨lb, ts, .ok (tok, pos), ec⟩) :
    r.advance M s = { r with layoutBefore := lb, tstart := ts, ecomment := ec, tok := tok, pos := pos } := by
  rw [Reader.advance, Scanner.advance, is]

theorem next_ok (fine : r.failed = none)
    (is : nextToken M.doubles M.classes s M.textChars r.pos r.ecomment = ⟨lb, ts, .ok (tok, pos), ec⟩) :
    next M s r = .ok { r.pass with layoutBefore := lb, tstart := ts, ecomment := ec, tok := tok, pos := pos } := by
  have moved := advance_ok (r := r.pass) is
  rw [next, moved, if_neg]
  rw [show r.pass.failed = none from fine]
  decide

theorem infixLoop_full {term : Inner F} {maxprec : Int} {turns : Nat} {left : Term F × Int} (full : r.tok = .full) :
    infixLoop M s term maxprec (turns + 1) left r = .ok (left, r) := by
  rw [infixLoop, infixHere, infixName, full]

/-- An integer before the clause's end. -/
theorem int_term {v maxprec : Int} {wnum : Bool} {turns : Nat} {r' : Reader F} (int_ : r.tok = .int v 0 wnum)
    (on : next M s r = .ok r') (full : r'.tok = .full) :
    parseTerm M s (turns + 2) maxprec r = .ok ((.int v, 0), r') := by
  show termBody M s _ (turns + 1) maxprec r = _
  rw [termBody, primaryBody, int_]
  dsimp only
  rw [if_neg (by decide), leaf, on]
  exact infixLoop_full full

theorem int_refused {v maxprec : Int} {wide turns : Nat} {wnum : Bool} (int_ : r.tok = .int v wide wnum) (not : wide ≠ 0) :
    parseTerm M s (turns + 1) maxprec r = .error (.failed (r.fail "integer out of range")) := by
  show termBody M s _ turns maxprec r = _
  rw [termBody, primaryBody, int_]
  dsimp only
  rw [if_pos not]
  rfl

/-- The text's first clause is read as the term. -/
def ReadsAs (M : Machine F) (s : Bytes) (t : Term F) : Prop := ∃ r, readClause M s (Reader.init M s) = some (.read t, r)

/-- The text's first clause is refused with this reason. -/
def RefusedFor (M : Machine F) (s : Bytes) (what : String) : Prop :=
  ∃ r, readClause M s (Reader.init M s) = some (.refused, r) ∧ r.failed.map Fail.what = some what

theorem readsAs_of {t : Term F} {prec : Int} {r' : Reader F} (fine : (Reader.init M s).failed = none)
    (some_ : (Reader.init M s).tok.isEof = false)
    (parsed : parseTerm M s (s.length + 2) 1200 (Reader.init M s).begun = .ok ((t, prec), r')) (full : r'.tok = .full) :
    ReadsAs M s t := by
  refine ⟨r'.pass.advance M s, ?_⟩
  rw [readClause, fine, if_neg (by decide), some_, if_neg Bool.false_ne_true, parsed]
  dsimp only
  rw [full]
  rfl

theorem refusedFor_of {r' : Reader F} {what : String} (fine : (Reader.init M s).failed = none)
    (some_ : (Reader.init M s).tok.isEof = false)
    (parsed : parseTerm M s (s.length + 2) 1200 (Reader.init M s).begun = .error (.failed r'))
    (why : r'.failed.map Fail.what = some what) : RefusedFor M s what := by
  refine ⟨r', ?_, why⟩
  rw [readClause, fine, if_neg (by decide), some_, if_neg Bool.false_ne_true, parsed]

theorem init_ok (is : nextToken M.doubles M.classes s M.textChars 0 0 = ⟨lb, ts, .ok (tok, pos), ec⟩) :
    Reader.init M s = ⟨⟨pos, tok, lb, ts, none, ec, []⟩, 0, 0, false, [], 0⟩ :=
  advance_ok is

/-- A minus against an integer. -/
theorem minus_term {x maxprec : Int} {wide turns : Nat} {quoted : Bool} {r₁ r₂ : Reader F} (minus : r.tok = .name [45] quoted)
    (on : next M s r = .ok r₁) (int_ : r₁.tok = .int x wide false) (against : r₁.layoutBefore = false) (least : wide ≤ 1)
    (on_ : next M s r₁ = .ok r₂) (full : r₂.tok = .full) :
    parseTerm M s (turns + 2) maxprec r = .ok ((.int (if wide = 1 then -2 ^ 63 else -x), 0), r₂) := by
  show termBody M s _ (turns + 1) maxprec r = _
  have named : namedBody M s (parseTerm M s (turns + 1)) (turns + 1) maxprec [45] quoted r
      = .ok ((.int (if wide = 1 then -2 ^ 63 else -x), 0), r₂) := by
    rw [namedBody, on]
    show (if isPunct r₁ 40 = true ∧ r₁.layoutBefore = false then _ else _) = _
    rw [if_neg (by rw [isPunct, int_]; simp), if_pos ⟨rfl, against⟩, signed, int_]
    dsimp only
    rw [if_neg (by omega)]
    show ((next M s r₁).bind _) = _
    rw [on_]
    rfl
  rw [termBody, primaryBody, minus]
  show ((namedBody M s (parseTerm M s (turns + 1)) (turns + 1) maxprec [45] quoted r).bind _) = _
  rw [named]
  exact infixLoop_full full

theorem minus_refused {x maxprec : Int} {wide turns : Nat} {quoted : Bool} {r₁ : Reader F} (minus : r.tok = .name [45] quoted)
    (on : next M s r = .ok r₁) (int_ : r₁.tok = .int x wide false) (against : r₁.layoutBefore = false) (more : 1 < wide) :
    parseTerm M s (turns + 1) maxprec r = .error (.failed (r₁.fail "integer out of range")) := by
  show termBody M s _ turns maxprec r = _
  have named : namedBody M s (parseTerm M s turns) turns maxprec [45] quoted r
      = .error (.failed (r₁.fail "integer out of range")) := by
    rw [namedBody, on]
    show (if isPunct r₁ 40 = true ∧ r₁.layoutBefore = false then _ else _) = _
    rw [if_neg (by rw [isPunct, int_]; simp), if_pos ⟨rfl, against⟩, signed, int_]
    dsimp only
    rw [if_pos more]
    rfl
  rw [termBody, primaryBody, minus]
  show ((namedBody M s (parseTerm M s turns) turns maxprec [45] quoted r).bind _) = _
  rw [named]
  rfl

/-- A plus that is a prefix operator before an integer. -/
theorem plus_term {x maxprec prec : Int} {type : OpType} {wide turns : Nat} {r₁ : Reader F} (plus : r.tok = .name [43] false)
    (op : M.opPrefix [43] = some (prec, type)) (le : prec ≤ maxprec)
    (on : next M s r = .ok r₁) (int_ : r₁.tok = .int x wide false) :
    parseTerm M s (turns + 2) maxprec r =
      (parseTerm M s (turns + 1) (if type = .fy then prec else prec - 1) r₁).bind fun y =>
        infixLoop M s (parseTerm M s (turns + 1)) maxprec (turns + 1) (.app (.of [43]) [y.1.1], prec) y.2 := by
  show termBody M s _ (turns + 1) maxprec r = _
  have starts : startsTerm M s r₁ = true := by rw [startsTerm, int_]
  have named : namedBody M s (parseTerm M s (turns + 1)) (turns + 1) maxprec [43] false r
      = (parseTerm M s (turns + 1) (if type = .fy then prec else prec - 1) r₁).bind fun y =>
        .ok ((.app (.of [43]) [y.1.1], prec), y.2) := by
    rw [namedBody, on]
    show (if isPunct r₁ 40 = true ∧ r₁.layoutBefore = false then _ else _) = _
    rw [if_neg (by rw [isPunct, int_]; simp), if_neg fun both => absurd both.1 (by decide)]
    dsimp only
    rw [operatorOrAtom, if_pos (.inl rfl), op]
    dsimp only
    rw [if_pos ⟨le, starts⟩]
    rfl
  rw [termBody, primaryBody, plus]
  show ((namedBody M s (parseTerm M s (turns + 1)) (turns + 1) maxprec [43] false r).bind _) = _
  rw [named]
  cases parseTerm M s (turns + 1) (if type = .fy then prec else prec - 1) r₁ with
  | error e => rfl
  | ok y => rfl

theorem ended_stop (after : AfterStop t) : Ended (46 :: t) := by
  refine ⟨fun c mem => ?_, fun c mem is d follows => ?_⟩
  · obtain rfl := Option.some.inj mem
    exact ⟨by decide, by decide⟩
  · rcases after d follows with space | percent
    · rw [isSpace, decide_eq_true_iff] at space
      rw [isDigit, decide_eq_false_iff_not]
      omega
    · rw [percent]
      decide

theorem ended_nil : Ended [] := ⟨fun _ mem => (Option.not_mem_none _ mem).elim, fun _ mem => (Option.not_mem_none _ mem).elim⟩

variable {radix : Nat} {ds : List Nat}

theorem intToken_below {v : Nat} (lt : v < 2 ^ 63) : (intToken v : Token F) = .int v 0 false := if_pos lt

/-- From 2^63 on the token is marked. -/
theorem intToken_marked {v : Nat} (le : ¬v < 2 ^ 63) :
    ∃ wide, (intToken v : Token F) = .int 0 wide false ∧ wide ≠ 0 ∧ (wide = 1 ↔ v = 2 ^ 63) ∧ (1 < wide ↔ 2 ^ 63 < v) := by
  by_cases same : v = 2 ^ 63
  · exact ⟨1, by rw [intToken, if_neg le, if_pos same], by decide, by omega, by omega⟩
  · exact ⟨2, by rw [intToken, if_neg le, if_neg same], by decide, by omega, by omega⟩

theorem intToken_isEof (v : Nat) : (intToken v : Token F).isEof = false := by
  unfold intToken
  split
  · rfl
  · split
    · rfl
    · rfl

/-- The literal is the next token. -/
theorem next_literal (lit : Literal M.classes w radix ds) (fine : r.failed = none) (none_ : r.ecomment = 0)
    (is : s.drop r.pos = w ++ t) (ended : Ended t) : ∃ r', next M s r = .ok r' ∧
      r'.tok = intToken (Nat.ofDigits radix ds.reverse) ∧ r'.layoutBefore = false ∧ r'.failed = none ∧ r'.ecomment = 0 ∧
      s.drop r'.pos = t :=
  ⟨_, next_ok fine (by rw [none_]; exact literal_token lit is ended), rfl, rfl, fine, rfl, drop_past is⟩

/-- The full stop is the next token. -/
theorem next_full (fine : r.failed = none) (none_ : r.ecomment = 0) (is : s.drop r.pos = 46 :: t)
    (after : AfterStop t) : ∃ r', next M s r = .ok r' ∧ r'.tok = .full :=
  ⟨_, next_ok fine (by rw [none_]; exact full_token is after), rfl⟩

theorem unsigned_clause (lit : Literal M.classes w radix ds) (after : AfterStop t) :
    if Nat.ofDigits radix ds.reverse < 2 ^ 63 then ReadsAs M (w ++ 46 :: t) (.int (Nat.ofDigits radix ds.reverse : Nat))
    else RefusedFor M (w ++ 46 :: t) "integer out of range" := by
  have start := init_ok (M := M) (s := w ++ 46 :: t) (literal_token lit (p := 0) rfl (ended_stop after))
  have fine : (Reader.init M (w ++ 46 :: t)).failed = none := by rw [start]
  have tok : (Reader.init M (w ++ 46 :: t)).tok = intToken (Nat.ofDigits radix ds.reverse) := by rw [start]
  have some_ : (Reader.init M (w ++ 46 :: t)).tok.isEof = false := by rw [tok, intToken_isEof]
  split
  · rename_i below
    have there : (w ++ 46 :: t).drop (Reader.init M (w ++ 46 :: t)).begun.pos = 46 :: t := by
      rw [start]
      exact drop_past (p := 0) rfl
    obtain ⟨r', on, full⟩ := next_full (M := M) (r := (Reader.init M (w ++ 46 :: t)).begun) fine (by rw [start]; rfl) there after
    exact readsAs_of fine some_ (int_term (tok.trans (intToken_below below)) on full) full
  · rename_i past
    obtain ⟨wide, marked, not, -⟩ := intToken_marked (F := F) past
    exact refusedFor_of fine some_ (int_refused (tok.trans marked) not) rfl

theorem sign_start {c : UInt8} (sign : c = 43 ∨ c = 45) (lit : Literal M.classes w radix ds) (t : Bytes) :
    Reader.init M (c :: (w ++ t)) = ⟨⟨1, .name [c] false, false, 0, none, 0, []⟩, 0, 0, false, [], 0⟩ := by
  obtain ⟨d, w', rfl, digit⟩ := literal_first lit
  exact init_ok (sign_token sign (p := 0) rfl ⟨d, w' ++ t, rfl, digit⟩)

theorem minus_clause (lit : Literal M.classes w radix ds) (after : AfterStop t) :
    if Nat.ofDigits radix ds.reverse ≤ 2 ^ 63 then ReadsAs M (45 :: (w ++ 46 :: t)) (.int (-(Nat.ofDigits radix ds.reverse : Nat)))
    else RefusedFor M (45 :: (w ++ 46 :: t)) "integer out of range" := by
  have start := sign_start (M := M) (.inr rfl) lit (46 :: t)
  have fine : (Reader.init M (45 :: (w ++ 46 :: t))).failed = none := by rw [start]
  have some_ : (Reader.init M (45 :: (w ++ 46 :: t))).tok.isEof = false := by rw [start]; rfl
  have fine_ : (Reader.init M (45 :: (w ++ 46 :: t))).begun.failed = none := by rw [start]; rfl
  have none_ : (Reader.init M (45 :: (w ++ 46 :: t))).begun.ecomment = 0 := by rw [start]; rfl
  have there : List.drop (Reader.init M (45 :: (w ++ 46 :: t))).begun.pos (45 :: (w ++ 46 :: t)) = w ++ 46 :: t := by
    rw [Reader.begun, start, List.drop_one, List.tail_cons]
  have minus : (Reader.init M (45 :: (w ++ 46 :: t))).begun.tok = .name [45] false := by rw [start]; rfl
  obtain ⟨r₁, on, tok, against, fine₁, none₁, there⟩ := next_literal (M := M) (s := 45 :: (w ++ 46 :: t))
    (r := (Reader.init M (45 :: (w ++ 46 :: t))).begun) lit fine_ none_ there (ended_stop after)
  obtain ⟨r₂, on₂, full⟩ := next_full (M := M) fine₁ none₁ there after
  split
  · rename_i least
    by_cases below : Nat.ofDigits radix ds.reverse < 2 ^ 63
    · exact readsAs_of fine some_
        (minus_term minus on (tok.trans (intToken_below below)) against (Nat.zero_le 1) on₂ full) full
    · obtain ⟨wide, marked, -, one, -⟩ := intToken_marked (F := F) below
      have same : Nat.ofDigits radix ds.reverse = 2 ^ 63 := by omega
      have parsed := @minus_term _ _ _ _ _ 1200 _ (45 :: (w ++ 46 :: t)).length _ _ _ minus on (tok.trans marked) against
        (Nat.le_of_eq (one.mpr same)) on₂ full
      rw [if_pos (one.mpr same)] at parsed
      rw [same]
      exact readsAs_of fine some_ parsed full
  · rename_i past
    obtain ⟨wide, marked, -, -, two⟩ := intToken_marked (F := F) (v := Nat.ofDigits radix ds.reverse) (by omega)
    exact refusedFor_of fine some_ (minus_refused minus on (tok.trans marked) against (two.mpr (by omega))) rfl

/-- A plus is no part of the number, but an operator before it. -/
theorem plus_clause {prec : Int} {type : OpType} (op : M.opPrefix [43] = some (prec, type)) (le : prec ≤ 1200)
    (lit : Literal M.classes w radix ds) (after : AfterStop t) :
    if Nat.ofDigits radix ds.reverse < 2 ^ 63 then
      ReadsAs M (43 :: (w ++ 46 :: t)) (.app (.of [43]) [.int (Nat.ofDigits radix ds.reverse : Nat)])
    else RefusedFor M (43 :: (w ++ 46 :: t)) "integer out of range" := by
  have start := sign_start (M := M) (.inl rfl) lit (46 :: t)
  have fine : (Reader.init M (43 :: (w ++ 46 :: t))).failed = none := by rw [start]
  have some_ : (Reader.init M (43 :: (w ++ 46 :: t))).tok.isEof = false := by rw [start]; rfl
  have fine_ : (Reader.init M (43 :: (w ++ 46 :: t))).begun.failed = none := by rw [start]; rfl
  have none_ : (Reader.init M (43 :: (w ++ 46 :: t))).begun.ecomment = 0 := by rw [start]; rfl
  have there : List.drop (Reader.init M (43 :: (w ++ 46 :: t))).begun.pos (43 :: (w ++ 46 :: t)) = w ++ 46 :: t := by
    rw [Reader.begun, start, List.drop_one, List.tail_cons]
  have plus : (Reader.init M (43 :: (w ++ 46 :: t))).begun.tok = .name [43] false := by rw [start]; rfl
  obtain ⟨r₁, on, tok, -, fine₁, none₁, there⟩ := next_literal (M := M) (s := 43 :: (w ++ 46 :: t))
    (r := (Reader.init M (43 :: (w ++ 46 :: t))).begun) lit fine_ none_ there (ended_stop after)
  obtain ⟨r₂, on₂, full⟩ := next_full (M := M) fine₁ none₁ there after
  split
  · rename_i below
    have int_ := tok.trans (intToken_below below)
    have parsed := @plus_term _ _ _ _ _ 1200 _ _ _ (43 :: (w ++ 46 :: t)).length _ plus op le on int_
    rw [show (43 :: (w ++ 46 :: t)).length + 1 = (w ++ 46 :: t).length + 2 from rfl, int_term int_ on₂ full] at parsed
    exact readsAs_of fine some_ (parsed.trans (infixLoop_full full)) full
  · rename_i past
    obtain ⟨wide, marked, not, -⟩ := intToken_marked (F := F) past
    have parsed := @plus_term _ _ _ _ _ 1200 _ _ _ (43 :: (w ++ 46 :: t)).length _ plus op le on (tok.trans marked)
    rw [int_refused (tok.trans marked) not] at parsed
    exact refusedFor_of fine some_ parsed rfl

/- A text that is a number. -/

theorem asciiEnd_still {test : Int → Bool} (no : test (peek s p) = false) : asciiEnd s test p = p := by
  rw [asciiEnd]
  cases s.length - p with
  | zero => rfl
  | succ k => rw [stride, if_pos (by rw [no]; rfl)]

theorem escapedCode_literal (lit : Literal ct w radix ds) : escapedCode w = false := by
  obtain ⟨c, w', first, digit⟩ := literal_first lit
  have here : peek w 0 = (c.toNat : Int) := peek_drop (t := w') first
  have none_ := literal_code lit (p := 0) (List.append_nil w).symm ended_nil
  have solid := (@solid_alnum ct _ _ (by rw [here]; exact isDigit_alnum digit)).1
  rw [isDigit, decide_eq_true_iff] at digit
  rw [escapedCode, decide_eq_false_iff_not, asciiEnd_still solid, if_neg (by omega)]
  exact fun all => none_ ⟨all.1, all.2.1⟩

theorem escapedCode_signed {c : UInt8} (sign : c = 43 ∨ c = 45) (lit : Literal ct w radix ds) : escapedCode (c :: w) = false := by
  have none_ := literal_code lit (s := c :: w) (p := 1) (List.append_nil w).symm ended_nil
  have here : peek (c :: w) 0 = (c.toNat : Int) := peek_drop (t := w) rfl
  have still : isSpace (peek (c :: w) 0) = false := by
    rw [here]
    rcases sign with rfl | rfl <;> rfl
  have skipped : peek (c :: w) 0 = 43 ∨ peek (c :: w) 0 = 45 := by
    rw [here]
    rcases sign with rfl | rfl
    · exact .inl rfl
    · exact .inr rfl
  rw [escapedCode, decide_eq_false_iff_not, asciiEnd_still still, if_pos skipped]
  exact fun all => none_ ⟨all.1, all.2.1⟩

/-- What `coco_read_number_text` answers for an integer out of range. -/
def tooWide (strict : Nat) : NumberText F := if strict &&& 2 ≠ 0 then .wide else .no

theorem numberOf_positive (v strict : Nat) :
    numberOf M false strict (intToken v) = if v < 2 ^ 63 then .number (.int v) else tooWide strict := by
  by_cases below : v < 2 ^ 63
  · rw [intToken_below below, if_pos below]
    rfl
  · obtain ⟨wide, marked, not, -⟩ := intToken_marked (F := F) below
    rw [marked, if_neg below]
    exact if_pos (Nat.pos_of_ne_zero not)

theorem numberOf_negative (v strict : Nat) :
    numberOf M true strict (intToken v) = if v ≤ 2 ^ 63 then .number (.int (-v)) else tooWide strict := by
  by_cases below : v < 2 ^ 63
  · rw [intToken_below below, if_pos (by omega)]
    rfl
  · obtain ⟨wide, marked, -, one, two⟩ := intToken_marked (F := F) below
    rw [marked]
    by_cases same : v = 2 ^ 63
    · rw [if_pos (by omega), one.mpr same, same]
      rfl
    · rw [if_neg (by omega)]
      exact if_pos (two.mpr (by omega))

theorem intToken_match {A : Type} (v : Nat) (f : Bytes → Bool → A) (g : Token F → A) :
    (match (intToken v : Token F) with | .name text quoted => f text quoted | t => g t) = g (intToken v) := by
  by_cases below : v < 2 ^ 63
  · rw [intToken_below below]
  · obtain ⟨wide, marked, -⟩ := intToken_marked (F := F) below
    rw [marked]

theorem unsigned_text (lit : Literal M.classes w radix ds) (strict : Nat) :
    readNumberText M w strict = if Nat.ofDigits radix ds.reverse < 2 ^ 63
      then .number (.int (Nat.ofDigits radix ds.reverse : Nat)) else tooWide strict := by
  have start := init_ok (M := M) (s := w) (literal_token lit (p := 0) (List.append_nil w).symm ended_nil)
  rw [readNumberText, start, escapedCode_literal lit]
  dsimp only
  rw [if_neg (by simp), Nat.zero_add, ← numberOf_positive (M := M)]
  refine (intToken_match _ _ _).trans ?_
  rw [if_neg (not_not_intro rfl)]

theorem signed_text {c : UInt8} (sign : c = 43 ∨ c = 45) (lit : Literal M.classes w radix ds) (strict : Nat) :
    readNumberText M (c :: w) strict = numberOf M (c = 45) strict (intToken (Nat.ofDigits radix ds.reverse)) := by
  have start := sign_start (M := M) sign lit []
  rw [List.append_nil] at start
  have moved := advance_ok (M := M) (s := c :: w) (r := (Reader.init M (c :: w)).pass)
    (by rw [start]; exact literal_token lit (s := c :: w) (p := 1) (List.append_nil w).symm ended_nil)
  have whole : 1 + w.length = (c :: w).length := Nat.add_comm 1 _
  have name : cstring [c] = [c] := by
    rcases sign with rfl | rfl <;> rfl
  have either : ([c] : Bytes) = [43] ∨ ([c] : Bytes) = [45] := by
    rcases sign with rfl | rfl
    · exact .inl rfl
    · exact .inr rfl
  have minus : decide (([c] : Bytes) = [45]) = decide (c = 45) := by
    rcases sign with rfl | rfl <;> rfl
  rw [readNumberText, moved, escapedCode_signed sign lit, start]
  dsimp only [Reader.pass, Scanner.pass]
  rw [if_neg (by simp), name, if_pos either, if_neg (by simp [whole]), minus]

/-- An integer literal of any length is read exactly, or refused by every way to read it: as a
token, in a clause and as a number's text. A minus against it is its sign to both readers; a
plus is to `coco_read_number_text` alone. -/
theorem literals_exact (M : Machine F) (lit : Literal M.classes w radix ds) :
    let v := Nat.ofDigits radix ds.reverse
    (∀ s p t, s.drop p = w ++ t → Ended t → nextToken M.doubles M.classes s M.textChars p 0
      = ⟨false, p, .ok (intToken v, p + w.length), 0⟩) ∧
    (∀ t, AfterStop t →
      (if v < 2 ^ 63 then ReadsAs M (w ++ 46 :: t) (.int v) else RefusedFor M (w ++ 46 :: t) "integer out of range") ∧
      (if v ≤ 2 ^ 63 then ReadsAs M (45 :: (w ++ 46 :: t)) (.int (-v))
        else RefusedFor M (45 :: (w ++ 46 :: t)) "integer out of range") ∧
      ∀ prec type, M.opPrefix [43] = some (prec, type) → prec ≤ 1200 →
        if v < 2 ^ 63 then ReadsAs M (43 :: (w ++ 46 :: t)) (.app (.of [43]) [.int v])
        else RefusedFor M (43 :: (w ++ 46 :: t)) "integer out of range") ∧
    (∀ strict,
      readNumberText M w strict = (if v < 2 ^ 63 then .number (.int v) else tooWide strict) ∧
      readNumberText M (45 :: w) strict = (if v ≤ 2 ^ 63 then .number (.int (-v)) else tooWide strict) ∧
      readNumberText M (43 :: w) strict = (if v < 2 ^ 63 then .number (.int v) else tooWide strict)) := by
  refine ⟨fun s p t is ended => literal_token lit is ended, fun t after => ?_, fun strict => ?_⟩
  · exact ⟨unsigned_clause lit after, minus_clause lit after, fun prec type op le => plus_clause op le lit after⟩
  · refine ⟨unsigned_text lit strict, ?_, ?_⟩
    · rw [signed_text (.inr rfl) lit]
      exact numberOf_negative _ _
    · rw [signed_text (.inl rfl) lit]
      exact numberOf_positive _ _

/-- `1_000` is 1000. -/
theorem literals_exact_grouped : ReadsAs plainMachine (ascii "1_000.") (.int (1000 : Nat)) := by
  have lit : Literal plainMachine.classes (ascii "1_000") 10 [1, 0, 0, 0] :=
    .decimal (.more (c := 49) rfl (.underscore .empty) (.more (c := 48) rfl .tight (.more (c := 48) rfl .tight (.last (c := 48) rfl))))
  have whole := ((literals_exact plainMachine lit).2.1 [] (fun _ mem => (Option.not_mem_none _ mem).elim)).1
  rw [if_pos (by decide)] at whole
  exact whole

theorem readsAs_unique {t t' : Term F} (one : ReadsAs M s t) (other : ReadsAs M s t') : t = t' := by
  obtain ⟨r, is⟩ := one
  obtain ⟨r', is'⟩ := other
  rw [is] at is'
  injection is' with same
  injection (Prod.mk.inj same).1

/-- `+1` is the number 1 to `coco_read_number_text`, and no number to the clause reader. -/
theorem plus_apart : readNumberText plainMachine (ascii "+1") 0 = .number (.int (1 : Nat)) ∧
    ¬ReadsAs plainMachine (ascii "+1.") (.int (1 : Nat)) := by
  have lit : Literal plainMachine.classes [49] 10 [1] := .decimal (.last rfl)
  have text := (signed_text (M := plainMachine) (.inl rfl) lit 0).trans (numberOf_positive _ _)
  have clause := @plus_clause _ [] _ plainMachine _ _ 200 .fy (by decide) (by decide) lit
    (fun _ mem => (Option.not_mem_none _ mem).elim)
  rw [if_pos (by decide)] at text clause
  refine ⟨text, fun number => ?_⟩
  have same := readsAs_unique clause number
  cases same

end readers

end Cocolog.Syntax
