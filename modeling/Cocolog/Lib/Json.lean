import Mathlib.Data.List.Basic
import Mathlib.Data.Nat.Digits.Lemmas

/-! The grammar of RFC 8259 over character codes, together with what a reader makes of each
production. A reader that takes every string and every number is the grammar itself. -/

set_option linter.all false

namespace Cocolog.Lib.Json

abbrev Text := List Nat

/-- `ws`, one of its four characters. -/
def Blank (c : Nat) : Prop := c = 32 ∨ c = 9 ∨ c = 10 ∨ c = 13

instance : DecidablePred Blank := fun _ => inferInstanceAs (Decidable (_ ∨ _))

def Digit (c : Nat) : Prop := 48 ≤ c ∧ c ≤ 57

instance : DecidablePred Digit := fun _ => inferInstanceAs (Decidable (_ ∧ _))

/-- `ws`: from a text to what is left of it. -/
inductive Blanks : Text → Text → Prop where
  | done (w : Text) : Blanks w w
  | more {c : Nat} {w w' : Text} (blank : Blank c) (rest : Blanks w w') : Blanks (c :: w) w'

/-- The text does not go on with white space. -/
def Unblank (w : Text) : Prop := ∀ c ∈ w.head?, ¬Blank c

theorem blanks_dropWhile (w : Text) : Blanks w (w.dropWhile Blank) := by
  induction w with
  | nil => exact .done []
  | cons c w ih =>
    rw [List.dropWhile_cons]
    by_cases blank : Blank c
    · simpa [blank] using Blanks.more blank ih
    · simpa [blank] using Blanks.done (c :: w)

theorem unblank_dropWhile (w : Text) : Unblank (w.dropWhile Blank) := by
  intro c head
  have := List.head?_dropWhile_not (fun c => decide (Blank c)) w
  rw [Option.mem_def.mp head] at this
  simpa using this

theorem Blanks.dropWhile {w w' : Text} (blanks : Blanks w w') :
    w.dropWhile Blank = w'.dropWhile Blank := by
  induction blanks with
  | done w => rfl
  | more blank _ ih => simpa [List.dropWhile_cons, blank] using ih

theorem Blanks.dropWhile_eq {w w' : Text} (blanks : Blanks w w') (stop : Unblank w') :
    w.dropWhile Blank = w' := by
  rw [blanks.dropWhile]
  cases w' with
  | nil => rfl
  | cons c w' => simp [stop c rfl]

theorem Blanks.suffix {w w' : Text} (blanks : Blanks w w') : w' <:+ w := by
  induction blanks with
  | done w => exact List.suffix_refl w
  | more _ _ ih => exact ih.trans (List.suffix_cons _ _)

def Digits (w : Text) : Prop := ∀ c ∈ w, Digit c

def IsMinus (w : Text) : Prop := w = [] ∨ w = [45]

/-- `int`: a zero, or digits that begin with another one. -/
def IsWhole (w : Text) : Prop := w = [48] ∨ ∃ d ds, w = d :: ds ∧ 49 ≤ d ∧ d ≤ 57 ∧ Digits ds

/-- `[ frac ]`. -/
def IsFrac (w : Text) : Prop := w = [] ∨ ∃ d ds, w = 46 :: d :: ds ∧ Digit d ∧ Digits ds

/-- `[ exp ]`. -/
def IsExp (w : Text) : Prop :=
  w = [] ∨ ∃ e sign d ds, w = e :: (sign ++ d :: ds) ∧ (e = 101 ∨ e = 69) ∧
    (sign = [] ∨ sign = [43] ∨ sign = [45]) ∧ Digit d ∧ Digits ds

/-- `number`: `[ minus ] int [ frac ] [ exp ]`. -/
structure Numeral where
  minus : Text
  whole : Text
  frac : Text
  exp : Text
  minus_eq : IsMinus minus
  whole_eq : IsWhole whole
  frac_eq : IsFrac frac
  exp_eq : IsExp exp

def Numeral.text (n : Numeral) : Text := n.minus ++ (n.whole ++ (n.frac ++ n.exp))

/-- The number that digits stand for. -/
def natOf (ds : Text) : Nat := Nat.ofDigits 10 (ds.map (· - 48)).reverse

/-- What an integral numeral stands for. -/
def Numeral.int (n : Numeral) : Int := if n.minus = [] then natOf n.whole else -(natOf n.whole : Int)

/-- Written without a fraction and without an exponent. -/
def Numeral.Integral (n : Numeral) : Prop := n.frac = [] ∧ n.exp = []

instance (n : Numeral) : Decidable n.Integral := inferInstanceAs (Decidable (_ ∧ _))

/-- The text goes on with no digit. -/
def Undigited (w : Text) : Prop := ∀ c ∈ w.head?, ¬Digit c

theorem takeWhile_digits {ds w : Text} (digits : Digits ds) (stop : Undigited w) :
    (ds ++ w).takeWhile Digit = ds := by
  rw [List.takeWhile_append_of_pos (fun c mem => decide_eq_true (digits c mem))]
  cases w with
  | nil => simp
  | cons c w => simp [stop c rfl]

theorem dropWhile_digits {ds w : Text} (digits : Digits ds) (stop : Undigited w) :
    (ds ++ w).dropWhile Digit = w := by
  rw [List.dropWhile_append_of_pos (fun c mem => decide_eq_true (digits c mem))]
  cases w with
  | nil => rfl
  | cons c w => simp [stop c rfl]

theorem Digits.cons {d : Nat} {ds : Text} (digit : Digit d) (digits : Digits ds) :
    Digits (d :: ds) := by
  intro c mem
  rcases List.mem_cons.mp mem with rfl | mem
  · exact digit
  · exact digits c mem

theorem IsWhole.digits {whole : Text} (h : IsWhole whole) : whole ≠ [] ∧ Digits whole := by
  rcases h with is | ⟨d, ds, is, low, high, digits⟩
  · rw [is]
    exact ⟨by simp, fun c mem => by rw [List.mem_singleton.mp mem]; decide⟩
  · rw [is]
    exact ⟨by simp, Digits.cons ⟨by omega, high⟩ digits⟩

theorem IsExp.head {exp w : Text} (h : IsExp exp) (stop : Undigited w) : Undigited (exp ++ w) := by
  rcases h with is | ⟨e, sign, d, ds, is, letter, _⟩
  · rwa [is]
  · rw [is]
    intro c head
    rcases letter with rfl | rfl <;> simp_all [Digit] <;> omega

theorem IsFrac.head {frac w : Text} (h : IsFrac frac) (stop : Undigited w) :
    Undigited (frac ++ w) := by
  rcases h with is | ⟨d, ds, is, _⟩
  · rwa [is]
  · rw [is]
    intro c head
    simp_all [Digit]
    omega

theorem undigited_nil : Undigited [] := fun _ head => by simp at head

/-- A character of a string: as it stands, as an escape names it, or half of one. -/
inductive Mark where
  | plain (c : Nat)
  | escaped (c : Nat)
  | half (u : Nat)
deriving DecidableEq

/-- The character after the backslash of a short escape, and the one it stands for. -/
def named : Nat → Option Nat
  | 34 => some 34
  | 92 => some 92
  | 47 => some 47
  | 98 => some 8
  | 102 => some 12
  | 110 => some 10
  | 114 => some 13
  | 116 => some 9
  | _ => none

def hexDigit (c : Nat) : Option Nat :=
  if 48 ≤ c ∧ c ≤ 57 then some (c - 48)
  else if 97 ≤ c ∧ c ≤ 102 then some (c - 97 + 10)
  else if 65 ≤ c ∧ c ≤ 70 then some (c - 65 + 10)
  else none

/-- `4HEXDIG`. -/
def hex4 (a b c d : Nat) : Option Nat := do
  let p ← hexDigit a
  let q ← hexDigit b
  let r ← hexDigit c
  let s ← hexDigit d
  return ((p * 16 + q) * 16 + r) * 16 + s

def High (u : Nat) : Prop := 0xD800 ≤ u ∧ u ≤ 0xDBFF

def Low (u : Nat) : Prop := 0xDC00 ≤ u ∧ u ≤ 0xDFFF

instance : DecidablePred High := fun _ => inferInstanceAs (Decidable (_ ∧ _))

instance : DecidablePred Low := fun _ => inferInstanceAs (Decidable (_ ∧ _))

/-- The character a pair of surrogates names. -/
def paired (high low : Nat) : Nat := 0x10000 + (high - 0xD800) * 1024 + (low - 0xDC00)

/-- What follows a backslash. -/
inductive Escape : Text → Mark → Text → Prop where
  | named {e c : Nat} (w : Text) (is : named e = some c) : Escape (e :: w) (.escaped c) w
  | unit {a b c d u : Nat} (w : Text) (hex : hex4 a b c d = some u) (high : ¬High u)
      (low : ¬Low u) : Escape (117 :: a :: b :: c :: d :: w) (.escaped u) w
  | pair {a b c d u a' b' c' d' u' : Nat} (w : Text) (hex : hex4 a b c d = some u)
      (high : High u) (hex' : hex4 a' b' c' d' = some u') (low : Low u') :
      Escape (117 :: a :: b :: c :: d :: 92 :: 117 :: a' :: b' :: c' :: d' :: w)
        (.escaped (paired u u')) w
  | half {a b c d u : Nat} (w : Text) (hex : hex4 a b c d = some u) (is : High u ∨ Low u) :
      Escape (117 :: a :: b :: c :: d :: w) (.half u) w

/-- `*char quotation-mark`: a string behind its opening quote, and what is left after it. -/
inductive Chars : Text → List Mark → Text → Prop where
  | close (w : Text) : Chars (34 :: w) [] w
  | plain {c : Nat} {w w' : Text} {l : List Mark} (le : 32 ≤ c) (ge : c ≤ 0x10FFFF)
      (quote : c ≠ 34) (slash : c ≠ 92) (more : Chars w l w') : Chars (c :: w) (.plain c :: l) w'
  | escape {w w₁ w' : Text} {m : Mark} {l : List Mark} (escape : Escape w m w₁)
      (more : Chars w₁ l w') : Chars (92 :: w) (m :: l) w'

theorem Escape.suffix {w w' : Text} {m : Mark} (escape : Escape w m w') : w' <:+ w := by
  cases escape with
  | named => exact List.suffix_cons _ _
  | unit => exact ⟨[_, _, _, _, _], rfl⟩
  | pair => exact ⟨[_, _, _, _, _, _, _, _, _, _, _], rfl⟩
  | half => exact ⟨[_, _, _, _, _], rfl⟩

theorem Chars.suffix {w w' : Text} {l : List Mark} (chars : Chars w l w') :
    w' <:+ w ∧ w'.length < w.length := by
  induction chars with
  | close w => exact ⟨List.suffix_cons _ _, by simp⟩
  | plain _ _ _ _ _ ih => exact ⟨ih.1.trans (List.suffix_cons _ _), by simp; omega⟩
  | escape escape _ ih =>
    have := escape.suffix.length_le
    exact ⟨(ih.1.trans escape.suffix).trans (List.suffix_cons _ _), by simp; omega⟩

inductive Literal where
  | false
  | null
  | true
deriving DecidableEq

def Literal.text : Literal → Text
  | .false => [102, 97, 108, 115, 101]
  | .null => [110, 117, 108, 108]
  | .true => [116, 114, 117, 101]

/-- What a reader makes of a document: none where it takes a string or a number for no value
of its own. -/
structure Reading (K T : Type) where
  literal : Literal → T
  number : Numeral → Option T
  key : List Mark → Option K
  string : List Mark → Option T
  array : List T → T
  object : List (K × T) → T

/-- The grammar alone. -/
def syntaxOnly : Reading Unit Unit :=
  { literal := fun _ => (), number := fun _ => some (), key := fun _ => some (),
    string := fun _ => some (), array := fun _ => (), object := fun _ => () }

inductive Part (K T : Type) where
  | value (t : T)
  | elements (ts : List T)
  | members (ms : List (K × T))

variable {K T : Type}

/-- `string name-separator` with the white space around them. -/
inductive Key (r : Reading K T) : K → Text → Text → Prop where
  | mk {k : K} {l : List Mark} {w w₁ w₂ w₃ w₄ : Text} (before : Blanks w (34 :: w₁))
      (chars : Chars w₁ l w₂) (reads : r.key l = some k) (colon : Blanks w₂ (58 :: w₃))
      (after : Blanks w₃ w₄) : Key r k w w₄

/-- `value`, and what stands between the brackets of an array and the braces of an object:
from a text to what is left of it. -/
inductive Derives (r : Reading K T) : Part K T → Text → Text → Prop where
  | literal (l : Literal) (w : Text) : Derives r (.value (r.literal l)) (l.text ++ w) w
  | number {n : Numeral} {t : T} (w : Text) (reads : r.number n = some t) :
      Derives r (.value t) (n.text ++ w) w
  | string {w w' : Text} {l : List Mark} {t : T} (chars : Chars w l w')
      (reads : r.string l = some t) : Derives r (.value t) (34 :: w) w'
  | noElements {w w' : Text} (blanks : Blanks w (93 :: w')) :
      Derives r (.value (r.array [])) (91 :: w) w'
  | array {ts : List T} {w w' : Text} (elements : Derives r (.elements ts) w (93 :: w')) :
      Derives r (.value (r.array ts)) (91 :: w) w'
  | noMembers {w w' : Text} (blanks : Blanks w (125 :: w')) :
      Derives r (.value (r.object [])) (123 :: w) w'
  | object {ms : List (K × T)} {w w' : Text} (members : Derives r (.members ms) w (125 :: w')) :
      Derives r (.value (r.object ms)) (123 :: w) w'
  | lastElement {t : T} {w w₁ w₂ w₃ : Text} (before : Blanks w w₁)
      (value : Derives r (.value t) w₁ w₂) (after : Blanks w₂ w₃) : Derives r (.elements [t]) w w₃
  | element {t : T} {ts : List T} {w w₁ w₂ w₃ w₄ : Text} (before : Blanks w w₁)
      (value : Derives r (.value t) w₁ w₂) (after : Blanks w₂ (44 :: w₃))
      (more : Derives r (.elements ts) w₃ w₄) : Derives r (.elements (t :: ts)) w w₄
  | lastMember {k : K} {t : T} {w w₁ w₂ w₃ : Text} (key : Key r k w w₁)
      (value : Derives r (.value t) w₁ w₂) (after : Blanks w₂ w₃) :
      Derives r (.members [(k, t)]) w w₃
  | member {k : K} {t : T} {ms : List (K × T)} {w w₁ w₂ w₃ w₄ : Text} (key : Key r k w w₁)
      (value : Derives r (.value t) w₁ w₂) (after : Blanks w₂ (44 :: w₃))
      (more : Derives r (.members ms) w₃ w₄) : Derives r (.members ((k, t) :: ms)) w w₄

/-- `JSON-text = ws value ws`. -/
def Document (r : Reading K T) (w : Text) (t : T) : Prop :=
  ∃ w₁ w₂, Blanks w w₁ ∧ Derives r (.value t) w₁ w₂ ∧ Blanks w₂ []

def Part.forget : Part K T → Part Unit Unit
  | .value _ => .value ()
  | .elements ts => .elements (ts.map fun _ => ())
  | .members ms => .members (ms.map fun _ => ((), ()))

theorem Key.forget {r : Reading K T} {k : K} {w w' : Text} (h : Key r k w w') :
    Key syntaxOnly () w w' := by
  obtain ⟨before, chars, _, colon, after⟩ := h
  exact ⟨before, chars, rfl, colon, after⟩

/-- What any reader reads is a text of the grammar. -/
theorem Derives.forget {r : Reading K T} {p : Part K T} {w w' : Text} (h : Derives r p w w') :
    Derives syntaxOnly p.forget w w' := by
  induction h with
  | literal l w => exact .literal l w
  | number w _ => exact .number w rfl
  | string chars _ => exact .string chars rfl
  | noElements blanks => exact .noElements blanks
  | array _ ih => exact .array ih
  | noMembers blanks => exact .noMembers blanks
  | object _ ih => exact .object ih
  | lastElement before _ after ih => exact .lastElement before ih after
  | element before _ after _ ih more => exact .element before ih after more
  | lastMember key _ after ih => exact .lastMember key.forget ih after
  | member key _ after _ ih more => exact .member key.forget ih after more

theorem Document.forget {r : Reading K T} {w : Text} {t : T} (h : Document r w t) :
    Document syntaxOnly w () := by
  obtain ⟨w₁, w₂, before, value, after⟩ := h
  exact ⟨w₁, w₂, before, value.forget, after⟩

/-! ## What a value begins with, and how much of a text it is -/

theorem Numeral.begins (n : Numeral) (w : Text) :
    ∃ c w', n.text ++ w = c :: w' ∧ (c = 45 ∨ Digit c) := by
  rcases n.minus_eq with is | is
  · obtain ⟨present, digits⟩ := n.whole_eq.digits
    obtain ⟨c, whole, eq⟩ := List.exists_cons_of_ne_nil present
    exact ⟨c, whole ++ (n.frac ++ (n.exp ++ w)), by simp [Numeral.text, is, eq],
      .inr (digits c (by rw [eq]; exact List.mem_cons_self))⟩
  · exact ⟨45, n.whole ++ (n.frac ++ (n.exp ++ w)), by simp [Numeral.text, is], .inl rfl⟩

/-- A code that may begin a value. -/
def Begins (c : Nat) : Prop :=
  c = 45 ∨ Digit c ∨ c = 34 ∨ c = 91 ∨ c = 123 ∨ c = 116 ∨ c = 102 ∨ c = 110

theorem Begins.not_blank {c : Nat} (begins : Begins c) : ¬Blank c := by
  unfold Begins Digit at begins
  unfold Blank
  omega

theorem Derives.begins {r : Reading K T} {t : T} {w w' : Text} (h : Derives r (.value t) w w') :
    ∃ c w₁, w = c :: w₁ ∧ Begins c := by
  generalize is : Part.value t = p at h
  cases h with
  | literal l w => cases l <;> exact ⟨_, _, rfl, by simp [Begins]⟩
  | @number n _ =>
    obtain ⟨c, w', eq, sort⟩ := n.begins w'
    exact ⟨c, w', eq, by unfold Begins; tauto⟩
  | string => exact ⟨34, _, rfl, by simp [Begins]⟩
  | noElements | array => exact ⟨91, _, rfl, by simp [Begins]⟩
  | noMembers | object => exact ⟨123, _, rfl, by simp [Begins]⟩
  | lastElement | element | lastMember | member => cases is

theorem unblank_of_begins {w : Text} (h : ∃ c w₁, w = c :: w₁ ∧ Begins c) : Unblank w := by
  obtain ⟨c, w₁, rfl, begins⟩ := h
  intro d head
  cases head
  exact begins.not_blank

theorem Key.suffix {r : Reading K T} {k : K} {w w' : Text} (key : Key r k w w') :
    w' <:+ w ∧ w'.length < w.length := by
  obtain ⟨before, chars, _, colon, after⟩ := key
  have h := ((after.suffix.trans (List.suffix_cons _ _)).trans colon.suffix).trans chars.suffix.1
  have := chars.suffix.2
  have := after.suffix.length_le
  have := colon.suffix.length_le
  have := before.suffix.length_le
  refine ⟨(h.trans (List.suffix_cons _ _)).trans before.suffix, ?_⟩
  simp only [List.length_cons] at *
  omega

theorem Derives.suffix {r : Reading K T} {p : Part K T} {w w' : Text} (h : Derives r p w w') : w' <:+ w ∧ w'.length < w.length := by
  induction h with
  | literal l w => cases l <;> exact ⟨List.suffix_append _ w, by simp [Literal.text]; omega⟩
  | @number n t w reads =>
    obtain ⟨c, w', eq, _⟩ := n.begins []
    simp only [List.append_nil] at eq
    exact ⟨List.suffix_append _ _, by simp [eq]⟩
  | string chars _ =>
    have := chars.suffix
    exact ⟨this.1.trans (List.suffix_cons _ _), by simp; omega⟩
  | noElements blanks | noMembers blanks =>
    have := blanks.suffix.length_le
    exact ⟨((List.suffix_cons _ _).trans blanks.suffix).trans (List.suffix_cons _ _), by simp at *; omega⟩
  | array _ ih | object _ ih =>
    exact ⟨((List.suffix_cons _ _).trans ih.1).trans (List.suffix_cons _ _), by simp at *; omega⟩
  | lastElement before _ after ih =>
    have := before.suffix.length_le
    have := after.suffix.length_le
    exact ⟨(after.suffix.trans ih.1).trans before.suffix, by omega⟩
  | element before _ after _ ih more =>
    have := before.suffix.length_le
    have := after.suffix.length_le
    exact ⟨(((more.1.trans (List.suffix_cons _ _)).trans after.suffix).trans ih.1).trans before.suffix,
      by simp at *; omega⟩
  | lastMember key _ after ih =>
    have := key.suffix
    have := after.suffix.length_le
    exact ⟨(after.suffix.trans ih.1).trans key.suffix.1, by omega⟩
  | member key _ after _ ih more =>
    have := key.suffix
    have := after.suffix.length_le
    exact ⟨(((more.1.trans (List.suffix_cons _ _)).trans after.suffix).trans ih.1).trans key.suffix.1,
      by simp at *; omega⟩

/-! ## The codes of a text -/

/-- Codes that a list of codes may hold. -/
def Coded (w : Text) : Prop := ∀ c ∈ w, c ≤ 0x10FFFF

theorem Coded.tail {c : Nat} {w : Text} (coded : Coded (c :: w)) : Coded w :=
  fun d mem => coded d (List.mem_cons_of_mem c mem)

theorem Coded.head {c : Nat} {w : Text} (coded : Coded (c :: w)) : c ≤ 0x10FFFF :=
  coded c List.mem_cons_self

theorem Coded.suffix {w w' : Text} (coded : Coded w) (is : w' <:+ w) : Coded w' :=
  fun c mem => coded c (is.mem mem)

theorem coded_cons {c : Nat} {w : Text} (le : c ≤ 0x10FFFF) (coded : Coded w) : Coded (c :: w) := by
  intro d mem
  rcases List.mem_cons.mp mem with rfl | mem
  · exact le
  · exact coded d mem

theorem Blanks.coded {w w' : Text} (blanks : Blanks w w') (coded : Coded w') : Coded w := by
  induction blanks with
  | done w => exact coded
  | more blank _ ih =>
    unfold Blank at blank
    exact coded_cons (by omega) (ih coded)

theorem hexDigit_le {c p : Nat} (is : hexDigit c = some p) : c ≤ 0x10FFFF := by
  unfold hexDigit at is
  split_ifs at is <;> omega

theorem hex4_coded {a b c d u : Nat} {w : Text} (is : hex4 a b c d = some u) (coded : Coded w) :
    Coded (a :: b :: c :: d :: w) := by
  simp only [hex4, Option.bind_eq_bind, Option.bind_eq_some_iff] at is
  obtain ⟨p, ha, q, hb, r, hc, s, hd, _⟩ := is
  exact coded_cons (hexDigit_le ha) <| coded_cons (hexDigit_le hb) <| coded_cons (hexDigit_le hc) <|
    coded_cons (hexDigit_le hd) coded

theorem Escape.coded {w w' : Text} {m : Mark} (escape : Escape w m w') (coded : Coded w') : Coded w := by
  cases escape with
  | named w is =>
    unfold Json.named at is
    split at is <;> first | exact coded_cons (by omega) coded | cases is
  | unit w hex | half w hex => exact coded_cons (by omega) (hex4_coded hex coded)
  | pair w hex _ hex' _ =>
    exact coded_cons (by omega) <| hex4_coded hex <| coded_cons (by omega) <| coded_cons (by omega) <|
      hex4_coded hex' coded

theorem Chars.coded {w w' : Text} {l : List Mark} (chars : Chars w l w') (coded : Coded w') :
    Coded w := by
  induction chars with
  | close w => exact coded_cons (by omega) coded
  | plain _ ge _ _ _ ih => exact coded_cons ge (ih coded)
  | escape escape _ ih => exact coded_cons (by omega) (escape.coded (ih coded))

theorem Numeral.coded (n : Numeral) {w : Text} (coded : Coded w) : Coded (n.text ++ w) := by
  have digits {ds : Text} (h : Digits ds) : Coded ds := fun c mem => by
    have := (h c mem).2
    omega
  have join {a b : Text} (ha : Coded a) (hb : Coded b) : Coded (a ++ b) := fun c mem =>
    (List.mem_append.mp mem).elim (ha c) (hb c)
  have none : Coded [] := fun c mem => absurd mem List.not_mem_nil
  refine join (join ?_ (join (digits n.whole_eq.digits.2) (join ?_ ?_))) coded
  · rcases n.minus_eq with is | is <;> rw [is]
    · exact none
    · exact coded_cons (by omega) none
  · rcases n.frac_eq with is | ⟨d, ds, is, digit, rest⟩ <;> rw [is]
    · exact none
    · exact coded_cons (by omega) (digits (Digits.cons digit rest))
  · rcases n.exp_eq with is | ⟨e, sign, d, ds, is, letter, signs, digit, rest⟩ <;> rw [is]
    · exact none
    · refine coded_cons (by omega) (join ?_ (digits (Digits.cons digit rest)))
      rcases signs with rfl | rfl | rfl
      · exact none
      · exact coded_cons (by omega) none
      · exact coded_cons (by omega) none

theorem Key.coded {r : Reading K T} {k : K} {w w' : Text} (key : Key r k w w') (coded : Coded w') :
    Coded w := by
  obtain ⟨before, chars, _, colon, after⟩ := key
  exact before.coded <| coded_cons (by omega) <| chars.coded <| colon.coded <|
    coded_cons (by omega) (after.coded coded)

/-- A text of the grammar is a list of codes. -/
theorem Derives.coded {r : Reading K T} {p : Part K T} {w w' : Text} (h : Derives r p w w')
    (coded : Coded w') : Coded w := by
  induction h with
  | literal l w =>
    cases l
    · exact coded_cons (by omega) <| coded_cons (by omega) <| coded_cons (by omega) <|
        coded_cons (by omega) <| coded_cons (by omega) coded
    all_goals exact coded_cons (by omega) <| coded_cons (by omega) <| coded_cons (by omega) <|
      coded_cons (by omega) coded
  | @number n _ w _ => exact n.coded coded
  | string chars _ => exact coded_cons (by omega) (chars.coded coded)
  | noElements blanks | noMembers blanks =>
    exact coded_cons (by omega) (blanks.coded (coded_cons (by omega) coded))
  | array _ ih | object _ ih => exact coded_cons (by omega) (ih (coded_cons (by omega) coded))
  | lastElement before _ after ih => exact before.coded (ih (after.coded coded))
  | element before _ after _ ih more =>
    exact before.coded (ih (after.coded (coded_cons (by omega) (more coded))))
  | lastMember key _ after ih => exact key.coded (ih (after.coded coded))
  | member key _ after _ ih more =>
    exact key.coded (ih (after.coded (coded_cons (by omega) (more coded))))

end Cocolog.Lib.Json
