import Cocolog.Json.Accepts

/-! Whole documents: `json_parse` reads every text of the grammar whose strings hold no NUL
and whose numbers the machine can hold, raises a syntax error for any other text, and fails on
one kind of them, where the first thing that it cannot read is a number past the largest
double. -/

set_option linter.all false

namespace Cocolog.Json
open Lib Lib.Json Text

variable {F α β : Type} {C : Bool} {D : Doubles F}

/-- `atom_codes/2` of a string that holds no NUL and no half of a character. -/
def atomName (C : Bool) (l : List Mark) : Option Bytes :=
  (stringCodes C l).bind fun cs =>
    match textOf C cs with
    | .ok b => some (b.takeWhile (· ≠ 0))
    | .error _ => none

/-- What `json_parse` makes of a document of the grammar. -/
def reading (C : Bool) (D : Doubles F) : Reading Bytes (Term F) :=
  { literal := literal, number := fun n => (numberValue D n).map .num, key := atomName C,
    string := fun l => (atomName C l).map .atom, array := .list, object := .object }

inductive Kind where
  | value
  | elements
  | members

/-- The text is a text of the grammar up to a number with a fraction or an exponent that is
past the largest double. -/
inductive Overflows (C : Bool) (D : Doubles F) : Kind → Text → Prop where
  | number {n : Numeral} {rest : Text} (float : ¬n.Integral)
      (huge : D.huge (D.strtod (n.whole ++ (n.frac ++ n.exp)))) (ends : Ends n rest) :
      Overflows C D .value (n.text ++ rest)
  | array {w : Text} (inside : Overflows C D .elements w) : Overflows C D .value (91 :: w)
  | object {w : Text} (inside : Overflows C D .members w) : Overflows C D .value (123 :: w)
  | element {w w₁ : Text} (before : Blanks w w₁) (inside : Overflows C D .value w₁) :
      Overflows C D .elements w
  | laterElement {t : Term F} {w w₁ w₂ w₃ : Text} (before : Blanks w w₁)
      (value : Derives (reading C D) (.value t) w₁ w₂) (after : Blanks w₂ (44 :: w₃))
      (inside : Overflows C D .elements w₃) : Overflows C D .elements w
  | member {k : Bytes} {w w₁ : Text} (key : Key (reading C D) k w w₁)
      (inside : Overflows C D .value w₁) : Overflows C D .members w
  | laterMember {k : Bytes} {t : Term F} {w w₁ w₂ w₃ : Text} (key : Key (reading C D) k w w₁)
      (value : Derives (reading C D) (.value t) w₁ w₂) (after : Blanks w₂ (44 :: w₃))
      (inside : Overflows C D .members w₃) : Overflows C D .members w

/-! ## What a value begins with and where it ends -/

theorem overflow_begins {w : Text} (h : Overflows C D .value w) : ∃ c w₁, w = c :: w₁ ∧ Begins c := by
  cases h with
  | @number n rest =>
    obtain ⟨c, w', eq, sort⟩ := n.begins rest
    exact ⟨c, w', eq, by unfold Begins; tauto⟩
  | array => exact ⟨91, _, rfl, by simp [Begins]⟩
  | object => exact ⟨123, _, rfl, by simp [Begins]⟩

/-- What is left after a value, in front of white space and a comma or a closing bracket. -/
theorem loose_of_blanks {w w' : Text} {c : Nat} (blanks : Blanks w (c :: w'))
    (closing : c = 44 ∨ c = 93 ∨ c = 125) : Loose w := by
  generalize is : c :: w' = v at blanks
  intro d head
  cases blanks with
  | done w =>
    subst is
    cases head
    unfold Digit
    omega
  | more blank _ =>
    cases head
    unfold Blank at blank
    unfold Digit
    omega

theorem loose_of_blanks_nil {w : Text} (blanks : Blanks w []) : Loose w := by
  intro d head
  cases blanks with
  | done => simp at head
  | more blank _ =>
    cases head
    unfold Blank at blank
    unfold Digit
    omega

/-! ## The loops of arrays and objects -/

/-- An element with what follows it. -/
def itemsFrom (C : Bool) (D : Doubles F) (n m : Nat) (w : Text) :
    Answers (Ball F) (List (Term F) × Text) := do
  let w ← jsonWs w
  let (i, w) ← jsonInput C D n w
  let w ← jsonWs w
  let (is, w) ← jsonItemsMore C (jsonInput C D n) m w
  return (i :: is, w)

/-- A key with its colon. -/
def keyFrom (C : Bool) (n : Nat) (w : Text) : Answers (Ball F) (Bytes × Text) := do
  let w ← jsonWs w
  let (key, w) ← jsonKeyIn C n w
  let w ← jsonWs w
  let w ← jsonColon C w
  let w ← jsonWs w
  return (key, w)

/-- A member with what follows it. -/
def membersFrom (C : Bool) (D : Doubles F) (n m : Nat) (w : Text) :
    Answers (Ball F) (List (Bytes × Term F) × Text) := do
  let (key, w) ← keyFrom C m w
  let (value, w) ← jsonInput C D n w
  let w ← jsonWs w
  let (ps, w) ← jsonMembersMore C (jsonInput C D n) m w
  return ((key, value) :: ps, w)

theorem jsonItemsMore_comma (n m : Nat) (w : Text) :
    jsonItemsMore C (jsonInput C D n) (m + 1) (44 :: w) = itemsFrom C D n m w := by
  simp [jsonItemsMore, terminal_cons, itemsFrom]

theorem memberIn_eq (n m : Nat) (w : Text) :
    (do
      let w ← jsonWs w
      let (p, w) ← jsonMemberIn C (jsonInput C D n) m w
      let w ← jsonWs w
      let (ps, w) ← jsonMembersMore C (jsonInput C D n) m w
      return (p :: ps, w)) = membersFrom C D n m w := by
  simp only [membersFrom, keyFrom, jsonMemberIn, Answers.bind_assoc, Answers.pure_eq, Answers.one_bind]

theorem jsonMembersMore_comma (n m : Nat) (w : Text) :
    jsonMembersMore C (jsonInput C D n) (m + 1) (44 :: w) = membersFrom C D n m w := by
  rw [← memberIn_eq]
  simp [jsonMembersMore, terminal_cons]

/-! ## Strings and keys as atoms -/

theorem hexDigit_lt {c p : Nat} (is : hexDigit c = some p) : p < 16 := by
  unfold hexDigit at is
  split_ifs at is <;> cases is <;> omega

theorem hex4_lt {a b c d u : Nat} (is : hex4 a b c d = some u) : u < 65536 := by
  simp only [hex4, Option.bind_eq_bind, Option.bind_eq_some_iff, Option.pure_def,
    Option.some.injEq] at is
  obtain ⟨p, ha, q, hb, r, hc, s, hd, rfl⟩ := is
  have := hexDigit_lt ha
  have := hexDigit_lt hb
  have := hexDigit_lt hc
  have := hexDigit_lt hd
  omega

theorem escaped_le {w w' : Text} {m : Mark} (escape : Escape w m w') {c : Nat}
    (is : m = .escaped c) : c ≤ 0x10FFFF := by
  cases escape with
  | @named e d w letter =>
    rw [← Mark.escaped.inj is]
    unfold Json.named at letter
    split at letter <;> cases letter <;> omega
  | unit w hex =>
    rw [← Mark.escaped.inj is]
    have := hex4_lt hex
    omega
  | pair w hex high hex' low =>
    rw [← Mark.escaped.inj is]
    unfold High at high
    unfold Low at low
    unfold paired
    omega
  | half => cases is

theorem utf8Codes_bounds {c : Nat} (code : c ≠ 0) (le : c ≤ 0x10FFFF) :
    ∀ d ∈ utf8Codes C c, 0 < d ∧ d ≤ 0x10FFFF := by
  have lead {x y : Nat} (pos : 0 < x) (hx : x < 2 ^ 8) (hy : y < 2 ^ 8) :
      0 < x ||| y ∧ x ||| y ≤ 0x10FFFF := by
    have := Nat.or_lt_two_pow hx hy
    have : x ≤ x ||| y := Nat.left_le_or
    omega
  have six (k : Nat) : k &&& 0x3F < 2 ^ 8 :=
    lt_of_le_of_lt Nat.and_le_right (by decide)
  unfold utf8Codes
  intro d mem
  split_ifs at mem with ascii units two three
  · simp only [List.mem_singleton] at mem
    omega
  · simp only [List.mem_singleton] at mem
    omega
  · have high : c >>> 6 < 2 ^ 8 := by rw [Nat.shiftRight_eq_div_pow]; omega
    simp only [List.mem_cons, List.not_mem_nil, or_false] at mem
    rcases mem with rfl | rfl
    · exact lead (by decide) (by decide) high
    · exact lead (by decide) (by decide) (six _)
  · have high : c >>> 12 < 2 ^ 8 := by rw [Nat.shiftRight_eq_div_pow]; omega
    simp only [List.mem_cons, List.not_mem_nil, or_false] at mem
    rcases mem with rfl | rfl | rfl
    · exact lead (by decide) (by decide) high
    · exact lead (by decide) (by decide) (six _)
    · exact lead (by decide) (by decide) (six _)
  · have high : c >>> 18 < 2 ^ 8 := by rw [Nat.shiftRight_eq_div_pow]; omega
    simp only [List.mem_cons, List.not_mem_nil, or_false] at mem
    rcases mem with rfl | rfl | rfl | rfl
    · exact lead (by decide) (by decide) high
    · exact lead (by decide) (by decide) (six _)
    · exact lead (by decide) (by decide) (six _)
    · exact lead (by decide) (by decide) (six _)

/-- The codes of a string that was read are characters, and no NUL. -/
theorem codes_bounds {w w' : Text} {l : List Mark} (chars : Chars w l w') {cs : Text}
    (codes : stringCodes C l = some cs) : ∀ c ∈ cs, 0 < c ∧ c ≤ 0x10FFFF := by
  induction chars generalizing cs with
  | close w =>
    cases codes
    simp
  | plain le ge _ _ _ ih =>
    simp only [stringCodes, markCodes, Option.bind_eq_bind, Option.bind_some, Option.pure_def,
      Option.bind_eq_some_iff, Option.some.injEq] at codes
    obtain ⟨cs, codes, rfl⟩ := codes
    intro d mem
    rcases List.mem_cons.mp mem with rfl | mem
    · omega
    · exact ih codes d mem
  | @escape w w₁ w' m l escape _ ih =>
    simp only [stringCodes, Option.bind_eq_bind, Option.bind_eq_some_iff, Option.pure_def,
      Option.some.injEq] at codes
    obtain ⟨c, mark, cs, codes, rfl⟩ := codes
    intro d mem
    rcases List.mem_append.mp mem with mem | mem
    · cases m with
      | escaped c =>
        by_cases code : c = 0
        · simp [markCodes, code] at mark
        · rw [markCodes_escaped code] at mark
          cases mark
          exact utf8Codes_bounds code (escaped_le escape rfl) d mem
      | plain | half => cases escape <;> cases mark
    · exact ih codes d mem

theorem jsonNoNul_of {cs : Text} (whole : Text) (pos : ∀ c ∈ cs, 0 < c) :
    (jsonNoNul C whole cs : Answers (Ball F) Unit) = .one () := by
  induction cs with
  | nil => rfl
  | cons c cs ih =>
    have : c ≠ 0 := (pos c List.mem_cons_self).ne'
    rw [jsonNoNul, if_neg this]
    exact ih fun d mem => pos d (List.mem_cons_of_mem c mem)

/-- A string that was read is an atom. -/
theorem jsonAtomOf_of {w w' : Text} {l : List Mark} (chars : Chars w l w') {cs : Text}
    (codes : stringCodes C l = some cs) :
    ∃ a, atomName C l = some a ∧ (jsonAtomOf C cs : Answers (Ball F) Bytes) = .one a := by
  have bounds := codes_bounds chars codes
  obtain ⟨b, text⟩ := textOf_coded (C := C) fun c mem => (bounds c mem).2
  refine ⟨b.takeWhile (· ≠ 0), by simp [atomName, codes, text], ?_⟩
  simp [jsonAtomOf, jsonNoNul_of cs fun c mem => (bounds c mem).1, atomOf, text]

theorem codes_of_atomName {l : List Mark} {a : Bytes} (is : atomName C l = some a) :
    ∃ cs, stringCodes C l = some cs := by
  obtain ⟨cs, codes, _⟩ := Option.bind_eq_some_iff.mp is
  exact ⟨cs, codes⟩

theorem unblank_cons {c : Nat} (w : Text) (h : ¬Blank c) : Unblank (c :: w) := by
  intro d head
  cases head
  exact h

theorem keyFrom_of {k : Bytes} {w w' : Text} (key : Key (reading C D) k w w') (stop : Unblank w')
    {m : Nat} (calls : w.length < m) :
    (keyFrom C m w : Answers (Ball F) (Bytes × Text)) = .one (k, w') := by
  cases key with
  | @mk l _ w₁ w₂ w₃ _ before chars reads colon after =>
    obtain ⟨cs, codes⟩ := codes_of_atomName reads
    obtain ⟨a, named, atom⟩ := jsonAtomOf_of (F := F) chars codes
    have same : a = k := Option.some.inj (named.symm.trans reads)
    have shorter : w₁.length < m := by
      have := before.suffix.length_le
      simp only [List.length_cons] at this
      omega
    have string := jsonStringIn_of (F := F) chars codes shorter
    simp [keyFrom, jsonWs_eq, before.dropWhile_eq (unblank_cons w₁ (by decide)), jsonKeyIn,
      terminal_cons, string, atom, colon.dropWhile_eq (unblank_cons w₃ (by decide)), jsonColon,
      after.dropWhile_eq stop, same]

/-- A key with its colon is read as the grammar has it, or is refused. -/
theorem keyFrom_cases {w : Text} (coded : Coded w) {m : Nat} (calls : w.length < m) :
    (∃ k w', Key (reading C D) k w w' ∧ Unblank w') ∨
      Refused (keyFrom C m w : Answers (Ball F) (Bytes × Text)) := by
  have before := blanks_dropWhile w
  have coded₁ := coded.suffix before.suffix
  have len := before.suffix.length_le
  unfold keyFrom
  rw [jsonWs_eq, Answers.one_bind]
  generalize w.dropWhile (fun c => decide (Blank c)) = w₀ at *
  cases w₀ with
  | nil => exact .inr ((refused_oops _ coded₁).bind _)
  | cons c w₁ =>
    by_cases quote : c = 34
    · subst quote
      have shorter : w₁.length < m := by simp only [List.length_cons] at len; omega
      rcases jsonStringIn_cases (F := F) (C := C) coded₁.tail shorter with
        ⟨l, w₂, cs, chars, codes⟩ | refused
      · obtain ⟨a, named, atom⟩ := jsonAtomOf_of (F := F) chars codes
        have coded₂ := coded₁.tail.suffix chars.suffix.1
        have keyIn : (jsonKeyIn C m (34 :: w₁) : Answers (Ball F) (Bytes × Text)) = .one (a, w₂) := by
          simp [jsonKeyIn, terminal_cons, jsonStringIn_of chars codes shorter, atom]
        rw [keyIn, Answers.one_bind]
        simp only [jsonWs_eq, Answers.one_bind]
        have middle := blanks_dropWhile w₂
        have coded₃ := coded₂.suffix middle.suffix
        generalize w₂.dropWhile (fun c => decide (Blank c)) = v at *
        cases v with
        | nil => exact .inr ((refused_oops _ coded₃).bind _)
        | cons d w₃ =>
          by_cases colon : d = 58
          · subst colon
            exact .inl ⟨a, w₃.dropWhile Blank, .mk before chars named middle (blanks_dropWhile w₃),
              unblank_dropWhile w₃⟩
          · refine .inr (Refused.bind ?_ _)
            simp only [jsonColon, terminal_cons, colon, if_false]
            exact refused_oops _ coded₃
      · refine .inr (Refused.bind ?_ _)
        simp only [jsonKeyIn, terminal_cons, if_true]
        exact refused.bind _
    · refine .inr (Refused.bind ?_ _)
      simp only [jsonKeyIn, terminal_cons, quote, if_false]
      exact refused_oops _ coded₁

/-! ## Values -/

theorem jsonInput_object (n : Nat) (w : Text) : jsonInput C D (n + 1) (123 :: w) = do
    let w ← jsonWs w
    let (ps, w) ← jsonMembersIn C (jsonInput C D n) n w
    return (.object ps, w) := by
  simp [jsonInput, jsonBy, anyCode, Answers.commit_ask]

theorem jsonInput_array (n : Nat) (w : Text) : jsonInput C D (n + 1) (91 :: w) = do
    let w ← jsonWs w
    let (is, w) ← jsonItemsIn C (jsonInput C D n) n w
    return (.list is, w) := by
  simp [jsonInput, jsonBy, anyCode, Answers.commit_ask]

theorem jsonInput_string (n : Nat) (w : Text) : jsonInput C D (n + 1) (34 :: w) = do
    let (cs, w) ← jsonStringIn C n w
    let a ← jsonAtomOf C cs
    return (.atom a, w) := by
  simp [jsonInput, jsonBy, anyCode, Answers.commit_ask]

theorem jsonInput_word (l : Literal) (n : Nat) {c : Nat} (w : Text) (is : l.text.head? = some c) :
    jsonInput C D (n + 1) (c :: w) = do
      let w ← jsonWord C l.text (c :: w)
      return (literal l, w) := by
  cases l <;> cases is <;> simp [jsonInput, jsonBy, anyCode, Answers.commit_ask]

theorem jsonInput_number {c : Nat} (n : Nat) (w : Text) (le : c ≤ 0x10FFFF)
    (is : c = 45 ∨ Digit c) : jsonInput C D (n + 1) (c :: w) = do
      let (x, w) ← jsonNumberIn C D (c :: w)
      return (.num x, w) := by
  have start : (jsonNumberStart c : Answers (Ball F) Unit) = .one () := by
    unfold jsonNumberStart
    rw [Answers.commit_ask, codeTypeDigit_coded le]
    rcases is with rfl | digit
    · rfl
    · rw [Answers.ask_of digit]
      split <;> rfl
  have other : c ≠ 123 ∧ c ≠ 91 ∧ c ≠ 34 ∧ c ≠ 116 ∧ c ≠ 102 ∧ c ≠ 110 := by
    unfold Digit at is
    omega
  simp [jsonInput, jsonBy, anyCode, Answers.commit_ask, other, start]

theorem jsonInput_other {c : Nat} (n : Nat) (w : Text) (le : c ≤ 0x10FFFF) (is : ¬Begins c) :
    jsonInput C D (n + 1) (c :: w) = oops C "a value" (c :: w) := by
  have start : (jsonNumberStart c : Answers (Ball F) Unit) = .fail := by
    unfold jsonNumberStart
    rw [Answers.commit_ask, codeTypeDigit_coded le, if_neg fun eq => is (.inl eq)]
    exact Answers.ask_of_not fun digit => is (.inr (.inl digit))
  have other : c ≠ 123 ∧ c ≠ 91 ∧ c ≠ 34 ∧ c ≠ 116 ∧ c ≠ 102 ∧ c ≠ 110 := by
    unfold Begins at is
    omega
  simp [jsonInput, jsonBy, anyCode, Answers.commit_ask, other, start]

theorem jsonWord_of (l w : Text) : (jsonWord C l (l ++ w) : Answers (Ball F) Text) = .one w := by
  induction l with
  | nil => rfl
  | cons c l ih => simp [jsonWord, terminal_cons, ih]

theorem jsonWord_cases (l : Text) {w : Text} (coded : Coded w) :
    (∃ w', w = l ++ w') ∨ Refused (jsonWord C l w : Answers (Ball F) Text) := by
  induction l generalizing w with
  | nil => exact .inl ⟨w, rfl⟩
  | cons c l ih =>
    cases w with
    | nil => exact .inr (refused_jsonOops _ coded)
    | cons d w =>
      rw [jsonWord, terminal_cons]
      by_cases eq : d = c
      · rw [if_pos eq]
        rcases ih coded.tail with ⟨w', rfl⟩ | refused
        · exact .inl ⟨w', by rw [eq]; rfl⟩
        · exact .inr refused
      · rw [if_neg eq]
        exact .inr (refused_jsonOops _ coded)

theorem itemsIn_eq (n : Nat) {w : Text} (more : ∀ v, w.dropWhile Blank ≠ 93 :: v) :
    (jsonWs w >>= jsonItemsIn C (jsonInput C D n) n) = itemsFrom C D n n w := by
  unfold itemsFrom
  rw [jsonWs_eq, Answers.one_bind, Answers.one_bind]
  generalize w.dropWhile (fun c => decide (Blank c)) = v at *
  cases v with
  | nil => rfl
  | cons c v =>
    have : c ≠ 93 := fun eq => more v (by rw [eq])
    simp [jsonItemsIn, terminal_cons, this]

theorem membersIn_eq (n : Nat) {w : Text} (more : ∀ v, w.dropWhile Blank ≠ 125 :: v) :
    (jsonWs w >>= jsonMembersIn C (jsonInput C D n) n) = membersFrom C D n n w := by
  rw [← memberIn_eq, jsonWs_eq, Answers.one_bind, Answers.one_bind]
  generalize w.dropWhile (fun c => decide (Blank c)) = v at *
  cases v with
  | nil => rfl
  | cons c v =>
    have : c ≠ 125 := fun eq => more v (by rw [eq])
    simp [jsonMembersIn, terminal_cons, this]

/-- What the parser makes of a part of a document, within enough calls. -/
def ReadBack (C : Bool) (D : Doubles F) : Part Bytes (Term F) → Text → Text → Prop
  | .value t, w, w' => Coded w → Loose w' → ∀ n, w.length < n → jsonInput C D n w = .one (t, w')
  | .elements ts, w, w' => Coded w → ∀ v n m, w' = 93 :: v → w.length < n → w.length < m →
      itemsFrom C D n m w = .one (ts, v)
  | .members ms, w, w' => Coded w → ∀ v n m, w' = 125 :: v → w.length < n → w.length < m →
      membersFrom C D n m w = .one (ms, v)

theorem elements_more {p : Part Bytes (Term F)} {w w' : Text} (h : Derives (reading C D) p w w') :
    match p with
    | .elements _ => ∀ v, w.dropWhile Blank ≠ 93 :: v
    | .members _ => ∀ v, w.dropWhile Blank ≠ 125 :: v
    | .value _ => True := by
  have quoted {w w₁ : Text} (before : Blanks w (34 :: w₁)) (v : Text) :
      w.dropWhile Blank ≠ 125 :: v := by
    rw [before.dropWhile_eq (unblank_cons w₁ (by decide))]
    simp
  cases h with
  | lastElement before value _ | element before value _ _ =>
    intro v eq
    obtain ⟨c, w₁, rfl, begins⟩ := value.begins
    rw [before.dropWhile_eq (unblank_cons w₁ begins.not_blank)] at eq
    cases eq
    simp [Begins, Digit] at begins
  | lastMember key _ _ | member key _ _ _ =>
    obtain ⟨before, _, _, _, _⟩ := key
    exact quoted before
  | literal | number | string | noElements | array | noMembers | object => trivial

theorem itemsFrom_read {n : Nat} (m : Nat) {t : Term F} {w w' : Text}
    (read : jsonInput C D n (w.dropWhile Blank) = .one (t, w')) :
    itemsFrom C D n m w =
      jsonItemsMore C (jsonInput C D n) m (w'.dropWhile Blank) >>= fun (is, w) =>
        .one (t :: is, w) := by
  simp [itemsFrom, jsonWs_eq, read]

theorem membersFrom_read {n m : Nat} {k : Bytes} {t : Term F} {w w₁ w' : Text}
    (key : (keyFrom C m w : Answers (Ball F) (Bytes × Text)) = .one (k, w₁)) (read : jsonInput C D n w₁ = .one (t, w')) :
    membersFrom C D n m w =
      jsonMembersMore C (jsonInput C D n) m (w'.dropWhile Blank) >>= fun (ps, w) =>
        .one ((k, t) :: ps, w) := by
  simp [membersFrom, jsonWs_eq, key, read]

/-- Every text of the grammar is read, as far as the grammar takes it. -/
theorem derives_readBack {p : Part Bytes (Term F)} {w w' : Text}
    (h : Derives (reading C D) p w w') : ReadBack C D p w w' := by
  induction h with
  | literal l w =>
    intro _ _ n calls
    obtain ⟨n, rfl⟩ : ∃ m, n = m + 1 := ⟨n - 1, by omega⟩
    obtain ⟨c, rest, text⟩ : ∃ c rest, l.text = c :: rest := by cases l <;> exact ⟨_, _, rfl⟩
    rw [text, List.cons_append, jsonInput_word l n _ (by rw [text]; rfl), ← List.cons_append, ← text,
      jsonWord_of]
    simp [reading]
  | @number k t w reads =>
    intro coded loose n calls
    obtain ⟨n, rfl⟩ : ∃ m, n = m + 1 := ⟨n - 1, by omega⟩
    obtain ⟨x, value, rfl⟩ := Option.map_eq_some_iff.mp reads
    have read := jsonNumberIn_of (D := D) (C := C) coded (loose.ends k)
    rw [value] at read
    obtain ⟨c, rest, text, begins⟩ := k.begins w
    rw [text] at coded read ⊢
    rw [jsonInput_number n rest coded.head begins, read]
    simp
  | @string w w' l t chars reads =>
    intro coded _ n calls
    obtain ⟨n, rfl⟩ : ∃ m, n = m + 1 := ⟨n - 1, by omega⟩
    obtain ⟨a, named, rfl⟩ := Option.map_eq_some_iff.mp reads
    obtain ⟨cs, codes⟩ := codes_of_atomName named
    obtain ⟨a', named', atom⟩ := jsonAtomOf_of (F := F) chars codes
    have same : a' = a := Option.some.inj (named'.symm.trans named)
    rw [jsonInput_string, jsonStringIn_of chars codes (by simpa using calls)]
    simp [atom, same]
  | @noElements w w' blanks =>
    intro _ _ n calls
    obtain ⟨n, rfl⟩ : ∃ m, n = m + 1 := ⟨n - 1, by omega⟩
    rw [jsonInput_array, jsonWs_eq, blanks.dropWhile_eq (unblank_cons w' (by decide))]
    simp [jsonItemsIn, terminal_cons, reading]
  | @array ts w w' elements ih =>
    intro coded _ n calls
    obtain ⟨n, rfl⟩ : ∃ m, n = m + 1 := ⟨n - 1, by omega⟩
    have calls' : w.length < n := by simpa using calls
    rw [jsonInput_array, ← Answers.bind_assoc, itemsIn_eq n (elements_more elements),
      ih coded.tail w' n n rfl calls' calls']
    simp [reading]
  | @noMembers w w' blanks =>
    intro _ _ n calls
    obtain ⟨n, rfl⟩ : ∃ m, n = m + 1 := ⟨n - 1, by omega⟩
    rw [jsonInput_object, jsonWs_eq, blanks.dropWhile_eq (unblank_cons w' (by decide))]
    simp [jsonMembersIn, terminal_cons, reading]
  | @object ms w w' members ih =>
    intro coded _ n calls
    obtain ⟨n, rfl⟩ : ∃ m, n = m + 1 := ⟨n - 1, by omega⟩
    have calls' : w.length < n := by simpa using calls
    rw [jsonInput_object, ← Answers.bind_assoc, membersIn_eq n (elements_more members),
      ih coded.tail w' n n rfl calls' calls']
    simp [reading]
  | @lastElement t w w₁ w₂ w₃ before value after ih =>
    rintro coded v n m rfl calls loops
    obtain ⟨m, rfl⟩ : ∃ k, m = k + 1 := ⟨m - 1, by omega⟩
    have read := ih (coded.suffix before.suffix) (loose_of_blanks after (by simp)) n
      (before.suffix.length_le.trans_lt calls)
    rw [← before.dropWhile_eq (unblank_of_begins value.begins)] at read
    rw [itemsFrom_read _ read, after.dropWhile_eq (unblank_cons v (by decide))]
    simp [jsonItemsMore, terminal_cons]
  | @element t ts w w₁ w₂ w₃ w₄ before value after more ih ihMore =>
    rintro coded v n m rfl calls loops
    obtain ⟨m, rfl⟩ : ∃ k, m = k + 1 := ⟨m - 1, by omega⟩
    have read := ih (coded.suffix before.suffix) (loose_of_blanks after (by simp)) n
      (before.suffix.length_le.trans_lt calls)
    have short := before.suffix.length_le
    have shorter := value.suffix.2
    have shortest := after.suffix.length_le
    simp only [List.length_cons] at shortest
    have coded₃ : Coded w₃ := (((coded.suffix before.suffix).suffix value.suffix.1).suffix after.suffix).tail
    have rest := ihMore coded₃ v n m rfl (by omega) (by omega)
    rw [← before.dropWhile_eq (unblank_of_begins value.begins)] at read
    rw [itemsFrom_read _ read, after.dropWhile_eq (unblank_cons w₃ (by decide)), jsonItemsMore_comma,
      rest]
    simp
  | @lastMember k t w w₁ w₂ w₃ key value after ih =>
    rintro coded v n m rfl calls loops
    obtain ⟨m, rfl⟩ : ∃ k, m = k + 1 := ⟨m - 1, by omega⟩
    have named := keyFrom_of key (unblank_of_begins value.begins) loops
    have read := ih (coded.suffix key.suffix.1) (loose_of_blanks after (by simp)) n
      (key.suffix.2.trans calls)
    rw [membersFrom_read named read, after.dropWhile_eq (unblank_cons v (by decide))]
    simp [jsonMembersMore, terminal_cons]
  | @member k t ms w w₁ w₂ w₃ w₄ key value after more ih ihMore =>
    rintro coded v n m rfl calls loops
    obtain ⟨m, rfl⟩ : ∃ k, m = k + 1 := ⟨m - 1, by omega⟩
    have named := keyFrom_of key (unblank_of_begins value.begins) loops
    have read := ih (coded.suffix key.suffix.1) (loose_of_blanks after (by simp)) n
      (key.suffix.2.trans calls)
    have short := key.suffix.2
    have shorter := value.suffix.2
    have shortest := after.suffix.length_le
    simp only [List.length_cons] at shortest
    have coded₃ : Coded w₃ := (((coded.suffix key.suffix.1).suffix value.suffix.1).suffix after.suffix).tail
    have rest := ihMore coded₃ v n m rfl (by omega) (by omega)
    rw [membersFrom_read named read, after.dropWhile_eq (unblank_cons w₃ (by decide)),
      jsonMembersMore_comma, rest]
    simp

/-! ## Numbers past the largest double -/

theorem overflow_more {kind : Kind} {w : Text} (h : Overflows C D kind w) :
    match kind with
    | .elements => ∀ v, w.dropWhile Blank ≠ 93 :: v
    | .members => ∀ v, w.dropWhile Blank ≠ 125 :: v
    | .value => True := by
  have value {w w₁ : Text} (before : Blanks w w₁) (begins : ∃ c w₂, w₁ = c :: w₂ ∧ Begins c)
      (v : Text) : w.dropWhile Blank ≠ 93 :: v := by
    intro eq
    rw [before.dropWhile_eq (unblank_of_begins begins)] at eq
    obtain ⟨c, w₂, rfl, begins⟩ := begins
    cases eq
    simp [Begins, Digit] at begins
  have quoted {w w₁ : Text} {k : Bytes} (key : Key (reading C D) k w w₁) (v : Text) :
      w.dropWhile Blank ≠ 125 :: v := by
    obtain ⟨before, _, _, _, _⟩ := key
    rw [before.dropWhile_eq (unblank_cons _ (by decide))]
    simp
  cases h with
  | number | array | object => trivial
  | element before inside => exact value before (overflow_begins inside)
  | laterElement before first _ _ => exact value before first.begins
  | member key _ | laterMember key _ _ _ => exact quoted key

/-- What fails, within enough calls. -/
def Fails (C : Bool) (D : Doubles F) : Kind → Text → Prop
  | .value, w => Coded w → ∀ n, w.length < n → jsonInput C D n w = .fail
  | .elements, w => Coded w → ∀ n m, w.length < n → w.length < m → itemsFrom C D n m w = .fail
  | .members, w => Coded w → ∀ n m, w.length < n → w.length < m → membersFrom C D n m w = .fail

theorem numberValue_huge {n : Numeral} (float : ¬n.Integral) :
    numberValue D n = none ↔ D.huge (D.strtod (n.whole ++ (n.frac ++ n.exp))) := by
  unfold numberValue
  rw [if_neg float]
  simp

theorem overflow_fails {kind : Kind} {w : Text} (h : Overflows C D kind w) : Fails C D kind w := by
  induction h with
  | @number k rest float huge ends =>
    intro coded n calls
    obtain ⟨n, rfl⟩ : ∃ m, n = m + 1 := ⟨n - 1, by omega⟩
    have read := jsonNumberIn_of (D := D) (C := C) coded ends
    rw [(numberValue_huge float).mpr huge] at read
    simp only [float, if_false] at read
    obtain ⟨c, w, text, begins⟩ := k.begins rest
    rw [text] at coded read ⊢
    rw [jsonInput_number n w coded.head begins, read]
    rfl
  | @array w inside ih =>
    intro coded n calls
    obtain ⟨n, rfl⟩ : ∃ m, n = m + 1 := ⟨n - 1, by omega⟩
    have calls' : w.length < n := by simpa using calls
    rw [jsonInput_array, ← Answers.bind_assoc, itemsIn_eq n (overflow_more inside),
      ih coded.tail n n calls' calls']
    rfl
  | @object w inside ih =>
    intro coded n calls
    obtain ⟨n, rfl⟩ : ∃ m, n = m + 1 := ⟨n - 1, by omega⟩
    have calls' : w.length < n := by simpa using calls
    rw [jsonInput_object, ← Answers.bind_assoc, membersIn_eq n (overflow_more inside),
      ih coded.tail n n calls' calls']
    rfl
  | @element w w₁ before inside ih =>
    intro coded n m calls _
    have fails := ih (coded.suffix before.suffix) n (before.suffix.length_le.trans_lt calls)
    simp [itemsFrom, jsonWs_eq, before.dropWhile_eq (unblank_of_begins (overflow_begins inside)), fails]
  | @laterElement t w w₁ w₂ w₃ before value after inside ih =>
    intro coded n m calls loops
    obtain ⟨m, rfl⟩ : ∃ k, m = k + 1 := ⟨m - 1, by omega⟩
    have coded₁ := coded.suffix before.suffix
    have read := derives_readBack value coded₁ (loose_of_blanks after (by simp)) n
      (before.suffix.length_le.trans_lt calls)
    have short := before.suffix.length_le
    have shorter := value.suffix.2
    have shortest := after.suffix.length_le
    simp only [List.length_cons] at shortest
    have fails := ih ((coded₁.suffix value.suffix.1).suffix after.suffix).tail n m (by omega) (by omega)
    rw [← before.dropWhile_eq (unblank_of_begins value.begins)] at read
    rw [itemsFrom_read _ read, after.dropWhile_eq (unblank_cons w₃ (by decide)), jsonItemsMore_comma,
      fails]
    rfl
  | @member k w w₁ key inside ih =>
    intro coded n m calls loops
    have named := keyFrom_of key (unblank_of_begins (overflow_begins inside)) loops
    have fails := ih (coded.suffix key.suffix.1) n (key.suffix.2.trans calls)
    simp [membersFrom, named, fails]
  | @laterMember k t w w₁ w₂ w₃ key value after inside ih =>
    intro coded n m calls loops
    obtain ⟨m, rfl⟩ : ∃ k, m = k + 1 := ⟨m - 1, by omega⟩
    have coded₁ := coded.suffix key.suffix.1
    have named := keyFrom_of key (unblank_of_begins value.begins) loops
    have read := derives_readBack value coded₁ (loose_of_blanks after (by simp)) n
      (key.suffix.2.trans calls)
    have short := key.suffix.2
    have shorter := value.suffix.2
    have shortest := after.suffix.length_le
    simp only [List.length_cons] at shortest
    have fails := ih ((coded₁.suffix value.suffix.1).suffix after.suffix).tail n m (by omega) (by omega)
    rw [membersFrom_read named read, after.dropWhile_eq (unblank_cons w₃ (by decide)),
      jsonMembersMore_comma, fails]
    rfl

/-! ## Every text -/

/-- What a nonterminal answers: what the grammar has, a syntax error, or nothing where a
number is past the largest double. -/
inductive Outcome (good : α → Text → Prop) (stops : Prop) (r : Answers (Ball F) (α × Text)) : Prop
  | read (a : α) (w : Text) (h : good a w) (is : r = .one (a, w))
  | refused (h : Refused r)
  | failed (h : stops) (is : r = .fail)

def ValueOutcome (C : Bool) (D : Doubles F) (n : Nat) (w : Text) : Prop :=
  Outcome (fun t w' => Derives (reading C D) (.value t) w w') (Overflows C D .value w)
    (jsonInput C D n w)

theorem items_outcome {n : Nat}
    (inputs : ∀ w : Text, Coded w → w.length < n → ValueOutcome C D n w) (m : Nat) {w : Text}
    (coded : Coded w) (calls : w.length < n) (loops : w.length < m) :
    Outcome (fun ts v => Derives (reading C D) (.elements ts) w (93 :: v))
      (Overflows C D .elements w) (itemsFrom C D n m w) := by
  induction m generalizing w with
  | zero => omega
  | succ m ih =>
    have before := blanks_dropWhile w
    have short := before.suffix.length_le
    rcases inputs _ (coded.suffix before.suffix) (short.trans_lt calls) with
      ⟨t, w₂, value, read⟩ | ⟨refused⟩ | ⟨stops, fails⟩
    · have after := blanks_dropWhile w₂
      have coded₃ := ((coded.suffix before.suffix).suffix value.suffix.1).suffix after.suffix
      have shorter := value.suffix.2
      have shortest := after.suffix.length_le
      rw [itemsFrom_read _ read]
      generalize w₂.dropWhile (fun c => decide (Blank c)) = w₃ at *
      cases w₃ with
      | nil => exact .refused ((refused_oops _ coded₃).bind _)
      | cons c w₃ =>
        simp only [List.length_cons] at shortest
        by_cases closing : c = 93
        · subst closing
          exact .read [t] w₃ (.lastElement before value after) (by simp [jsonItemsMore, terminal_cons])
        by_cases comma : c = 44
        · subst comma
          rw [jsonItemsMore_comma]
          rcases ih coded₃.tail (by omega) (by omega) with ⟨ts, v, more, read⟩ | ⟨refused⟩ | ⟨stops, fails⟩
          · exact .read (t :: ts) v (.element before value after more) (by simp [read])
          · exact .refused (refused.bind _)
          · exact .failed (.laterElement before value after stops) (by simp [fails])
        · refine .refused (Refused.bind ?_ _)
          simp only [jsonItemsMore, terminal_cons, closing, comma, if_false]
          exact refused_oops _ coded₃
    · refine .refused ?_
      unfold itemsFrom
      rw [jsonWs_eq, Answers.one_bind]
      exact refused.bind _
    · exact .failed (.element before stops) (by simp [itemsFrom, jsonWs_eq, fails])

theorem members_outcome {n : Nat}
    (inputs : ∀ w : Text, Coded w → w.length < n → ValueOutcome C D n w) (m : Nat) {w : Text}
    (coded : Coded w) (calls : w.length < n) (loops : w.length < m) :
    Outcome (fun ms v => Derives (reading C D) (.members ms) w (125 :: v))
      (Overflows C D .members w) (membersFrom C D n m w) := by
  induction m generalizing w with
  | zero => omega
  | succ m ih =>
    rcases keyFrom_cases (F := F) (D := D) (C := C) coded loops with ⟨k, w₁, key, stop⟩ | refused
    · have named := keyFrom_of key stop loops
      have coded₁ := coded.suffix key.suffix.1
      have short := key.suffix.2
      rcases inputs w₁ coded₁ (by omega) with ⟨t, w₂, value, read⟩ | ⟨refused⟩ | ⟨stops, fails⟩
      · have after := blanks_dropWhile w₂
        have coded₃ := (coded₁.suffix value.suffix.1).suffix after.suffix
        have shorter := value.suffix.2
        have shortest := after.suffix.length_le
        rw [membersFrom_read named read]
        generalize w₂.dropWhile (fun c => decide (Blank c)) = w₃ at *
        cases w₃ with
        | nil => exact .refused ((refused_oops _ coded₃).bind _)
        | cons c w₃ =>
          simp only [List.length_cons] at shortest
          by_cases closing : c = 125
          · subst closing
            exact .read [(k, t)] w₃ (.lastMember key value after)
              (by simp [jsonMembersMore, terminal_cons])
          by_cases comma : c = 44
          · subst comma
            rw [jsonMembersMore_comma]
            rcases ih coded₃.tail (by omega) (by omega) with
              ⟨ms, v, more, read⟩ | ⟨refused⟩ | ⟨stops, fails⟩
            · exact .read ((k, t) :: ms) v (.member key value after more) (by simp [read])
            · exact .refused (refused.bind _)
            · exact .failed (.laterMember key value after stops) (by simp [fails])
          · refine .refused (Refused.bind ?_ _)
            simp only [jsonMembersMore, terminal_cons, closing, comma, if_false]
            exact refused_oops _ coded₃
      · refine .refused ?_
        unfold membersFrom
        rw [named, Answers.one_bind]
        exact refused.bind _
      · exact .failed (.member key stops) (by simp [membersFrom, named, fails])
    · exact .refused (refused.bind _)

/-- Every text is read, refused, or given up at a number. -/
theorem value_outcome (n : Nat) {w : Text} (coded : Coded w) (calls : w.length < n) :
    ValueOutcome C D n w := by
  induction n generalizing w with
  | zero => omega
  | succ n ih =>
    have inputs : ∀ w : Text, Coded w → w.length < n → ValueOutcome C D n w :=
      fun w coded calls => ih coded calls
    cases w with
    | nil => exact .refused (refused_oops _ coded)
    | cons c w =>
      have calls' : w.length < n := by simpa using calls
      by_cases word : ∃ l : Literal, l.text.head? = some c
      · obtain ⟨l, is⟩ := word
        unfold ValueOutcome
        rw [jsonInput_word l n w is]
        rcases jsonWord_cases (F := F) (C := C) l.text coded with ⟨w', text⟩ | refused
        · rw [text, jsonWord_of]
          exact .read _ w' (.literal (r := reading C D) l w') rfl
        · exact .refused (refused.bind _)
      by_cases brace : c = 123
      · subst brace
        unfold ValueOutcome
        rw [jsonInput_object, ← Answers.bind_assoc]
        by_cases closed : ∃ v, w.dropWhile Blank = 125 :: v
        · obtain ⟨v, closed⟩ := closed
          refine .read _ v (.noMembers (r := reading C D) (closed ▸ blanks_dropWhile w)) ?_
          simp [jsonWs_eq, closed, jsonMembersIn, terminal_cons, reading]
        · rw [membersIn_eq n (not_exists.mp closed)]
          rcases members_outcome inputs n coded.tail calls' calls' with
            ⟨ms, v, members, read⟩ | ⟨refused⟩ | ⟨stops, fails⟩
          · exact .read _ v (.object members) (by simp [read, reading])
          · exact .refused (refused.bind _)
          · exact .failed (.object stops) (by simp [fails])
      by_cases bracket : c = 91
      · subst bracket
        unfold ValueOutcome
        rw [jsonInput_array, ← Answers.bind_assoc]
        by_cases closed : ∃ v, w.dropWhile Blank = 93 :: v
        · obtain ⟨v, closed⟩ := closed
          refine .read _ v (.noElements (r := reading C D) (closed ▸ blanks_dropWhile w)) ?_
          simp [jsonWs_eq, closed, jsonItemsIn, terminal_cons, reading]
        · rw [itemsIn_eq n (not_exists.mp closed)]
          rcases items_outcome inputs n coded.tail calls' calls' with
            ⟨ts, v, elements, read⟩ | ⟨refused⟩ | ⟨stops, fails⟩
          · exact .read _ v (.array elements) (by simp [read, reading])
          · exact .refused (refused.bind _)
          · exact .failed (.array stops) (by simp [fails])
      by_cases quote : c = 34
      · subst quote
        unfold ValueOutcome
        rw [jsonInput_string]
        rcases jsonStringIn_cases (F := F) (C := C) coded.tail calls' with
          ⟨l, w', cs, chars, codes⟩ | refused
        · obtain ⟨a, named, atom⟩ := jsonAtomOf_of (F := F) chars codes
          exact .read (.atom a) w' (.string chars (by simp [reading, named]))
            (by simp [jsonStringIn_of chars codes calls', atom])
        · exact .refused (refused.bind _)
      by_cases digit : c = 45 ∨ Digit c
      · unfold ValueOutcome
        rw [jsonInput_number n w coded.head digit]
        rcases jsonNumberIn_cases (D := D) (C := C) coded with ⟨k, rest, text, ends⟩ | refused
        · rw [text] at coded ⊢
          have read := jsonNumberIn_of (D := D) (C := C) coded ends
          cases value : numberValue D k with
          | some x =>
            rw [value] at read
            exact .read (.num x) rest (.number rest (by simp [reading, value])) (by simp [read])
          | none =>
            rw [value] at read
            by_cases integral : k.Integral
            · rw [if_pos integral] at read
              exact .refused (read.bind _)
            · rw [if_neg integral] at read
              exact .failed (.number integral ((numberValue_huge integral).mp value) ends) (by simp [read])
        · exact .refused (refused.bind _)
      · refine .refused ?_
        rw [jsonInput_other n w coded.head]
        · exact refused_oops _ coded
        · rintro (h | h | h | h | h | h | h | h)
          · exact digit (.inl h)
          · exact digit (.inr h)
          · exact quote h
          · exact bracket h
          · exact brace h
          · exact word ⟨.true, by rw [h]; rfl⟩
          · exact word ⟨.false, by rw [h]; rfl⟩
          · exact word ⟨.null, by rw [h]; rfl⟩

/-! ## `json_parse` -/

/-- The first thing in the text that cannot be read is a number past the largest double. -/
def Overflowing (C : Bool) (D : Doubles F) (cs : Text) : Prop :=
  ∃ w, Blanks cs w ∧ Overflows C D .value w

/-- `json_parse` succeeds once, with what the grammar makes of the text, or it raises a syntax
error. -/
def Answered (C : Bool) (D : Doubles F) (n : Nat) (cs : Text) : Prop :=
  (∃ t, jsonParse C D n cs = .one t ∧ Document syntaxOnly cs () ∧ Document (reading C D) cs t) ∨
    ∃ what context, jsonParse C D n cs = .throw (syntaxError what context)

theorem jsonParse_of_document {cs : Text} {t : Term F} (document : Document (reading C D) cs t)
    (coded : Coded cs) {n : Nat} (calls : cs.length < n) : jsonParse C D n cs = .one t := by
  obtain ⟨w₁, w₂, before, value, after⟩ := document
  have read := derives_readBack value (coded.suffix before.suffix) (loose_of_blanks_nil after) n
    (before.suffix.length_le.trans_lt calls)
  have left : w₂.dropWhile Blank = [] := after.dropWhile_eq fun c head => by cases head
  simp [jsonParse, jsonWs_eq, before.dropWhile_eq (unblank_of_begins value.begins), read, left, jsonEos]

theorem jsonParse_outcome {cs : Text} (coded : Coded cs) {n : Nat} (calls : cs.length < n) :
    (∃ t, Document (reading C D) cs t) ∨ Refused (jsonParse C D n cs) ∨ Overflowing C D cs := by
  have before := blanks_dropWhile cs
  have coded₁ := coded.suffix before.suffix
  rcases value_outcome (D := D) (C := C) n coded₁ (before.suffix.length_le.trans_lt calls) with
    ⟨t, w₂, value, read⟩ | ⟨refused⟩ | ⟨stops, fails⟩
  · have after := blanks_dropWhile w₂
    have coded₃ := (coded₁.suffix value.suffix.1).suffix after.suffix
    by_cases ended : w₂.dropWhile Blank = []
    · exact .inl ⟨t, _, w₂, before, value, ended ▸ after⟩
    · refine .inr (.inl ?_)
      unfold jsonParse
      rw [jsonWs_eq, Answers.one_bind, read, Answers.one_bind]
      show Refused (jsonWs w₂ >>= _)
      rw [jsonWs_eq, Answers.one_bind]
      refine Refused.bind ?_ _
      unfold jsonEos
      split
      · next left => exact absurd left ended
      · exact refused_oops _ coded₃
  · refine .inr (.inl ?_)
    unfold jsonParse
    rw [jsonWs_eq, Answers.one_bind]
    exact refused.bind _
  · exact .inr (.inr ⟨_, before, stops⟩)

theorem jsonParse_overflowing {cs : Text} (h : Overflowing C D cs) (coded : Coded cs) {n : Nat}
    (calls : cs.length < n) : jsonParse C D n cs = .fail := by
  obtain ⟨w, before, stops⟩ := h
  have fails := overflow_fails stops (coded.suffix before.suffix) n
    (before.suffix.length_le.trans_lt calls)
  simp [jsonParse, jsonWs_eq, before.dropWhile_eq (unblank_of_begins (overflow_begins stops)), fails]

/-- Doubles that `strtod` reads exactly, from digits and an exponent. -/
def wholeDoubles : Doubles Int :=
  { strtod := fun w => natOf (w.takeWhile Digit) * 10 ^ natOf (w.dropWhile Digit).tail
    value := fun t => Nat.ofDigits 10 t.digits.reverse
    printf := fun _ x => ⟨x < 0, (Nat.digits 10 x.natAbs).reverse, 0⟩
    neg := fun x => -x
    nan := fun _ => false
    infinite := fun _ => false
    negative := fun x => x < 0
    small := fun x => x = 0
    huge := fun x => (2 ^ 53 - 1) * 2 ^ 971 < x
    same := fun x y => x = y
    less := fun x y => x < y }

end Cocolog.Json
