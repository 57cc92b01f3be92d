import Cocolog.Syntax.RawWalk

/-! How far the lexers go. A token that is read ends in the text, past its first byte, and a
block comment the text ends in is the only thing a lexer leaves for the next. -/

set_option linter.all false

namespace Cocolog.Syntax
open Text Lib

variable {ct : Classes} {s : Bytes} {p q : Nat}

theorem peek_eq_end : peek s p = -1 ↔ s.length ≤ p := by
  rw [peek]
  split
  · rename_i past
    exact ⟨fun _ => past, fun _ => rfl⟩
  · rename_i inside
    exact ⟨fun same => by omega, fun past => absurd past inside⟩

theorem lt_of_peek {c : Int} (is : peek s p = c) (some_ : 0 ≤ c) : p < s.length := by
  by_contra past
  rw [peek_eq_end.mpr (by omega)] at is
  omega

theorem cpAt_width (lt : p < s.length) : 0 < (cpAt s p).2 ∧ p + (cpAt s p).2 ≤ s.length := by
  have := utf8Get_next s p
  obtain ⟨c, -, -, le, -⟩ := utf8Get_reads lt
  rw [cpAt]
  dsimp only
  omega

theorem wideAt_le {kind : Nat} (some_ : wideAt ct s p kind ≠ 0) :
    p < s.length ∧ 128 ≤ byte s p ∧ wideAt ct s p kind = (cpAt s p).2 ∧ rdIs ct (cpAt s p).1 kind = true := by
  rw [wideAt] at some_ ⊢
  split
  · rename_i none_
    rw [if_pos none_] at some_
    exact absurd rfl some_
  · rename_i inside
    rw [if_neg inside] at some_
    have is : rdIs ct (cpAt s p).1 kind = true := by
      by_contra other
      exact some_ (if_neg other)
    exact ⟨by omega, by omega, if_pos is, is⟩

/- Runs. -/

theorem runStep_within {test : Int → Bool} {kind : Nat} (no : test (-1) = false) : Within (runStep ct s test kind) s.length := by
  intro p moves
  rw [runStep] at moves ⊢
  split
  · rename_i here
    have : p < s.length := by
      by_contra past
      rw [peek_eq_end.mpr (by omega), no] at here
      cases here
    omega
  · rename_i other
    rw [if_neg other] at moves
    split
    · rename_i low
      exact absurd (if_pos low) moves
    · rename_i high
      rw [if_neg high] at moves
      obtain ⟨lt, -, width, -⟩ := wideAt_le moves
      have := cpAt_width lt
      omega

theorem le_runEnd (ct : Classes) (s : Bytes) (test : Int → Bool) (kind p : Nat) : p ≤ runEnd ct s test kind p :=
  le_stride _ _ p

theorem runEnd_le {test : Int → Bool} {kind : Nat} (no : test (-1) = false) (le : p ≤ s.length) :
    runEnd ct s test kind p ≤ s.length :=
  stride_le (runStep_within no) le

/-- A run that begins takes its first character. -/
theorem lt_runEnd {test : Int → Bool} {kind : Nat} (moves : runStep ct s test kind p ≠ 0) (lt : p < s.length) :
    p < runEnd ct s test kind p :=
  lt_stride moves (by omega)

theorem single_within {test : Nat → Prop} [DecidablePred test] (here : ∀ q, test q → q < s.length) :
    Within (fun q => if test q then 1 else 0) s.length := by
  intro q moves
  have inside : test q := by
    by_contra no
    exact moves (if_neg no)
  have lt := here q inside
  dsimp only
  rw [if_pos inside]
  exact lt

theorem le_asciiEnd (s : Bytes) (test : Int → Bool) (p : Nat) : p ≤ asciiEnd s test p := le_stride _ _ p

theorem asciiEnd_le {test : Int → Bool} (no : test (-1) = false) (le : p ≤ s.length) : asciiEnd s test p ≤ s.length := by
  refine stride_le (single_within fun q here => ?_) le
  by_contra past
  rw [peek_eq_end.mpr (by omega), no] at here
  cases here

theorem lineEnd_bounds (le : p ≤ s.length) : p ≤ lineEnd s p ∧ lineEnd s p ≤ s.length := by
  refine ⟨le_stride _ _ p, stride_le (single_within fun q here => ?_) le⟩
  by_contra past
  exact here.1 (peek_eq_end.mpr (by omega))

theorem blockEnd_within (s : Bytes) :
    Within (fun q => if peek s q ≠ -1 ∧ ¬(peek s q = 42 ∧ peek s (q + 1) = 47) then 1 else 0) s.length := by
  refine single_within fun q here => ?_
  by_contra past
  exact here.1 (peek_eq_end.mpr (by omega))

theorem blockEnd_bounds (le : p ≤ s.length) : p ≤ blockEnd s p ∧ blockEnd s p ≤ s.length :=
  ⟨le_stride _ _ p, stride_le (blockEnd_within s) le⟩

/-- A block comment that does not run to the end ends in its mark. -/
theorem blockEnd_mark (le : p ≤ s.length) (closed : peek s (blockEnd s p) ≠ -1) : blockEnd s p + 2 ≤ s.length := by
  have still := (stride_strides (blockEnd_within s) (Nat.le_refl _) le).stopped
  have mark : peek s (blockEnd s p) = 42 ∧ peek s (blockEnd s p + 1) = 47 := by
    by_contra other
    exact Nat.one_ne_zero ((if_pos ⟨closed, other⟩).symm.trans still)
  have := lt_of_peek mark.2 (by decide)
  omega

/- Layout. -/

/-- A block comment begins at `c` that the text ends in. -/
def Unclosed (s : Bytes) (c : Nat) : Prop := peek s c = 47 ∧ peek s (c + 1) = 42 ∧ peek s (blockEnd s (c + 2)) = -1

/-- The reader's `ecomment` is as before, or a comment at `p` or later. -/
def Opened (s : Bytes) (p ec ec' : Nat) : Prop := ec' = ec ∨ ∃ c, ec' = c + 1 ∧ p ≤ c ∧ Unclosed s c

theorem Opened.refl (s : Bytes) (p ec : Nat) : Opened s p ec ec := .inl rfl

theorem Opened.trans {p p' ec ec' ec'' : Nat} (first : Opened s p ec ec') (le : p ≤ p') (then_ : Opened s p' ec' ec'') :
    Opened s p ec ec'' := by
  rcases then_ with rfl | ⟨c, is, past, open_⟩
  · exact first
  · exact .inr ⟨c, is, by omega, open_⟩

theorem Opened.from_ {p p' ec ec' : Nat} (le : p ≤ p') (later : Opened s p' ec ec') : Opened s p ec ec' :=
  (Opened.refl s p ec).trans le later

theorem skipLayout_bounds (turns : Nat) (k : Skipped) (le : k.pos ≤ s.length) :
    k.pos ≤ (skipLayout ct s turns k).pos ∧ (skipLayout ct s turns k).pos ≤ s.length ∧
      Opened s k.pos k.ecomment (skipLayout ct s turns k).ecomment := by
  induction turns generalizing k with
  | zero => exact ⟨Nat.le_refl _, le, .refl s _ _⟩
  | succ turns ih =>
    -- every piece of layout leads on, and only an unclosed comment says more
    have onward : ∀ k' : Skipped, k.pos ≤ k'.pos → k'.pos ≤ s.length → Opened s k.pos k.ecomment k'.ecomment →
        k.pos ≤ (skipLayout ct s turns k').pos ∧ (skipLayout ct s turns k').pos ≤ s.length ∧
          Opened s k.pos k.ecomment (skipLayout ct s turns k').ecomment := by
      intro k' after inside opened
      obtain ⟨more, le, later⟩ := ih k' inside
      exact ⟨Nat.le_trans after more, le, opened.trans after later⟩
    rw [skipLayout]
    dsimp only
    split
    · rename_i space
      have lt : k.pos < s.length := by
        by_contra past
        rw [peek_eq_end.mpr (by omega)] at space
        cases space
      exact onward _ (Nat.le_succ _) lt (.refl s _ _)
    · split
      · have bounds := lineEnd_bounds le
        exact onward _ bounds.1 bounds.2 (.refl s _ _)
      · split
        · rename_i mark
          have lt := lt_of_peek mark.2 (by decide)
          have bounds := blockEnd_bounds (s := s) (p := k.pos + 2) lt
          split
          · rename_i closed
            have fits := blockEnd_mark (s := s) (p := k.pos + 2) lt closed
            exact onward _ (by dsimp only; omega) fits (.refl s _ _)
          · rename_i unclosed
            rw [not_not] at unclosed
            exact onward _ (by dsimp only; omega) bounds.2 (.inr ⟨k.pos, rfl, Nat.le_refl _, mark.1, mark.2, unclosed⟩)
        · split
          · exact ⟨Nat.le_refl _, le, .refl s _ _⟩
          · split
            · exact ⟨Nat.le_refl _, le, .refl s _ _⟩
            · rename_i some_
              obtain ⟨lt, -, width, -⟩ := wideAt_le some_
              have := cpAt_width lt
              exact onward _ (Nat.le_add_right _ _) (by dsimp only; omega) (.refl s _ _)

theorem layout_bounds (ct : Classes) (ec : Nat) (le : p ≤ s.length) : p ≤ (layout ct s p ec).pos ∧
    (layout ct s p ec).pos ≤ s.length ∧ Opened s p ec (layout ct s p ec).ecomment :=
  skipLayout_bounds (s.length - p) ⟨p, false, ec⟩ le

/- Escapes and quoted items. -/

theorem escapeDigits_bounds (base most v : Nat) (le : p ≤ s.length) :
    p ≤ (escapeDigits s base most p v).2 ∧ (escapeDigits s base most p v).2 ≤ s.length := by
  induction most generalizing p v with
  | zero => exact ⟨Nat.le_refl p, le⟩
  | succ most ih =>
    rw [escapeDigits]
    split
    · exact ⟨Nat.le_refl p, le⟩
    · rename_i d digit
      have lt : p < s.length := by
        by_contra past
        rw [peek_eq_end.mpr (by omega)] at digit
        cases digit
      split
      · exact ⟨Nat.le_refl p, le⟩
      · have := ih (p := p + 1) (if v ≤ 1114111 then v * base + d else v) lt
        exact ⟨by omega, this.2⟩

theorem closing_bounds (le : p ≤ s.length) : p ≤ closing s p ∧ closing s p ≤ s.length := by
  rw [closing]
  split
  · rename_i backslash
    have := lt_of_peek backslash (by decide)
    omega
  · exact ⟨Nat.le_refl p, le⟩

theorem escaped_ok {v cat next : Nat} {x : Option Nat} (ok : escaped v cat next = .ok (x, q)) : q = next := by
  rw [escaped] at ok
  split at ok
  · cases ok
  · cases ok
    rfl

theorem lexEscape_bounds {x : Option Nat} (ok : lexEscape s p = .ok (x, q)) : p < q ∧ q ≤ s.length := by
  rw [lexEscape] at ok
  dsimp only at ok
  rcases ite_eq_iff.mp ok with ⟨hex, ok⟩ | ⟨_, ok⟩
  · have lt := lt_of_peek hex (by decide)
    split at ok
    · cases ok
    · obtain rfl := escaped_ok ok
      have digits := escapeDigits_bounds (s := s) (p := p + 1) 16 (s.length - (p + 1)) 0 lt
      have := closing_bounds digits.2
      omega
  rcases ite_eq_iff.mp ok with ⟨octal, ok⟩ | ⟨_, ok⟩
  · have lt : p < s.length := by
      by_contra past
      rw [peek_eq_end.mpr (by omega)] at octal
      omega
    obtain rfl := escaped_ok ok
    have first : escapeDigits s 8 (s.length - p) p 0 = escapeDigits s 8 (s.length - p - 1) (p + 1) (peek s p - 48).toNat := by
      obtain ⟨k, room⟩ : ∃ k, s.length - p = k + 1 := ⟨s.length - p - 1, by omega⟩
      have digit : hexDigit (peek s p) = some (peek s p - 48).toNat := by
        rw [hexDigit, if_pos]
        rw [isDigit, decide_eq_true_iff]
        omega
      rw [room, escapeDigits, digit]
      dsimp only
      rw [if_neg (by omega), if_pos (Nat.zero_le _), Nat.zero_mul, Nat.zero_add]
      rfl
    have digits := escapeDigits_bounds (s := s) (p := p + 1) 8 (s.length - p - 1) (peek s p - 48).toNat lt
    rw [← first] at digits
    have := closing_bounds digits.2
    omega
  rcases ite_eq_iff.mp ok with ⟨letter, ok⟩ | ⟨_, ok⟩
  · have lt : p < s.length := by
      rcases letter with u | u
      · exact lt_of_peek u (by decide)
      · exact lt_of_peek u (by decide)
    generalize (if peek s p = 117 then 4 else 8) = want at ok
    split at ok
    · cases ok
    · obtain rfl := escaped_ok ok
      have digits := escapeDigits_bounds (s := s) (p := p + 1) 16 want 0 lt
      omega
  rcases ite_eq_iff.mp ok with ⟨newline, ok⟩ | ⟨_, ok⟩
  · have lt := lt_of_peek newline (by decide)
    cases ok
    have := le_asciiEnd s (fun b => decide (b = 32 ∨ b = 9)) (p + 1)
    exact ⟨by omega, asciiEnd_le (by decide) lt⟩
  rcases ite_eq_iff.mp ok with ⟨c, ok⟩ | ⟨_, ok⟩
  · have lt := lt_of_peek c (by decide)
    cases ok
    have := le_asciiEnd s isSpace (p + 1)
    exact ⟨by omega, asciiEnd_le (by decide) lt⟩
  -- the escapes of one letter
  have letter : ∀ {next : Nat}, peek s p ≠ -1 → next = p + 1 → p < next ∧ next ≤ s.length := by
    intro next some_ is
    rw [Ne, peek_eq_end] at some_
    omega
  rcases ite_eq_iff.mp ok with ⟨e, ok⟩ | ⟨_, ok⟩
  · cases ok
    exact letter (by omega) rfl
  rcases ite_eq_iff.mp ok with ⟨e, ok⟩ | ⟨_, ok⟩
  · cases ok
    exact letter (by omega) rfl
  rcases ite_eq_iff.mp ok with ⟨e, ok⟩ | ⟨_, ok⟩
  · cases ok
    exact letter (by omega) rfl
  split at ok
  · cases ok
  · rename_i e known
    refine letter (fun none_ => ?_) (escaped_ok ok)
    rw [none_] at known
    cases known

theorem lexQuoted_bounds {chars : Bool} {tstart turns : Nat} {quote : Int} {text out : Bytes} (some_ : 0 ≤ quote)
    (ok : lexQuoted s chars tstart quote turns p text = .ok (out, q)) : p < q ∧ q ≤ s.length := by
  induction turns generalizing p text with
  | zero => cases ok
  | succ turns ih =>
    rw [lexQuoted] at ok
    split at ok
    · cases ok
    · rename_i inside
      rw [peek_eq_end] at inside
      split at ok
      · split at ok
        · have := ih ok
          omega
        · cases ok
          omega
      · split at ok
        · split at ok
          · cases ok
          · rename_i next escape
            have := lexEscape_bounds escape
            have := ih ok
            omega
          · rename_i v next escape
            have := lexEscape_bounds escape
            have := ih ok
            omega
        · have := ih ok
          omega

/- Numbers. -/

theorem lt_of_digit {radix : Nat} (some_ : (radixDigit (peek s p) radix).isSome = true) : p < s.length := by
  by_contra past
  rw [peek_eq_end.mpr (by omega)] at some_
  cases some_

theorem lt_of_isDigit (digit : isDigit (peek s p) = true) : p < s.length := by
  by_contra past
  rw [peek_eq_end.mpr (by omega)] at digit
  cases digit

theorem lexGroup_bounds (radix ec : Nat) (le : p ≤ s.length) :
    (∀ q, (lexGroup ct s radix p ec).1 = some q → p < q ∧ q < s.length) ∧ Opened s p ec (lexGroup ct s radix p ec).2 := by
  rw [lexGroup]
  split
  · rename_i mark
    have lt := lt_of_peek mark (by decide)
    have bounds := layout_bounds ct (s := s) (p := p + 1) ec lt
    refine ⟨fun q on => ?_, bounds.2.2.from_ (Nat.le_succ p)⟩
    dsimp only at on
    split at on
    · rename_i digit
      cases on
      exact ⟨bounds.1, lt_of_digit digit⟩
    · cases on
  · split
    · refine ⟨fun q on => ?_, .refl s p ec⟩
      split at on
      · rename_i digit
        cases on
        exact ⟨Nat.lt_succ_self p, lt_of_digit digit⟩
      · cases on
    · refine ⟨fun q on => ?_, .refl s p ec⟩
      cases on

theorem radixDigits_bounds (radix turns : Nat) (g : Digits) (le : g.pos ≤ s.length) :
    g.pos ≤ (radixDigits ct s radix turns g).pos ∧ (radixDigits ct s radix turns g).pos ≤ s.length ∧
      Opened s g.pos g.ecomment (radixDigits ct s radix turns g).ecomment := by
  induction turns generalizing g with
  | zero => exact ⟨Nat.le_refl _, le, .refl s _ _⟩
  | succ turns ih =>
    rw [radixDigits]
    split
    · rename_i d digit
      have lt := @lt_of_digit s g.pos radix (by rw [digit]; rfl)
      obtain ⟨after, inside, opened⟩ := ih { g with
        n := g.n + 1
        v := (if g.wide then (g.v, true) else magDigit g.v radix d).1
        wide := (if g.wide then (g.v, true) else magDigit g.v radix d).2
        pos := g.pos + 1 } lt
      exact ⟨Nat.le_trans (Nat.le_succ _) after, inside, opened.from_ (Nat.le_succ _)⟩
    · split
      · exact ⟨Nat.le_refl _, le, .refl s _ _⟩
      · obtain ⟨onward, opened⟩ := @lexGroup_bounds ct _ _ radix g.ecomment le
        split
        · rename_i ec none_
          rw [none_] at opened
          exact ⟨Nat.le_refl _, le, opened⟩
        · rename_i q ec some_
          rw [some_] at onward opened
          have := onward q rfl
          obtain ⟨after, inside, later⟩ := ih { g with pos := q, ecomment := ec } (by dsimp only; omega)
          exact ⟨Nat.le_trans (by dsimp only; omega) after, inside, opened.trans (by dsimp only; omega) later⟩

theorem lexRadixDigits_bounds (radix ec : Nat) (le : p ≤ s.length) : p ≤ (lexRadixDigits ct s radix p ec).pos ∧
    (lexRadixDigits ct s radix p ec).pos ≤ s.length ∧ Opened s p ec (lexRadixDigits ct s radix p ec).ecomment :=
  radixDigits_bounds radix (s.length - p) ⟨0, 0, false, p, ec⟩ le

theorem decimalDigits_bounds (turns : Nat) (g : Decimal) (le : g.pos ≤ s.length) :
    g.pos ≤ (decimalDigits ct s turns g).pos ∧ (decimalDigits ct s turns g).pos ≤ s.length ∧
      Opened s g.pos g.ecomment (decimalDigits ct s turns g).ecomment := by
  induction turns generalizing g with
  | zero => exact ⟨Nat.le_refl _, le, .refl s _ _⟩
  | succ turns ih =>
    rw [decimalDigits]
    split
    · rename_i digit
      have lt := lt_of_isDigit digit
      obtain ⟨after, inside, opened⟩ := ih { g with text := g.text ++ [s.getD g.pos 0], pos := g.pos + 1 } lt
      exact ⟨Nat.le_trans (Nat.le_succ _) after, inside, opened.from_ (Nat.le_succ _)⟩
    · obtain ⟨onward, opened⟩ := @lexGroup_bounds ct _ _ 10 g.ecomment le
      split
      · rename_i ec none_
        rw [none_] at opened
        exact ⟨Nat.le_refl _, le, opened⟩
      · rename_i q ec some_
        rw [some_] at onward opened
        have := onward q rfl
        obtain ⟨after, inside, later⟩ := ih { g with grouped := true, pos := q, ecomment := ec } (by dsimp only; omega)
        exact ⟨Nat.le_trans (by dsimp only; omega) after, inside, opened.trans (by dsimp only; omega) later⟩

variable {F : Type}

def Token.isNumber : Token F → Bool
  | .int .. | .flt .. | .rat .. => true
  | _ => false

/-- What is read is a number that ends in the text, at `p` or later. -/
def EndsNumber (s : Bytes) (p : Nat) (x : Except Fail (Token F × Nat)) : Prop :=
  ∀ tok q, x = .ok (tok, q) → tok.isNumber = true ∧ p ≤ q ∧ q ≤ s.length

theorem EndsNumber.error (s : Bytes) (p : Nat) (f : Fail) : EndsNumber s p (.error f : Except Fail (Token F × Nat)) :=
  fun _ _ is => nomatch is

theorem EndsNumber.at_ {tok : Token F} (number : tok.isNumber = true) (le : p ≤ q) (inside : q ≤ s.length) :
    EndsNumber s p (.ok (tok, q)) := by
  intro tok' q' is
  cases is
  exact ⟨number, le, inside⟩

theorem EndsNumber.from_ {p' : Nat} {x : Except Fail (Token F × Nat)} (le : p ≤ p') (ends : EndsNumber s p' x) :
    EndsNumber s p x := by
  intro tok q is
  obtain ⟨number, after, inside⟩ := ends tok q is
  exact ⟨number, Nat.le_trans le after, inside⟩

theorem magToken_number (v : Nat) (wide : Bool) : (magToken v wide : Token F).isNumber = true := by
  rw [magToken]
  split
  · rfl
  · split
    · rfl
    · rfl

theorem floatTag_inside (tagged : floatTag ct s p ≠ 0) : p + 3 ≤ s.length := by
  rw [floatTag] at tagged
  split at tagged
  · exact absurd rfl tagged
  · split at tagged
    · exact absurd rfl tagged
    · split at tagged
      · rename_i inf
        exact lt_of_peek inf.2.2 (by decide)
      · split at tagged
        · rename_i nan
          exact lt_of_peek nan.2.2 (by decide)
        · exact absurd rfl tagged

variable (D : Doubles F)

theorem lexFloat_ends {tstart tag : Nat} (text : Bytes) (le : p ≤ s.length) (known : tag = 0 ∨ p + 3 ≤ s.length) :
    EndsNumber s p (lexFloat D tstart text tag p) := by
  rw [lexFloat]
  split
  · exact .error s p _
  · split
    · exact .at_ rfl (Nat.le_refl p) le
    · rename_i some_
      split
      · exact .error s p _
      · refine .at_ rfl (Nat.le_add_right p 3) ?_
        rcases known with rfl | fits
        · exact absurd (show keptTag D (D.strtod text) 0 = 0 by rw [keptTag, ite_self]) some_
        · exact fits

theorem lexFraction_bounds {g : Decimal} {text : Bytes} {tag : Nat} (is : lexFraction ct s g = some (text, q, tag)) :
    g.pos < q ∧ q ≤ s.length ∧ tag = floatTag ct s q := by
  rw [lexFraction] at is
  split at is
  · rename_i point
    have lt := lt_of_isDigit point.2
    cases is
    have := le_asciiEnd s isDigit (g.pos + 1)
    exact ⟨by omega, asciiEnd_le (by decide) (by omega), rfl⟩
  · cases is

theorem lexExponent_bounds (is : lexExponent s p = some q) : p < q ∧ q ≤ s.length := by
  rw [lexExponent] at is
  split at is
  · dsimp only at is
    generalize (if peek s (p + 1) = 43 ∨ peek s (p + 1) = 45 then 2 else 1) = off at is
    split at is
    · rename_i letter digit
      have lt := lt_of_isDigit digit
      have first : p < p + off := by
        by_contra none_
        have : off = 0 := by omega
        rw [this, Nat.add_zero] at digit
        rcases letter with e | e
        · rw [e] at digit
          cases digit
        · rw [e] at digit
          cases digit
      cases is
      have := le_asciiEnd s isDigit (p + off)
      exact ⟨by omega, asciiEnd_le (by decide) (by omega)⟩
    · cases is
  · cases is

theorem lexDecimalRest_ends (ct : Classes) (tstart : Nat) (g : Decimal) (le : g.pos ≤ s.length) :
    EndsNumber s g.pos (lexDecimalRest D ct s tstart g).result ∧
      Opened s g.pos g.ecomment (lexDecimalRest D ct s tstart g).ecomment := by
  rw [lexDecimalRest]
  split
  · rename_i r
    have lt := lt_of_peek r.1 (by decide)
    obtain ⟨after, inside, opened⟩ := @lexRadixDigits_bounds ct s (g.pos + 1) 10 g.ecomment lt
    refine ⟨?_, opened.from_ (Nat.le_succ _)⟩
    dsimp only
    split
    · exact .error s _ _
    · split
      · exact .error s _ _
      · exact .at_ rfl (by omega) inside
  · split
    · rename_i text p tag fraction
      obtain ⟨after, inside, is⟩ := lexFraction_bounds fraction
      split
      · split
        · rename_i q exponent
          have := lexExponent_bounds exponent
          exact ⟨(lexFloat_ends D _ this.2 (.inl rfl)).from_ (by omega), .refl s _ _⟩
        · exact ⟨(lexFloat_ends D _ inside (.inl rfl)).from_ (by omega), .refl s _ _⟩
      · rename_i tagged
        rw [is] at tagged
        exact ⟨(lexFloat_ends D _ inside (.inr (floatTag_inside tagged))).from_ (by omega), .refl s _ _⟩
    · split
      · rename_i q exponent
        split at exponent
        · cases exponent
        · have := lexExponent_bounds exponent
          exact ⟨(lexFloat_ends D _ this.2 (.inl rfl)).from_ (by omega), .refl s _ _⟩
      · exact ⟨.at_ (magToken_number _ _) (Nat.le_refl _) le, .refl s _ _⟩

theorem lexCharCode_ends (chars : Bool) (tstart : Nat) :
    EndsNumber s (tstart + 3) (lexCharCode s chars tstart : Except Fail (Token F × Nat)) := by
  rw [lexCharCode]
  split
  · exact .error s _ _
  · rename_i inside
    rw [peek_eq_end] at inside
    have width := cpAt_width (s := s) (p := tstart + 2) (by omega)
    rw [cpAt] at width
    dsimp only at width
    have onward := utf8Get_next s (tstart + 2)
    -- two characters after the quote
    have two : ∀ {c : Int}, peek s (tstart + 2 + 1) = c → 0 ≤ c → tstart + 2 + 2 ≤ s.length := fun is some_ => lt_of_peek is some_
    split
    · exact .at_ rfl (by omega) (by omega)
    · split
      · rename_i pair
        exact .at_ rfl (by omega) (two pair.2 (by decide))
      · split
        · rename_i pair
          exact .at_ rfl (by omega) (two pair.2 (by decide))
        · split
          · rename_i pair
            exact .at_ rfl (by omega) (two pair.2 (by decide))
          · split
            · split
              · exact .error s _ _
              · exact .error s _ _
              · rename_i v q escape
                have := lexEscape_bounds escape
                exact .at_ rfl (by omega) this.2
            · exact .at_ rfl (by omega) (by omega)

theorem lexRadix_ends (ct : Classes) (tstart radix ec : Nat) (le : p ≤ s.length) :
    EndsNumber s p (lexRadix ct s tstart radix p ec : Lexed F).result ∧
      Opened s p ec (lexRadix ct s tstart radix p ec : Lexed F).ecomment := by
  obtain ⟨after, inside, opened⟩ := @lexRadixDigits_bounds ct _ _ radix ec le
  rw [lexRadix]
  refine ⟨?_, opened⟩
  dsimp only
  split
  · exact .error s _ _
  · exact .at_ (magToken_number _ _) after inside

/-- A number that begins with a digit ends past it. -/
theorem lexNumber_ends (ct : Classes) (chars : Bool) (ec : Nat) (digit : isDigit (peek s p) = true) :
    EndsNumber s (p + 1) (lexNumber D ct s chars p ec).result ∧ Opened s p ec (lexNumber D ct s chars p ec).ecomment := by
  have lt := lt_of_isDigit digit
  rw [lexNumber]
  split
  · exact ⟨(lexCharCode_ends chars p).from_ (by omega), .refl s _ _⟩
  · split
    · rename_i base letter
      have two : p + 2 ≤ s.length := by
        split at letter
        · by_contra past
          rw [peek_eq_end.mpr (by omega)] at letter
          cases letter
        · cases letter
      obtain ⟨ends, opened⟩ := lexRadix_ends (F := F) (s := s) (p := p + 2) ct p base ec two
      exact ⟨ends.from_ (by omega), opened.from_ (by omega)⟩
    · have first : decimalDigits ct s (s.length - p) ⟨[], false, p, ec⟩
          = decimalDigits ct s (s.length - p - 1) ⟨[s.getD p 0], false, p + 1, ec⟩ := by
        obtain ⟨k, room⟩ : ∃ k, s.length - p = k + 1 := ⟨s.length - p - 1, by omega⟩
        rw [room, decimalDigits, if_pos digit]
        rfl
      obtain ⟨after, inside, opened⟩ := @decimalDigits_bounds ct _ (s.length - p - 1) ⟨[s.getD p 0], false, p + 1, ec⟩ lt
      rw [← first] at after inside opened
      dsimp only at after opened ⊢
      have opened := opened.from_ (Nat.le_succ p)
      split
      · rename_i radix quoted
        have quote : (decimalDigits ct s (s.length - p) ⟨[], false, p, ec⟩).pos + 1 ≤ s.length := by
          rw [quotedRadix] at quoted
          split at quoted
          · rename_i mark
            exact lt_of_peek mark.2.1 (by decide)
          · cases quoted
        obtain ⟨ends, later⟩ := lexRadix_ends (F := F) ct p radix
          (decimalDigits ct s (s.length - p) ⟨[], false, p, ec⟩).ecomment quote
        exact ⟨ends.from_ (by omega), opened.trans (by omega) later⟩
      · obtain ⟨ends, later⟩ := lexDecimalRest_ends D ct p _ inside
        exact ⟨ends.from_ after, opened.trans (by omega) later⟩

/- Tokens that begin past ASCII. -/

theorem utf8Get_high (high : 128 ≤ byte s p) : 128 ≤ (utf8Get s p).1 := by
  rw [utf8Get, if_neg (by omega)]
  split
  · show (128 : Int) ≤ ((56320 + byte s p : Nat) : Int)
    omega
  · rename_i bits need low led
    have least : 128 ≤ low := by
      rw [lead] at led
      split at led
      · cases led
        decide
      · split at led
        · cases led
          decide
        · split at led
          · cases led
            decide
          · cases led
    split
    · show (128 : Int) ≤ ((56320 + byte s p : Nat) : Int)
      omega
    · split
      · show (128 : Int) ≤ ((56320 + byte s p : Nat) : Int)
        omega
      · split
        · show (128 : Int) ≤ ((56320 + byte s p : Nat) : Int)
          omega
        · rename_i cp _ fits
          show (128 : Int) ≤ (cp : Int)
          omega

theorem codesOn_bounds (k : Nat) (le : p ≤ s.length) : p ≤ codesOn s k p ∧ codesOn s k p ≤ s.length := by
  induction k generalizing p with
  | zero => exact ⟨Nat.le_refl p, le⟩
  | succ k ih =>
    rw [codesOn]
    split
    · exact ⟨Nat.le_refl p, le⟩
    · rename_i inside
      obtain ⟨c, -, -, next, -⟩ := utf8Get_reads (s := s) (k := p) (by omega)
      have := utf8Get_next s p
      have := ih next
      exact ⟨by omega, this.2⟩

theorem lt_codesOn {k : Nat} (some_ : 0 < k) (lt : p < s.length) : p < codesOn s k p := by
  obtain ⟨k, rfl⟩ : ∃ j, k = j + 1 := ⟨k - 1, by omega⟩
  obtain ⟨c, -, -, next, -⟩ := utf8Get_reads lt
  have := utf8Get_next s p
  have := codesOn_bounds (s := s) k next
  rw [codesOn, if_neg (by omega)]
  omega

theorem widened_number {tok : Token F} (number : tok.isNumber = true) : tok.widened.isNumber = true := by
  cases tok with
  | int => rfl
  | flt => rfl
  | rat => rfl
  | _ => cases number

/-- The copy begins with a digit. -/
theorem wideCopy_first {turns : Nat} {weight : Nat} (high : 128 ≤ byte s p)
    (some_ : wideCopy s ((cpAt s p).1 - weight) turns p ≠ []) :
    isDigit (peek (wideCopy s ((cpAt s p).1 - weight) turns p) 0) = true := by
  cases turns with
  | zero => exact absurd rfl some_
  | succ turns =>
    have code := utf8Get_high high
    rw [wideCopy] at some_ ⊢
    split
    · rename_i past
      rw [if_pos past] at some_
      exact absurd rfl some_
    · rename_i inside
      rw [if_neg inside] at some_
      dsimp only at some_ ⊢
      split
      · rename_i near
        have back : ((cpAt s p).1 - ((cpAt s p).1 - (weight : Int))).toNat = weight := by omega
        have digit : (UInt8.ofNat (48 + weight)).toNat = 48 + weight := by
          rw [UInt8.toNat_ofNat', Nat.mod_eq_of_lt (by omega)]
        rw [back, peek, if_neg (by simp), byte, List.getD_cons_zero, digit, isDigit, decide_eq_true_iff]
        omega
      · rename_i far
        rw [if_neg far, if_neg (by rw [cpAt]; dsimp only; omega)] at some_
        exact absurd rfl some_

theorem lexWideNumber_ends (ct : Classes) (chars : Bool) (lt : p < s.length) (high : 128 ≤ byte s p) :
    EndsNumber s (p + 1) (lexWideNumber D ct s chars p) := by
  rw [lexWideNumber]
  split
  · exact .error s _ _
  · rename_i some_
    have digit := wideCopy_first high some_
    have ends := (lexNumber_ends D ct chars 0 digit).1
    split
    · exact .error s _ _
    · rename_i tok k read
      obtain ⟨number, after, -⟩ := ends tok k read
      exact .at_ (widened_number number) (lt_codesOn (by omega) lt) (codesOn_bounds k (by omega)).2

/- Tokens. -/

/-- What is read is a token that ends in the text, at `p` or later. -/
def EndsToken (s : Bytes) (p : Nat) (x : Except Fail (Token F × Nat)) : Prop :=
  ∀ tok q, x = .ok (tok, q) → tok.isEof = false ∧ p ≤ q ∧ q ≤ s.length

theorem EndsToken.error (s : Bytes) (p : Nat) (f : Fail) : EndsToken s p (.error f : Except Fail (Token F × Nat)) :=
  fun _ _ is => nomatch is

theorem EndsToken.at_ {tok : Token F} (some_ : tok.isEof = false) (le : p ≤ q) (inside : q ≤ s.length) :
    EndsToken s p (.ok (tok, q)) := by
  intro tok' q' is
  cases is
  exact ⟨some_, le, inside⟩

theorem EndsNumber.token {x : Except Fail (Token F × Nat)} (ends : EndsNumber s p x) : EndsToken s p x := by
  intro tok q is
  obtain ⟨number, after, inside⟩ := ends tok q is
  refine ⟨?_, after, inside⟩
  cases tok with
  | eof => cases number
  | _ => rfl

/-- A symbol past ASCII begins a run of them. -/
theorem symbol_moves (lt : p < s.length) (high : 128 ≤ byte s p) (symbol : ct.flags (cpAt s p).1 &&& 2 ≠ 0) :
    runStep ct s isSymbol 2 p ≠ 0 := by
  have width := cpAt_width lt
  have code : 128 ≤ (cpAt s p).1 := utf8Get_high high
  have wide : wideAt ct s p 2 = (cpAt s p).2 := by
    rw [wideAt, if_neg (by omega), if_pos]
    rw [rdIs, if_neg (by omega), if_neg (by omega)]
    simpa using symbol
  have past : ¬peek s p < 128 := by
    rw [peek, if_neg (by omega)]
    omega
  rw [runStep, if_neg past, wide]
  split
  · decide
  · omega

theorem lexWideToken_ends (ct : Classes) (chars : Bool) (lt : p < s.length) (high : 128 ≤ byte s p) :
    EndsToken s (p + 1) (lexWideToken D ct s chars p) := by
  have width := cpAt_width lt
  have code : 128 ≤ (cpAt s p).1 := utf8Get_high high
  rw [lexWideToken]
  dsimp only
  split
  · exact .error s _ _
  · split
    · have after := le_runEnd ct s isAlnum 8 (p + (cpAt s p).2)
      refine .at_ ?_ (by omega) (runEnd_le (by decide) (by omega))
      split
      · rfl
      · rfl
    · split
      · rename_i symbol
        have moves := @symbol_moves ct _ _ lt high symbol
        exact .at_ rfl (lt_runEnd moves lt) (runEnd_le (by decide) (by omega))
      · split
        · exact (lexWideNumber_ends D ct chars lt high).token
        · exact .at_ rfl (by omega) width.2

theorem lexed_ite {c : Prop} [Decidable c] {t e : Lexed F} {ec : Nat}
    (yes : c → EndsToken s p t.result ∧ Opened s p ec t.ecomment)
    (no : ¬c → EndsToken s p e.result ∧ Opened s p ec e.ecomment) :
    EndsToken s p (if c then t else e).result ∧ Opened s p ec (if c then t else e).ecomment := by
  split
  · rename_i holds
    exact yes holds
  · rename_i fails
    exact no fails

/-- A token read at `p` ends in the text past its first byte, or is the end of the text. -/
theorem lexToken_ends (ct : Classes) (chars : Bool) (ec : Nat) (lt : p < s.length) :
    EndsToken s (p + 1) (lexToken D ct s chars p ec).result ∧ Opened s (p + 1) ec (lexToken D ct s chars p ec).ecomment := by
  have some_ : peek s p ≠ -1 := fun none_ => by
    rw [peek_eq_end] at none_
    omega
  have quoted : ∀ (quote : Int) (f : Bytes × Nat → Token F × Nat), 0 ≤ quote →
      (∀ x, (f x).1.isEof = false ∧ (f x).2 = x.2) →
      EndsToken s (p + 1) ((lexQuoted s chars p quote (s.length - p) (p + 1) []).map f) := by
    intro quote f pos known tok q is
    cases read : lexQuoted s chars p quote (s.length - p) (p + 1) [] with
    | error e =>
      rw [read] at is
      cases is
    | ok x =>
      rw [read] at is
      have bounds := lexQuoted_bounds (q := x.2) pos read
      obtain ⟨token, place⟩ := known x
      injection is with is
      rw [is] at token place
      dsimp only at token place
      exact ⟨token, by omega, by omega⟩
  have alnum : ∀ {test : Int → Bool}, test (peek s p) = true → (∀ c, test c = true → isAlnum c = true) →
      p < runEnd ct s isAlnum 8 p := by
    intro test here implies
    refine lt_runEnd ?_ lt
    rw [runStep, if_pos (implies _ here)]
    decide
  have inside : ∀ {test : Int → Bool} {kind : Nat}, test (-1) = false → runEnd ct s test kind p ≤ s.length := fun no =>
    runEnd_le no (by omega)
  rw [lexToken, if_neg some_]
  refine lexed_ite (fun digit => ?_) fun _ => ?_
  · obtain ⟨ends, opened⟩ := lexNumber_ends D ct chars ec digit
    refine ⟨ends.token, ?_⟩
    -- the first byte is a digit, so the comment begins past it
    rcases opened with same | ⟨c, is, past, open_⟩
    · exact .inl same
    · refine .inr ⟨c, is, ?_, open_⟩
      rcases Nat.eq_or_lt_of_le past with here | later
      · rw [here, open_.1] at digit
        cases digit
      · exact later
  refine lexed_ite (fun lower => ?_) fun _ => ?_
  · refine ⟨.at_ rfl (alnum lower fun c is => ?_) (inside (by decide)), .refl s _ ec⟩
    rw [isLower, decide_eq_true_iff] at is
    rw [isAlnum, decide_eq_true_iff]
    omega
  refine lexed_ite (fun upper => ?_) fun _ => ?_
  · refine ⟨.at_ rfl (alnum upper fun c is => ?_) (inside (by decide)), .refl s _ ec⟩
    rw [isUpper, decide_eq_true_iff] at is
    rw [isAlnum, decide_eq_true_iff]
    omega
  refine lexed_ite (fun _ => ?_) fun _ => ?_
  · exact ⟨quoted 39 _ (by decide) fun x => ⟨rfl, rfl⟩, .refl s _ ec⟩
  refine lexed_ite (fun _ => ?_) fun _ => ?_
  · exact ⟨quoted 34 _ (by decide) fun x => ⟨rfl, rfl⟩, .refl s _ ec⟩
  refine lexed_ite (fun _ => ?_) fun _ => ?_
  · exact ⟨quoted 96 _ (by decide) fun x => ⟨rfl, rfl⟩, .refl s _ ec⟩
  refine lexed_ite (fun _ => ?_) fun _ => ?_
  · exact ⟨.at_ rfl (Nat.le_refl _) lt, .refl s _ ec⟩
  refine lexed_ite (fun _ => ?_) fun _ => ?_
  · exact ⟨.at_ rfl (Nat.le_refl _) lt, .refl s _ ec⟩
  refine lexed_ite (fun symbol => ?_) fun _ => ?_
  · refine ⟨.at_ ?_ (lt_runEnd ?_ lt) (inside (by decide)), .refl s _ ec⟩
    · split
      · rfl
      · rfl
    · rw [runStep, if_pos symbol]
      decide
  refine lexed_ite (fun high => ?_) fun _ => ?_
  · rw [peek, if_neg (by omega)] at high
    exact ⟨lexWideToken_ends D ct chars lt (by omega), .refl s _ ec⟩
  · exact ⟨.error s _ _, .refl s _ ec⟩

/-- The token after `pos`: it begins there and ends in the text, and one that does not read begins
at `lo` or later. -/
structure Onward (s : Bytes) (lo pos : Nat) (n : Next F) : Prop where
  begins : lo ≤ n.tstart
  inside : n.tstart ≤ s.length
  read : ∀ tok q, n.lexed.result = .ok (tok, q) → pos ≤ n.tstart ∧ n.tstart ≤ q ∧ q ≤ s.length ∧
    (tok.isEof = false → n.tstart < q) ∧ (tok.isEof = true → n.tstart = s.length)
  failed : ∀ f, n.lexed.result = .error f → n.tstart < s.length
  opened : Opened s (n.tstart + 1) 0 n.lexed.ecomment

theorem unclosed_lt {c : Nat} (open_ : Unclosed s c) : c < s.length := lt_of_peek open_.1 (by decide)

/-- A comment the text ends in is the token there. -/
theorem Onward.unclosed {lo pos c : Nat} {any : Bool} {f : Fail} (le : lo ≤ c) (open_ : Unclosed s c) :
    Onward s lo pos ⟨any, c, ⟨.error f, 0⟩⟩ (F := F) where
  begins := le
  inside := Nat.le_of_lt (unclosed_lt open_)
  read := fun _ _ no => (nomatch no)
  failed := fun _ _ => unclosed_lt open_
  opened := .inl rfl

theorem nextToken_onward (ct : Classes) (chars : Bool) {lo pos ec : Nat} (before : lo ≤ pos) (le : pos ≤ s.length)
    (pending : Opened s lo 0 ec) : Onward s lo pos (nextToken D ct s chars pos ec) := by
  obtain ⟨after, inside, later⟩ := layout_bounds ct (s := s) (p := pos) ec le
  rw [nextToken]
  split
  · rename_i some_
    rcases pending.trans before later with none_ | ⟨c, is, past, open_⟩
    · exact absurd none_ some_
    · rw [is]
      exact .unclosed past open_
  · rename_i none_
    rw [not_not] at none_
    rw [none_]
    by_cases lt : (layout ct s pos ec).pos < s.length
    · obtain ⟨ends, opened⟩ := lexToken_ends D ct chars 0 lt
      refine ⟨by dsimp only; omega, inside, fun tok q read => ?_, fun f _ => lt, opened⟩
      obtain ⟨token, past, le⟩ := ends tok q read
      refine ⟨after, by dsimp only; omega, le, fun _ => past, fun eof => ?_⟩
      rw [token] at eof
      cases eof
    · have here : peek s (layout ct s pos ec).pos = -1 := peek_eq_end.mpr (by omega)
      have token : lexToken D ct s chars (layout ct s pos ec).pos 0 = ⟨.ok (.eof, (layout ct s pos ec).pos), 0⟩ := by
        rw [lexToken]
        dsimp only
        rw [if_pos here]
      rw [token]
      refine ⟨by dsimp only; omega, inside, fun tok q read => ?_, fun f no => (nomatch no), .refl s _ 0⟩
      cases read
      exact ⟨after, Nat.le_refl _, inside, fun no => (nomatch no), fun _ => by dsimp only; omega⟩

end Cocolog.Syntax
