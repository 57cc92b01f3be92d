import Cocolog.Syntax.Chars

/-! The tokenizer: `coco_next_token` and the lexers it calls, over the bytes of the text and
the place of the reader in them. -/

set_option linter.all false

namespace Cocolog.Syntax
open Text Lib

/-- C's doubles: `strtod`, `<`, `==` and a negation that keeps a NaN. -/
structure Doubles (F : Type) where
  strtod : Bytes → F
  less : F → F → Bool
  same : F → F → Bool
  neg : F → F

/-- The token in hand; `wnum` marks a number in another script's digits. -/
inductive Token (F : Type) where
  | eof
  | name (text : Bytes) (quoted : Bool)
  | var (text : Bytes)
  /-- `iwide` 0 is `ival`, 1 exactly 2^63 and 2 more. -/
  | int (ival : Int) (iwide : Nat) (wnum : Bool)
  | flt (fval : F) (wnum : Bool)
  /-- In double quotes, or in back quotes. -/
  | str (text : Bytes) (back : Bool)
  | punct (c : Nat)
  | full
  | rat (n d : Nat) (wnum : Bool)
deriving Repr, DecidableEq

def Token.isEof {F : Type} : Token F → Bool
  | .eof => true
  | _ => false

/-- The token is COCO_TK_END. -/
def Token.isFull {F : Type} : Token F → Bool
  | .full => true
  | _ => false

/-- Why the reader stopped (`ewhat`), where it stood, and the place it gives (`epos`). -/
structure Fail where
  what : String
  offset : Nat
  epos : Nat
deriving Repr, DecidableEq

/-- `coco_fail`. -/
def fail (tstart pos : Nat) (what : String) : Fail := ⟨what, pos, if tstart ≤ pos then tstart else pos⟩

/- Escapes and quoted items. -/

/-- `coco_escape_char`. -/
def escapeChar (c : Int) : Option Nat :=
  if c = 110 then some 10 else if c = 116 then some 9 else if c = 114 then some 13
  else if c = 97 then some 7 else if c = 98 then some 8 else if c = 102 then some 12
  else if c = 118 then some 11 else if c = 48 then some 0 else if c = 92 then some 92
  else if c = 39 then some 39 else if c = 34 then some 34 else none

/-- `coco_radix_digit`. -/
def radixDigit (c : Int) (radix : Nat) : Option Nat :=
  let d : Option Nat :=
    if isDigit c then some (c - 48).toNat
    else if 97 ≤ c ∧ c ≤ 122 then some (10 + (c - 97).toNat)
    else if 65 ≤ c ∧ c ≤ 90 then some (10 + (c - 65).toNat)
    else none
  d.filter (· < radix)

/-- `coco_hex_digit`. -/
def hexDigit (c : Int) : Option Nat :=
  if isDigit c then some (c - 48).toNat
  else if 97 ≤ c ∧ c ≤ 102 then some (10 + (c - 97).toNat)
  else if 65 ≤ c ∧ c ≤ 70 then some (10 + (c - 65).toNat)
  else none

/-- `coco_lex_escape_digits`, `most` of them at most: the value and where they end. -/
def escapeDigits (s : Bytes) (base : Nat) : (most p v : Nat) → Nat × Nat
  | 0, p, v => (v, p)
  | most + 1, p, v =>
    match hexDigit (peek s p) with
    | none => (v, p)
    | some d =>
      if base ≤ d then (v, p)
      else escapeDigits s base most (p + 1) (if v ≤ 1114111 then v * base + d else v)

/-- The closing backslash of `\xHEX\` and `\OCTAL\`, when it is there. -/
def closing (s : Bytes) (p : Nat) : Nat := if peek s p = 92 then p + 1 else p

/-- The code an escape stands for, refused past U+10FFFF and for a surrogate. -/
def escaped (v cat next : Nat) : Except Fail (Option Nat × Nat) :=
  if 1114111 < v ∨ 55296 ≤ v ∧ v ≤ 57343 then .error ⟨"illegal character code", next, cat⟩
  else .ok (some v, next)

/-- `coco_lex_escape`, just past the backslash: no code for a continuation. -/
def lexEscape (s : Bytes) (p : Nat) : Except Fail (Option Nat × Nat) :=
  let c := peek s p
  if c = 120 then
    let (v, q) := escapeDigits s 16 (s.length - (p + 1)) (p + 1) 0
    if q = p + 1 then .error ⟨"undefined escape \\x", q, p⟩ else escaped v (p + 1) (closing s q)
  else if 48 ≤ c ∧ c ≤ 55 then
    let (v, q) := escapeDigits s 8 (s.length - p) p 0
    escaped v p (closing s q)
  else if c = 117 ∨ c = 85 then
    let want := if c = 117 then 4 else 8
    let (v, q) := escapeDigits s 16 want (p + 1) 0
    if q ≠ p + 1 + want then .error ⟨"illegal \\u or \\U sequence", q, p⟩ else escaped v p q
  else if c = 10 then .ok (none, asciiEnd s (fun b => b = 32 ∨ b = 9) (p + 1))
  else if c = 99 then .ok (none, asciiEnd s isSpace (p + 1))
  else if c = 101 then .ok (some 27, p + 1)
  else if c = 115 then .ok (some 32, p + 1)
  else if c = 96 then .ok (some 96, p + 1)
  else
    match escapeChar c with
    | none => .error ⟨"unknown escape", p, p⟩
    | some e => escaped e p (p + 1)

/-- The bytes a code is put as. -/
def codeBytes (chars : Bool) (e : Nat) : Bytes :=
  if e < 128 ∨ !chars ∧ e < 256 then [UInt8.ofNat e] else utf8Enc e

/-- The loop of `coco_lex_quoted`, past the opening quote. -/
def lexQuoted (s : Bytes) (chars : Bool) (tstart : Nat) (quote : Int) : (turns p : Nat) → Bytes → Except Fail (Bytes × Nat)
  | 0, p, _ => .error (fail tstart p "unterminated quoted item")
  | turns + 1, p, text =>
    let c := peek s p
    if c = -1 then .error (fail tstart p "unterminated quoted item")
    else if c = quote then
      if peek s (p + 1) = quote then lexQuoted s chars tstart quote turns (p + 2) (text ++ [s.getD p 0])
      else .ok (text, p + 1)
    else if c = 92 then
      match lexEscape s (p + 1) with
      | .error f => .error f
      | .ok (none, q) => lexQuoted s chars tstart quote turns q text
      | .ok (some e, q) => lexQuoted s chars tstart quote turns q (text ++ codeBytes chars e)
    else lexQuoted s chars tstart quote turns (p + 1) (text ++ [s.getD p 0])

/- Numbers. -/

/-- `coco_mag_digit`: the magnitude, and whether the digit took it past 2^63. -/
def magDigit (v base d : Nat) : Nat × Bool := if (2 ^ 63 - d) / base < v then (v, true) else (v * base + d, false)

variable {F : Type}

/-- `coco_mag_token`. -/
def magToken (v : Nat) (wide : Bool) : Token F :=
  if wide then .int 0 2 false else if 2 ^ 63 - 1 < v then .int 0 1 false else .int v 0 false

/-- `coco_lex_group`: where the digits go on, and the reader's `ecomment`. -/
def lexGroup (ct : Classes) (s : Bytes) (radix p ecomment : Nat) : Option Nat × Nat :=
  if peek s p = 95 then
    let k := layout ct s (p + 1) ecomment
    (if (radixDigit (peek s k.pos) radix).isSome then some k.pos else none, k.ecomment)
  else if peek s p = 32 ∧ radix ≤ 10 then
    (if (radixDigit (peek s (p + 1)) radix).isSome then some (p + 1) else none, ecomment)
  else (none, ecomment)

structure Digits where
  /-- How many digits. -/
  n : Nat
  v : Nat
  wide : Bool
  pos : Nat
  ecomment : Nat
deriving Repr, DecidableEq

/-- The loop of `coco_lex_radix_digits`. -/
def radixDigits (ct : Classes) (s : Bytes) (radix : Nat) : (turns : Nat) → Digits → Digits
  | 0, g => g
  | turns + 1, g =>
    match radixDigit (peek s g.pos) radix with
    | some d =>
      let m := if g.wide then (g.v, true) else magDigit g.v radix d
      radixDigits ct s radix turns { g with n := g.n + 1, v := m.1, wide := m.2, pos := g.pos + 1 }
    | none =>
      if g.n = 0 then g
      else
        match lexGroup ct s radix g.pos g.ecomment with
        | (none, ec) => { g with ecomment := ec }
        | (some q, ec) => radixDigits ct s radix turns { g with pos := q, ecomment := ec }

/-- `coco_lex_radix_digits` from `p` on. -/
def lexRadixDigits (ct : Classes) (s : Bytes) (radix p ecomment : Nat) : Digits :=
  radixDigits ct s radix (s.length - p) ⟨0, 0, false, p, ecomment⟩

/-- The integer part's digits, in the reader's text. -/
structure Decimal where
  text : Bytes
  grouped : Bool
  pos : Nat
  ecomment : Nat
deriving Repr, DecidableEq

/-- The two loops of `coco_lex_number` over the digits and their groups. -/
def decimalDigits (ct : Classes) (s : Bytes) : (turns : Nat) → Decimal → Decimal
  | 0, g => g
  | turns + 1, g =>
    if isDigit (peek s g.pos) then
      decimalDigits ct s turns { g with text := g.text ++ [s.getD g.pos 0], pos := g.pos + 1 }
    else
      match lexGroup ct s 10 g.pos g.ecomment with
      | (none, ec) => { g with ecomment := ec }
      | (some q, ec) => decimalDigits ct s turns { g with grouped := true, pos := q, ecomment := ec }

/-- `coco_mag_digit` over the digits of a text, until one is too many. -/
def magText (v : Nat) : Bytes → Nat × Bool
  | [] => (v, false)
  | d :: ds => if (magDigit v 10 (d.toNat - 48)).2 then magDigit v 10 (d.toNat - 48) else magText (magDigit v 10 (d.toNat - 48)).1 ds

/-- `atoi` of digits. -/
def atoi (ds : Bytes) : Nat := ds.foldl (fun v d => v * 10 + (d.toNat - 48)) 0

/-- `coco_float_tag`: 1 before `Inf`, 2 before `NaN`. -/
def floatTag (ct : Classes) (s : Bytes) (p : Nat) : Nat :=
  if isAlnum (peek s (p + 3)) then 0
  else if wideAt ct s (p + 3) 8 ≠ 0 then 0
  else if peek s p = 73 ∧ peek s (p + 1) = 110 ∧ peek s (p + 2) = 102 then 1
  else if peek s p = 78 ∧ peek s (p + 1) = 97 ∧ peek s (p + 2) = 78 then 2
  else 0

/-- What a lexer leaves: a token and where it ends, and the reader's `ecomment`. -/
structure Lexed (F : Type) where
  result : Except Fail (Token F × Nat)
  ecomment : Nat

/-- A decimal number's fraction: its text and its tag. -/
def lexFraction (ct : Classes) (s : Bytes) (g : Decimal) : Option (Bytes × Nat × Nat) :=
  if peek s g.pos = 46 ∧ isDigit (peek s (g.pos + 1)) then
    let q := asciiEnd s isDigit (g.pos + 1)
    some (g.text ++ slice s g.pos q, q, floatTag ct s q)
  else none

/-- An exponent at `p`: where it ends. -/
def lexExponent (s : Bytes) (p : Nat) : Option Nat :=
  if peek s p = 101 ∨ peek s p = 69 then
    let off := if peek s (p + 1) = 43 ∨ peek s (p + 1) = 45 then 2 else 1
    if isDigit (peek s (p + off)) then some (asciiEnd s isDigit (p + off)) else none
  else none

variable (D : Doubles F)

/-- `NaN` is no part of a number outside 1 and 2. -/
def keptTag (v : F) (tag : Nat) : Nat :=
  let two := D.strtod (ascii "2.0")
  if tag = 2 ∧ (D.less v (D.strtod (ascii "1.0")) ∨ D.less two v ∨ D.same v two) then 0 else tag

/-- The double of a float's text, and whether `Inf` or `NaN` follows it. -/
def lexFloat (tstart : Nat) (text : Bytes) (tag p : Nat) : Except Fail (Token F × Nat) :=
  let v := D.strtod text
  if tag = 0 ∧ D.less (D.strtod (ascii "1.7976931348623157e308")) v then
    .error (fail tstart p "float overflow")
  else if keptTag D v tag = 0 then .ok (.flt v false, p)
  else if keptTag D v tag = 2 ∧ D.same v (D.strtod (ascii "1.0")) then
    .error (fail tstart p "numeric constant out of range")
  else .ok (.flt (D.strtod (ascii (if keptTag D v tag = 1 then "inf" else "nan"))) false, p + 3)

/-- `coco_lex_decimal_rest`. -/
def lexDecimalRest (ct : Classes) (s : Bytes) (tstart : Nat) (g : Decimal) : Lexed F :=
  if peek s g.pos = 114 ∧ isDigit (peek s (g.pos + 1)) then
    let d := lexRadixDigits ct s 10 (g.pos + 1) g.ecomment
    let n := magText 0 g.text
    ⟨if d.n = 0 ∨ d.wide ∨ d.v = 0 then .error (fail tstart d.pos "illegal number")
      else if n.2 ∨ 2 ^ 63 - 1 < n.1 ∨ 2 ^ 63 - 1 < d.v then .error (fail tstart d.pos "integer out of range")
      else .ok (.rat n.1 d.v false, d.pos), d.ecomment⟩
  else
    match lexFraction ct s g with
    | some (text, p, tag) =>
      if tag = 0 then
        match lexExponent s p with
        | some q => ⟨lexFloat D tstart (text ++ slice s p q) 0 q, g.ecomment⟩
        | none => ⟨lexFloat D tstart text 0 p, g.ecomment⟩
      else ⟨lexFloat D tstart text tag p, g.ecomment⟩
    | none =>
      match if g.grouped then none else lexExponent s g.pos with
      | some q => ⟨lexFloat D tstart (g.text ++ slice s g.pos q) 0 q, g.ecomment⟩
      | none => ⟨.ok (magToken (magText 0 g.text).1 (magText 0 g.text).2, g.pos), g.ecomment⟩

/-- `0'c`, the reader at the zero. -/
def lexCharCode (s : Bytes) (chars : Bool) (tstart : Nat) : Except Fail (Token F × Nat) :=
  let p := tstart + 2
  let c := peek s p
  if c = -1 then .error (fail tstart p "unterminated character code")
  else if 128 ≤ c ∧ chars then .ok (.int (utf8Get s p).1 0 false, (utf8Get s p).2)
  else if c = 39 ∧ peek s (p + 1) = 39 then .ok (.int 39 0 false, p + 2)
  else if c = 92 ∧ peek s (p + 1) = 10 then .ok (.int 10 0 false, p + 2)
  else if c = 92 ∧ peek s (p + 1) = 99 then .ok (.int 99 0 false, p + 2)
  else if c = 92 then
    match lexEscape s (p + 1) with
    | .error f => .error f
    | .ok (none, q) => .error (fail tstart q "unterminated character code")
    | .ok (some v, q) => .ok (.int v 0 false, q)
  else .ok (.int c 0 false, p + 1)

/-- The radix a letter after a zero means. -/
def radixLetter (c : Int) : Option Nat :=
  if c = 120 ∨ c = 88 then some 16 else if c = 111 ∨ c = 79 then some 8
  else if c = 98 ∨ c = 66 then some 2 else none

/-- The radix of `R'DIGITS`, its digits plain and a digit of it after the quote. -/
def quotedRadix (s : Bytes) (g : Decimal) : Option Nat :=
  if g.grouped = false ∧ peek s g.pos = 39 ∧ g.text.length ≤ 2 then
    let radix := atoi g.text
    if 2 ≤ radix ∧ radix ≤ 36 ∧ (radixDigit (peek s (g.pos + 1)) radix).isSome then some radix else none
  else none

/-- A number in a radix, its digits from `p` on. -/
def lexRadix (ct : Classes) (s : Bytes) (tstart radix p ecomment : Nat) : Lexed F :=
  let d := lexRadixDigits ct s radix p ecomment
  ⟨if d.n = 0 then .error (fail tstart d.pos "digits expected after radix prefix")
    else .ok (magToken d.v d.wide, d.pos), d.ecomment⟩

/-- `coco_lex_number`. -/
def lexNumber (ct : Classes) (s : Bytes) (chars : Bool) (tstart ecomment : Nat) : Lexed F :=
  if peek s tstart = 48 ∧ peek s (tstart + 1) = 39 then ⟨lexCharCode s chars tstart, ecomment⟩
  else
    match if peek s tstart = 48 then radixLetter (peek s (tstart + 1)) else none with
    | some base => lexRadix ct s tstart base (tstart + 2) ecomment
    | none =>
      let g := decimalDigits ct s (s.length - tstart) ⟨[], false, tstart, ecomment⟩
      match quotedRadix s g with
      | some radix => lexRadix ct s tstart radix (g.pos + 1) g.ecomment
      | none => lexDecimalRest D ct s tstart g

/- Tokens that begin past ASCII. -/

/-- The ASCII characters a number in another script holds: `eErInf+-._ ` and layout. -/
def numberChar (c : Int) : Bool := c ∈ [101, 69, 114, 73, 110, 102, 43, 45, 46, 95, 32] ∨ isSpace c

/-- The copy of `coco_lex_wide_number`, a byte for each code. -/
def wideCopy (s : Bytes) (zero : Int) : (turns p : Nat) → Bytes
  | 0, _ => []
  | turns + 1, p =>
    if s.length ≤ p then []
    else
      let c := (cpAt s p).1
      if zero ≤ c ∧ c ≤ zero + 9 then UInt8.ofNat (48 + (c - zero).toNat) :: wideCopy s zero turns (p + (cpAt s p).2)
      else if c < 128 ∧ numberChar c then UInt8.ofNat c.toNat :: wideCopy s zero turns (p + (cpAt s p).2)
      else []

/-- The place `k` codes on. -/
def codesOn (s : Bytes) : (k q : Nat) → Nat
  | 0, q => q
  | k + 1, q => if s.length ≤ q then q else codesOn s k (utf8Get s q).2

/-- The number of the copy is a number of another script. -/
def Token.widened : Token F → Token F
  | .int v w _ => .int v w true
  | .flt v _ => .flt v true
  | .rat n d _ => .rat n d true
  | t => t

/-- `coco_lex_wide_number`: the reader made on the copy stands at a digit. -/
def lexWideNumber (ct : Classes) (s : Bytes) (chars : Bool) (p : Nat) : Except Fail (Token F × Nat) :=
  let copy := wideCopy s ((cpAt s p).1 - ct.weight (cpAt s p).1) (s.length - p) p
  if copy = [] then .error (fail p p "out of memory")
  else
    match (lexNumber D ct copy chars 0 0).result with
    | .error f => .error ⟨f.what, codesOn s f.epos p, codesOn s f.epos p⟩
    | .ok (t, k) => .ok (t.widened, codesOn s k p)

/-- `coco_lex_wide_token`. -/
def lexWideToken (ct : Classes) (s : Bytes) (chars : Bool) (p : Nat) : Except Fail (Token F × Nat) :=
  let w := (cpAt s p).2
  let f := ct.flags (cpAt s p).1
  if f &&& 64 ≠ 0 then .error (fail p p "unexpected character")
  else if f &&& 4 ≠ 0 then
    let q := runEnd ct s isAlnum 8 (p + w)
    .ok (if f &&& 16 ≠ 0 then .var (slice s p q) else .name (slice s p q) false, q)
  else if f &&& 2 ≠ 0 then
    let q := runEnd ct s isSymbol 2 p
    .ok (.name (slice s p q) false, q)
  else if f &&& 32 ≠ 0 then lexWideNumber D ct s chars p
  else .ok (.name (slice s p (p + w)) false, p + w)

/- The token at the reader. -/

/-- Whether a lone full stop before `p` ends the clause. -/
def clauseEnds (ct : Classes) (s : Bytes) (p : Nat) : Bool :=
  peek s p = -1 ∨ isSpace (peek s p) ∨ peek s p = 37 ∨ wideAt ct s p 1 ≠ 0

/-- The branches of `coco_next_token` on the first character of a token. -/
def lexToken (ct : Classes) (s : Bytes) (chars : Bool) (p ecomment : Nat) : Lexed F :=
  let c := peek s p
  if c = -1 then ⟨.ok (.eof, p), ecomment⟩
  else if isDigit c then lexNumber D ct s chars p ecomment
  else if isLower c then
    let q := runEnd ct s isAlnum 8 p
    ⟨.ok (.name (slice s p q) false, q), ecomment⟩
  else if isUpper c then
    let q := runEnd ct s isAlnum 8 p
    ⟨.ok (.var (slice s p q), q), ecomment⟩
  else if c = 39 then
    ⟨(lexQuoted s chars p 39 (s.length - p) (p + 1) []).map fun x => (.name x.1 true, x.2), ecomment⟩
  else if c = 34 then
    ⟨(lexQuoted s chars p 34 (s.length - p) (p + 1) []).map fun x => (.str x.1 false, x.2), ecomment⟩
  else if c = 96 then
    ⟨(lexQuoted s chars p 96 (s.length - p) (p + 1) []).map fun x => (.str x.1 true, x.2), ecomment⟩
  else if c ∈ [40, 41, 91, 93, 123, 125, 44, 124] then ⟨.ok (.punct c.toNat, p + 1), ecomment⟩
  else if c = 33 ∨ c = 59 then ⟨.ok (.name [s.getD p 0] false, p + 1), ecomment⟩
  else if isSymbol c then
    let q := runEnd ct s isSymbol 2 p
    ⟨.ok (if c = 46 ∧ q = p + 1 ∧ clauseEnds ct s q then .full else .name (slice s p q) false, q), ecomment⟩
  else if 128 ≤ c then ⟨lexWideToken D ct s chars p, ecomment⟩
  else ⟨.error (fail p p "unexpected character"), ecomment⟩

/-- What `coco_next_token` leaves in the reader. -/
structure Next (F : Type) where
  layoutBefore : Bool
  tstart : Nat
  lexed : Lexed F

/-- `coco_next_token` from `pos`. -/
def nextToken (ct : Classes) (s : Bytes) (chars : Bool) (pos ecomment : Nat) : Next F :=
  let k := layout ct s pos ecomment
  if k.ecomment ≠ 0 then
    ⟨k.any, k.ecomment - 1, .error (fail (k.ecomment - 1) k.pos "end of file in a block comment"), 0⟩
  else ⟨k.any, k.pos, lexToken D ct s chars k.pos k.ecomment⟩

end Cocolog.Syntax
