import Cocolog.Text.Utf8
import Cocolog.Lib.Spans
import Cocolog.Lib.Strides

/-! The reader's characters: the classes of a code point, the bytes of the text it looks at,
and the layout and comments it passes over. -/

set_option linter.all false

namespace Cocolog.Syntax
open Text Lib

/-- A name of ASCII characters. -/
def ascii (name : String) : Bytes := name.toList.map fun c => UInt8.ofNat c.toNat

/-- What the tables made of lib/swipl-ctype.cicili say of a code past ASCII. -/
structure Classes where
  /-- `coco_rd_flags`: layout 1, a symbol 2, a name's start 4, its continuation 8, a capital
  16, a digit 32, refused 64. -/
  flags : Int → Nat
  /-- A digit's weight, four bits of `coco_ct_flags`. -/
  weight : Int → Nat

def isLower (c : Int) : Bool := 97 ≤ c ∧ c ≤ 122

def isUpper (c : Int) : Bool := 65 ≤ c ∧ c ≤ 90 ∨ c = 95

def isDigit (c : Int) : Bool := 48 ≤ c ∧ c ≤ 57

def isAlnum (c : Int) : Bool := 97 ≤ c ∧ c ≤ 122 ∨ 65 ≤ c ∧ c ≤ 90 ∨ 48 ≤ c ∧ c ≤ 57 ∨ c = 95

/-- `+-*/^<>=~.?@#&$`, and the backslash and the colon. -/
def isSymbol (c : Int) : Bool :=
  c ∈ [43, 45, 42, 47, 94, 60, 62, 61, 126, 46, 63, 64, 35, 38, 36] ∨ c = 92 ∨ c = 58

def isSpace (c : Int) : Bool := c = 32 ∨ 9 ≤ c ∧ c ≤ 13

/-- `coco_peek` and `coco_peek_at`: -1 at the end. -/
def peek (s : Bytes) (p : Nat) : Int := if s.length ≤ p then -1 else byte s p

/-- `coco_cp_at`: the code and its byte count. -/
def cpAt (s : Bytes) (p : Nat) : Int × Nat := ((utf8Get s p).1, (utf8Get s p).2 - p)

/-- The loop of `coco_cp_before`, back over continuation bytes. -/
def backOver (s : Bytes) (a e : Nat) : Nat → Nat → Nat
  | 0, b => b
  | turns + 1, b => if a < b ∧ e - b < 4 ∧ byte s b &&& 192 = 128 then backOver s a e turns (b - 1) else b

/-- `coco_cp_before`: the code that ends at `e - 1`, none of it before `a`. -/
def cpBefore (s : Bytes) (a e : Nat) : Int :=
  let b := backOver s a e 4 (e - 1)
  if b + (cpAt s b).2 = e then (cpAt s b).1 else 56320 + byte s (e - 1)

/-- `coco_rd_is`. -/
def rdIs (ct : Classes) (c : Int) (kind : Nat) : Bool :=
  if c < 0 then false
  else if c < 128 then
    if kind = 1 then isSpace c else if kind = 2 then isSymbol c else isAlnum c
  else ct.flags c &&& kind ≠ 0

/-- `coco_rd_wide_at`. -/
def wideAt (ct : Classes) (s : Bytes) (p kind : Nat) : Nat :=
  if s.length ≤ p ∨ byte s p < 128 then 0
  else if rdIs ct (cpAt s p).1 kind then (cpAt s p).2 else 0

/-- One step of the lexer's and the raw walk's runs: the ASCII codes `test` takes, and past
ASCII those of `kind`. -/
def runStep (ct : Classes) (s : Bytes) (test : Int → Bool) (kind p : Nat) : Nat :=
  if test (peek s p) then 1 else if peek s p < 128 then 0 else wideAt ct s p kind

/-- Where the run from `p` ends. -/
def runEnd (ct : Classes) (s : Bytes) (test : Int → Bool) (kind p : Nat) : Nat :=
  stride (runStep ct s test kind) (s.length - p) p

/-- Where the ASCII codes `test` takes end. -/
def asciiEnd (s : Bytes) (test : Int → Bool) (p : Nat) : Nat :=
  stride (fun q => if test (peek s q) then 1 else 0) (s.length - p) p

/-- A line comment's newline, or the end. -/
def lineEnd (s : Bytes) (p : Nat) : Nat :=
  stride (fun q => if peek s q ≠ -1 ∧ peek s q ≠ 10 then 1 else 0) (s.length - p) p

/-- The `*/` of a block comment, or the end. -/
def blockEnd (s : Bytes) (p : Nat) : Nat :=
  stride (fun q => if peek s q ≠ -1 ∧ ¬(peek s q = 42 ∧ peek s (q + 1) = 47) then 1 else 0) (s.length - p) p

structure Skipped where
  pos : Nat
  any : Bool
  /-- One past the first byte of a block comment the text ended in, or 0. -/
  ecomment : Nat
deriving Repr, DecidableEq

/-- `coco_skip_layout` and `coco_skip_layout_wide`. -/
def skipLayout (ct : Classes) (s : Bytes) : Nat → Skipped → Skipped
  | 0, k => k
  | turns + 1, k =>
    let c := peek s k.pos
    if isSpace c then skipLayout ct s turns { k with pos := k.pos + 1, any := true }
    else if c = 37 then skipLayout ct s turns { k with pos := lineEnd s k.pos, any := true }
    else if c = 47 ∧ peek s (k.pos + 1) = 42 then
      let e := blockEnd s (k.pos + 2)
      if peek s e ≠ -1 then skipLayout ct s turns { k with pos := e + 2, any := true }
      else skipLayout ct s turns ⟨e, true, k.pos + 1⟩
    else if c < 128 then k
    else if wideAt ct s k.pos 1 = 0 then k
    else skipLayout ct s turns { k with pos := k.pos + wideAt ct s k.pos 1, any := true }

/-- The layout from `p` on. -/
def layout (ct : Classes) (s : Bytes) (p ecomment : Nat) : Skipped := skipLayout ct s (s.length - p) ⟨p, false, ecomment⟩

end Cocolog.Syntax
