import Cocolog.Lib.Answers
import Cocolog.Json.Numbers
import Cocolog.Text.Utf8

/-! `json_parse`: JSON text as a Prolog term. Every nonterminal is what its clauses answer,
in order, each of them from a list of codes to what it makes of it and the codes left. -/

set_option linter.all false

namespace Cocolog.Json
open Lib Lib.Json Text

/-- A term as `library(json)` tells terms apart. It looks into no compound of another arity. -/
inductive Term (F : Type) where
  | var
  | num (n : Number F)
  | atom (name : Bytes)
  | string (text : Bytes)
  | nil
  | cons (head tail : Term F)
  | unary (name : Bytes) (arg : Term F)
  | binary (name : Bytes) (left right : Term F)
  | other (name : Bytes) (arity : Nat)
deriving DecidableEq

/-- A name of the program's text. -/
def name (s : String) : Bytes := s.toList.map fun c => UInt8.ofNat c.toNat

inductive Ball (F : Type) where
  | error (formal context : Term F)
  /-- No ball of the program: the calls given to a run of the model were too few. -/
  | unfinished
deriving DecidableEq

section
variable {F : Type} (C : Bool) (D : Doubles F)

namespace Term

def int (i : Int) : Term F := .num (.int i)

def list : List (Term F) → Term F
  | [] => .nil
  | t :: ts => .cons t (list ts)

/-- `json(Pairs)`. -/
def object (ms : List (Bytes × Term F)) : Term F :=
  .unary (name "json") (list (ms.map fun m => .binary (name "-") (.atom m.1) m.2))

end Term

/-- `error(syntax_error(What), Context)`. -/
def syntaxError (what context : Term F) : Ball F := .error (.unary (name "syntax_error") what) context

def typeError (type : String) (culprit context : Term F) : Ball F :=
  .error (.binary (name "type_error") (.atom (name type)) culprit) context

/-! ## The builtins -/

/-- `coco_tx_list` of codes: the bytes, or the first element that is no code. -/
def textOf : Text → Except Nat Bytes
  | [] => .ok []
  | c :: cs => do
    let b := if C ∨ 255 < c then utf8Enc c else [UInt8.ofNat c]
    if 1114111 < c ∨ b = [] then throw c else return b ++ (← textOf cs)

/-- `atom_codes(-Atom, +Codes)`: the atom is a string of C. -/
def atomOf (cs : Text) : Answers (Ball F) Bytes :=
  match textOf C cs with
  | .ok b => .one (b.takeWhile (· ≠ 0))
  | .error c => .throw (typeError "character_code" (.int c) .var)

/-- `atom_codes(+Atom, -Codes)`. -/
def codesOf (a : Bytes) : Text := if C then (decode a).map Int.toNat else a.map UInt8.toNat

/-- `code_type(C, digit)`. -/
def codeTypeDigit (c : Nat) : Answers (Ball F) Unit :=
  if 1114111 < c then .throw (.error (.binary (name "domain_error") (.atom (name "character")) (.int c)) .var)
  else .ask (Digit c)

/-- `number_codes(-N, +Codes)`. -/
def numberOfCodes (cs : Text) : Answers (Ball F) (Number F) :=
  match readNumberText D cs with
  | some n => .one n
  | none => .throw (syntaxError (.atom (name "illegal_number")) .var)

/-! ## What every nonterminal uses -/

def jsonSnippet : Nat → Text → Text
  | 0, _ => []
  | _, [] => []
  | n + 1, c :: cs => if c = 0 then [] else c :: jsonSnippet n cs

def jsonAt (t : Term F) : Term F := .unary (name "json_at") t

def jsonOops {α : Type} (what : Term F) (rest : Text) : Answers (Ball F) α := do
  let at' ← atomOf C (jsonSnippet 40 rest)
  .throw (syntaxError what (jsonAt (.atom at')))

/-- `json_oops` with a text. -/
def oops {α : Type} (what : String) (rest : Text) : Answers (Ball F) α :=
  jsonOops C (.atom (name what)) rest

/-- A terminal of the grammar. -/
def terminal (c : Nat) : Text → Answers (Ball F) Text
  | d :: w => if d = c then .one w else .fail
  | [] => .fail

/-- `[C]`. -/
def anyCode : Text → Answers (Ball F) (Nat × Text)
  | c :: w => .one (c, w)
  | [] => .fail

def jsonWs : Text → Answers (Ball F) Text
  | c :: w => (Answers.ask (Blank c)).commit (fun _ => jsonWs w) (.one (c :: w))
  | [] => .one []

/-! ## Strings -/

/-- The clauses of `json_escape_in` for one letter. -/
def shortEscapes : List (Nat × Nat) :=
  [(34, 34), (92, 92), (47, 47), (98, 8), (102, 12), (110, 10), (114, 13), (116, 9)]

def jsonHex (c : Nat) : Answers (Ball F) Nat :=
  (Answers.ask (48 ≤ c ∧ c ≤ 57)).commit (fun _ => .one (c - 48)) <|
  (Answers.ask (97 ≤ c ∧ c ≤ 102)).commit (fun _ => .one (c - 97 + 10)) <|
  (Answers.ask (65 ≤ c ∧ c ≤ 70)).commit (fun _ => .one (c - 65 + 10)) <|
  .throw (syntaxError (.atom (name "a hex digit")) (jsonAt (.int c)))

def jsonHex4 : Text → Answers (Ball F) (Nat × Text)
  | a :: b :: c :: d :: w => do
    let ha ← jsonHex a
    let hb ← jsonHex b
    let hc ← jsonHex c
    let hd ← jsonHex d
    return (((ha * 16 + hb) * 16 + hc) * 16 + hd, w)
  | w => oops C "four hex digits after the u" w

def jsonUtf8 (c : Nat) : Answers (Ball F) Text :=
  if c = 0 then
    .throw (syntaxError (.atom (name "any character but a NUL -- an atom stops there"))
      (jsonAt (.atom (name "u0000"))))
  else if c < 0x80 then .one [c]
  else if C then .one [c]
  else if c < 0x800 then .one [0xC0 ||| c >>> 6, 0x80 ||| c &&& 0x3F]
  else if c < 0x10000 then
    .one [0xE0 ||| c >>> 12, 0x80 ||| c >>> 6 &&& 0x3F, 0x80 ||| c &&& 0x3F]
  else
    .one [0xF0 ||| c >>> 18, 0x80 ||| c >>> 12 &&& 0x3F, 0x80 ||| c >>> 6 &&& 0x3F,
      0x80 ||| c &&& 0x3F]

def jsonLowSurrogate : Text → Answers (Ball F) (Nat × Text)
  | 92 :: 117 :: w => do
    let (low, w) ← jsonHex4 C w
    if Low low then return (low, w)
    else .throw (syntaxError (.atom (name "a low surrogate after the high one")) (jsonAt (.int low)))
  | w => oops C "a low surrogate escape after the high one" w

def jsonUIn (w : Text) : Answers (Ball F) (Text × Text) := do
  let (u, w) ← jsonHex4 C w
  if High u then
    let (low, w) ← jsonLowSurrogate C w
    let cs ← jsonUtf8 C (0x10000 + (u - 0xD800) <<< 10 + (low - 0xDC00))
    return (cs, w)
  else if Low u then
    .throw (syntaxError (.atom (name "a high surrogate before this low one")) (jsonAt (.int u)))
  else
    let cs ← jsonUtf8 C u
    return (cs, w)

def jsonEscapeIn (w : Text) : Answers (Ball F) (Text × Text) :=
  shortEscapes.foldr
    (fun (e, c) clauses => (terminal e w).commit (fun w => .one ([c], w)) clauses)
    ((terminal 117 w).commit (jsonUIn C) (oops C "a legal escape after the backslash" w))

/-- The test of the third clause of `json_string_in`. -/
def rawControl : Text → Answers (Ball F) Unit
  | c :: _ => .ask (c < 0x20)
  | [] => .fail

def jsonStringIn : Nat → Text → Answers (Ball F) (Text × Text)
  | 0, _ => .throw .unfinished
  | n + 1, w =>
    (terminal 34 w).commit (fun w => .one ([], w)) <|
    (terminal 92 w).commit (fun w => do
      let (cs, w) ← jsonEscapeIn C w
      let (rest, w) ← jsonStringIn n w
      return (cs ++ rest, w)) <|
    (rawControl w).commit
      (fun _ => oops C "an escape -- a raw control byte is not legal in a string" w) <|
    (anyCode w).commit (fun (c, w) => do
      let (cs, w) ← jsonStringIn n w
      return (c :: cs, w)) <|
    oops C "a closing quote" w

def jsonNoNul (whole : Text) : Text → Answers (Ball F) Unit
  | [] => .one ()
  | c :: cs =>
    if c = 0 then oops C "a string with no NUL in it -- an atom stops there" whole
    else jsonNoNul whole cs

def jsonAtomOf (cs : Text) : Answers (Ball F) Bytes := do
  jsonNoNul C cs cs
  atomOf C cs

/-! ## Numbers -/

def jsonMinusIn (w : Text) : Answers (Ball F) (Text × Text) :=
  (terminal 45 w).commit (fun w => .one ([45], w)) (.one ([], w))

def jsonDigitsIn : Text → Answers (Ball F) (Text × Text)
  | d :: w => (codeTypeDigit d).commit (fun _ => do
      let (ds, w) ← jsonDigitsIn w
      return (d :: ds, w)) (.one ([], d :: w))
  | [] => .one ([], [])

def jsonIntIn : Text → Answers (Ball F) (Text × Text)
  | d :: w =>
    (terminal 48 (d :: w)).commit (fun w => .one ([48], w)) <|
    (Answers.ask (49 ≤ d ∧ d ≤ 57)).commit (fun _ => do
      let (ds, w) ← jsonDigitsIn w
      return (d :: ds, w)) <|
    oops C "a digit, and no leading zero" (d :: w)
  | [] => oops C "a digit, and no leading zero" []

def jsonFracIn : Text → Answers (Ball F) (Text × Text)
  | p :: d :: w =>
    (do Answers.ask (p = 46); codeTypeDigit d).commit (fun _ => do
      let (ds, w) ← jsonDigitsIn w
      return (46 :: d :: ds, w)) (.one ([], p :: d :: w))
  | w => .one ([], w)

def jsonExpSign : Text → Answers (Ball F) (Text × Text)
  | c :: w =>
    ((Answers.ask (c = 43)).orElse (Answers.ask (c = 45))).commit (fun _ => .one ([c], w))
      (.one ([], c :: w))
  | [] => .one ([], [])

def jsonExpDigits : Text → Answers (Ball F) (Text × Text)
  | d :: w => (codeTypeDigit d).commit (fun _ => do
      let (ds, w) ← jsonDigitsIn w
      return (d :: ds, w)) (oops C "a digit after the exponent" (d :: w))
  | [] => oops C "a digit after the exponent" []

def jsonExpIn : Text → Answers (Ball F) (Text × Text)
  | e :: w =>
    ((Answers.ask (e = 101)).orElse (Answers.ask (e = 69))).commit (fun _ => do
      let (s, w) ← jsonExpSign w
      let (ds, w) ← jsonExpDigits C w
      return (e :: (s ++ ds), w)) (.one ([], e :: w))
  | [] => .one ([], [])

def jsonNumeral (cs frac exp : Text) : Answers (Ball F) (Number F) :=
  ((numberOfCodes D cs).caught fun
    | .error (.unary f _) _ => if f = name "syntax_error" then some .fail else none
    | _ => none).commit .one <|
  if frac = [] ∧ exp = [] then oops C "an integer this machine can hold -- 64 bits" cs else .fail

def jsonNumberFits (cs frac exp : Text) (n : Number F) : Answers (Ball F) Unit :=
  if frac ≠ [] then .one ()
  else if exp ≠ [] then .one ()
  else if numberCodes D n = cs then .one ()
  else if cs = [45, 48] then .one ()
  else oops C "an integer this machine can hold -- 64 bits" cs

def jsonNumberIn (w : Text) : Answers (Ball F) (Number F × Text) := do
  let (a, w) ← jsonMinusIn w
  let (b, w) ← jsonIntIn C w
  let (c, w) ← jsonFracIn w
  let (d, w) ← jsonExpIn C w
  let cs := (a ++ b) ++ (c ++ d)
  let n ← jsonNumeral C D cs c d
  jsonNumberFits C D cs c d n
  return (n, w)

def jsonNumberStart (c : Nat) : Answers (Ball F) Unit :=
  (Answers.ask (c = 45)).commit .one (codeTypeDigit c)

/-! ## Values -/

def codeList : Text → Term F
  | [] => .nil
  | c :: cs => .cons (.int c) (codeList cs)

def jsonWord : Text → Text → Answers (Ball F) Text
  | [], w => .one w
  | c :: cs, w => (terminal c w).commit (jsonWord cs) (jsonOops C (codeList (c :: cs)) w)

def jsonKeyIn (n : Nat) (w : Text) : Answers (Ball F) (Bytes × Text) :=
  (terminal 34 w).commit (fun w => do
    let (cs, w) ← jsonStringIn C n w
    let key ← jsonAtomOf C cs
    return (key, w)) (oops C "a quoted key" w)

def jsonColon (w : Text) : Answers (Ball F) Text :=
  (terminal 58 w).commit .one (oops C "a colon after the key" w)

section
/- `json_input`, which arrays and objects call for what they hold. -/
variable (input : Text → Answers (Ball F) (Term F × Text))

def jsonMemberIn (n : Nat) (w : Text) : Answers (Ball F) ((Bytes × Term F) × Text) := do
  let (key, w) ← jsonKeyIn C n w
  let w ← jsonWs w
  let w ← jsonColon C w
  let w ← jsonWs w
  let (value, w) ← input w
  return ((key, value), w)

def jsonMembersMore : Nat → Text → Answers (Ball F) (List (Bytes × Term F) × Text)
  | 0, _ => .throw .unfinished
  | n + 1, w =>
    (terminal 125 w).commit (fun w => .one ([], w)) <|
    (terminal 44 w).commit (fun w => do
      let w ← jsonWs w
      let (p, w) ← jsonMemberIn C input n w
      let w ← jsonWs w
      let (ps, w) ← jsonMembersMore n w
      return (p :: ps, w)) <|
    oops C "a comma or a closing brace" w

def jsonMembersIn (n : Nat) (w : Text) : Answers (Ball F) (List (Bytes × Term F) × Text) :=
  (terminal 125 w).commit (fun w => .one ([], w)) do
    let (p, w) ← jsonMemberIn C input n w
    let w ← jsonWs w
    let (ps, w) ← jsonMembersMore C input n w
    return (p :: ps, w)

def jsonItemsMore : Nat → Text → Answers (Ball F) (List (Term F) × Text)
  | 0, _ => .throw .unfinished
  | n + 1, w =>
    (terminal 93 w).commit (fun w => .one ([], w)) <|
    (terminal 44 w).commit (fun w => do
      let w ← jsonWs w
      let (i, w) ← input w
      let w ← jsonWs w
      let (is, w) ← jsonItemsMore n w
      return (i :: is, w)) <|
    oops C "a comma or a closing bracket" w

def jsonItemsIn (n : Nat) (w : Text) : Answers (Ball F) (List (Term F) × Text) :=
  (terminal 93 w).commit (fun w => .one ([], w)) do
    let (i, w) ← input w
    let w ← jsonWs w
    let (is, w) ← jsonItemsMore C input n w
    return (i :: is, w)

def literal (l : Literal) : Term F :=
  .unary (name "@") (.atom (l.text.map UInt8.ofNat))

/-- `json_by`, its text `w` begun by the code `c`. -/
def jsonBy (n c : Nat) (w : Text) : Answers (Ball F) (Term F × Text) :=
  (Answers.ask (c = 123)).commit (fun _ => do
    let (_, w) ← anyCode w
    let w ← jsonWs w
    let (ps, w) ← jsonMembersIn C input n w
    return (.object ps, w)) <|
  (Answers.ask (c = 91)).commit (fun _ => do
    let (_, w) ← anyCode w
    let w ← jsonWs w
    let (is, w) ← jsonItemsIn C input n w
    return (.list is, w)) <|
  (Answers.ask (c = 34)).commit (fun _ => do
    let (_, w) ← anyCode w
    let (cs, w) ← jsonStringIn C n w
    let a ← jsonAtomOf C cs
    return (.atom a, w)) <|
  (Answers.ask (c = 116)).commit (fun _ => do
    let w ← jsonWord C Literal.true.text w
    return (literal .true, w)) <|
  (Answers.ask (c = 102)).commit (fun _ => do
    let w ← jsonWord C Literal.false.text w
    return (literal .false, w)) <|
  (Answers.ask (c = 110)).commit (fun _ => do
    let w ← jsonWord C Literal.null.text w
    return (literal .null, w)) <|
  (jsonNumberStart c).commit (fun _ => do
    let (x, w) ← jsonNumberIn C D w
    return (.num x, w)) <|
  oops C "a value" w

end

def jsonInput : Nat → Text → Answers (Ball F) (Term F × Text)
  | 0, _ => .throw .unfinished
  | n + 1, w =>
    (anyCode w).commit (fun (c, _) => jsonBy C D (jsonInput n) n c w)
      (oops C "a value, and the input ended" w)

def jsonEos : Text → Answers (Ball F) Unit
  | [] => .one ()
  | w => oops C "one value and then the end of the input" w

/-- `json_parse(+Codes, -Term)`, within `n` calls. -/
def jsonParse (n : Nat) (cs : Text) : Answers (Ball F) (Term F) := do
  let w ← jsonWs cs
  let (t, w) ← jsonInput C D n w
  let w ← jsonWs w
  jsonEos C w
  return t

end
end Cocolog.Json
