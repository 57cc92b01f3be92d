import Cocolog.Syntax.Lexer

/-! The parser: `coco_parse_term` and its kin over an operator table, and `coco_read_clause`.
The bodies take the parser of the terms inside, as the source's macros do. -/

set_option linter.all false

namespace Cocolog.Syntax
open Text Lib

inductive OpType where
  | xfx | xfy | yfx | fy | fx
deriving Repr, DecidableEq

/-- What the reader asks of the machine and of the program's tables. -/
structure Machine (F : Type) where
  classes : Classes
  doubles : Doubles F
  /-- `coco_op_infix`. -/
  opInfix : Bytes → Option (Int × OpType)
  /-- `coco_op_prefix`. -/
  opPrefix : Bytes → Option (Int × OpType)
  textChars : Bool
  doubleQuotes : Nat

/-- `*operators*`, the table the reader is built with. -/
def operators : List (Int × OpType × List String) :=
  [(1200, .xfx, [":-", "-->", "=>"]), (1200, .fx, [":-", "?-"]),
    (1150, .fx, ["dynamic", "discontiguous", "initialization", "meta_predicate", "module_transparent",
      "multifile", "public", "thread_local", "thread_initialization", "volatile", "table"]),
    (1105, .xfy, ["|"]), (1100, .xfy, [";"]), (1050, .xfy, ["->", "*->"]), (1000, .xfy, [","]),
    (900, .fy, ["\\+"]), (800, .xfx, [":="]),
    (700, .xfx, ["=", "\\=", "==", "\\==", "@<", "@>", "@=<", "@>=", "=..", "is", "=:=", "=\\=", "<", ">",
      "=<", ">=", "=@=", "\\=@=", "as", ":<", ">:<"]),
    (600, .xfy, [":"]), (500, .yfx, ["+", "-", "/\\", "\\/"]),
    (400, .yfx, ["*", "/", "//", "div", "mod", "rem", "<<", ">>", "rdiv", "xor"]),
    (200, .xfx, ["**"]), (200, .xfy, ["^"]), (200, .fy, ["-", "+", "\\"]), (1, .fx, ["$"])]

def OpType.isInfix : OpType → Bool
  | .xfx | .xfy | .yfx => true
  | .fy | .fx => false

/-- `coco_op_infix_static` and `coco_op_prefix_static`: the first row of the kind with the name. -/
def operatorStatic (isInfix : Bool) (name : Bytes) : Option (Int × OpType) :=
  (operators.find? fun row => row.2.1.isInfix = isInfix ∧ name ∈ row.2.2.map ascii).map fun row => (row.1, row.2.1)

/-- The reader's own table for texts of ASCII without floats. -/
def plainMachine : Machine Unit where
  classes := ⟨fun _ => 192, fun _ => 0⟩
  doubles := ⟨fun _ => (), fun _ _ => false, fun _ _ => true, id⟩
  opInfix := operatorStatic true
  opPrefix := operatorStatic false
  textChars := true
  doubleQuotes := 0

/-- An interned name; the atom `'[]'` is not the list's end. -/
inductive Name where
  | of (text : Bytes)
  | quotedNil
deriving Repr, DecidableEq

/-- Terms as the reader builds them on the heap. -/
inductive Term (F : Type) where
  | int (i : Int)
  | flt (x : F)
  | rat (n d : Int)
  | var (n : Nat)
  | text (b : Bytes)
  | atom (name : Name)
  | app (name : Name) (args : List (Term F))
deriving Repr

variable {F : Type}

/-- A token passed, and where it stood. -/
structure Passed (F : Type) where
  tok : Token F
  lo : Nat
  hi : Nat
deriving Repr, DecidableEq

/-- Where the reader stands, the token in hand and its place. -/
structure Scanner (F : Type) where
  pos : Nat
  tok : Token F
  layoutBefore : Bool
  tstart : Nat
  failed : Option Fail
  ecomment : Nat
  /-- The tokens passed or refused so far, for what is said about them; nothing reads it. -/
  passed : List (Passed F)

structure Reader (F : Type) extends Scanner F where
  cstart : Nat
  /-- What ends the term: 0 nothing, 1 a comma, 2 a comma or a bar. -/
  stop : Nat
  bnil : Bool
  vars : List (Bytes × Nat)
  /-- The variables made. -/
  made : Nat

inductive Stop (F : Type) where
  /-- Out of turns. -/
  | spent
  | failed (r : Reader F)

/-- The token in hand is passed. -/
def Scanner.pass (z : Scanner F) : Scanner F := { z with passed := z.passed ++ [Passed.mk z.tok z.tstart z.pos] }

/-- `coco_fail`, at the token in hand. -/
def Scanner.fail (z : Scanner F) (what : String) : Scanner F := { z.pass with failed := some (Syntax.fail z.tstart z.pos what) }

/-- `coco_next_token`. -/
def Scanner.advance (M : Machine F) (s : Bytes) (z : Scanner F) : Scanner F :=
  let n := nextToken M.doubles M.classes s M.textChars z.pos z.ecomment
  let z := { z with layoutBefore := n.layoutBefore, tstart := n.tstart, ecomment := n.lexed.ecomment }
  match n.lexed.result with
  | .ok (tok, pos) => { z with tok := tok, pos := pos }
  | .error f => { z with pos := f.offset, failed := some f }

def Reader.fail (r : Reader F) (what : String) : Reader F := { r with toScanner := r.toScanner.fail what }

def Reader.advance (M : Machine F) (s : Bytes) (r : Reader F) : Reader F := { r with toScanner := r.toScanner.advance M s }

def Reader.pass (r : Reader F) : Reader F := { r with toScanner := r.toScanner.pass }

/-- `if (not (coco_next_token r)) (return 0)`. -/
def next (M : Machine F) (s : Bytes) (r : Reader F) : Except (Stop F) (Reader F) :=
  if (r.pass.advance M s).failed.isSome then .error (.failed (r.pass.advance M s)) else .ok (r.pass.advance M s)

def isPunct (r : Reader F) (c : Nat) : Bool :=
  match r.tok with
  | .punct d => d == c
  | _ => false

/-- A token's text as a C string. -/
def cstring (text : Bytes) : Bytes := text.takeWhile (· ≠ 0)

def fid (name : Bytes) (bnil : Bool) : Name := if bnil = false ∧ name = [91, 93] then .quotedNil else .of name

/-- `coco_new_atom`. -/
def newAtom (name : Bytes) : Term F := .atom (if name = [91, 93] then .quotedNil else .of name)

def newNil : Term F := .atom (.of [91, 93])

def cons (h t : Term F) : Term F := .app (.of [46]) [h, t]

/-- `coco_new_rat` of a denominator above 0. -/
def newRat (n : Int) (d : Nat) : Term F :=
  let g := n.gcd d
  if d / g = 1 then .int (n / g) else .rat (n / g) (d / g)

/-- `coco_wide_needs_quotes`. -/
def wideNeedsQuotes (ct : Classes) (name : Bytes) : Bool :=
  let codes := decode name
  let f0 := (codes.head?.map ct.flags).getD 0
  let cont := codes.tail.all fun c => ct.flags c &&& 8 ≠ 0
  let sym := codes.all fun c => ct.flags c &&& 2 ≠ 0
  let small := f0 &&& 4 ≠ 0 ∧ f0 &&& 16 = 0
  if codes.any (255 < ·) then small ∧ !cont ∧ !sym
  else if small then !cont
  else if f0 &&& 2 ≠ 0 then !sym ∨ byte name 0 = 47 ∧ byte name 1 = 42
  else ¬(codes.length = 1 ∧ f0 &&& 127 = 0)

/-- The loop of `coco_atom_needs_quotes` over what follows the first character. -/
def restNeedsQuotes (ct : Classes) (name : Bytes) (test : Int → Bool) : Bytes → Option Bool
  | [] => none
  | c :: rest =>
    if test c.toNat then restNeedsQuotes ct name test rest
    else some (if 128 ≤ c.toNat then wideNeedsQuotes ct name else true)

/-- `coco_atom_needs_quotes`. -/
def atomNeedsQuotes (ct : Classes) (name : Bytes) : Bool :=
  match name with
  | [] => true
  | c0 :: rest =>
    if name ∈ [[91, 93], [123, 125], [33], [59]] then false
    else if 128 ≤ c0.toNat then wideNeedsQuotes ct name
    else if isLower c0.toNat then (restNeedsQuotes ct name isAlnum rest).getD false
    else if isSymbol c0.toNat then
      (restNeedsQuotes ct name isSymbol rest).getD (name = [46] ∨ c0 = 47 ∧ byte name 1 = 42)
    else true

/-- `coco_quoted_op`. -/
def quotedOp (ct : Classes) (name : Bytes) : Bool := atomNeedsQuotes ct name ∨ name = [91, 93]

/-- `coco_var_for`. -/
def varFor (r : Reader F) (name : Bytes) : Term F × Reader F :=
  if name = [95] then (.var r.made, { r with made := r.made + 1 })
  else
    match r.vars.lookup name with
    | some n => (.var n, r)
    | none => (.var r.made, { r with made := r.made + 1, vars := r.vars ++ [(name, r.made)] })

/-- `coco_string_to_list`. -/
def stringToList (M : Machine F) (text : Bytes) (back : Bool) : Term F :=
  let mode := if back then 0 else M.doubleQuotes
  if mode = 3 then .text text
  else if mode = 2 then newAtom (cstring text)
  else
    let items : List (Term F) :=
      if M.textChars then
        (decode text).map fun c => if mode = 1 then newAtom (cstring (utf8Enc c)) else .int c
      else text.map fun b => if mode = 1 then newAtom (cstring [b]) else .int b.toNat
    items.foldr cons newNil

/-- `coco_starts_term`. -/
def startsTerm (M : Machine F) (s : Bytes) (r : Reader F) : Bool :=
  match r.tok with
  | .int .. | .flt .. | .rat .. | .var _ | .str .. => true
  | .name text quoted =>
    if quoted ∧ !quotedOp M.classes (cstring text) then true
    else if peek s r.pos = 40 then true
    else !((M.opInfix (cstring text)).isSome ∧ (M.opPrefix (cstring text)).isNone)
  | .punct c => c ∈ [40, 91, 123]
  | _ => false

section bodies
variable (M : Machine F) (s : Bytes)

/-- `coco_parse_term` for a term inside, to the priority given. -/
abbrev Inner (F : Type) := Int → Reader F → Except (Stop F) ((Term F × Int) × Reader F)

variable (term : Inner F)

/-- The loop over an argument list's terms, or a list's. -/
def commaTerms : (turns : Nat) → List (Term F) → Reader F → Except (Stop F) (List (Term F) × Reader F)
  | 0, _, _ => .error .spent
  | turns + 1, items, r => do
    let (item, r) ← term 1200 r
    if isPunct r 44 then commaTerms turns (items ++ [item.1]) (← next M s r) else .ok (items ++ [item.1], r)

/-- A mark that has to stand here, and the token after it. -/
def expect (c : Nat) (what : String) (r : Reader F) : Except (Stop F) (Reader F) :=
  if isPunct r c then next M s r else .error (.failed (r.fail what))

/-- A list's tail after its elements. -/
def listTail (r : Reader F) : Except (Stop F) (Term F × Reader F) :=
  if isPunct r 124 then do
    let r ← next M s r
    let (tail, r) ← term 1200 r
    .ok (tail.1, r)
  else .ok (newNil, r)

/-- `coco_parse_list`. -/
def listBody (turns : Nat) (r : Reader F) : Except (Stop F) (Term F × Reader F) :=
  if isPunct r 93 then do
    let r ← next M s r
    .ok (newNil, r)
  else do
    let ostop := r.stop
    let (items, r) ← commaTerms M s term turns [] { r with stop := 2 }
    let (tail, r) ← listTail M s term r
    let r ← expect M s 93 "expected ] closing a list" { r with stop := ostop }
    .ok (items.foldr cons tail, r)

/-- `coco_parse_args`. -/
def argsBody (turns : Nat) (name : Bytes) (r : Reader F) : Except (Stop F) (Term F × Reader F) :=
  let ostop := r.stop
  let bnil := r.bnil
  let r := { r with bnil := false }
  if isPunct r 41 then do
    let r ← next M s r
    .ok (.app (fid name bnil) [], r)
  else do
    let (args, r) ← commaTerms M s term turns [] { r with stop := 1 }
    let r ← expect M s 41 "expected ) closing an argument list" { r with stop := ostop }
    .ok (.app (fid name bnil) args, r)

/-- A number written against the minus before it, or `none`. -/
def signed (r : Reader F) : Option (Except (Stop F) (Term F)) :=
  match r.tok with
  | .int v w false =>
    some (if 1 < w then .error (.failed (r.fail "integer out of range"))
      else .ok (.int (if w = 1 then -2 ^ 63 else -v)))
  | .rat n d false => some (.ok (newRat (-n) d))
  | .flt x false => some (.ok (.flt (M.doubles.neg x)))
  | _ => none

/-- A name that no bracket and no number follows: an operator before its operand, or an atom. -/
def operatorOrAtom (maxprec : Int) (name : Bytes) (quoted : Bool) (r : Reader F) : Except (Stop F) ((Term F × Int) × Reader F) :=
  match if quoted = false ∨ quotedOp M.classes name then M.opPrefix name else none with
  | none => .ok ((newAtom name, 0), r)
  | some (prec, type) =>
    if prec ≤ maxprec ∧ startsTerm M s r then do
      let (arg, r) ← term (if type = .fy then prec else prec - 1) r
      .ok ((.app (fid name false) [arg.1], prec), r)
    else if isPunct r 124 ∧ r.stop ≠ 2 then .error (.failed (r.fail "operator expected"))
    else .ok ((newAtom name, prec), r)

/-- `coco_parse_named`. -/
def namedBody (turns : Nat) (maxprec : Int) (name : Bytes) (quoted : Bool) (r : Reader F) : Except (Stop F) ((Term F × Int) × Reader F) := do
  let r ← next M s r
  if isPunct r 40 ∧ r.layoutBefore = false then
    let r ← next M s r
    let (t, r) ← argsBody M s term turns name r
    .ok ((t, 0), r)
  else
    match if name = [45] ∧ r.layoutBefore = false then signed M r else none with
    | some number =>
      let t ← number
      let r ← next M s r
      .ok ((t, 0), r)
    | none => operatorOrAtom M s term maxprec name quoted r

/-- A term in brackets, its commas and bars operators. -/
def bracketed (closer : Nat) (what : String) (r : Reader F) : Except (Stop F) (Term F × Reader F) := do
  let ostop := r.stop
  let (t, r) ← term 1200 { r with stop := 0 }
  let r ← expect M s closer what { r with stop := ostop }
  .ok (t.1, r)

/-- A term that is one token. -/
def leaf (t : Term F) (r : Reader F) : Except (Stop F) ((Term F × Int) × Reader F) := do
  let r ← next M s r
  .ok ((t, 0), r)

/-- `coco_parse_primary`. -/
def primaryBody (turns : Nat) (maxprec : Int) (r : Reader F) : Except (Stop F) ((Term F × Int) × Reader F) :=
  match r.tok with
  | .int v w _ => if w ≠ 0 then .error (.failed (r.fail "integer out of range")) else leaf M s (.int v) r
  | .flt x _ => leaf M s (.flt x) r
  | .rat n d _ => leaf M s (newRat n d) r
  | .var text => leaf M s (varFor r (cstring text)).1 (varFor r (cstring text)).2
  | .str text back => leaf M s (stringToList M text back) r
  | .name text quoted => namedBody M s term turns maxprec (cstring text) quoted r
  | .punct 40 => do
    let r ← next M s r
    let (t, r) ← bracketed M s term 41 "expected )" r
    .ok ((t, 0), r)
  | .punct 91 => do
    let r ← next M s r
    if isPunct r 93 ∧ peek s r.pos = 40 then
      namedBody M s term turns maxprec [91, 93] false { r with bnil := true }
    else
      let (t, r) ← listBody M s term turns r
      .ok ((t, 0), r)
  | .punct 123 => do
    let r ← next M s r
    if isPunct r 125 then
      if peek s r.pos = 40 then namedBody M s term turns maxprec [123, 125] false r
      else leaf M s (newAtom [123, 125]) r
    else
      let (t, r) ← bracketed M s term 125 "expected \x7d" r
      .ok ((.app (.of [123, 125]) [t], 0), r)
  | _ => .error (.failed (r.fail "expected a term"))

/-- The name of an infix operator in hand: a comma and a bar are operators where they do not
end the term. -/
def infixName (r : Reader F) : Option Bytes :=
  match r.tok with
  | .name text quoted => if quoted = false ∨ quotedOp M.classes (cstring text) then some (cstring text) else none
  | .punct 44 => if r.stop = 0 then some [44] else none
  | .punct 124 => if r.stop ≠ 2 then some [124] else none
  | _ => none

/-- The operator in hand, when it can take what stands before it. -/
def infixHere (maxprec leftprec : Int) (r : Reader F) : Option (Bytes × Int × OpType) :=
  match infixName M r with
  | none => none
  | some name =>
    match M.opInfix name with
    | none => none
    | some (prec, type) =>
      if maxprec < prec then none
      else if (if type = .yfx then prec else prec - 1) < leftprec then none
      else some (name, prec, type)

/-- The loop of `coco_parse_term` over the infix operators. -/
def infixLoop (maxprec : Int) : (turns : Nat) → Term F × Int → Reader F → Except (Stop F) ((Term F × Int) × Reader F)
  | 0, _, _ => .error .spent
  | turns + 1, left, r =>
    match infixHere M maxprec left.2 r with
    | none => .ok (left, r)
    | some (name, prec, type) => do
      let r ← next M s r
      let (right, r) ← term (if type = .xfy then prec else prec - 1) r
      infixLoop maxprec turns (.app (fid name false) [left.1, right.1], prec) r

/-- `coco_parse_term`. -/
def termBody (turns : Nat) (maxprec : Int) (r : Reader F) : Except (Stop F) ((Term F × Int) × Reader F) := do
  let (left, r) ← primaryBody M s term turns maxprec r
  infixLoop M s term maxprec turns left r

end bodies

/-- `coco_parse_term`, its nesting and its loops no deeper and no longer than the turns. -/
def parseTerm (M : Machine F) (s : Bytes) : (turns : Nat) → Inner F
  | 0 => fun _ _ => .error .spent
  | turns + 1 => termBody M s (parseTerm M s turns) turns

/-- `memset` and `coco_next_token`. -/
def Reader.init (M : Machine F) (s : Bytes) : Reader F :=
  Reader.advance M s ⟨⟨0, .eof, false, 0, none, 0, []⟩, 0, 0, false, [], 0⟩

/-- The answers 1, 0 and -1 of `coco_read_clause`. -/
inductive Clause (F : Type) where
  | read (t : Term F)
  | eof
  | refused

/-- `coco_read_clause` starts on a clause. -/
def Reader.begun (r : Reader F) : Reader F := { r with vars := [], cstart := r.tstart, stop := 0 }

/-- `coco_read_clause`, `none` when the turns do not do. -/
def readClause (M : Machine F) (s : Bytes) (r : Reader F) : Option (Clause F × Reader F) :=
  if r.failed.isSome then some (.refused, r.begun)
  else if r.tok.isEof then some (.eof, r.begun)
  else
    match parseTerm M s (s.length + 2) 1200 r.begun with
    | .error .spent => none
    | .error (.failed r) => some (.refused, r)
    | .ok (t, r) =>
      if r.tok.isFull then some (.read t.1, r.pass.advance M s)
      else some (.refused, r.fail "expected . ending a clause")

/-- The answers 0, 2 and 1 of `coco_read_number_text`. -/
inductive NumberText (F : Type) where
  | no
  | wide
  | number (t : Term F)

/-- The escape in a character code that `coco_read_number_text` refuses before it reads. -/
def escapedCode (s : Bytes) : Bool :=
  let p := asciiEnd s isSpace 0
  let p := if peek s p = 43 ∨ peek s p = 45 then p + 1 else p
  peek s p = 48 ∧ peek s (p + 1) = 39 ∧ peek s (p + 2) = 92

/-- The number of a token with its sign; `strict` 2 tells an integer past 64 bits apart. -/
def numberOf (M : Machine F) (neg : Bool) (strict : Nat) : Token F → NumberText F
  | .int v w _ =>
    if (if neg then 1 else 0) < w then (if strict &&& 2 ≠ 0 then .wide else .no)
    else if neg ∧ w = 1 then .number (.int (-2 ^ 63))
    else .number (.int (if neg then -v else v))
  | .flt x _ => .number (.flt (if neg then M.doubles.neg x else x))
  | .rat n d _ => .number (newRat (if neg then -n else n) d)
  | _ => .no

/-- `coco_read_number_text`. -/
def readNumberText (M : Machine F) (s : Bytes) (strict : Nat) : NumberText F :=
  let r := Reader.init M s
  if escapedCode s ∨ r.failed.isSome ∨ strict &&& 1 ≠ 0 ∧ r.layoutBefore then .no
  else
    match r.tok with
    | .name text _ =>
      if cstring text = [43] ∨ cstring text = [45] then
        let r := r.pass.advance M s
        if r.failed.isSome ∨ r.layoutBefore ∨ r.pos ≠ s.length then .no
        else numberOf M (cstring text = [45]) strict r.tok
      else .no
    | t => if r.pos ≠ s.length then .no else numberOf M false strict t

end Cocolog.Syntax
