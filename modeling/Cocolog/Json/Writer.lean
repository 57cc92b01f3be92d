import Cocolog.Json.Reader

/-! `json_codes`: a Prolog term as JSON text. A nonterminal of the writer answers the codes it
puts. -/

set_option linter.all false

namespace Cocolog.Json
open Lib Lib.Json Text

section
variable {F : Type} (C : Bool) (D : Doubles F)

/-- `json_codes/2`, the context of the errors. -/
def jsonCodesContext : Term F := .binary (name "/") (.atom (name "json_codes")) (.int 2)

/-! ## What indenting is -/

/-- `json_step`, the options a list. The first option that `indent(N)` unifies with is the one
taken, and an unbound one leaves `N` unbound. -/
def jsonStep (options : List (Term F)) : Nat :=
  match options.find? fun o => match o with
    | .unary f _ => f == name "indent"
    | .var => true
    | _ => false with
  | some (.unary _ (.num (.int i))) => if 0 < i then i.toNat else 0
  | _ => 0

def jsonBreak (step depth : Nat) : Text :=
  if step = 0 then [] else 10 :: List.replicate (step * depth) 32

def jsonSpace (step : Nat) : Text := if step = 0 then [] else [32]

/-! ## Numbers and strings -/

def jsonNumberCode (c : Nat) : Answers (Ball F) Unit :=
  (codeTypeDigit c).commit .one (.ask (c = 45 ∨ c = 43 ∨ c = 46 ∨ c = 101 ∨ c = 69))

def jsonFinite (n : Number F) : Text → Answers (Ball F) Unit
  | [] => .one ()
  | c :: cs => (jsonNumberCode c).commit (fun _ => jsonFinite n cs)
      (.throw (typeError "json_number" (.num n) jsonCodesContext))

def jsonNumber (n : Number F) : Answers (Ball F) Text := do
  jsonFinite n (numberCodes D n)
  return numberCodes D n

def jsonHexDigit (n : Nat) : Nat := if n < 10 then 48 + n else 97 + n - 10

def jsonEscape (c : Nat) : Text :=
  if c = 34 then [92, 34]
  else if c = 92 then [92, 92]
  else if c = 8 then [92, 98]
  else if c = 12 then [92, 102]
  else if c = 10 then [92, 110]
  else if c = 13 then [92, 114]
  else if c = 9 then [92, 116]
  else if c < 0x20 then [92, 117, 48, 48, jsonHexDigit (c >>> 4 &&& 0xF), jsonHexDigit (c &&& 0xF)]
  else [c]

def jsonEscaped : Text → Text
  | [] => []
  | c :: cs => jsonEscape c ++ jsonEscaped cs

/-- The codes of a list of codes. -/
def listCodes : Term F → Option Text
  | .nil => some []
  | .cons (.num (.int (.ofNat c))) t => (listCodes t).map (c :: ·)
  | _ => none

/-- `json_text_codes`. The third clause takes an unbound variable for `str(_)` again and again,
and the fourth takes any list: the model has no answer for one of anything but codes. -/
def jsonTextCodes : Term F → Answers (Ball F) Text
  | .atom a => .one (codesOf C a)
  | .num n => .one (numberCodes D n)
  | .unary f x =>
    if f = name "str" then jsonTextCodes x
    else .throw (typeError "json_text" (.unary f x) jsonCodesContext)
  | .var => .throw .unfinished
  | .nil => .one []
  | .cons h t =>
    match listCodes (.cons h t) with
    | some cs => .one cs
    | none => .throw .unfinished
  | t => .throw (typeError "json_text" t jsonCodesContext)

def jsonString (x : Term F) : Answers (Ball F) Text := do
  let cs ← jsonTextCodes C D x
  return 34 :: (jsonEscaped cs ++ [34])

/-! ## Values -/

/-- `json_literal`, which binds an unbound variable to the first of the three. -/
def jsonLiteral : Term F → Option Literal
  | .atom a =>
    if a = name "true" then some .true
    else if a = name "false" then some .false
    else if a = name "null" then some .null
    else none
  | .var => some .true
  | _ => none

mutual

def jsonEmit : Term F → Nat → Nat → Answers (Ball F) Text
  | .var, _, _ =>
    .throw (.error (.atom (name "instantiation_error")) jsonCodesContext)
  | .unary f x, step, depth =>
    match (if f = name "@" then jsonLiteral x else none) with
    | some l => .one l.text
    | none =>
      if f = name "str" then jsonString C D x
      else if f = name "json" then jsonObject x step depth
      else .throw (typeError "json_term" (.unary f x) jsonCodesContext)
  | .num n, _, _ => jsonNumber D n
  | .nil, _, _ => .one [91, 93]
  | .cons h t, step, depth => do
    -- `json_array` of a list that has an element, and its `json_items`
    let first ← jsonEmit h step (depth + 1)
    let more ← jsonMoreItems t step (depth + 1)
    return 91 :: (jsonBreak step (depth + 1) ++ (first ++ (more ++ (jsonBreak step depth ++ [93]))))
  | .atom a, _, _ => jsonString C D (.atom a)
  | t, _, _ => .throw (typeError "json_term" t jsonCodesContext)

/-- `json_object`, and its `json_members`. -/
def jsonObject : Term F → Nat → Nat → Answers (Ball F) Text
  | .nil, _, _ => .one [123, 125]
  | .var, _, _ => .one [123, 125]
  | .cons p ps, step, depth => do
    let first ← jsonMember p step (depth + 1)
    let more ← jsonMoreMembers ps step (depth + 1)
    return 123 :: (jsonBreak step (depth + 1) ++ (first ++ (more ++ (jsonBreak step depth ++ [125]))))
  | _, _, _ => .fail

def jsonMoreMembers : Term F → Nat → Nat → Answers (Ball F) Text
  | .nil, _, _ => .one []
  | .var, _, _ => .one []
  | .cons p ps, step, depth => do
    let first ← jsonMember p step depth
    let more ← jsonMoreMembers ps step depth
    return 44 :: (jsonBreak step depth ++ (first ++ more))
  | _, _, _ => .fail

/-- `json_member`, and its `json_pair`. An unbound member is taken for a pair of two unbound
variables. -/
def jsonMember : Term F → Nat → Nat → Answers (Ball F) Text
  | .binary f key value, step, depth =>
    if f = name "-" ∨ f = name "=" ∨ f = name ":" then do
      let k ← jsonString C D key
      let v ← jsonEmit value step depth
      return k ++ (58 :: (jsonSpace step ++ v))
    else .throw (typeError "json_pair" (.binary f key value) jsonCodesContext)
  | .var, _, _ => jsonString C D .var
  | p, _, _ => .throw (typeError "json_pair" p jsonCodesContext)

def jsonMoreItems : Term F → Nat → Nat → Answers (Ball F) Text
  | .nil, _, _ => .one []
  | .var, _, _ => .one []
  | .cons i is, step, depth => do
    let first ← jsonEmit i step depth
    let more ← jsonMoreItems is step depth
    return 44 :: (jsonBreak step depth ++ (first ++ more))
  | _, _, _ => .fail

end

/-- `json_codes(+Term, -Codes, +Options)`. -/
def jsonCodes (t : Term F) (options : List (Term F)) : Answers (Ball F) Text :=
  jsonEmit C D t (jsonStep options) 0

end
end Cocolog.Json
