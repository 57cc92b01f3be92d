import Cocolog.Syntax.Parser

/-! The second scanner: `coco_raw_walk` finds the end of a clause's text without its tokens,
and `coco_reader_resync` takes the reader past a clause it refused. -/

set_option linter.all false

namespace Cocolog.Syntax
open Text Lib

/-- The position and the raw text of the walk, where its first token began. -/
structure Walk where
  p : Nat
  any : Bool
  raw : Bytes
  at0 : Nat
deriving Repr, DecidableEq

/-- Its answer: the place after it, and 0 a full stop, 1 the end of the text, 2 nothing read, 3 a
quote `q`, 4 a block comment and 5 a number that does not end, 6 a full stop alone. -/
structure Walked where
  pos : Nat
  kind : Nat
  q : Nat
  at0 : Nat
  raw : Bytes
deriving Repr, DecidableEq

/-- `coco_raw_blank`: a comment from `a` to `b`. -/
def rawBlank (s : Bytes) (chars : Bool) (a b : Nat) : Bytes :=
  ((slice s a b).filter fun c => !chars ∨ c.toNat &&& 192 ≠ 128).map fun c => if c = 10 then 10 else 32

/-- The bytes to `q` taken into the raw text. -/
def Walk.take (s : Bytes) (w : Walk) (q : Nat) : Walk := { w with p := q, raw := w.raw ++ slice s w.p q }

/-- The bytes to `q` taken when something has been read. -/
def Walk.pass (s : Bytes) (w : Walk) (q : Nat) : Walk := if w.any then w.take s q else { w with p := q }

/-- A comment to `q`. -/
def Walk.comment (s : Bytes) (chars : Bool) (w : Walk) (q : Nat) : Walk :=
  { w with p := q, raw := if w.any then w.raw ++ rawBlank s chars w.p q else w.raw }

/-- A token begins at the walk. -/
def Walk.token (w : Walk) : Walk := if w.any then w else { w with any := true, at0 := w.p }

def Walk.ends (w : Walk) (pos kind q : Nat) : Walked := ⟨pos, kind, q, w.at0, w.raw⟩

/-- `coco-raw-symbols`. -/
def rawSymbols (ct : Classes) (s : Bytes) (p : Nat) : Nat := runEnd ct s isSymbol 2 p

/-- The walk inside a quoted item, past the quote: where it closes. -/
def rawQuoted (s : Bytes) (qq : Int) : (turns p : Nat) → Option Nat
  | 0, _ => none
  | turns + 1, p =>
    let d := peek s p
    if d = -1 then none
    else if d = qq then some (p + 1)
    else if d = 92 then
      let e := peek s (p + 1)
      if e = -1 then none
      else if e = 120 ∨ 48 ≤ e ∧ e ≤ 55 then
        let f := if e = 120 then asciiEnd s (fun b => (hexDigit b).isSome) (p + 2)
          else asciiEnd s (fun b => 48 ≤ b ∧ b ≤ 55) (p + 2)
        if peek s f = -1 then none
        else if peek s f = qq then some (f + 1)
        else rawQuoted s qq turns (f + 1)
      else rawQuoted s qq turns (p + 2)
    else rawQuoted s qq turns (p + 1)

/-- The one or two digits that end before `p`, and the code before them no part of a name:
their number. -/
def rawBase (ct : Classes) (s : Bytes) (at0 p : Nat) : Option Nat :=
  if at0 < p ∧ isDigit (peek s (p - 1)) then
    let bs := if at0 < p - 1 ∧ isDigit (peek s (p - 2)) then p - 2 else p - 1
    let pc := if at0 < bs then cpBefore s at0 bs else 32
    if rdIs ct pc 8 then none else some (atoi (slice s bs p))
  else none

/-- What a quote after digits is: no quoted item, to the place given, or the end of the text. -/
inductive RawNumber where
  | quote
  | taken (q : Nat)
  | beyond
deriving Repr, DecidableEq

/-- `0'c` and `R'DIGIT` at the quote `p`. -/
def rawNumber (ct : Classes) (s : Bytes) (at0 p : Nat) : RawNumber :=
  match rawBase ct s at0 p with
  | none => .quote
  | some base =>
    if base = 0 then
      if peek s (p + 1) = -1 then .beyond
      else if peek s (p + 1) = 92 ∧ peek s (p + 2) ≠ -1 then .taken (p + 3)
      else if peek s (p + 1) = 39 ∧ peek s (p + 2) = 39 then .taken (p + 3)
      else .taken (p + 2)
    else if base ≤ 36 then
      if peek s (p + 1) = -1 then .beyond
      else if (radixDigit (peek s (p + 1)) base).isSome then .taken (p + 2)
      else .quote
    else .quote

/-- One turn of the walk before the end of the text. -/
def rawStep (ct : Classes) (s : Bytes) (chars : Bool) (w : Walk) : Walk ⊕ Walked :=
  let p := w.p
  let c := peek s p
  if c = 47 ∧ peek s (p + 1) = 42 then
    let e := blockEnd s (p + 2)
    if peek s e = -1 then .inr (w.ends s.length 4 0) else .inl (w.comment s chars (e + 2))
  else if c = 37 then .inl (w.comment s chars (lineEnd s p))
  else if isSpace c then .inl (w.pass s (p + 1))
  else if 128 ≤ c then
    let f := ct.flags (cpAt s p).1
    if f &&& 2 ≠ 0 then .inl { w.take s (rawSymbols ct s p) with any := true, at0 := w.token.at0 }
    else if f &&& 1 = 0 then .inl { w.take s (p + (cpAt s p).2) with any := true, at0 := w.token.at0 }
    else .inl (w.pass s (p + (cpAt s p).2))
  else
    let w := w.token
    if c = 46 then
      if clauseEnds ct s (p + 1) then
        let w := w.take s (p + 1)
        .inr (if w.raw.length = 1 then w.ends (p + 1) 6 0 else { w with raw := w.raw ++ [32] }.ends (p + 1) 0 0)
      else .inl (w.take s (rawSymbols ct s (p + 1)))
    else if isSymbol c then .inl (w.take s (rawSymbols ct s p))
    else if c = 39 ∨ c = 34 ∨ c = 96 then
      match if c = 39 then rawNumber ct s w.at0 p else .quote with
      | .taken q => .inl (w.take s q)
      | .beyond => .inr (w.ends s.length 5 0)
      | .quote =>
        match rawQuoted s c (s.length - p) (p + 1) with
        | none => .inr (w.ends s.length 3 c.toNat)
        | some q => .inl (w.take s q)
    else .inl (w.take s (p + 1))

/-- At the end of the text: nothing was read, or its full stop is put there. -/
def rawEnd (s : Bytes) (w : Walk) : Walked :=
  if w.any then
    let raw := if isSpace ((w.raw.getLast?.getD 32).toNat : Int) then w.raw else w.raw ++ [32]
    { w with raw := raw ++ [46, 32] }.ends s.length 1 0
  else w.ends s.length 2 0

/-- The loop of `coco_raw_walk`. -/
def rawLoop (ct : Classes) (s : Bytes) (chars : Bool) : (turns : Nat) → Walk → Walked
  | 0, w => rawEnd s w
  | turns + 1, w =>
    if s.length ≤ w.p then rawEnd s w
    else
      match rawStep ct s chars w with
      | .inl w => rawLoop ct s chars turns w
      | .inr done => done

/-- `coco_raw_walk`. -/
def rawWalk (ct : Classes) (s : Bytes) (from_ : Nat) (chars : Bool) : Walked :=
  rawLoop ct s chars (s.length - from_) ⟨min from_ s.length, false, [], s.length⟩

variable {F : Type}

/-- `coco_reader_resync`. -/
def Reader.resync (M : Machine F) (s : Bytes) (r : Reader F) : Reader F :=
  Reader.advance M s { r with
    pos := (rawWalk M.classes s r.cstart false).pos
    vars := []
    failed := none }

end Cocolog.Syntax
