import Cocolog.Lib.Wire
import Cocolog.Store.Freeze

/-! The machine and its engine as a freeze sees them, and the text it writes: sections
behind one letter each, numbers in decimal or hex, names as their bytes in hex. -/

set_option linter.all false

namespace Cocolog.State

open Cocolog.Lib.Wire Cocolog.Store

/-- The text `[]`. -/
def brackets : Bytes := [91, 93]

/-- `coco_atom`. The hash is the name's, but for the atom `'[]'`, which is filed under the
name's hash with its lowest bit turned. -/
structure Atom where
  name : Bytes
  turned : Bool := false
  only : turned = true → name = brackets := by intro h; cases h
deriving DecidableEq

/-- The entry of a name under its own hash. -/
def Atom.plain (name : Bytes) : Atom := { name }

/-- The list's end. -/
def nil : Atom := .plain brackets

/-- The atom `'[]'`. -/
def tnil : Atom := { name := brackets, turned := true, only := fun _ => rfl }

/-- `coco_functor`. -/
structure Functor where
  name : UInt64
  arity : UInt32
deriving Repr, DecidableEq

/-- `coco_machine`: the tables, the heap and the trail, and the flags of a machine's own. A
double is its bits, a cell its word. -/
structure Machine where
  atoms : List Atom := []
  functors : List Functor := []
  floats : List UInt64 := []
  bigs : List Int64 := []
  rats : List (Int64 × Int64) := []
  strings : List Bytes := []
  heap : List UInt64 := []
  trail : List UInt64 := []
  doubleQuotes : Int32 := 0
  textChars : Int32 := 0
  fflags : Int32 := 0

/-- `coco_choice`. -/
structure Choice where
  kind : Int32
  cend : UInt32 := 0
  goals : UInt64 := 0
  trailMark : UInt64 := 0
  heapMark : UInt64 := 0
  call : UInt64 := 0
  pred : UInt64 := 0
  clauseIx : UInt64 := 0
  barrier : UInt64 := 0
  ixpos : UInt32 := 0
  fera : UInt32 := 0
deriving Repr, DecidableEq

/-- `coco_engine`. -/
structure Engine where
  goals : UInt64 := 0
  query : UInt64 := 0
  steps : UInt64 := 0
  maxSteps : UInt64 := 0
  resume : Int32 := 0
  halted : Int32 := 0
  choices : List Choice := []
  frees : UInt64 := 0
  maxInf : UInt64 := 0
  ncleanup : Nat := 0
  cunbound : Bool := false

/-- `coco_opdef`. -/
structure OpDef where
  name : Bytes
  prec : Int32
  type : Int32
  kind : Int32
deriving Repr, DecidableEq

/-- A kind as the frame holds it. -/
def code (k : ChoiceKind) : Int32 := Int32.ofNat k.number

/-- Whether a frame of this kind names a predicate: a clause frame, or the walk of
`retract/1` and `clause/2`. -/
def opens (kind : Int32) : Bool := kind == code .clause || kind == code .db

/-- `strlen`'s part of a name. -/
def cString (s : Bytes) : Bytes := s.takeWhile (· != 0)

/-- The end of a call that a thaw has not settled. -/
def unsettled : UInt32 := 4294967295

/- Writing. -/

/-- `coco_sb_put_sz`. -/
def putSz (v : UInt64) : Bytes := numeral 10 v.toNat

/-- `coco_sb_put_hex`. -/
def putHex (v : UInt64) : Bytes := numeral 16 v.toNat

/-- An `int` widened to a `size_t`. -/
def wide (v : Int32) : UInt64 := v.toInt64.toUInt64

/-- A section's letter and how many entries follow. -/
def header (tag : UInt8) (n : Nat) : Bytes := [tag, 32] ++ numeral 10 n ++ [10]

/-- What follows the word at an index: sixteen stand on a line. -/
def lineEnd (i : Nat) : UInt8 := if i % 16 = 15 then 10 else 32

def wordLines (put : UInt64 → Bytes) (ws : List UInt64) : Bytes :=
  (ws.zipIdx.flatMap fun p => put p.1 ++ [lineEnd p.2]) ++ [10]

namespace Machine

/-- `coco_nil_id`, of a machine that has the list's end. -/
def nilId (m : Machine) : Nat := m.atoms.idxOf nil

/-- `coco_atom_is_tnil`. -/
def atomIsTnil (m : Machine) (a : Atom) (id : Nat) : Bool := a.name == brackets && id != m.nilId

/-- `coco_atom_name`. -/
def atomName (m : Machine) (id : Nat) : Bytes :=
  match m.atoms[id]? with
  | some a => a.name
  | none => [60, 98, 97, 100, 45, 97, 116, 111, 109, 62]

end Machine

section

variable (showDouble : UInt64 → Bytes) (m : Machine) (e : Engine) (ops : List OpDef)
  (st : List NamedPred)

def freezeAtoms : Bytes :=
  header 65 m.atoms.length ++ m.atoms.zipIdx.flatMap fun p =>
    nameText p.1.name ++ (if m.atomIsTnil p.1 p.2 = true then [32, 113] else []) ++ [10]

def freezeFunctors : Bytes :=
  header 70 m.functors.length ++ m.functors.flatMap fun f =>
    putSz f.name ++ [32] ++ (putSz f.arity.toUInt64 ++ [10])

/-- `%.17g` is the C library's. -/
def freezeFloats : Bytes :=
  header 68 m.floats.length ++ m.floats.flatMap fun d => showDouble d ++ [10]

def freezeHeap : Bytes := header 72 m.heap.length ++ wordLines putHex m.heap

def freezeTrail : Bytes := header 84 m.trail.length ++ wordLines putSz m.trail

def freezeEngine : Bytes :=
  [69, 32] ++ (putSz e.goals ++ [32]) ++ (putSz e.query ++ [32]) ++ (putSz e.steps ++ [32]) ++
    (putSz e.maxSteps ++ [32]) ++ (putSz (wide e.resume) ++ [32]) ++ (putSz (wide e.halted) ++ [10])

/-- A clause frame's next clause goes by its ordinal among the live clauses, and its
predicate by its name. -/
def freezeChoice (c : Choice) : Bytes :=
  let np := st.getD c.pred.toNat {}
  (putSz (wide c.kind) ++ [32]) ++ (putSz c.goals ++ [32]) ++ (putSz c.trailMark ++ [32]) ++
    (putSz c.heapMark ++ [32]) ++ (putSz c.call ++ [32]) ++
    (putSz (if opens c.kind = true then UInt64.ofNat (np.pred.liveBefore c.clauseIx.toNat)
      else c.clauseIx) ++ [32]) ++
    (putSz c.barrier ++ [32]) ++
    (putSz (if opens c.kind = true then UInt64.ofNat np.arity else 0) ++ [32]) ++
    (if opens c.kind = true then nameText (cString (m.atomName np.name)) else [48, 32]) ++ [10]

def freezeChoices : Bytes := header 67 e.choices.length ++ e.choices.flatMap (freezeChoice m st)

def freezeOps : Bytes :=
  header 79 ops.length ++ ops.flatMap fun o =>
    (putSz (wide o.prec) ++ [32]) ++ (putSz (wide o.type) ++ [32]) ++ (putSz (wide o.kind) ++ [32]) ++
      (nameText (cString o.name) ++ [10])

def freezeFrees : Bytes := [73, 32] ++ (putSz e.frees ++ [32]) ++ (putSz e.maxInf ++ [10])

def freezeUnits : Bytes := [85, 32] ++ (putSz (wide m.textChars) ++ [10])

def freezeBigs : Bytes :=
  header 66 m.bigs.length ++ m.bigs.flatMap fun v => putHex v.toUInt64 ++ [10]

def freezeRats : Bytes :=
  header 82 m.rats.length ++ m.rats.flatMap fun r =>
    putHex r.1.toUInt64 ++ [32] ++ (putHex r.2.toUInt64 ++ [10])

def freezeFlags : Bytes := [78, 32] ++ (putSz (wide m.fflags) ++ [10])

/-- How far an open call may go, among the live clauses. -/
def frozenEnd (c : Choice) : UInt64 :=
  if opens c.kind = false then 0
  else if c.cend = unsettled then unsettled.toUInt64
  else UInt64.ofNat ((st.getD c.pred.toNat {}).pred.liveBefore c.cend.toNat)

def freezeEnds : Bytes :=
  header 76 e.choices.length ++ wordLines putSz (e.choices.map (frozenEnd st))

/-- `coco_freeze_image`. -/
def freezeImage : Bytes :=
  [99, 111, 99, 111, 108, 111, 103, 32, 50, 10] ++ freezeAtoms m ++ freezeFunctors m ++
    freezeFloats showDouble m ++ freezeHeap m ++ freezeTrail m ++ freezeEngine e ++
    freezeChoices m e st ++ freezeOps ops ++ freezeFrees e ++ freezeUnits m ++ freezeBigs m ++
    freezeRats m ++ freezeFlags m ++ freezeEnds e st

end

end Cocolog.State
