import Cocolog.State.Image

/-! A frozen machine read back: the sections of the image in their order, each into tables
that start empty. A frame that names a predicate asks the backend for its clauses as it is
restored, and the reader makes their names and boxed values in the machine's own tables. -/

set_option linter.all false

namespace Cocolog.State

open Cocolog.Lib.Wire Cocolog.Store

/- Making table entries. -/

/-- A table that keeps one entry for each thing entered. -/
def enter {α : Type} [DecidableEq α] (l : List α) (a : α) : List α :=
  if a ∈ l then l else l ++ [a]

/-- `coco-cell`. -/
def cell (tag v : UInt64) : UInt64 := (v <<< 4) ||| tag

namespace Machine

/-- `coco_intern_h`, the entry told by its bytes and its hash. -/
def internH (m : Machine) (a : Atom) : Machine := { m with atoms := enter m.atoms a }

/-- The id an entry of the table has. -/
def idOf (m : Machine) (a : Atom) : Nat := m.atoms.idxOf a

/-- `coco_functor_id`. -/
def functorId (m : Machine) (f : Functor) : Machine := { m with functors := enter m.functors f }

/-- `coco_push`. -/
def push (m : Machine) (w : UInt64) : Machine := { m with heap := m.heap ++ [w] }

/-- `coco_trail_push`. -/
def trailPush (m : Machine) (w : UInt64) : Machine := { m with trail := m.trail ++ [w] }

/-- `coco_new_float`, no entry of the table being free. -/
def newFloat (m : Machine) (bits : UInt64) : Machine :=
  { m with floats := m.floats ++ [bits] }.push (cell 4 (UInt64.ofNat m.floats.length))

/-- `coco_big_entry`. -/
def bigEntry (m : Machine) (v : Int64) : Machine := { m with bigs := m.bigs ++ [v] }

/-- `coco_rat_entry`. -/
def ratEntry (m : Machine) (n d : Int64) : Machine := { m with rats := m.rats ++ [(n, d)] }

end Machine

/-- What reading a clause's text makes in the tables of the machine it is read into. -/
inductive Entry where
  | atom (a : Atom)
  | functor (name : Atom) (arity : UInt32)
  | float (bits : UInt64)
  | string (bytes : Bytes)
  | big (v : Int64)
  | rat (n d : Int64)

/-- One entry made. The heap is wound back when the clause is in the store. -/
def Machine.make (m : Machine) : Entry → Machine
  | .atom a => m.internH a
  | .functor name arity =>
    let m := m.internH name
    m.functorId { name := UInt64.ofNat (m.idOf name), arity }
  | .float bits => { m with floats := m.floats ++ [bits] }
  | .string bytes => { m with strings := m.strings ++ [bytes] }
  | .big v => m.bigEntry v
  | .rat n d => m.ratEntry n d

/-- A predicate of the store a thaw fills: its name, its arity, and whether the backend was
asked for it. -/
structure Slot where
  name : Nat
  arity : UInt32
  loaded : Bool := false
deriving Repr, DecidableEq

/-- What the names of the engine's own vocabulary are. -/
structure Vocabulary where
  names : List Bytes
  functors : List (Bytes × UInt32)

/-- `coco_ids_fill`, as far as the tables go. -/
def Machine.idsFill (voc : Vocabulary) (m : Machine) : Machine :=
  let m := voc.names.foldl (fun m name => m.internH (.plain name)) m
  voc.functors.foldl (fun m f =>
    let m := m.internH (.plain f.1)
    m.functorId { name := UInt64.ofNat (m.idOf (.plain f.1)), arity := f.2 }) m

/- Operators. -/

/-- `coco_op_define`. -/
def opDefine (ops : List OpDef) (name : Bytes) (prec type kind : Int32) : List OpDef :=
  let name := cString name
  if ops.any (fun o => o.kind == kind && o.name == name) = true then
    ops.map fun o => if o.kind == kind && o.name == name then { o with prec, type } else o
  else ops ++ [⟨name, prec, type, kind⟩]

/- Reading. -/

/-- Why a thaw gave up: the backend's words, when it was a read of its that failed. -/
abbrev Reader := Scanner (Option String)

def giveUp (why : Option String) : Reader Unit := fun z => ((), { z with stop := some why })

/-- A step that is left out once the thaw has given up. -/
def whenOk (p : Reader Unit) : Reader Unit := fun z => if z.stop.isSome = true then ((), z) else p z

/-- A section's letter, which has to be there, and its count. -/
def sectionCount (tag : UInt8) : Reader UInt64 := do
  whenOk (scanWord [tag])
  scanU64 10

/-- A section older images do not have. -/
def optional {α : Type} (tag : UInt8) (a : α) (p : Reader α) : Reader α := fun z =>
  if z.stop.isSome = true ∨ z.bad = true then (a, z)
  else
    let (there, z) := scanSection tag z
    if there = true then p z else (a, z)

/-- A `size_t` cut to an `int`. -/
def narrow (v : UInt64) : Int32 := v.toUInt32.toInt32

/-- `coco_scan_double`: the value and how far `strtod` got. -/
def scanDouble (strtod : Bytes → UInt64 × Nat) : Reader UInt64 := fun z =>
  let s := skip z.rest
  let (v, n) := strtod s
  if n = 0 then (0, { z with rest := s, bad := true }) else (v, { z with rest := s.drop n })

def thawAtom (m : Machine) : Reader Machine := do
  match ← scanName with
  | none =>
    giveUp none
    pure m
  | some name =>
    if (← scanSection 113) = true then pure (m.internH tnil) else pure (m.internH (.plain name))

def thawAtoms (m : Machine) : Reader Machine := do
  let na ← sectionCount 65
  scanFor thawAtom na.toNat m

def thawFunctors (m : Machine) : Reader Machine := do
  let nf ← sectionCount 70
  scanFor (fun m => do
    let name ← scanU64 10
    let ar ← scanU64 10
    pure (m.functorId { name, arity := ar.toUInt32 })) nf.toNat m

/-- The cells the floats pushed are dropped. -/
def thawFloats (strtod : Bytes → UInt64 × Nat) (m : Machine) : Reader Machine := do
  let nd ← sectionCount 68
  let m ← scanFor (fun m => do
    let d ← scanDouble strtod
    pure (m.newFloat d)) nd.toNat m
  pure { m with heap := [] }

def thawHeap (m : Machine) : Reader Machine := do
  let nh ← sectionCount 72
  scanFor (fun m => do
    let w ← scanU64 16
    pure (m.push w)) nh.toNat m

def thawTrail (m : Machine) : Reader Machine := do
  let nt ← sectionCount 84
  scanFor (fun m => do
    let w ← scanU64 10
    pure (m.trailPush w)) nt.toNat m

def thawEngine : Reader Engine := do
  whenOk (scanWord [69])
  let goals ← scanU64 10
  let query ← scanU64 10
  let steps ← scanU64 10
  let maxSteps ← scanU64 10
  let resume ← scanU64 10
  let halted ← scanU64 10
  pure { goals, query, steps, maxSteps, resume := narrow resume, halted := narrow halted }

/-- The machine, the engine and the store's predicates while frames are restored. -/
structure Work where
  m : Machine
  e : Engine
  preds : List Slot := []

/-- `coco_pred_intern`. -/
def predIntern (preds : List Slot) (name : Nat) (arity : UInt32) : List Slot :=
  if preds.any (fun s => s.name == name && s.arity == arity) = true then preds
  else preds ++ [{ name := name, arity := arity }]

def predIndex (preds : List Slot) (name : Nat) (arity : UInt32) : Nat :=
  preds.findIdx fun s => s.name == name && s.arity == arity

/-- What the backend holds of a predicate, or why it did not answer. Without a backend it
holds nothing. -/
abbrev Backend := Bytes → UInt32 → Except String (List Entry)

def noBackend : Backend := fun _ _ => .ok []

/-- The name of the alternative that runs a cleanup. -/
def sccFail : Atom := .plain [36, 115, 99, 99, 95, 102, 97, 105, 108]

/-- `coco_scc_at`, of a goal frame's call. -/
def sccAt (m : Machine) (call : UInt64) : Bool :=
  match m.heap[call.toNat]? with
  | some w =>
    w &&& 15 == 3 &&
      match m.functors[(w >>> 4).toNat]? with
      | some f => f.arity == 2 && f.name.toNat == m.idOf sccFail
      | none => false
  | none => false

/-- `coco_pred_ensure`: the predicate's clauses are asked for once. -/
def predEnsure (backend : Backend) (w : Work) (i : Nat) (name : Bytes) (arity : UInt32) :
    Except String Work :=
  match w.preds[i]? with
  | some s =>
    if s.loaded = true then .ok w
    else (backend name arity).map fun made =>
      { w with m := made.foldl Machine.make w.m, preds := w.preds.set i { s with loaded := true } }
  | none => .ok w

/-- The frame's predicate, of a frame that names one: found or made, and read. -/
def restorePred (backend : Backend) (w : Work) (name : Bytes) (arity : UInt32) :
    Except String (Work × UInt64) :=
  let name := cString name
  let m := w.m.internH (.plain name)
  let id := m.idOf (.plain name)
  let preds := predIntern w.preds id arity
  let i := predIndex preds id arity
  (predEnsure backend { w with m, preds } i name arity).map fun w => (w, UInt64.ofNat i)

/-- The rest of `coco_choice_restore`: the frame goes on, and a `setup_call_cleanup/3` frame
is counted. -/
def pushFrame (w : Work) (c : Choice) : Work :=
  let e := { w.e with choices := w.e.choices ++ [c], cunbound := w.e.cunbound || opens c.kind }
  if c.kind = code .goal ∧ c.call.toNat < w.m.heap.length then
    let m := w.m.internH sccFail
    { w with m, e := if sccAt m c.call = true then { e with ncleanup := e.ncleanup + 1 } else e }
  else { w with e }

/-- `coco_choice_restore`. -/
def choiceRestore (backend : Backend) (w : Work) (c : Choice) (name : Bytes) (arity : UInt32) :
    Except String Work :=
  if opens c.kind = true then
    (restorePred backend w name arity).map fun r =>
      pushFrame r.1 { c with pred := r.2, cend := unsettled }
  else .ok (pushFrame w c)

def thawChoice (backend : Backend) (w : Work) : Reader Work := do
  let kind ← scanU64 10
  let goals ← scanU64 10
  let tmark ← scanU64 10
  let hmark ← scanU64 10
  let call ← scanU64 10
  let cix ← scanU64 10
  let barrier ← scanU64 10
  let parity ← scanU64 10
  match ← scanName with
  | none =>
    giveUp none
    pure w
  | some name =>
    let c : Choice := { kind := narrow kind, goals, trailMark := tmark, heapMark := hmark, call,
                        clauseIx := cix, barrier }
    match choiceRestore backend w c name parity.toUInt32 with
    | .ok w => pure w
    | .error why =>
      giveUp (some why)
      pure w

def thawChoices (backend : Backend) (w : Work) : Reader Work := do
  let nc ← sectionCount 67
  scanFor (thawChoice backend) nc.toNat w

def thawOp (ops : List OpDef) : Reader (List OpDef) := do
  let prec ← scanU64 10
  let type ← scanU64 10
  let kind ← scanU64 10
  match ← scanName with
  | none =>
    giveUp none
    pure ops
  | some name => pure (opDefine ops name (narrow prec) (narrow type) (narrow kind))

/-- The operators of the process go when the image has its own. -/
def thawOps (ops : List OpDef) : Reader (List OpDef) :=
  optional 79 ops do
    let nops ← scanU64 10
    scanFor thawOp nops.toNat []

def thawFrees (e : Engine) : Reader Engine :=
  optional 73 e do
    let frees ← scanU64 10
    let maxInf ← scanU64 10
    pure { e with frees, maxInf }

def thawUnits (m : Machine) : Reader Machine :=
  optional 85 { m with textChars := 0 } do
    let v ← scanU64 10
    pure { m with textChars := if v = 0 then 0 else 1 }

def thawBigs (m : Machine) : Reader Machine :=
  optional 66 m do
    let nb ← scanU64 10
    scanFor (fun m => do
      let v ← scanU64 16
      pure (m.bigEntry v.toInt64)) nb.toNat m

def thawRats (m : Machine) : Reader Machine :=
  optional 82 m do
    let nr ← scanU64 10
    scanFor (fun m => do
      let n ← scanU64 16
      let d ← scanU64 16
      pure (m.ratEntry n.toInt64 d.toInt64)) nr.toNat m

def thawFlags (m : Machine) : Reader Machine :=
  optional 78 { m with fflags := 0 } do
    let v ← scanU64 10
    pure { m with fflags := narrow v &&& 15 }

def thawEnd (p : Nat × List Choice) : Reader (Nat × List Choice) := do
  let v ← scanU64 10
  pure (p.1 + 1,
    p.2.modify p.1 fun c => if opens c.kind = true ∧ v < 4294967295 then { c with cend := v.toUInt32 } else c)

def thawEnds (e : Engine) : Reader Engine :=
  optional 76 e do
    let nl ← scanU64 10
    let p ← scanFor thawEnd nl.toNat (0, e.choices)
    pure { e with choices := p.2 }

/- The three-bit tags of a format 1 image. -/

/-- `coco-fits-cell`. -/
def fitsCell (v : Int64) : Bool := (v.toUInt64 <<< 4).toInt64 >>> 4 == v

/-- One word of `coco_thaw_upgrade`, and the integers boxed so far. -/
def upgradeWord (bigs : List Int64) (w : UInt64) : Option (List Int64 × UInt64) :=
  let tag := w &&& 7
  let p := w >>> 3
  if tag = 2 then
    let v := w.toInt64 >>> 3
    if fitsCell v = true then some (bigs, cell 2 v.toUInt64)
    else some (bigs ++ [v], cell 7 (UInt64.ofNat bigs.length))
  else if tag = 7 then
    if p &&& ((1 : UInt64) <<< 60) = 0 then some (bigs, cell 7 p)
    else some (bigs, cell 8 (p &&& (((1 : UInt64) <<< 60) - 1)))
  else if 1152921504606846975 < p then none
  else some (bigs, (p <<< 4) ||| tag)

def upgradeWords : List Int64 → List UInt64 → Option (List Int64 × List UInt64)
  | bigs, [] => some (bigs, [])
  | bigs, w :: ws =>
    (upgradeWord bigs w).bind fun r => (upgradeWords r.1 ws).map fun s => (s.1, r.2 :: s.2)

def thawUpgrade (ver : Int32) (m : Machine) : Reader Machine := fun z =>
  if z.stop.isSome = false ∧ ver = 1 then
    match upgradeWords m.bigs m.heap with
    | some (bigs, heap) => ({ m with bigs, heap }, z)
    | none => (m, { z with stop := some none })
  else (m, z)

/-- The format's name and its version. -/
def thawVersion : Reader Int32 := fun z =>
  let (_, z) := scanWord [99, 111, 99, 111, 108, 111, 103] z
  if z.bad = true then (0, { z with stop := some none })
  else
    let (v, z) := scanU64 10 z
    let ver := narrow v
    if ver ≠ 1 ∧ ver ≠ 2 then (ver, { z with stop := some none }) else (ver, z)

/-- A thawed machine, its engine, the operators in force and the store's predicates. -/
structure Thawed where
  m : Machine
  e : Engine
  ops : List OpDef
  preds : List Slot

section

variable (strtod : Bytes → UInt64 × Nat) (backend : Backend) (ops : List OpDef)

def thawSections : Reader Thawed := do
  let ver ← thawVersion
  let m ← thawAtoms {}
  let m ← thawFunctors m
  let m ← thawFloats strtod m
  let m ← thawHeap m
  let m ← thawTrail m
  let e ← thawEngine
  let w ← thawChoices backend { m, e }
  let ops ← thawOps ops
  let e ← thawFrees w.e
  let m ← thawUnits w.m
  let m ← thawBigs m
  let m ← thawRats m
  let m ← thawUpgrade ver m
  let m ← thawFlags m
  let e ← thawEnds e
  pure { m, e, ops, preds := w.preds }

end

/-- The end of `coco_thaw`: the vocabulary, or what the engine's `err` says. -/
def finish (voc : Vocabulary) (len : Nat) (t : Thawed) (z : Scan (Option String)) : Except String Thawed :=
  match z.stop with
  | some (some why) =>
    .error (("the frozen machine's open calls could not be read back: " ++ why).take 511).toString
  | some none => .error s!"the frozen machine could not be read (at offset {len - z.rest.length})"
  | none =>
    if z.bad = true then .error s!"the frozen machine could not be read (at offset {len - z.rest.length})"
    else .ok { t with m := t.m.idsFill voc }

/-- `coco_thaw`. -/
def thaw (strtod : Bytes → UInt64 × Nat) (backend : Backend) (voc : Vocabulary) (ops : List OpDef)
    (text : Bytes) : Except String Thawed :=
  let text := cString text
  let r := thawSections strtod backend ops { rest := text }
  finish voc text.length r.1 r.2

end Cocolog.State
