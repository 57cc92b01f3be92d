import Cocolog.Copy.RoundTrip
import Cocolog.Lib.Slots

/-! The two walks of a compaction as memory runs short. An array that may not grow keeps
what it holds: the push that asked answers index 0 and the walk goes on, writing there. A
map that may not grow leaves a variable unmapped and nothing says so. -/

set_option linter.all false

namespace Cocolog.Compact

open Cocolog.Lib Cocolog.Term Cocolog.Store Cocolog.Copy

/-- The allocator's answers, in the order they are asked for: to the growths of arrays, and
to those of variable maps. -/
structure Answers where
  arrays : Nat → Grant
  maps : Nat → Bool

namespace Answers

/-- The answers after the next to an array. -/
def later (a : Answers) : Answers := { a with arrays := fun k => a.arrays (k + 1) }

/-- The answers after the next to a map. -/
def laterMap (a : Answers) : Answers := { a with maps := fun k => a.maps (k + 1) }

end Answers

/-- What the stack limit leaves of a doubling, zero for no limit (`coco_stack_cap`). -/
def stackCap (slimit need ncap : Nat) : Nat :=
  if slimit = 0 then ncap
  else
    let room := slimit / 8
    if room + (room / 16 + 64) < ncap then
      if need ≤ room then room + (room / 16 + 64) else need + (need / 16 + 64)
    else ncap

/-- What a machine lends the walks: its heap, and the room of its spare frames and of its
spare variable map. -/
structure Mach where
  heap : Heap
  heapCap : Nat
  slimit : Nat := 0
  oom : Bool := false
  cycPuts : Nat := 0
  wframesCap : Nat := 0
  vmapCap : Nat := 0

/-- The store that is filled. -/
structure Fresh where
  cells : Heap
  cap : Nat
  oom : Bool := false

/-- A walk with the room of what it fills, whose owner's `oom` it sets, of its frames and
of its map. -/
structure Fill where
  walk : Copy.Walk
  cap : Nat
  slimit : Nat
  oom : Bool
  framesCap : Nat
  vmapCap : Nat
  answers : Answers

namespace Fill

/-- `coco_grow` and `coco_store_grow`: whether there is room for `need` cells. -/
def grow (f : Fill) (need : Nat) : Bool × Fill :=
  if need ≤ f.cap then (true, f)
  else
    match f.answers.arrays 0 with
    | .refused => (false, { f with oom := true, answers := f.answers.later })
    | .short => (true, { f with cap := need + (need / 16 + 64), answers := f.answers.later })
    | .doubled => (true, { f with cap := stackCap f.slimit need (doubled f.cap need), answers := f.answers.later })

/-- `coco_push` and `coco_store_push`. -/
def push (f : Fill) (c : Cell) : Nat × Fill :=
  let r := f.grow (f.walk.len + 1)
  if r.1 then (f.walk.len, { r.2 with walk := f.walk.push c }) else (0, r.2)

/-- `coco_new_var` and `coco_store_new_var`. -/
def newVar (f : Fill) : Nat × Fill :=
  let r := f.push (.ref 0)
  (r.1, { r.2 with walk := r.2.walk.setArg r.1 r.1 })

/-- The slots a put reserves, each asked for by itself. -/
def newVars : Nat → Fill → Fill
  | 0, f => f
  | n + 1, f => newVars n f.newVar.2

/-- `coco_push_struct`. -/
def pushStruct (f : Fill) (c : Cell) (n : Nat) : Nat × Fill :=
  let r := f.grow (f.walk.len + (n + 1))
  if r.1 then (f.walk.len, { r.2 with walk := f.walk.pushStruct c n }) else (0, r.2)

/-- `coco_frames_push`, for a compound that has arguments; refused, its owner is out of
memory. -/
def owe (f : Fill) (src dst n : Nat) : Fill :=
  if n = 0 then f
  else if f.walk.frames.length < f.framesCap then { f with walk := f.walk.owe src dst n }
  else if f.answers.arrays 0 = .refused then { f with oom := true, answers := f.answers.later }
  else
    { f with
      walk := f.walk.owe src dst n
      framesCap := if f.framesCap = 0 then 32 else f.framesCap * 2
      answers := f.answers.later }

/-- The growth `coco_varmap_put` and `coco_varmap_intern` ask for before they probe. -/
def mapRoom (f : Fill) : Bool × Fill :=
  if (f.walk.vars.length + 1) * 2 ≤ f.vmapCap then (true, f)
  else if f.answers.maps 0 then
    (true, { f with vmapCap := if f.vmapCap = 0 then 32 else f.vmapCap * 2, answers := f.answers.laterMap })
  else (false, { f with answers := f.answers.laterMap })

/-- A variable not met before entered in the map, where there is room. -/
def enter (f : Fill) (v to_ : Nat) : Fill :=
  let r := f.mapRoom
  if r.1 then { r.2 with walk := { f.walk with vars := (v, to_) :: f.walk.vars } } else r.2

/-- `coco_varmap_intern`: the value there was, if there was room to look. -/
def intern (f : Fill) (v to_ : Nat) : Option Nat × Fill :=
  let r := f.mapRoom
  if r.1 then
    match f.walk.vars.lookup v with
    | some old => (some old, r.2)
    | none => (none, { r.2 with walk := { f.walk with vars := (v, to_) :: f.walk.vars } })
  else (none, r.2)

/-- A slot pointed at a cell. -/
def setArg (f : Fill) (slot to_ : Nat) : Fill := { f with walk := f.walk.setArg slot to_ }

/- The put. -/

/-- `coco_store_put_node`. -/
def putNode (tb : Tables) (h : Heap) (t : Nat) (f : Fill) : Nat × Fill :=
  let t := h.deref t
  match h.cells t with
  | .ref _ =>
    match f.walk.vars.lookup t with
    | some v => (v, f)
    | none =>
      let r := f.newVar
      (r.1, r.2.enter t r.1)
  | .func fn =>
    let r := f.push (.func fn)
    -- asked before the slots are reserved; the walk is left without a frame
    if past r.2.walk.wceil r.1 then (r.1, { r.2 with walk := { r.2.walk with wceil := some 0, frames := [] } })
    else (r.1, (r.2.newVars (tb.arity fn)).owe t (r.1 + 1) (tb.arity fn))
  | c => f.push c

/-- A turn of the loop in `coco_store_put_walk`. -/
def putStep (tb : Tables) (h : Heap) (f : Fill) : Option Fill :=
  match f.walk.frames with
  | [] => none
  | fr :: rest =>
    if fr.n ≤ fr.i then some { f with walk := { f.walk with frames := rest } }
    else
      let r := putNode tb h (fr.src + (fr.i + 1)) { f with walk := { f.walk with frames := advance fr rest } }
      some (r.2.setArg (fr.dst + fr.i) r.1)

/- The get. -/

/-- A turn of the loop in `coco_store_get_vm`. -/
def getStep (tb : Tables) (st : Heap) (f : Fill) : Option Fill :=
  match f.walk.frames with
  | [] => none
  | fr :: rest =>
    if fr.n ≤ fr.i then some { f with walk := { f.walk with frames := rest } }
    else
      let src := st.deref (fr.src + (fr.i + 1))
      let slot := fr.dst + fr.i
      let f : Fill := { f with walk := { f.walk with frames := advance fr rest } }
      match st.cells src with
      | .ref _ =>
        match f.intern src slot with
        | (some v, f) => some (f.setArg slot v)
        | (none, f) => some f
      | .func fn =>
        let r := f.pushStruct (.func fn) (tb.arity fn)
        some ((r.2.setArg slot r.1).owe src (r.1 + 1) (tb.arity fn))
      | c =>
        let r := f.push c
        some (r.2.setArg slot r.1)

/-- `coco_store_get_vm`. -/
def getVm (tb : Tables) (st : Heap) (fuel t : Nat) (f : Fill) : Option (Nat × Fill) :=
  let t := st.deref t
  match st.cells t with
  | .ref _ =>
    let v := f.newVar
    match v.2.intern t v.1 with
    | (some old, f) => some (old, { f with walk := { f.walk with len := v.1 } })
    | (none, f) => some (v.1, f)
  | .func fn =>
    let r := f.pushStruct (.func fn) (tb.arity fn)
    (loop (getStep tb st) fuel (r.2.owe t (r.1 + 1) (tb.arity fn))).map fun f => (r.1, f)
  | c => some (f.push c)

end Fill

/-- What a spare array's room is once it is given back: one grown large is freed. -/
def given (cap : Nat) : Nat := if cap ≤ 65536 then cap else 0

/-- A copy under way: the machine, the store that is filled and the answers to come. -/
structure Copying where
  m : Mach
  tmp : Fresh
  answers : Answers

namespace Copying

variable {tb : Tables}

/-- The machine once a walk has given its spare arrays back. -/
def giveBack (m : Mach) (f : Fill) : Mach :=
  { m with wframesCap := given f.framesCap, vmapCap := given f.vmapCap }

/-- `coco_store_get`, of a store's cells onto the heap. -/
def get (tb : Tables) (st : Heap) (fuel t : Nat) (s : Copying) : Option (Nat × Copying) :=
  let start : Fill :=
    ⟨.over_ s.m.heap none, s.m.heapCap, s.m.slimit, s.m.oom, s.m.wframesCap, s.m.vmapCap, s.answers⟩
  (start.getVm tb st fuel t).map fun r =>
    let m := { giveBack s.m r.2 with heap := ⟨r.2.walk.cells, r.2.walk.len⟩, heapCap := r.2.cap, oom := r.2.oom }
    (r.1, { s with m := m, answers := r.2.answers })

/-- `coco_store_put_walk`, with whether it went past the ceiling. -/
def putWalk (tb : Tables) (fuel t : Nat) (wceil : Option Nat) (s : Copying) : Option (Nat × Bool × Copying) :=
  let start : Fill :=
    ⟨.over_ s.tmp.cells wceil, s.tmp.cap, 0, s.tmp.oom, s.m.wframesCap, s.m.vmapCap, s.answers⟩
  let r := start.putNode tb s.m.heap t
  (loop (Fill.putStep tb s.m.heap) fuel r.2).map fun f =>
    (r.1, f.walk.wceil == some 0,
      { m := giveBack s.m f, tmp := ⟨⟨f.walk.cells, f.walk.len⟩, f.cap, f.oom⟩, answers := f.answers })

/-- `coco_acyclic`, with one answer for what it asks for: the answer 1 or another. -/
def acyclicTerm (tb : Tables) (fuel t : Nat) (s : Copying) : Option (Bool × Copying) :=
  (acyclic tb s.m.heap fuel t).map fun tree => (tree && s.answers.arrays 0 != .refused, { s with answers := s.answers.later })

/-- `coco_factorize`, with one answer for what it asks for: none when it could not be
built. -/
def factors (ws : Words tb) (fuel t : Nat) (s : Copying) : Option (Option Nat × Copying) :=
  if s.answers.arrays 0 = .refused then some (none, { s with m := { s.m with oom := true }, answers := s.answers.later })
  else
    (factorize ws fuel t s.m.heap).map fun r =>
      (r.1, { s with m := { s.m with heap := r.2, heapCap := max s.m.heapCap r.2.len }, answers := s.answers.later })

/-- `coco_new_atom` of `$cyclic`. -/
def cyclicAtom (ws : Words tb) (s : Copying) : Nat × Copying :=
  let start : Fill :=
    ⟨.over_ s.m.heap none, s.m.heapCap, s.m.slimit, s.m.oom, s.m.wframesCap, s.m.vmapCap, s.answers⟩
  let r := start.push (.atom ws.cyclic)
  let m := { s.m with heap := ⟨r.2.walk.cells, r.2.walk.len⟩, heapCap := r.2.cap, oom := r.2.oom }
  (r.1, { s with m := m, answers := r.2.answers })

/-- The store that is filled wound back. -/
def windTmp (s : Copying) (base : Nat) : Copying := { s with tmp := { s.tmp with cells := ⟨s.tmp.cells.cells, base⟩ } }

/-- The heap wound back. -/
def windHeap (s : Copying) (mark : Nat) : Copying := { s with m := { s.m with heap := ⟨s.m.heap.cells, mark⟩ } }

/-- `coco_store_put_over`. -/
def putOver (ws : Words tb) (fuel t base : Nat) (s : Copying) : Option (Nat × Copying) :=
  ((s.windTmp base).acyclicTerm tb fuel t).bind fun (tree, s) =>
    if tree then (s.putWalk tb fuel t none).map fun r => (r.1, r.2.2)
    else
      (s.factors ws fuel t).bind fun (root, s') =>
        let made :=
          match root with
          | some r => (r, s')
          | none => s'.cyclicAtom ws
        (made.2.putWalk tb fuel made.1 none).map fun (r, _, s'') =>
          let back := s''.windHeap s.m.heap.len
          (r, { back with m := { back.m with cycPuts := back.m.cycPuts + 1 } })

/-- `coco_store_put`. -/
def put (ws : Words tb) (fuel t : Nat) (s : Copying) : Option (Nat × Copying) :=
  let base := s.tmp.cells.len
  (s.putWalk tb fuel t (some (base + (s.m.heap.len * 2 + 64)))).bind fun (r, over_, s) =>
    if over_ then s.putOver ws fuel t base else some (r, s)

end Copying

end Cocolog.Compact
