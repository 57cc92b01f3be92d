import Cocolog.Compact.Walks
import Cocolog.Store.Pred

/-! The compaction of the store: every live term copied through the heap into an array of
its own, in a fixed order, then every root moved in the same order, then the compiled
clauses keyed by the cells their clauses have now. -/

set_option linter.all false

namespace Cocolog.Compact

open Cocolog.Lib Cocolog.Term Cocolog.Store Cocolog.Copy

/-- `coco_global`. -/
structure Global where
  name : Nat
  cell : Nat
  size : Nat
  ver : Nat
  ground : Bool
deriving Repr, DecidableEq

/-- The table from a clause's cell to its program, of keys one more than the cell. -/
structure CodeTable where
  keys : Nat → Nat := fun _ => 0
  vals : Nat → Option Code := fun _ => none
  cap : Nat := 0
  len : Nat := 0

namespace CodeTable

/-- `coco_code_slot`. -/
def slot (cap key : Nat) : Nat :=
  let h := (key * 0x9E3779B97F4A7C15) % 2 ^ 64
  let h := h ^^^ (h >>> 32)
  let h := h ^^^ (h >>> 16)
  h &&& (cap - 1)

/-- The position the loops of `coco_code_find` and `coco_code_put` end at, `cap` turns at
most. -/
def position (tbl : CodeTable) (stop : Nat → Bool) (key : Nat) : Nat :=
  probe stop (fun i => (i + 1) &&& (tbl.cap - 1)) tbl.cap (slot tbl.cap key)

/-- `coco_code_find`. -/
def find (tbl : CodeTable) (clause : Nat) : Option Code :=
  if tbl.cap = 0 then none
  else
    let i := tbl.position (fun i => tbl.keys i == 0 || tbl.keys i == clause + 1) (clause + 1)
    if tbl.keys i = clause + 1 then tbl.vals i else none

/-- A key and its program written at the first position that is free. -/
def enter (tbl : CodeTable) (key : Nat) (cd : Option Code) : CodeTable :=
  let i := tbl.position (fun i => tbl.keys i == 0) key
  { tbl with keys := Function.update tbl.keys i key, vals := Function.update tbl.vals i cd }

/-- The table `coco_code_put` grows to, every entry at its new position. -/
def grown (tbl : CodeTable) : CodeTable :=
  let empty : CodeTable := { cap := if tbl.cap = 0 then 256 else tbl.cap * 2, len := tbl.len }
  (List.range tbl.cap).foldl (fun t i => if tbl.keys i = 0 then t else t.enter (tbl.keys i) (tbl.vals i)) empty

/-- `coco_code_put`: `rooms` are the answers to the growths of the table, and one that would
not grow stays as it is. -/
def put (tbl : CodeTable) (clause : Nat) (cd : Code) (rooms : Nat → Bool) : CodeTable × (Nat → Bool) :=
  let counted (t : CodeTable) : CodeTable := { t with len := t.len + 1 }
  if (tbl.len + 1) * 2 ≤ tbl.cap then (counted (tbl.enter (clause + 1) (some cd)), rooms)
  else if rooms 0 then (counted (tbl.grown.enter (clause + 1) (some cd)), fun k => rooms (k + 1))
  else (tbl, fun k => rooms (k + 1))

end CodeTable

/-- `coco_store`, what a compaction reads and writes of it. `kept` and `envd` are the
members of a program; `freed` are the programs given back to the allocator. A rootset is
the list of the cells it holds. -/
structure Base where
  preds : List Pred
  globals : List Global
  roots : List (List Nat)
  cells : Heap
  cap : Nat
  mark : Nat := 0
  dead : Nat := 0
  ncompacts : Nat := 0
  machines : Bool := false
  table : CodeTable := {}
  kept : Code → Bool := fun _ => false
  envd : Code → Bool := fun _ => false
  retired : List Code := []
  freed : List Code := []

/-- A predicate's clause cells, in order. -/
def cellsOf (p : Pred) : List Nat := (List.range p.nclauses).map p.clauses

/- Pass one. -/

/-- A live term through the heap into the fresh array, and the heap wound back. -/
def copyRoot {tb : Tables} (ws : Words tb) (fuel : Nat) (cells : Heap) (hmark root : Nat) (s : Copying) :
    Option (Nat × Copying) :=
  (s.get tb cells fuel root).bind fun (h, s) => (s.put ws fuel h).map fun (r, s) => (r, s.windHeap hmark)

/-- The roots of one array. -/
def copyRoots {tb : Tables} (ws : Words tb) (fuel : Nat) (cells : Heap) (hmark : Nat) :
    List Nat → Copying → Option (List Nat × Copying)
  | [], s => some ([], s)
  | root :: rest, s =>
    (copyRoot ws fuel cells hmark root s).bind fun (r, s) =>
      (copyRoots ws fuel cells hmark rest s).map fun (rs, s) => (r :: rs, s)

/-- The globals' roots, and the globals: each is given its new size as it is copied. -/
def copyGlobals {tb : Tables} (ws : Words tb) (fuel : Nat) (cells : Heap) (hmark : Nat) :
    List Global → Copying → Option (List Nat × List Global × Copying)
  | [], s => some ([], [], s)
  | g :: rest, s =>
    (copyRoot ws fuel cells hmark g.cell s).bind fun (r, s) =>
      (copyGlobals ws fuel cells hmark rest s).map fun (rs, gs, s') =>
        (r :: rs, { g with size := s.tmp.cells.len - r } :: gs, s')

/- Pass two. -/

/-- A clause's program, found by its old cell while the table still knows it. -/
def Base.codeOf (st : Base) (p : Pred) (j : Nat) : Option Code :=
  match p.codes j with
  | some cd => some cd
  | none => st.table.find (p.clauses j)

/-- A program marked as kept. -/
def keep (kept : Code → Bool) : Option Code → Code → Bool
  | some cd => Function.update kept cd true
  | none => kept

/-- A predicate's roots moved: the predicate, what is kept, and the counter. -/
def movePred (st : Base) (roots : List Nat) (p : Pred) (kept : Code → Bool) (k : Nat) :
    Pred × (Code → Bool) × Nat :=
  (List.range p.nclauses).foldl
    (fun s j =>
      let cd := st.codeOf s.1 j
      let p := { s.1 with
        codes := Function.update s.1.codes j cd
        clauses := Function.update s.1.clauses j (roots.getD s.2.2 0) }
      (p, keep s.2.1 cd, s.2.2 + 1))
    (p, kept, k)

/-- Every predicate's roots moved. -/
def movePreds (st : Base) (roots : List Nat) : List Pred → (Code → Bool) → Nat → List Pred × (Code → Bool) × Nat
  | [], kept, k => ([], kept, k)
  | p :: rest, kept, k =>
    let one := movePred st roots p kept k
    let all := movePreds st roots rest one.2.1 one.2.2
    (one.1 :: all.1, all.2)

/-- The globals' roots moved. -/
def moveGlobals (roots : List Nat) : List Global → Nat → List Global × Nat
  | [], k => ([], k)
  | g :: rest, k =>
    let all := moveGlobals roots rest (k + 1)
    ({ g with cell := roots.getD k 0 } :: all.1, all.2)

/-- A rootset's entries moved. -/
def moveSet (roots : List Nat) : List Nat → Nat → List Nat × Nat
  | [], k => ([], k)
  | _ :: rest, k =>
    let all := moveSet roots rest (k + 1)
    (roots.getD k 0 :: all.1, all.2)

/-- Every rootset's entries moved. -/
def moveSets (roots : List Nat) : List (List Nat) → Nat → List (List Nat) × Nat
  | [], k => ([], k)
  | rs :: rest, k =>
    let one := moveSet roots rs k
    let all := moveSets roots rest one.2
    (one.1 :: all.1, all.2)

/- The compiled clauses. -/

/-- `coco_code_retire`: a program no environment ever named is freed. -/
def Base.retire (st : Base) (cd : Code) : Base :=
  if st.envd cd = false then { st with freed := cd :: st.freed } else { st with retired := cd :: st.retired }

/-- The table emptied, what no clause owns going the way a dead clause's program goes. -/
def Base.emptied (st : Base) : Base :=
  let st := (List.range st.table.cap).foldl
    (fun s i =>
      if s.table.keys i = 0 then s
      else
        let s := match s.table.vals i with
          | some cd => if s.kept cd then s else s.retire cd
          | none => s
        { s with table := { s.table with
          keys := Function.update s.table.keys i 0
          vals := Function.update s.table.vals i none } })
    st
  { st with table := { st.table with len := 0 } }

/-- A clause's program keyed by the cell it has now. -/
def Base.keyClause (p : Pred) (s : Base × (Nat → Bool)) (j : Nat) : Base × (Nat → Bool) :=
  match p.codes j with
  | some cd =>
    if s.1.kept cd then
      let put := s.1.table.put (p.clauses j) cd s.2
      ({ s.1 with kept := Function.update s.1.kept cd false, table := put.1 }, put.2)
    else s
  | none => s

/-- Every clause's program keyed. -/
def Base.keyed (st : Base) (rooms : Nat → Bool) : Base :=
  (st.preds.foldl (fun s p => (List.range p.nclauses).foldl (Base.keyClause p) s) (st, rooms)).1

/- The compaction. -/

/-- The slack of the fresh array given back, if the allocator trims it. -/
def trim (tmp : Fresh) (a : Answers) : Fresh :=
  if tmp.cells.len < tmp.cap ∧ a.arrays 0 ≠ .refused then
    { tmp with cap := if 0 < tmp.cells.len then tmp.cells.len else 1 }
  else tmp

/-- The store once every live term is copied: the roots moved, the fresh array in the old
one's place and the programs keyed again. -/
def Base.moved (st : Base) (roots : List Nat) (tmp : Fresh) (a : Answers) (rooms : Nat → Bool) : Base :=
  let preds := movePreds st roots st.preds st.kept 0
  let globals := moveGlobals roots st.globals preds.2.2
  let sets := moveSets roots st.roots globals.2
  let trimmed := trim tmp a
  let st := { st with
    preds := preds.1
    kept := preds.2.1
    globals := globals.1
    roots := sets.1
    cells := trimmed.cells
    cap := trimmed.cap
    mark := trimmed.cells.len
    dead := 0
    ncompacts := st.ncompacts + 1 }
  st.emptied.keyed rooms

/-- `coco_store_compact`: its answer, the store and the machine. `rooms` are the answers to
the growths of the code table. -/
def compact {tb : Tables} (ws : Words tb) (fuel : Nat) (st : Base) (m : Mach) (a : Answers) (rooms : Nat → Bool) :
    Option (Bool × Base × Mach) :=
  if st.machines then some (false, st, m)
  else if a.arrays 0 = .refused then some (false, st, m)
  else if a.arrays 1 = .refused then some (false, st, m)
  else
    let want := if 0 < st.cells.len then st.cells.len else 1
    let hmark := m.heap.len
    let start : Copying := ⟨m, ⟨⟨fun _ => .ref 0, 0⟩, want, false⟩, a.later.later⟩
    (copyRoots ws fuel st.cells hmark (st.preds.flatMap cellsOf) start).bind fun (clauses, s) =>
      (copyGlobals ws fuel st.cells hmark st.globals s).bind fun (globals, sized, s) =>
        (copyRoots ws fuel st.cells hmark st.roots.flatten s).map fun (sets, s) =>
          -- the globals have their new sizes by now, whatever comes of it
          let st := { st with globals := sized }
          if s.tmp.oom || s.m.oom then (false, st, s.m)
          else (true, st.moved (clauses ++ globals ++ sets) s.tmp s.answers rooms, s.m)

end Cocolog.Compact
