import Cocolog.Gc.Mark

/-! `coco_heap_collect`. What is marked keeps its order and slides down to its rank; the
trail keeps the entries a barrier can still undo, and everything that names a cell is told
where it went. The tables' entries nothing names any more are given back, the others stay
where they are. -/

set_option linter.all false

namespace Cocolog.Gc

open Cocolog.Lib Cocolog.Term

/-- What memory could be had: the bitmap and the ranks, the barriers' lists, cells of the
mark's stack, the markers' own bitmap, and the tables' lists. `due` says that enough entries
were made for the tables to be looked through. -/
structure Memory where
  bitmap : Bool := true
  lists : Bool := true
  stack : Nat
  fixed : Bool := true
  due : Bool := true
  free : Bool := true

namespace Machine

/-- `coco_gcache_ok`. -/
def gcacheOk (m : Machine) (i : Nat) (g : GCache) : Bool :=
  g.pinned || match g.tpos with
    | none => true
    | some p => m.trail[p]? == some ((i + 1) * 2 ^ 40 % 2 ^ 64 ||| pairBit) &&
        m.trail[p + 1]? == some (g.serial * 2 ^ 40 % 2 ^ 64 ||| pairBit)

/-- A copy that is still its global's value. -/
def copyStands (m : Machine) (i : Nat) (g : GCache) : Bool :=
  decide (g.root < m.heapLen) && m.gcacheSs == m.serial && m.globals[i]? == some g.ver &&
    m.gcacheOk i g

/-- The loop over the copies: one that stands is a root, another is forgotten. -/
def markGlobals (m : Machine) (room : Nat) : Nat → List GCache → Option Bits →
    List GCache × Option Bits
  | _, [], bits => ([], bits)
  | _, gs, none => (gs, none)
  | i, g :: gs, some bits =>
    if g.ver = 0 then
      let r := m.markGlobals room (i + 1) gs (some bits)
      (g :: r.1, r.2)
    else if m.copyStands i g = true then
      let r := m.markGlobals room (i + 1) gs (m.markRoot room bits g.root)
      (g :: r.1, r.2)
    else
      let r := m.markGlobals room (i + 1) gs (some bits)
      ({ g with ver := 0 } :: r.1, r.2)

/-- The cells that hold what `setarg/3` took away. -/
def savedCells (n : Nat) : List Nat → List Nat
  | v :: w :: rest =>
    if isPair v = true then
      (if trailTag v = 0 ∧ trailCell v < n then [trailCell v] else []) ++ savedCells n rest
    else savedCells n (w :: rest)
  | _ => []

def hasMarker (m : Machine) (bits : Bits) : Bool :=
  (List.range m.heapLen).any fun t => bits.marked t && m.heap t == .func m.texit

/-- Everything marked, or `none` where memory ran out, and the copies that are left. -/
def markPhase (m : Machine) (mem : Memory) : List GCache × Option Bits :=
  let engines := if mem.bitmap then m.markAll mem.stack Bits.empty m.engineRoots else none
  let engines := if m.barriers = [] ∨ mem.lists = true then engines else none
  let hosts := engines.bind fun bits => m.markAll mem.stack bits m.hostRoots
  let r := m.markGlobals mem.stack 0 m.gcache hosts
  let all := r.2.bind fun bits => m.markAll mem.stack bits (savedCells m.heapLen m.trail)
  (r.1, all.filter fun bits => mem.fixed || !m.hasMarker bits)

/- The markers' integers. -/

/-- One argument of a marker: its integer becomes the rank of the cell it names, once. -/
def fixArg (n : Nat) (bits : Bits) (s : Mem × Bits) (a : Nat) : Mem × Bits :=
  let j := deref s.1 n a
  match s.1 j with
  | .int q =>
    if s.2.marked j = true then s
    else (if 0 ≤ q ∧ q < n then Function.update s.1 j (.int (bits.rank q.toNat)) else s.1,
      s.2.mark j)
  | _ => s

def fixMarkers (m : Machine) (bits : Bits) : Mem :=
  ((List.range m.heapLen).foldl (fun s t =>
    if bits.marked t = true ∧ s.1 t = .func m.texit then
      [t + 1, t + 3].foldl (fixArg m.heapLen bits) s
    else s) (m.heap, Bits.empty)).1

/- The trail. -/

/-- A value entry or a sentinel: the words it keeps and the copies after it. `last` is the
heap mark of the newest barrier older than the entry. -/
def keepPair (n : Nat) (bits : Bits) (p kept : Nat) (last : Option Nat) (gc : List GCache)
    (v w : Nat) : List Nat × List GCache :=
  if trailTag w ≠ 0 then
    match gc[trailTag v - 1]? with
    | some g =>
      if 0 < trailTag v ∧ g.ver ≠ 0 ∧ g.pinned = false ∧ g.tpos = some p ∧ g.serial = trailTag w then
        if last.isSome then ([v, w], gc.set (trailTag v - 1) { g with tpos := some kept })
        else ([], gc.set (trailTag v - 1) { g with tpos := none })
      else ([], gc)
    | none => ([], gc)
  else if last.any (fun hm => decide (trailCell w < hm)) = true ∧ trailCell w < n ∧
      bits.marked (trailCell w) = true ∧ trailCell v < n ∧ bits.marked (trailCell v) = true then
    ([bits.rank (trailCell v) ||| pairBit, bits.rank (trailCell w) ||| pairBit], gc)
  else ([], gc)

/-- A variable's entry. -/
def keepVar (n : Nat) (bits : Bits) (last : Option Nat) (v : Nat) : List Nat :=
  if last.any (fun hm => decide (v < hm)) = true ∧ v < n ∧ bits.marked v = true then [bits.rank v]
  else []

/-- The trail from word `p` on, with `kept` words kept so far, `last` as above and the
barriers still to come: their new trail marks, the words kept and the copies. -/
def trailPass (n : Nat) (bits : Bits) : Nat → Nat → Option Nat → List (Nat × Nat) → List GCache →
    List Nat → List Nat × List Nat × List GCache
  | p, kept, last, bars, gc, v :: w :: rest =>
    let passed := bars.takeWhile fun b => decide (b.1 ≤ p)
    let last := (passed.getLast?.map Prod.snd).or last
    let bars := bars.dropWhile fun b => decide (b.1 ≤ p)
    if isPair v = true then
      let k := keepPair n bits p kept last gc v w
      let r := trailPass n bits (p + 2) (kept + k.1.length) last bars k.2 rest
      (passed.map (fun _ => kept) ++ r.1, k.1 ++ r.2.1, r.2.2)
    else
      let k := keepVar n bits last v
      let r := trailPass n bits (p + 1) (kept + k.length) last bars gc (w :: rest)
      (passed.map (fun _ => kept) ++ r.1, k ++ r.2.1, r.2.2)
  | p, kept, last, bars, gc, [v] =>
    let passed := bars.takeWhile fun b => decide (b.1 ≤ p)
    let last := (passed.getLast?.map Prod.snd).or last
    let bars := bars.dropWhile fun b => decide (b.1 ≤ p)
    let k := if isPair v = true then [] else keepVar n bits last v
    (passed.map (fun _ => kept) ++ bars.map (fun _ => kept + k.length), k, gc)
  | _, kept, _, bars, gc, [] => (bars.map fun _ => kept, [], gc)

/- The slide. -/

/-- A cell's reference rewritten. -/
def moveCell (n : Nat) (bits : Bits) : Cell → Cell
  | .ref p => if p < n then .ref (bits.rank p) else .ref p
  | c => c

/-- One cell of the slide. -/
def slideCell (n : Nat) (bits : Bits) (s : Mem × Nat) (i : Nat) : Mem × Nat :=
  if bits.marked i = true then (Function.update s.1 s.2 (moveCell n bits (s.1 i)), s.2 + 1) else s

/-- The slide, in place. -/
def slide (n : Nat) (bits : Bits) (h : Mem) : Mem × Nat :=
  (List.range n).foldl (slideCell n bits) (h, 0)

/- The roots and the marks. -/

/-- `coco_gc_moved`. -/
def movedTo (bits : Bits) (limit i : Nat) : Nat := if i < limit then bits.rank i else i

end Machine

namespace Engine

/-- The trail marks written through the barriers' pointers. -/
def setTrailMarks (x : Engine) (outermost : Bool) (marks : List Nat) : Engine :=
  { x with
    ptrail := if outermost then x.ptrail else marks.headD 0
    choices := x.choices.zipWith (fun c k => { c with trailMark := k })
      (if outermost then marks else marks.tail) }

/-- The roots and the heap marks of one engine. -/
def moveRoots (x : Engine) (cell mark : Nat → Nat) (innermost outermost : Bool) : Engine :=
  { x with
    goals := cell x.goals
    query := cell x.query
    traceGoal := cell x.traceGoal
    kgoal := if innermost then x.kgoal else cell x.kgoal
    kcall := if innermost then x.kcall else cell x.kcall
    pheap := if outermost then x.pheap else mark x.pheap
    choices := x.choices.map fun c =>
      { c with
        call := cell c.call
        goals := cell c.goals
        heapMark := mark c.heapMark
        traced := if x.shadows then cell c.traced else c.traced } }

end Engine

/-- The trail marks of the engines of a chain, outermost first. -/
def setTrailMarks : Bool → List Engine → List Nat → List Engine
  | _, [], _ => []
  | outermost, x :: inner, marks =>
    let k := (x.barriers outermost).length
    x.setTrailMarks outermost (marks.take k) :: setTrailMarks false inner (marks.drop k)

/-- The roots and the heap marks of the engines of a chain, innermost first. -/
def moveRoots (cell mark : Nat → Nat) : Bool → List Engine → List Engine
  | _, [] => []
  | innermost, [x] => [x.moveRoots cell mark innermost true]
  | innermost, x :: y :: outer =>
    x.moveRoots cell mark innermost false :: moveRoots cell mark false (y :: outer)

namespace Machine

/-- A copy moved. -/
def moveCopy (n : Nat) (bits : Bits) (g : GCache) : GCache :=
  if g.ver = 0 then g
  else { g with
    root := movedTo bits n g.root, lo := movedTo bits (n + 1) g.lo, hi := movedTo bits (n + 1) g.hi }

end Machine

namespace Table

variable {α : Type}

/-- The length with the dead entries at the end cut off. -/
def liveLen (named : Nat → Bool) : Nat → Nat
  | 0 => 0
  | k + 1 => if named k = true then k + 1 else liveLen named k

/-- A table of `coco_tables_reclaim`: a dead entry is emptied, those at the end are cut off
and the others are free, where the list could be made. -/
def reclaim (t : Table α) (named : Nat → Bool) (free : Bool) : Table α :=
  let len := liveLen named t.entries.length
  { entries := (t.entries.mapIdx fun k v => if named k = true then v else none).take len
    free := if free = true then (List.range len).filter fun k => !named k else [] }

end Table

namespace Machine

/-- `coco_tables_reclaim`: an entry lives while a cell of the heap, of a store or of a
program names it. -/
def tablesReclaim (m : Machine) (due free : Bool) : Machine :=
  if due = false then m
  else
    let cells := (List.range m.heapLen).map m.heap ++ m.words
    { m with
      floats := m.floats.reclaim (fun k => cells.contains (.flt k)) free
      strings := m.strings.reclaim (fun k => cells.contains (.str k)) free
      bigs := m.bigs.reclaim (fun k => cells.contains (.big k)) free
      rats := m.rats.reclaim (fun k => cells.contains (.rat k)) free }

/-- The collection, once everything is marked. -/
def compact (m : Machine) (gc : List GCache) (bits : Bits) : Machine :=
  let n := m.heapLen
  let heap := m.fixMarkers bits
  let pass := trailPass n bits 0 0 none m.barriers gc m.trail
  let chain := (setTrailMarks true m.chain.reverse pass.1).reverse
  let slid := slide n bits heap
  { m with
    heap := slid.1
    heapLen := slid.2
    trail := pass.2.1
    chain := moveRoots (movedTo bits n) (movedTo bits (n + 1)) true chain
    hroots := m.hroots.map fun r =>
      { r with cells := r.cells.map (movedTo bits (if r.pos then n + 1 else n)) }
    gcache := pass.2.2.map (moveCopy n bits) }

/-- `coco_heap_collect`. -/
def collect (m : Machine) (mem : Memory) : Machine :=
  let r := m.markPhase mem
  match r.2 with
  | none => { m with gcache := r.1 }
  | some bits => (m.compact r.1 bits).tablesReclaim mem.due mem.free

end Machine

end Cocolog.Gc
