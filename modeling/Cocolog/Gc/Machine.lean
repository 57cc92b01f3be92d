import Cocolog.Lib.Sites
import Cocolog.Term.Cell

/-! The machine as the collector sees it: the heap, the trail, the engines on the chain
with their choice points, and what else names a cell. A proof state is a heap and its
length; backtracking takes the machine from one to another. -/

set_option linter.all false

namespace Cocolog.Gc

open Cocolog.Lib Cocolog.Term

/-- A choice point: what it names, its marks, and the goal of the tracer's shadow frame. -/
structure Choice where
  call : Nat
  goals : Nat
  trailMark : Nat
  heapMark : Nat
  traced : Nat := 0
deriving Repr, DecidableEq

/-- `coco_engine`. `shadows` says whether it has shadow frames; `ptrail` and `pheap` are
the marks its builtin took before it was started. -/
structure Engine where
  goals : Nat
  query : Nat
  traceGoal : Nat := 0
  kgoal : Nat := 0
  kcall : Nat := 0
  choices : List Choice := []
  shadows : Bool := false
  ptrail : Nat := 0
  pheap : Nat := 0
deriving Repr, DecidableEq

/-- `coco_hroot`: cells a host holds, or positions it winds the heap back to. -/
structure HRoot where
  cells : List Nat
  pos : Bool := false
deriving Repr, DecidableEq

/-- `coco_gcache`: a ground global's copy. `tpos` is where its sentinel stands. -/
structure GCache where
  ver : Nat
  root : Nat
  serial : Nat
  tpos : Option Nat
  lo : Nat
  hi : Nat
  pinned : Bool
deriving Repr, DecidableEq

/-- A table of the machine's: its entries, a dead one empty, and the indices new entries
take first. -/
structure Table (α : Type) where
  entries : List (Option α) := []
  free : List Nat := []

/-- The entry at an index. -/
def Table.entry {α : Type} (t : Table α) (k : Nat) : Option α := t.entries[k]?.join

/-- `coco_machine` with the chain of engines, innermost first, and what the collector asks
of the innermost one's store: its serial and its globals' versions. `words` are the words of
the engines' stores and of the programs they hold. -/
structure Machine where
  heap : Mem
  heapLen : Nat
  trail : List Nat
  chain : List Engine
  hroots : List HRoot := []
  gcache : List GCache := []
  gcacheSs : Nat := 0
  arity : Nat → Nat
  texit : Nat
  serial : Nat := 0
  globals : List Nat := []
  floats : Table Nat := {}
  strings : Table (List Nat) := {}
  bigs : Table Int := {}
  rats : Table (Int × Nat) := {}
  words : List Cell := []

/- The trail's words. -/

/-- `coco-trail-pair`. -/
def pairBit : Nat := 2 ^ 63

def isPair (w : Nat) : Bool := w.testBit 63

/-- `coco-trail-cell`. -/
def trailCell (w : Nat) : Nat := w % 2 ^ 40

/-- `coco-trail-tag`. -/
def trailTag (w : Nat) : Nat := w / 2 ^ 40 % 2 ^ 23

/-- `coco_undo_to`, over the words newest first: `left` of them are undone. -/
def undo : Nat → List Nat → Mem → Mem
  | left + 1, v :: s :: rest, h =>
    if isPair v then undo (left - 1) rest (Function.update h (trailCell v) (h (trailCell s)))
    else undo left (s :: rest) (Function.update h v (.ref v))
  | _ + 1, [v], h => if isPair v then h else Function.update h v (.ref v)
  | _, _, h => h

/-- A proof state: the cells below the length. -/
structure State where
  heap : Mem
  len : Nat

namespace Machine

/-- The state the machine is in. -/
def now (m : Machine) : State := ⟨m.heap, m.heapLen⟩

/-- `coco_undo_to` a trail mark and the heap cut to a heap mark. -/
def back (m : Machine) (tmark hmark : Nat) : State :=
  ⟨undo (m.trail.length - tmark) m.trail.reverse m.heap, hmark⟩

end Machine

namespace Engine

/-- The marks an engine keeps, oldest first; the outermost has no starting marks. -/
def barriers (x : Engine) (outermost : Bool) : List (Nat × Nat) :=
  (if outermost then [] else [(x.ptrail, x.pheap)]) ++
    x.choices.map fun c => (c.trailMark, c.heapMark)

/-- What an engine names. The innermost is between two steps and holds no module's call. -/
def roots (x : Engine) (innermost : Bool) : List Nat :=
  [x.goals, x.query, x.traceGoal] ++ (if innermost then [] else [x.kgoal, x.kcall]) ++
    x.choices.flatMap fun c => [c.call, c.goals] ++ if x.shadows then [c.traced] else []

end Engine

/-- The barriers of a chain, outermost engine first. -/
def chainBarriers : Bool → List Engine → List (Nat × Nat)
  | _, [] => []
  | outermost, x :: inner => x.barriers outermost ++ chainBarriers false inner

/-- The cells the engines of a chain name, innermost engine first. -/
def chainRoots : Bool → List Engine → List Nat
  | _, [] => []
  | innermost, x :: outer => x.roots innermost ++ chainRoots false outer

namespace Machine

/-- The barriers, oldest first. -/
def barriers (m : Machine) : List (Nat × Nat) := chainBarriers true m.chain.reverse

/-- The cells the engines name. -/
def engineRoots (m : Machine) : List Nat := chainRoots true m.chain

/-- The cells the hosts name. -/
def hostRoots (m : Machine) : List Nat := m.hroots.flatMap fun r => if r.pos then [] else r.cells

/-- Every cell the engines and the hosts name. -/
def roots (m : Machine) : List Nat := m.engineRoots ++ m.hostRoots

end Machine

/- The term a cell stands for. -/

/-- What a cell that names a table's entry stands for. -/
inductive Value where
  | plain
  | float (bits : Option Nat)
  | string (bytes : Option (List Nat))
  | big (n : Option Int)
  | rat (q : Option (Int × Nat))
deriving Repr, DecidableEq

/-- What stands at a node: an unbound variable, what a cell holds and stands for, or
nothing, past the end. -/
inductive Face where
  | var (v : Nat)
  | holds (c : Cell) (value : Value)
  | gone
deriving Repr, DecidableEq

/-- The face with its variable renamed. -/
def Face.rename (r : Nat → Nat) : Face → Face
  | var v => var (r v)
  | m => m

theorem Face.rename_id (l : Face) : l.rename id = l := by
  cases l <;> rfl

namespace Machine

/-- What a cell's index stands for. -/
def value (m : Machine) : Cell → Value
  | .flt k => .float (m.floats.entry k)
  | .str k => .string (m.strings.entry k)
  | .big k => .big (m.bigs.entry k)
  | .rat k => .rat (m.rats.entry k)
  | _ => .plain

/-- The cell a marker's argument stands for: the goal whose index it holds. -/
def goalOf (h : Mem) (len a : Nat) : Nat :=
  match h (deref h len a) with
  | .int q => if 0 ≤ q then q.toNat else a
  | _ => a

/-- What stands at a cell of a state. A compound is over its arguments, a position over the
header of its environment, and the tracer's marker over the goals it names. -/
def site (m : Machine) (s : State) (i : Nat) : Site Face :=
  if s.len ≤ i then .node .gone []
  else match s.heap i with
    | .ref p => if p = i then .node (.var i) [] else .forward p
    | .func f =>
      if f = m.texit then
        .node (.holds (.func f) .plain) [goalOf s.heap s.len (i + 1), i + 2, goalOf s.heap s.len (i + 3)]
      else .node (.holds (.func f) .plain) (List.range' (i + 1) (m.arity f))
    | .pos w => .node (.holds (.pos w) .plain) [i - w / 65536]
    | c => .node (.holds c (m.value c)) []

/-- The term a cell denotes in a state: what stands at each path. -/
def denotes (m : Machine) (s : State) (i : Nat) (path : List Nat) (l : Face) : Prop :=
  Reads (m.site s) i path l

end Machine

end Cocolog.Gc
