import Mathlib.Data.Fintype.Basic
import Mathlib.Data.Finset.Card
import Cocolog.Lib.Runs

/-! The pre-write barrier of the green worlds: `coco_g_write_begin`, its end, the four
safe points where a worker acknowledges a write, and the foreign calls a write does not
wait for. A worker is followed from one locked step to the next; what its tasks do in
between is left open. -/

set_option linter.all false

namespace Cocolog.Green

/-- The safe points that wait for the write they acknowledged: the loop's top, a nested
wait, and the two ends of a foreign call. `coco_g_write_begin` waits for any write. -/
inductive Safe
  | top | nest | foreignBegin | foreignEnd
  deriving DecidableEq, Repr

/-- Where a worker's thread stands while it does not hold the world's lock. -/
inductive Place
  /-- Before the loop's next turn, or asleep on its own condition. -/
  | top
  /-- In task code, inside `coco_g_run`. -/
  | task
  /-- Before the next turn of a nested wait, or asleep on `changed`. -/
  | nest
  /-- In `coco_g_write_begin`, until no write is in flight. -/
  | want
  /-- In `coco_g_write_begin`, its own write published, until the acks are in. -/
  | gather
  /-- Between a `coco_g_write_begin` that answered 1 and its `coco_g_write_end`. -/
  | write
  /-- In a store write whose `coco_g_write_begin` answered 0 at the first checks. -/
  | bare
  /-- Inside a foreign call. -/
  | away
  /-- At a safe point, waiting for the write of this sequence number to end. -/
  | acked (at_ : Safe) (seq : Nat)
  /-- Out of `coco_g_worker_loop`. -/
  | left
  deriving DecidableEq, Repr

structure Worker where
  place : Place
  applied : Nat
  foreign : Nat
  /-- The nested waits on the worker's C stack. -/
  depth : Nat
  deriving DecidableEq, Repr

structure Op (n : Nat) where
  writer : Fin n
  seq : Nat
  need : Nat
  acks : Nat
  /-- The workers behind `need`; the source keeps only their number. -/
  counted : Finset (Fin n)

structure Barrier (n : Nat) where
  workers : Fin n → Worker
  op : Option (Op n)
  opSeq : Nat
  stop : Bool
  mainDone : Bool

variable {n : Nat}

namespace Barrier

def start (n : Nat) : Barrier n := ⟨fun _ => ⟨.top, 0, 0, 0⟩, none, 0, false, false⟩

def set (s : Barrier n) (w : Fin n) (x : Worker) : Barrier n := { s with workers := Function.update s.workers w x }

def moved (s : Barrier n) (w : Fin n) (place : Place) : Barrier n := s.set w { s.workers w with place }

/-- The write in flight that `w` has still to acknowledge. -/
def pending (s : Barrier n) (w : Fin n) : Option (Op n) :=
  s.op.filter fun o => o.writer ≠ w ∧ (s.workers w).applied ≠ o.seq

/-- The acknowledgement every safe point makes before it waits at `place`. -/
def ack (s : Barrier n) (w : Fin n) (x : Worker) (o : Op n) (place : Place) : Barrier n :=
  { s.set w { x with applied := o.seq, place } with op := some { o with acks := o.acks + 1 } }

/-- `coco_g_ack_wait`: acknowledge and wait at `at_`, or go on as `x`. -/
def ackWait (s : Barrier n) (w : Fin n) (at_ : Safe) (waiting onward : Worker) : Barrier n :=
  match s.pending w with
  | some o => s.ack w waiting o (.acked at_ o.seq)
  | none => s.set w onward

def asked (s : Barrier n) (w : Fin n) : Finset (Fin n) :=
  Finset.univ.filter fun v => v ≠ w ∧ (s.workers v).foreign = 0

/-- The second half of `coco_g_write_begin`: the write is counted and published. -/
def publish (s : Barrier n) (w : Fin n) : Barrier n :=
  { s.moved w .gather with
    opSeq := s.opSeq + 1
    op := some ⟨w, s.opSeq + 1, (s.asked w).card, 0, s.asked w⟩ }

end Barrier

/-- What a worker does at its next locked step. -/
inductive Act
  /-- A turn of the loop or of a nested wait; `picks` when `coco_g_pick` finds a task. -/
  | turn (picks : Bool)
  /-- Wake in the wait of a safe point. -/
  | wake
  /-- `coco_g_run` returns; `ends` when it finishes the main task. -/
  | returns (ends : Bool)
  /-- `coco_g_deadlock` finishes the main task. -/
  | deadlock
  | waitHere
  | answered
  | writeBegin
  /-- A turn of the first loop of `coco_g_write_begin`, under the lock. -/
  | lock
  /-- A turn of its second loop. -/
  | gather
  | writeEnd
  | foreignBegin
  | foreignEnd
  /-- The host, out of its loop, stops the world. -/
  | stop
  deriving DecidableEq, Repr

namespace Barrier

/-- `coco_g_worker_loop`, one turn. -/
def loopTurn (s : Barrier n) (w : Fin n) (picks : Bool) : Barrier n :=
  if s.stop then s.moved w .left
  else match s.pending w with
    | some o => s.ack w (s.workers w) o (.acked .top o.seq)
    | none =>
      if picks then s.moved w .task
      else if s.mainDone then s.moved w .left
      else s

/-- One turn of the loop of `coco_g_await_here` or `coco_g_wait_resume` that finds no answer. -/
def nestTurn (s : Barrier n) (w : Fin n) (picks : Bool) : Barrier n :=
  match s.pending w with
  | some o => s.ack w (s.workers w) o (.acked .nest o.seq)
  | none => if picks then s.moved w .task else s

/-- A waiter goes on once the write it acknowledged is no longer the one in flight. -/
def wake (s : Barrier n) (w : Fin n) (at_ : Safe) (seq : Nat) : Barrier n :=
  if s.op.any fun o => o.seq = seq then s
  else match at_ with
    | .top => s.moved w .top
    | .nest => s.moved w .nest
    | .foreignBegin => s.set w { s.workers w with place := .away, foreign := (s.workers w).foreign + 1 }
    | .foreignEnd => s.moved w .task

def lock (s : Barrier n) (w : Fin n) : Barrier n :=
  match s.op with
  | none => s.publish w
  | some _ =>
    match s.pending w with
    | some o => s.ack w (s.workers w) o .want
    | none => s

def foreignBegin (s : Barrier n) (w : Fin n) : Barrier n :=
  let x := s.workers w
  s.ackWait w .foreignBegin x { x with place := .away, foreign := x.foreign + 1 }

def foreignEnd (s : Barrier n) (w : Fin n) : Barrier n :=
  let x := s.workers w
  let x' := { x with foreign := x.foreign - 1 }
  if x'.foreign = 0 then s.ackWait w .foreignEnd x' { x' with place := .task }
  else s.set w x'

/-- One locked step of worker `w`; an act its place does not allow changes nothing. -/
def act (s : Barrier n) (w : Fin n) (a : Act) : Barrier n :=
  match (s.workers w).place, a with
  | .top, .turn picks => s.loopTurn w picks
  | .top, .deadlock => if s.op.isNone then { s with mainDone := true } else s
  | .nest, .turn picks => s.nestTurn w picks
  | .nest, .answered =>
    s.set w { s.workers w with place := .task, depth := (s.workers w).depth - 1 }
  | .acked at_ seq, .wake => s.wake w at_ seq
  | .task, .returns ends =>
    { s.moved w (if (s.workers w).depth = 0 then .top else .nest) with mainDone := s.mainDone || ends }
  | .task, .waitHere => s.set w { s.workers w with place := .nest, depth := (s.workers w).depth + 1 }
  | .task, .writeBegin => if s.stop || s.mainDone then s.moved w .bare else s.moved w .want
  | .want, .lock => s.lock w
  | .gather, .gather => if s.op.any fun o => o.need ≤ o.acks then s.moved w .write else s
  | .write, .writeEnd => { s.moved w .task with op := none }
  | .bare, .writeEnd => s.moved w .task
  | .task, .foreignBegin => s.foreignBegin w
  | .away, .foreignBegin => s.foreignBegin w
  | .away, .foreignEnd => s.foreignEnd w
  | .left, .stop => if w.val = 0 ∧ s.op.isNone then { s with stop := true } else s
  | _, _ => s

def step (s : Barrier n) (e : Fin n × Act) : Barrier n := s.act e.1 e.2

end Barrier
end Cocolog.Green
