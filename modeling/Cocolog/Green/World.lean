import Cocolog.Lib.Ring
import Cocolog.Lib.Runs

/-! The green world: tasks pinned to workers, each worker with the runs suspended on its C
stack, nested waits that run other tasks, and channels. A step is what one worker does
between two releases of the world's lock. A message is its canonical text; what a task
computes between two builtins is left open. -/

set_option linter.all false

namespace Cocolog.Green

open Lib

inductive State
  | ready | blocked | done | nested
  deriving DecidableEq, Repr

inductive Block
  | none | await | send | recv | yield
  deriving DecidableEq, Repr

inductive Ball (M : Type*)
  | sendClosed | deadlock | system
  | thrown (ball : M)
  deriving DecidableEq, Repr

/-- The status texts: `'$async'(ok,T)`, `'$async'(ok)`, `'$async'(failed)`,
`'$async'(closed)` and `'$async'(error,Ball)`. -/
inductive Text (M : Type*)
  | ok (term : M)
  | okSend
  | failed
  | closed
  | error (ball : Ball M)
  deriving DecidableEq, Repr

/-- A send of `message`, or a receive, on a channel; its status goes to `cell`. -/
structure Call (M : Type*) where
  id : Nat
  cell : Nat
  chan : Nat
  message : Option M
  deriving DecidableEq, Repr

/-- The green_thread. The engine and its machine are there until the state is `done`. -/
structure Thread (M : Type*) where
  worker : Nat
  state : State
  block : Block
  waitOn : Option Nat
  chan : Option Nat
  sendText : Option M
  resumeCell : Nat
  resumeText : Option (Text M)
  status : Option (Text M)
  /-- The channel call the task waits in; not in the source. -/
  call : Option (Call M)
  deriving DecidableEq, Repr

structure Chan (M : Type*) where
  cap : Nat
  closed : Bool
  buf : RingBuffer M
  senders : List Nat
  receivers : List Nat

/-- What a nested wait waits for: a task's end, or the text of a waker. -/
inductive Wait
  | await (id : Nat)
  | resume
  deriving DecidableEq, Repr

/-- How `coco_engine_next` came back: the quantum's stop, 1, 0 or an error. -/
inductive Rc (M : Type*)
  | quantum
  | solved (goal : M)
  | zero
  | raised (ball : Ball M)
  deriving DecidableEq, Repr

inductive Phase (M : Type*)
  /-- In task code. -/
  | running
  /-- Out of the builtin's lock, before the lock of its nested wait. -/
  | entering (wait : Wait)
  /-- The engine is back, or on its way back after a block; `coco_g_run` has not locked yet. -/
  | back (rc : Rc M)
  deriving DecidableEq, Repr

/-- A worker's C stack: the run at its top, none when the loop or a nested wait has the
thread, and the tasks in nested waits below, the innermost first. -/
structure Stack (M : Type*) where
  left : Bool
  cursor : Nat
  top : Option (Nat × Phase M)
  below : List (Nat × Wait)

/-- The tasks with a run on the stack. -/
def Stack.progress {M : Type*} (k : Stack M) : List Nat := (k.top.map (·.1)).toList ++ k.below.map (·.1)

/-- What happened to the messages of each channel; not in the source. -/
structure Log (M : Type*) where
  calls : Nat
  /-- The messages of the sends answered ok, with the calls, oldest first. -/
  accepted : Nat → List (M × Option Nat)
  /-- The messages handed over, with the receive calls that waited for them. -/
  delivered : Nat → List (M × Option Nat)
  /-- The calls that ended, with the status that reached their cell. -/
  answered : List (Call M × Option (Text M))

structure World (M : Type*) where
  nworkers : Nat
  threads : Nat → Thread M
  nthreads : Nat
  chans : Nat → Chan M
  nchans : Nat
  stackOf : Nat → Stack M
  nextWorker : Nat
  inlineWait : Nat
  mainDone : Bool
  /-- A channel's array of 64 waiters was written past its end. -/
  overrun : Bool
  /-- The deadlock status was given with a run in progress; not in the source. -/
  misjudged : Bool
  log : Log M

variable {M : Type*}

def Thread.fresh (worker : Nat) : Thread M := ⟨worker, .ready, .none, none, none, none, 0, none, none, none⟩

def Thread.woken (t : Thread M) (text : Text M) : Thread M :=
  { t with resumeText := some text, state := .ready, block := .none, chan := none }

namespace World

/-- `coco_g_async_run`, with the main task made and the workers at their loops. -/
def start (nworkers : Nat) : World M where
  nworkers := nworkers
  threads _ := .fresh 0
  nthreads := 1
  chans _ := ⟨0, false, .empty, [], []⟩
  nchans := 0
  stackOf _ := ⟨false, 0, none, []⟩
  nextWorker := 1 % nworkers
  inlineWait := 0
  mainDone := false
  overrun := false
  misjudged := false
  log := ⟨0, fun _ => [], fun _ => [], []⟩

def setThread (s : World M) (i : Nat) (t : Thread M) : World M := { s with threads := Function.update s.threads i t }

def setChan (s : World M) (c : Nat) (ch : Chan M) : World M := { s with chans := Function.update s.chans c ch }

def setStack (s : World M) (w : Nat) (k : Stack M) : World M := { s with stackOf := Function.update s.stackOf w k }

def setTop (s : World M) (w : Nat) (top : Option (Nat × Phase M)) : World M := s.setStack w { s.stackOf w with top }

/-! ### The scheduler -/

def isReady (s : World M) (i : Nat) : Bool := (s.threads i).state = .ready

def anyReady (s : World M) : Bool := (List.range s.nthreads).any s.isReady

/-- `coco_g_pick`, round robin from the task after the last one picked. -/
def pick (s : World M) (w : Nat) : Option Nat :=
  ((List.range s.nthreads).map fun k => ((s.stackOf w).cursor + k) % s.nthreads).find? fun i =>
    s.isReady i && (s.threads i).worker = w

/-- A call ends; `status` is what reached its cell. -/
def answer (s : World M) (call : Option (Call M)) (status : Option (Text M)) : World M :=
  match call with
  | some call => { s with log := { s.log with answered := (call, status) :: s.log.answered } }
  | none => s

/-- The start of `coco_g_run`: the waker's text goes to `resume_cell`, and the engine goes on. -/
def enter (s : World M) (w i : Nat) : World M :=
  let t := s.threads i
  match t.resumeText with
  | some text =>
    ((s.answer t.call (if t.call.all fun call => call.cell = t.resumeCell then some text else none)).setThread i
      { t with resumeText := none, call := none }).setTop w (some (i, .running))
  | none => s.setTop w (some (i, .running))

def wake (s : World M) (ti : Nat) : World M :=
  { s with threads := fun i =>
      let t := s.threads i
      if i < s.nthreads ∧ t.state = .blocked ∧ t.block = .await ∧ t.waitOn = some ti then
        { t with resumeText := (s.threads ti).status, state := .ready, block := .none, waitOn := none }
      else t }

def finish (s : World M) (i : Nat) (status : Text M) : World M :=
  let s := s.setThread i { s.threads i with status := some status, state := .done, block := .none }
  { s.wake i with mainDone := s.mainDone || i = 0 }

/-- `coco_g_deadlock` finds every task's state word not ready; `op` when a write is in flight. -/
def dead (s : World M) (op : Bool) : Bool :=
  !s.mainDone && s.inlineWait = 0 && s.nthreads ≠ 0 && !op && !s.anyReady

def anyRun (s : World M) : Bool := (List.range s.nworkers).any fun w => !(s.stackOf w).progress.isEmpty

def deadlock (s : World M) (op : Bool) : World M :=
  if s.dead op then { s.finish 0 (.error .deadlock) with misjudged := s.misjudged || s.anyRun } else s

/-- A task is found and run, by the loop or by a nested wait. -/
def runPicked (s : World M) (w i : Nat) : World M :=
  (s.setStack w { s.stackOf w with cursor := i + 1 }).enter w i

/-- `coco_g_worker_loop`, one turn with no write to acknowledge. -/
def loopTurn (s : World M) (w : Nat) (op : Bool) : World M :=
  match s.pick w with
  | some i => s.runPicked w i
  | none =>
    let s := s.deadlock op
    if s.mainDone then s.setStack w { s.stackOf w with left := true } else s

/-- A nested wait ends: its task is the running one again. -/
def resumed (s : World M) (w i : Nat) (t : Thread M) (rest : List (Nat × Wait)) : World M :=
  { (s.setThread i { t with state := .ready, call := none }).setStack w
      { s.stackOf w with top := some (i, .running), below := rest } with
    inlineWait := s.inlineWait - 1 }

/-- The end of a nested wait's turn: run a task of this worker, raise the deadlock, or sleep. -/
def runReady (s : World M) (w i : Nat) (rest : List (Nat × Wait)) : World M :=
  match s.pick w with
  | some j => s.runPicked w j
  | none =>
    if s.anyReady then s
    else (s.answer (s.threads i).call (some (.error .deadlock))).resumed w i (s.threads i) rest

/-- `coco_g_await_here`, one turn of its loop. -/
def awaitTurn (s : World M) (w i : Nat) (id : Nat) (rest : List (Nat × Wait)) : World M :=
  if (s.threads id).state = .done then s.resumed w i (s.threads i) rest
  else if s.isReady id && (s.threads id).worker = w then s.enter w id
  else s.runReady w i rest

/-- `coco_g_wait_resume`, one turn of its loop. -/
def resumeTurn (s : World M) (w i : Nat) (rest : List (Nat × Wait)) : World M :=
  match (s.threads i).resumeText with
  | some text =>
    (s.answer (s.threads i).call (some text)).resumed w i
      { s.threads i with resumeText := none, block := .none, chan := none } rest
  | none => s.runReady w i rest

/-- One turn of whichever loop has the worker's thread. -/
def turn (s : World M) (w : Nat) (op : Bool) : World M :=
  match (s.stackOf w).below with
  | [] => if (s.stackOf w).left then s else s.loopTurn w op
  | (i, .await id) :: rest => s.awaitTurn w i id rest
  | (i, .resume) :: rest => s.resumeTurn w i rest

/-- The first lock of `coco_g_await_here` and `coco_g_wait_resume`. -/
def waits (s : World M) (w i : Nat) (wait : Wait) : World M :=
  { (s.setThread i { s.threads i with state := .nested }).setStack w
      { s.stackOf w with top := none, below := (i, wait) :: (s.stackOf w).below } with
    inlineWait := s.inlineWait + 1 }

/-- The end of `coco_g_run`, under the lock. -/
def lands (s : World M) (i : Nat) (rc : Rc M) (op : Bool) : World M :=
  let t := s.threads i
  match rc with
  | .quantum => s.setThread i { t with state := .ready, block := .none }
  | .solved goal => s.finish i (.ok goal)
  | .raised ball => s.finish i (.error ball)
  | .zero =>
    if t.resumeText.isSome then s
    else match t.block with
      | .none => s.finish i .failed
      | .yield => s.setThread i { t with state := .ready, block := .none }
      | _ => (s.setThread i { t with state := .blocked }).deadlock op

/-! ### The builtins -/

def spawn (s : World M) : World M :=
  if s.nthreads < 1024 then
    { s.setThread s.nthreads (.fresh s.nextWorker) with
      nthreads := s.nthreads + 1
      nextWorker := (s.nextWorker + 1) % s.nworkers }
  else s

def async_yield (s : World M) (w i : Nat) (nested : Bool) : World M :=
  if nested then s
  else (s.setThread i { s.threads i with block := .yield }).setTop w (some (i, .back .zero))

def async_await (s : World M) (w i id cell : Nat) (nested : Bool) : World M :=
  if s.nthreads ≤ id then s
  else if (s.threads id).state = .done then s
  else if nested then s.setTop w (some (i, .entering (.await id)))
  else
    (s.setThread i { s.threads i with block := .await, state := .blocked, waitOn := some id, resumeCell := cell }).setTop
      w (some (i, .back .zero))

def chan_new (s : World M) (size : Int) : World M :=
  if s.nchans < 64 then
    { s.setChan s.nchans ⟨size.toNat, false, .empty, [], []⟩ with nchans := s.nchans + 1 }
  else s

/-- A receive call of task `i` waits on channel `c`. -/
def waiting (s : World M) (i c : Nat) : Option Nat :=
  match (s.threads i).call with
  | some call => if call.chan = c ∧ call.message.isNone ∧ (s.threads i).resumeText.isNone then some call.id else none
  | none => none

def accept (s : World M) (c : Nat) (m : M) (call : Option Nat) : World M :=
  { s with log := { s.log with
      accepted := Function.update s.log.accepted c (s.log.accepted c ++ [(m, call)]) } }

def deliver (s : World M) (c : Nat) (m : M) (call : Option Nat) : World M :=
  { s with log := { s.log with
      delivered := Function.update s.log.delivered c (s.log.delivered c ++ [(m, call)]) } }

/-- The first waiting sender is told its send is done; its message is the caller's to place. -/
def releaseSender (s : World M) (c si : Nat) (rest : List Nat) : World M :=
  let st := s.threads si
  let s := match st.sendText with
    | some m => s.accept c m (st.call.map Call.id)
    | none => s
  (s.setThread si { st.woken .okSend with sendText := none }).setChan c { s.chans c with senders := rest }

/-- A sender waiting on a full buffer takes the slot a receive freed. -/
def move_sender (s : World M) (c : Nat) : World M :=
  let ch := s.chans c
  match ch.senders with
  | [] => s
  | si :: rest =>
    if 0 < ch.cap ∧ ch.buf.count < ch.cap then
      (s.setChan c { ch with buf := ch.buf.push ch.cap (s.threads si).sendText }).releaseSender c si rest
    else s

/-- The next call's ghost number is used up. -/
def called (s : World M) : World M := { s with log := { s.log with calls := s.log.calls + 1 } }

/-- The task waits in its call: suspended, or in a nested wait. -/
def blocks (s : World M) (w i : Nat) (t : Thread M) (nested : Bool) : World M :=
  (s.setThread i { t with state := if nested then .nested else .blocked }).setTop w
    (some (i, if nested then .entering .resume else .back .zero))

def async_send (s : World M) (w i c : Nat) (m : M) (cell : Nat) (nested : Bool) : World M :=
  if s.nchans ≤ c then s
  else
    let call : Call M := ⟨s.log.calls, cell, c, some m⟩
    let s := s.called
    let ch := s.chans c
    if ch.closed then s.answer (some call) (some (.error .sendClosed))
    else match ch.receivers with
      | r :: rest =>
        let s := (s.accept c m (some call.id)).deliver c m (s.waiting r c)
        ((s.setThread r ((s.threads r).woken (.ok m))).setChan c { ch with receivers := rest }).answer (some call)
          (some .okSend)
      | [] =>
        if 0 < ch.cap ∧ ch.buf.count < ch.cap then
          ((s.accept c m (some call.id)).setChan c { ch with buf := ch.buf.push ch.cap (some m) }).answer (some call)
            (some .okSend)
        else if ch.senders.length < 64 then
          let t := s.threads i
          (s.setChan c { ch with senders := ch.senders ++ [i] }).blocks w i
            { t with
              block := .send, chan := some c, sendText := some m, call := some call
              resumeCell := if nested then cell else t.resumeCell } nested
        else { s with overrun := true }

/-- The message goes to the caller's own status cell. -/
def receives (s : World M) (c : Nat) (text : Option M) (call : Call M) : World M :=
  match text with
  | some m => (s.deliver c m (some call.id)).answer (some call) (some (.ok m))
  | none => s.answer (some call) none

def async_recv (s : World M) (w i c cell : Nat) (nested : Bool) : World M :=
  if s.nchans ≤ c then s
  else
    let call : Call M := ⟨s.log.calls, cell, c, none⟩
    let s := s.called
    let ch := s.chans c
    if 0 < ch.buf.count then
      ((s.receives c ch.buf.first call).setChan c { ch with buf := ch.buf.pop ch.cap }).move_sender c
    else match ch.senders with
      | si :: rest => (s.releaseSender c si rest).receives c (s.threads si).sendText call
      | [] =>
        if ch.closed then s.answer (some call) (some .closed)
        else if ch.receivers.length < 64 then
          (s.setChan c { ch with receivers := ch.receivers ++ [i] }).blocks w i
            { s.threads i with block := .recv, chan := some c, resumeCell := cell, call := some call } nested
        else { s with overrun := true }

def chan_close (s : World M) (c : Nat) : World M :=
  if s.nchans ≤ c then s
  else
    let ch := s.chans c
    let s := ch.senders.foldl (fun s si =>
      s.setThread si { (s.threads si).woken (.error .sendClosed) with sendText := none }) s
    let s := ch.receivers.foldl (fun s ri => s.setThread ri ((s.threads ri).woken .closed)) s
    s.setChan c { ch with closed := true, senders := [], receivers := [] }

end World

/-- What a worker does next. -/
inductive Do (M : Type*)
  /-- A turn of its loop or of the innermost nested wait; `op` when a write is in flight. -/
  | turn (op : Bool)
  /-- The engine of the running task stops by itself. -/
  | stops (rc : Rc M)
  | waits
  | lands (op : Bool)
  | go
  | yield (nested : Bool)
  | await (id cell : Nat) (nested : Bool)
  | channel (size : Int)
  | send (c : Nat) (m : M) (cell : Nat) (nested : Bool)
  | recv (c cell : Nat) (nested : Bool)
  | close (c : Nat)
  deriving Repr

namespace World

/-- A builtin of the running task `i`, or the stop of its engine. -/
def calls (s : World M) (w i : Nat) : Do M → World M
  | .stops rc => s.setTop w (some (i, .back rc))
  | .go => s.spawn
  | .yield nested => s.async_yield w i nested
  | .await id cell nested => s.async_await w i id cell nested
  | .channel size => s.chan_new size
  | .send c m cell nested => s.async_send w i c m cell nested
  | .recv c cell nested => s.async_recv w i c cell nested
  | .close c => s.chan_close c
  | _ => s

/-- One step of worker `w`; what its place does not allow changes nothing. -/
def act (s : World M) (w : Nat) (d : Do M) : World M :=
  if s.overrun || s.nworkers ≤ w then s
  else match (s.stackOf w).top, d with
    | none, .turn op => s.turn w op
    | some (i, .entering wait), .waits => s.waits w i wait
    | some (i, .back rc), .lands op => (s.setTop w none).lands i rc op
    | some (i, .running), d => s.calls w i d
    | _, _ => s

def step (s : World M) (e : Nat × Do M) : World M := s.act e.1 e.2

end World
end Cocolog.Green
