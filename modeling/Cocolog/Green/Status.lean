import Cocolog.Green.Delivery
import Cocolog.Lib.Ledger

/-! The status of a suspended call. Beside the world goes a ledger of the calls of await, send
and receive that suspended: a call is open until its task goes on, and is closed with the cell
and the text the scheduler or the nested wait then unified. -/

set_option linter.all false

namespace Cocolog.Green

open Lib

variable {M : Type*}

inductive Kind
  | await (id : Nat)
  | send
  | recv
  deriving DecidableEq, Repr

/-- The nested wait of a call. -/
def Kind.wait : Kind → Wait
  | await id => .await id
  | _ => .resume

/-- A blocking call: its status argument, and whether it was made in a nested engine. -/
structure Suspension where
  kind : Kind
  cell : Nat
  nested : Bool
  deriving DecidableEq, Repr

def blocking : Do M → Option Suspension
  | .await id cell nested => some ⟨.await id, cell, nested⟩
  | .send _ _ cell nested => some ⟨.send, cell, nested⟩
  | .recv _ cell nested => some ⟨.recv, cell, nested⟩
  | _ => none

/-- The cell a text was unified with; none when the call raised the deadlock error. -/
abbrev Outcome (M : Type*) := Option (Nat × Text M)

structure Tracked (M : Type*) where
  world : World M
  ledger : Ledger Nat Suspension (Outcome M)
  /-- The status argument on the C frame of each task's nested wait. -/
  argument : Nat → Nat

namespace Tracked

def start (nworkers : Nat) : Tracked M := ⟨.start nworkers, .empty, fun _ => 0⟩

def suspends (t : Tracked M) (i : Nat) (call : Suspension) : Tracked M :=
  { t with
    ledger := t.ledger.opens i call
    argument := if call.nested then Function.update t.argument i call.cell else t.argument }

/-- The task goes on, and `text`, if there is one, was unified with `cell`. -/
def tells (t : Tracked M) (i cell : Nat) (text : Option (Text M)) : Tracked M :=
  { t with ledger := t.ledger.closes i (text.map fun text => (cell, text)) }

/-- What the step does to the ledger: `w` is the worker, `below` what was under its run. -/
def records (t : Tracked M) (w : Nat) (d : Do M) : Tracked M :=
  let k := t.world.stackOf w
  let k' := ((t.world.step (w, d)).stackOf w)
  match k.top, k'.top with
  | some (i, .running), some (_, ph) =>
    -- the engine stops in a call that blocks, or goes on
    match ph, blocking d with
    | .running, _ => t
    | _, some call => t.suspends i call
    | _, none => t
  | none, some (j, .running) =>
    if k'.below.length = k.below.length then
      -- a task is entered: `coco_g_run` unifies the waker's text, if there is one
      match (t.world.threads j).resumeText with
      | some text => t.tells j (t.world.threads j).resumeCell (some text)
      | none => t
    else match k.below with
      | (i, .await id) :: _ =>
        if (t.world.threads id).state = .done then t.tells i (t.argument i) (t.world.threads id).status
        else t.tells i (t.argument i) none
      | (i, .resume) :: _ => t.tells i (t.argument i) (t.world.threads i).resumeText
      | [] => t
  | _, _ => t

def step (t : Tracked M) (e : Nat × Do M) : Tracked M := { t.records e.1 e.2 with world := t.world.step e }

end Tracked

namespace World

/-- The statuses that answer a call. -/
def Suits (s : World M) : Kind → Text M → Prop
  | .await id, text => (s.threads id).state = .done ∧ (s.threads id).status = some text
  | .send, text => text = .okSend ∨ text = .error .sendClosed
  | .recv, text => text = .closed ∨ ∃ m, text = .ok m

end World

/-- Every call that suspended is open or was closed once, with a text that answers it in its own
cell, and no task runs with its call open. -/
structure Tracked.OwnStatus (t : Tracked M) : Prop where
  even : t.ledger.Even
  own : ∀ n call cell text, (n, call, some (cell, text)) ∈ t.ledger.closed →
    cell = call.cell ∧ t.world.Suits call.kind text
  told : ∀ n call, (n, call, none) ∈ t.ledger.closed → call.nested = true
  stopped : ∀ w i, (t.world.stackOf w).top = some (i, .running) → t.ledger.pending i = none

namespace World

/-- A send that is not nested and has to wait finds its own cell on record. -/
def Records (s : World M) (w : Nat) : Do M → Prop
  | .send c _ cell false => ∀ p ∈ (s.stackOf w).top, p.2 = .running → c < s.nchans →
    (s.chans c).closed = false → (s.chans c).receivers = [] →
    ¬(0 < (s.chans c).cap ∧ (s.chans c).buf.count < (s.chans c).cap) → (s.threads p.1).resumeCell = cell
  | _ => True

instance [DecidableEq M] (s : World M) (w : Nat) (d : Do M) : Decidable (s.Records w d) :=
  match d with
  | .send c _ cell false => inferInstanceAs (Decidable (∀ p ∈ (s.stackOf w).top, p.2 = .running → c < s.nchans →
      (s.chans c).closed = false → (s.chans c).receivers = [] →
      ¬(0 < (s.chans c).cap ∧ (s.chans c).buf.count < (s.chans c).cap) → (s.threads p.1).resumeCell = cell))
  | .send _ _ _ true | .turn _ | .stops _ | .waits | .lands _ | .go | .yield _ | .await .. | .channel _ | .recv .. |
    .close _ => inferInstanceAs (Decidable True)

/-! ## What a step does to a task -/

/-- The task's nested wait. -/
def NestedIn (s : World M) (i : Nat) (wait : Wait) : Prop :=
  ∃ w, (s.stackOf w).top = some (i, .entering wait) ∨ (i, wait) ∈ (s.stackOf w).below

end World

/-- A channel's waiter is told. -/
structure Thread.Told (t t' : Thread M) : Prop where
  calls : t.call ≠ none
  call : t'.call = t.call
  cell : t'.resumeCell = t.resumeCell
  state : t.state ≠ .done ∧ t'.state = .ready
  block : t'.block = .none
  text : ∃ text, t'.resumeText = some text ∧ ∀ call ∈ t.call,
    (call.message.isSome = true → text = .okSend ∨ text = .error .sendClosed) ∧
    (call.message.isSome = false → text = .closed ∨ ∃ m, text = .ok m)

/-- One that awaits a task is told its status. -/
structure Thread.Heard (t t' : Thread M) (id : Nat) (status : Text M) : Prop where
  awaits : t.block = .await ∧ t.waitOn = some id
  call : t'.call = t.call
  cell : t'.resumeCell = t.resumeCell
  state : t.state ≠ .done ∧ t'.state = .ready
  block : t'.block = .none
  text : t'.resumeText = some status

namespace World

/-- What becomes of a task that the step is not about. -/
inductive Passes (s s' : World M) (j : Nat) : Prop
  | same (thread : s'.threads j = s.threads j)
  | told (told : (s.threads j).Told (s'.threads j))
  | heard {id : Nat} {status : Text M} (heard : (s.threads j).Heard (s'.threads j) id status)
      (done : (s'.threads id).state = .done ∧ (s'.threads id).status = some status)
  | fresh {worker : Nat} (out : s.nthreads ≤ j) (thread : s'.threads j = .fresh worker)

/-- A step about task `i`. -/
structure Acts (s s' : World M) (i : Nat) : Prop where
  others : ∀ j, j ≠ i → s.Passes s' j
  nests : ∀ j, j ≠ i → ∀ wait, s'.NestedIn j wait ↔ s.NestedIn j wait
  nthreads : s.nthreads ≤ s'.nthreads
  main : s.mainDone = true → s'.mainDone = true

/-- In no call that suspends. -/
structure Idle (s : World M) (i : Nat) : Prop where
  call : (s.threads i).call = none
  text : (s.threads i).resumeText = none
  block : (s.threads i).block ≠ .await
  away : ∀ wait, ¬s.NestedIn i wait

/-- The task's record holds what a waker needs, or the text it left. -/
def Hears (s : World M) (i : Nat) (call : Suspension) : Prop :=
  match call.kind with
  | .await id => (s.threads i).call = none ∧
    if call.nested then (s.threads i).resumeText = none ∧ (s.threads i).block ≠ .await
    else (s.threads i).resumeText = none ∧ (s.threads i).block = .await ∧ (s.threads i).waitOn = some id ∨
      (s.threads i).block ≠ .await ∧ ∃ text, (s.threads i).resumeText = some text ∧ s.Suits (.await id) text
  | kind => (s.threads i).block ≠ .await ∧
    (∃ held, (s.threads i).call = some held ∧ held.message.isSome = decide (kind = .send)) ∧
    ∀ text ∈ (s.threads i).resumeText, s.Suits kind text

/-- In the call, with its own cell to be told at. -/
structure Linked (s : World M) (argument : Nat) (i : Nat) (call : Suspension) : Prop where
  nests : call.nested = true → s.NestedIn i call.kind.wait
  away : call.nested = false → ∀ wait, ¬s.NestedIn i wait
  cell : (if call.nested then argument else (s.threads i).resumeCell) = call.cell
  hears : s.Hears i call

/-- Each task is in the call that is open for it, if it is not done. -/
structure Links (s : World M) (pending : Nat → Option Suspension) (argument : Nat → Nat) : Prop where
  idle : ∀ i, (s.threads i).state ≠ .done → pending i = none → s.Idle i
  linked : ∀ i call, (s.threads i).state ≠ .done → pending i = some call → s.Linked (argument i) i call
  ended : ∀ i, (s.threads i).state = .done → (s.threads i).status ≠ none ∧ i < s.nthreads
  main : (s.threads 0).state = .done → s.mainDone = true
  inside : ∀ i call, pending i = some call → i < s.nthreads

section Links

variable {s s' : World M} {w i : Nat} {pending pending' : Nat → Option Suspension} {argument argument' : Nat → Nat}

/-- What is done stays as it is. -/
theorem Passes.settled {j : Nat} (passes : s.Passes s' j) (done : (s.threads j).state = .done)
    (inside : j < s.nthreads) :
    (s'.threads j).state = .done ∧ (s'.threads j).status = (s.threads j).status := by
  cases passes with
  | same thread =>
    rw [thread]
    exact ⟨done, rfl⟩
  | told told => exact absurd done told.state.1
  | heard heard _ => exact absurd done heard.state.1
  | fresh out _ => exact absurd inside (Nat.not_lt.mpr out)

theorem Suits.settled {kind : Kind} {text : Text M}
    (stays : ∀ j, (s.threads j).state = .done → (s'.threads j).state = .done ∧ (s'.threads j).status = (s.threads j).status)
    (suits : s.Suits kind text) : s'.Suits kind text := by
  cases kind with
  | await id => exact ⟨(stays id suits.1).1, (stays id suits.1).2.trans suits.2⟩
  | send => exact suits
  | recv => exact suits

theorem Idle.passes {j : Nat} (idle : s.Idle j) (passes : s.Passes s' j)
    (nests : ∀ wait, s'.NestedIn j wait ↔ s.NestedIn j wait) : s'.Idle j := by
  have away : ∀ wait, ¬s'.NestedIn j wait := fun wait nested => idle.away wait ((nests wait).mp nested)
  cases passes with
  | same thread => exact ⟨thread ▸ idle.call, thread ▸ idle.text, thread ▸ idle.block, away⟩
  | told told => exact absurd idle.call told.calls
  | heard heard _ => exact absurd heard.awaits.1 idle.block
  | fresh _ thread => exact ⟨by rw [thread]; rfl, by rw [thread]; rfl, by rw [thread]; exact nofun, away⟩

theorem Hears.passes {j : Nat} {call : Suspension} (hears : s.Hears j call) (passes : s.Passes s' j)
    (inside : j < s.nthreads)
    (stays : ∀ j, (s.threads j).state = .done → (s'.threads j).state = .done ∧ (s'.threads j).status = (s.threads j).status) :
    s'.Hears j call := by
  obtain ⟨kind, cell, nested⟩ := call
  cases passes with
  | same thread =>
    cases kind with
    | await id =>
      simp only [Hears, thread] at hears ⊢
      refine ⟨hears.1, ?_⟩
      split
      · rename_i nests
        rw [if_pos nests] at hears
        exact hears.2
      · rename_i nests
        rw [if_neg nests] at hears
        exact hears.2.imp_right fun ⟨block, text, holds, suits⟩ => ⟨block, text, holds, suits.settled stays⟩
    | send =>
      simp only [Hears, thread] at hears ⊢
      exact hears
    | recv =>
      simp only [Hears, thread] at hears ⊢
      exact hears
  | told told =>
    obtain ⟨text, holds, suits⟩ := told.text
    have away : (s'.threads j).block ≠ .await := by rw [told.block]; exact nofun
    cases kind with
    | await id => exact absurd hears.1 told.calls
    | send =>
      obtain ⟨_, ⟨held, at_, sends⟩, _⟩ := hears
      refine ⟨away, ⟨held, told.call.trans at_, sends⟩, fun text' mem => ?_⟩
      cases holds.symm.trans (Option.mem_def.mp mem)
      exact (suits held at_).1 (by simpa using sends)
    | recv =>
      obtain ⟨_, ⟨held, at_, receives⟩, _⟩ := hears
      refine ⟨away, ⟨held, told.call.trans at_, receives⟩, fun text' mem => ?_⟩
      cases holds.symm.trans (Option.mem_def.mp mem)
      exact (suits held at_).2 (by simpa using receives)
  | @heard id status heard done =>
    cases kind with
    | await id' =>
      refine ⟨heard.call.trans hears.1, ?_⟩
      have waits := hears.2
      split at waits
      · exact absurd heard.awaits.1 waits.2
      · rename_i nests
        rw [if_neg nests]
        rcases waits with ⟨_, _, on⟩ | ⟨block, _⟩
        · cases Option.some.inj (heard.awaits.2.symm.trans on)
          exact .inr ⟨by rw [heard.block]; exact nofun, status, heard.text, done⟩
        · exact absurd heard.awaits.1 block
    | send => exact absurd heard.awaits.1 hears.1
    | recv => exact absurd heard.awaits.1 hears.1
  | fresh out _ => exact absurd inside (Nat.not_lt.mpr out)

theorem Passes.cell {j : Nat} (passes : s.Passes s' j) (inside : j < s.nthreads) :
    (s'.threads j).resumeCell = (s.threads j).resumeCell := by
  cases passes with
  | same thread => rw [thread]
  | told told => exact told.cell
  | heard heard _ => exact heard.cell
  | fresh out _ => exact absurd inside (Nat.not_lt.mpr out)

theorem Passes.alive {j : Nat} (passes : s.Passes s' j) (alive : (s'.threads j).state ≠ .done) :
    (s.threads j).state ≠ .done ∨ s.nthreads ≤ j := by
  cases passes with
  | same thread => exact .inl (thread ▸ alive)
  | told told => exact .inl told.state.1
  | heard heard _ => exact .inl heard.state.1
  | fresh out _ => exact .inr out

theorem Passes.done {j : Nat} (passes : s.Passes s' j) (done : (s'.threads j).state = .done) :
    s'.threads j = s.threads j := by
  cases passes with
  | same thread => exact thread
  | told told =>
    rw [told.state.2] at done
    cases done
  | heard heard _ =>
    rw [heard.state.2] at done
    cases done
  | fresh _ thread =>
    rw [thread] at done
    cases done

/-- A step about task `i` keeps the links of all, given those of `i`. -/
theorem Links.acts (links : s.Links pending argument) (acts : s.Acts s' i)
    (alive : (s.threads i).state ≠ .done)
    (pendings : ∀ j, j ≠ i → pending' j = pending j) (arguments : ∀ j, j ≠ i → argument' j = argument j)
    (idle : (s'.threads i).state ≠ .done → pending' i = none → s'.Idle i)
    (linked : ∀ call, (s'.threads i).state ≠ .done → pending' i = some call → s'.Linked (argument' i) i call)
    (ended : (s'.threads i).state = .done → (s'.threads i).status ≠ none ∧ i < s'.nthreads)
    (main : i = 0 → (s'.threads 0).state = .done → s'.mainDone = true)
    (inside : ∀ call, pending' i = some call → i < s'.nthreads) : s'.Links pending' argument' := by
  have stays : ∀ j, (s.threads j).state = .done →
      (s'.threads j).state = .done ∧ (s'.threads j).status = (s.threads j).status := by
    intro j done
    have other : j ≠ i := fun same => alive (same ▸ done)
    exact (acts.others j other).settled done (links.ended j done).2
  refine ⟨fun j alive' none_ => ?_, fun j call alive' some_ => ?_, fun j done => ?_, fun done => ?_, fun j call some_ => ?_⟩
  · by_cases mine : j = i
    · subst mine
      exact idle alive' none_
    · rw [pendings j mine] at none_
      rcases (acts.others j mine).alive alive' with before | out
      · exact (links.idle j before none_).passes (acts.others j mine) (acts.nests j mine)
      · by_cases before : (s.threads j).state = .done
        · exact absurd (links.ended j before).2 (Nat.not_lt.mpr out)
        · exact (links.idle j before none_).passes (acts.others j mine) (acts.nests j mine)
  · by_cases mine : j = i
    · subst mine
      exact linked call alive' some_
    · rw [pendings j mine] at some_
      have passes := acts.others j mine
      have here := links.inside j call some_
      have before := (passes.alive alive').resolve_right (Nat.not_le.mpr here)
      obtain ⟨nests, away, cell, hears⟩ := links.linked j call before some_
      refine ⟨fun nested => (acts.nests j mine _).mpr (nests nested),
        fun free wait nested => away free wait ((acts.nests j mine wait).mp nested), ?_, hears.passes passes here stays⟩
      rw [arguments j mine, passes.cell here]
      exact cell
  · by_cases mine : j = i
    · subst mine
      exact ended done
    · have same := (acts.others j mine).done done
      rw [same] at done ⊢
      exact ⟨(links.ended j done).1, Nat.lt_of_lt_of_le (links.ended j done).2 acts.nthreads⟩
  · by_cases mine : 0 = i
    · exact main mine.symm done
    · have same := (acts.others 0 mine).done done
      rw [same] at done
      exact acts.main (links.main done)
  · by_cases mine : j = i
    · subst mine
      exact inside call some_
    · rw [pendings j mine] at some_
      exact Nat.lt_of_lt_of_le (links.inside j call some_) acts.nthreads

end Links

/-- What a builtin of the running task leaves of the task itself. -/
inductive Own (s s' : World M) (w i : Nat) (d : Do M) : Prop
  | goes (top : (s'.stackOf w).top = some (i, .running)) (thread : s'.threads i = s.threads i)
  | pauses {rc : Rc M} (none_ : blocking d = none) (top : (s'.stackOf w).top = some (i, .back rc))
      (call : (s'.threads i).call = none) (text : (s'.threads i).resumeText = none)
      (block : (s'.threads i).block ≠ .await) (state : (s'.threads i).state = (s.threads i).state)
  | blocks {call : Suspension} (some_ : blocking d = some call)
      (top : (s'.stackOf w).top = some (i, if call.nested then .entering call.kind.wait else .back .zero))
      (cell : call.nested = false → (s'.threads i).resumeCell = call.cell) (hears : s'.Hears i call)
      (alive : (s'.threads i).state ≠ .done)

section Builtins

variable {s s' : World M} {w i c : Nat}

theorem Builtin.nests (step : Builtin s s' w i) (at_ : (s.stackOf w).top = some (i, .running)) {j : Nat} (other : j ≠ i)
    (wait : Wait) : s'.NestedIn j wait ↔ s.NestedIn j wait := by
  obtain ⟨ph, top, _⟩ := step.top
  have mine : ∀ v, ((s'.stackOf v).top = some (j, .entering wait) ↔ (s.stackOf v).top = some (j, .entering wait)) ∧
      (s'.stackOf v).below = (s.stackOf v).below := by
    intro v
    by_cases same : v = w
    · subst same
      refine ⟨⟨fun top' => ?_, fun top' => ?_⟩, step.below⟩
      · cases Option.some.inj (top.symm.trans top')
        exact absurd rfl other
      · cases Option.some.inj (at_.symm.trans top')
    · rw [step.stack v same]
      exact ⟨Iff.rfl, rfl⟩
  exact exists_congr fun v => by rw [(mine v).1, (mine v).2]

theorem Books.tells (b : s.Books) {j : Nat} {held : Call M} (waits : s.Waits j held) {x : Text M} {y : Option M}
    (self : s'.threads j = { (s.threads j).woken x with sendText := y })
    (suits : (held.message.isSome = true → x = .okSend ∨ x = .error .sendClosed) ∧
      (held.message.isSome = false → x = .closed ∨ ∃ m, x = .ok m)) : s.Passes s' j := by
  have state : (s.threads j).state ≠ .done := by
    rcases ((b.fits j held waits.1).waits waits.2).1 with state | state <;> (rw [state]; exact nofun)
  refine .told ⟨by rw [waits.1]; exact nofun, by rw [self]; rfl, by rw [self]; rfl, ⟨state, by rw [self]; rfl⟩,
    by rw [self]; rfl, x, by rw [self]; rfl, fun call mem => ?_⟩
  cases waits.1.symm.trans (Option.mem_def.mp mem)
  exact suits

/-- A send goes on and tells at most a receiver, or it waits. -/
theorem send_cases (b : s.Books) (c : Nat) (m : M) (cell : Nat) (nested : Bool) :
    ((s.async_send w i c m cell nested).stackOf = s.stackOf ∧ ∀ j, s.Passes (s.async_send w i c m cell nested) j) ∨
    (c < s.nchans ∧ (s.chans c).closed = false ∧ (s.chans c).receivers = [] ∧
      ¬(0 < (s.chans c).cap ∧ (s.chans c).buf.count < (s.chans c).cap)) ∧
    ∃ u : World M, u.threads = s.threads ∧ u.stackOf = s.stackOf ∧
      s.async_send w i c m cell nested = u.blocks w i
        { s.threads i with
          block := .send, chan := some c, sendText := some m, call := some ⟨s.log.calls, cell, c, some m⟩
          resumeCell := if nested then cell else (s.threads i).resumeCell } nested := by
  unfold async_send
  split
  · exact .inl ⟨rfl, fun _ => .same rfl⟩
  rename_i here
  have here : c < s.nchans := Nat.lt_of_not_le here
  simp only
  split
  · exact .inl ⟨rfl, fun _ => .same rfl⟩
  rename_i opened
  split
  · rename_i r rest list
    obtain ⟨held, waits, _, receives⟩ := (b.receivers c here r).mp (by
      rw [show (s.chans c).receivers = r :: rest from list]
      exact List.mem_cons_self)
    refine .inl ⟨rfl, fun j => ?_⟩
    by_cases same : j = r
    · subst same
      refine b.tells waits (x := .ok m) (y := (s.threads j).sendText) (threads_self _)
        ⟨fun sends => ?_, fun _ => .inr ⟨m, rfl⟩⟩
      rw [receives] at sends
      cases sends
    · exact .same (threads_other same _)
  rename_i list
  split
  · exact .inl ⟨rfl, fun _ => .same rfl⟩
  rename_i full
  split
  · exact .inr ⟨⟨here, by simpa [called] using opened, list, full⟩,
      s.called.setChan c { s.chans c with senders := (s.chans c).senders ++ [i] }, rfl, rfl, rfl⟩
  · exact .inl ⟨rfl, fun _ => .same rfl⟩

/-- A waiting sender is told; nobody else is touched. -/
theorem Books.tellsSender (b : s.Books) (here : c < s.nchans) {si : Nat} (listed : si ∈ (s.chans c).senders)
    (self : s'.threads si = { (s.threads si).woken .okSend with sendText := none })
    (others : ∀ j, j ≠ si → s'.threads j = s.threads j) (j : Nat) : s.Passes s' j := by
  by_cases same : j = si
  · subst same
    obtain ⟨held, m, waits, _, message, _⟩ := b.sending here listed
    refine b.tells waits self ⟨fun _ => .inl rfl, fun receives => ?_⟩
    rw [message] at receives
    cases receives
  · exact .same (others j same)

/-- A receive goes on and tells at most a sender, or it waits. -/
theorem recv_cases (b : s.Books) (c cell : Nat) (nested : Bool) :
    ((s.async_recv w i c cell nested).stackOf = s.stackOf ∧ ∀ j, s.Passes (s.async_recv w i c cell nested) j) ∨
    ∃ u : World M, u.threads = s.threads ∧ u.stackOf = s.stackOf ∧
      s.async_recv w i c cell nested = u.blocks w i
        { s.threads i with
          block := .recv, chan := some c, resumeCell := cell, call := some ⟨s.log.calls, cell, c, none⟩ } nested := by
  unfold async_recv
  split
  · exact .inl ⟨rfl, fun _ => .same rfl⟩
  rename_i here
  have here : c < s.nchans := Nat.lt_of_not_le here
  have fits := b.chans c here
  simp only
  split
  · rename_i some_
    have some_ : 0 < (s.chans c).buf.count := some_
    obtain ⟨threads, stack⟩ := Builtin.receives_same s.called c (s.called.chans c).buf.first ⟨s.log.calls, cell, c, none⟩
    cases list : (s.chans c).senders with
    | nil =>
      rw [move_sender_none (by simpa [called] using list)]
      exact .inl ⟨stack, fun j => .same (congrFun threads j)⟩
    | cons si rest =>
      have listed : si ∈ (s.chans c).senders := list ▸ List.mem_cons_self
      obtain ⟨held, m', waits, chan, message, text⟩ := b.sending here listed
      obtain ⟨space, _⟩ := fits.shift list some_ (b.new c) m' none
      have to_ := @Changed.moves _ s c ((s.called.receives c (s.called.chans c).buf.first ⟨s.log.calls, cell, c, none⟩).setChan
        c { s.chans c with buf := (s.chans c).buf.pop (s.chans c).cap }) threads ?_ (fun d other => ?_) ?_ si rest _
        (chans_self _) list space m' text held waits.1
      · exact .inl ⟨(Builtin.move_sender_stackOf _ _).trans stack, b.tellsSender here listed to_.self to_.others⟩
      · unfold World.receives
        split <;> rfl
      · refine (chans_other other _).trans ?_
        unfold World.receives
        split <;> rfl
      · unfold World.receives
        split <;> rfl
  split
  · rename_i si rest list
    have listed : si ∈ (s.chans c).senders := by
      rw [show (s.chans c).senders = si :: rest from list]
      exact List.mem_cons_self
    obtain ⟨held, m, waits, chan, message, text⟩ := b.sending here listed
    obtain ⟨threads, stack⟩ := Builtin.receives_same (s.called.releaseSender c si rest) c (s.called.threads si).sendText
      ⟨s.log.calls, cell, c, none⟩
    have to_ := @Changed.releases _ s c s.called rfl rfl (fun _ _ => rfl) rfl si rest m text held waits.1
    exact .inl ⟨stack.trans (Builtin.releaseSender_stackOf _ _ _ _), b.tellsSender here listed
      ((congrFun threads si).trans to_.self) fun j other => (congrFun threads j).trans (to_.others j other)⟩
  split
  · exact .inl ⟨rfl, fun _ => .same rfl⟩
  split
  · exact .inr ⟨s.called.setChan c { s.chans c with receivers := (s.chans c).receivers ++ [i] }, rfl, rfl, rfl⟩
  · exact .inl ⟨rfl, fun _ => .same rfl⟩

theorem passes_close (b : s.Books) (c j : Nat) : s.Passes (s.chan_close c) j := by
  by_cases here : c < s.nchans
  · rw [b.chan_close_eq here]
    by_cases receives : j ∈ (s.chans c).receivers
    · obtain ⟨held, waits, _, kind⟩ := (b.receivers c here j).mp receives
      refine b.tells waits (x := .closed) (y := (s.threads j).sendText) ?_ ⟨fun sends => ?_, fun _ => .inl rfl⟩
      · exact if_pos receives
      · rw [kind] at sends
        cases sends
    · by_cases sends : j ∈ (s.chans c).senders
      · obtain ⟨held, waits, _, kind⟩ := (b.senders c here j).mp sends
        refine b.tells waits (x := .error .sendClosed) (y := none) ?_ ⟨fun _ => .inr rfl, fun none_ => ?_⟩
        · exact (if_neg receives).trans (if_pos sends)
        · rw [kind] at none_
          cases none_
      · exact .same ((if_neg receives).trans (if_neg sends))
  · have idle : s.chan_close c = s := by
      unfold chan_close
      rw [if_pos (Nat.le_of_not_lt here)]
    rw [idle]
    exact .same rfl

theorem passes_calls (b : s.Books) (d : Do M) {j : Nat} (other : j ≠ i) : s.Passes (s.calls w i d) j := by
  unfold World.calls
  split
  · exact .same rfl
  · unfold spawn
    split
    · by_cases new : j = s.nthreads
      · subst new
        exact .fresh (Nat.le_refl _) (threads_self (s := s) (i := s.nthreads) _)
      · exact .same (threads_other new _)
    · exact .same rfl
  · unfold async_yield
    split
    · exact .same rfl
    · exact .same (threads_other other _)
  · unfold async_await
    split
    · exact .same rfl
    split
    · exact .same rfl
    split
    · exact .same rfl
    · exact .same (threads_other other _)
  · unfold chan_new
    split <;> exact .same rfl
  · rename_i c m cell nested
    rcases send_cases b c m cell nested with ⟨_, passes⟩ | ⟨_, u, threads, _, eq⟩
    · exact passes j
    · rw [eq]
      exact .same ((threads_other other _).trans (congrFun threads j))
  · rename_i c cell nested
    rcases recv_cases b c cell nested with ⟨_, passes⟩ | ⟨u, threads, _, eq⟩
    · exact passes j
    · rw [eq]
      exact .same ((threads_other other _).trans (congrFun threads j))
  · exact passes_close b _ _
  · exact .same rfl

theorem top_set {ph : Phase M} : ((s.setTop w (some (i, ph))).stackOf w).top = some (i, ph) := by
  rw [setTop, stackOf_self]

/-- The task waits in a channel call of its own, whose cell is on record or on its C frame. -/
theorem Own.channel {d : Do M} {u : World M} {t : Thread M} {call : Call M} {kind : Kind} {cell : Nat} {nested : Bool}
    (some_ : blocking d = some ⟨kind, cell, nested⟩) (channel : kind = .send ∨ kind = .recv)
    (at_ : t.call = some call) (is : call.message.isSome = decide (kind = .send)) (none_ : t.resumeText = none)
    (block : t.block ≠ .await) (record : nested = false → t.resumeCell = cell) :
    Own s (u.blocks w i t nested) w i d := by
  have self : (u.blocks w i t nested).threads i = { t with state := if nested then .nested else .blocked } :=
    threads_self _
  refine .blocks some_ ?_ (fun free => by rw [self]; exact record free) ?_ ?_
  · rw [World.blocks, top_set]
    rcases channel with rfl | rfl <;> rfl
  · have heard : (∃ held, ((u.blocks w i t nested).threads i).call = some held ∧
        held.message.isSome = decide (kind = .send)) ∧
        ∀ text ∈ ((u.blocks w i t nested).threads i).resumeText, (u.blocks w i t nested).Suits kind text := by
      rw [self]
      refine ⟨⟨call, at_, is⟩, fun text mem => ?_⟩
      exact absurd (none_.symm.trans (Option.mem_def.mp mem)) nofun
    have away : ((u.blocks w i t nested).threads i).block ≠ .await := by
      rw [self]
      exact block
    rcases channel with rfl | rfl <;> exact ⟨away, heard⟩
  · rw [self]
    cases nested <;> exact nofun

/-- A clean task that is passed by is as it was. -/
theorem Passes.clean (passes : s.Passes s' i) (clean : (s.threads i).Clean) (inside : i < s.nthreads) :
    s'.threads i = s.threads i := by
  cases passes with
  | same thread => exact thread
  | told told => exact absurd clean.1 told.calls
  | heard heard _ => exact absurd (clean.2.1.symm.trans heard.awaits.1) nofun
  | fresh out _ => exact absurd inside (Nat.not_lt.mpr out)

theorem own_calls (b : s.Books) (at_ : (s.stackOf w).top = some (i, .running)) (clean : (s.threads i).Clean)
    (inside : i < s.nthreads) (alive : (s.threads i).state ≠ .done) (d : Do M) (records : s.Records w d) :
    Own s (s.calls w i d) w i d := by
  have goesOn {s' : World M} {d : Do M} (stack : s'.stackOf = s.stackOf) (passes : s.Passes s' i) : Own s s' w i d :=
    .goes (by rw [stack, at_]) (passes.clean clean inside)
  unfold World.calls
  split
  · exact .pauses rfl top_set clean.1 clean.2.2 (by rw [show ((s.setTop w _).threads i).block = _ from clean.2.1]; nofun)
      rfl
  · exact goesOn (by unfold spawn; split <;> rfl) (.same (by
      unfold spawn
      split
      · exact threads_other (Nat.ne_of_lt inside) _
      · rfl))
  · unfold async_yield
    split
    · exact goesOn rfl (.same rfl)
    · have self : ((s.setThread i { s.threads i with block := .yield }).setTop w (some (i, .back .zero))).threads i =
          { s.threads i with block := .yield } := threads_self _
      exact .pauses rfl top_set (by rw [self]; exact clean.1) (by rw [self]; exact clean.2.2) (by rw [self]; nofun)
        (by rw [self])
  · rename_i id cell nested
    unfold async_await
    split
    · exact goesOn rfl (.same rfl)
    split
    · exact goesOn rfl (.same rfl)
    split
    · rename_i nests
      subst nests
      refine .blocks rfl top_set nofun ⟨clean.1, ?_⟩ alive
      rw [if_pos rfl]
      exact ⟨clean.2.2, by rw [show ((s.setTop w _).threads i).block = _ from clean.2.1]; nofun⟩
    · rename_i free
      let t : Thread M :=
        { s.threads i with block := .await, state := .blocked, waitOn := some id, resumeCell := cell }
      have self : ((s.setThread i t).setTop w (some (i, .back .zero))).threads i = t := threads_self _
      refine .blocks rfl ?_ (fun _ => by rw [self]) ⟨by rw [self]; exact clean.1, ?_⟩ (by rw [self]; nofun)
      · rw [if_neg free]
        exact top_set
      · rw [if_neg free, self]
        exact .inl ⟨clean.2.2, rfl, rfl⟩
  · exact goesOn (by unfold chan_new; split <;> rfl) (.same (by unfold chan_new; split <;> rfl))
  · rename_i c m cell nested
    rcases send_cases b c m cell nested with ⟨stack, passes⟩ | ⟨⟨here, opened, list, full⟩, u, threads, stack, eq⟩
    · exact goesOn stack (passes i)
    · rw [eq]
      refine .channel rfl (.inl rfl) rfl rfl clean.2.2 nofun fun free => ?_
      subst free
      exact records _ at_ rfl here opened list full
  · rename_i c cell nested
    rcases recv_cases b c cell nested with ⟨stack, passes⟩ | ⟨u, threads, stack, eq⟩
    · exact goesOn stack (passes i)
    · rw [eq]
      exact .channel rfl (.inr rfl) rfl rfl clean.2.2 nofun fun _ => rfl
  · rename_i c
    refine goesOn ?_ (passes_close b c i)
    by_cases here : c < s.nchans
    · rw [b.chan_close_eq here]
    · unfold chan_close
      rw [if_pos (Nat.le_of_not_lt here)]
  · exact goesOn rfl (.same rfl)

theorem answer_mainDone (s : World M) (call : Option (Call M)) (status : Option (Text M)) :
    (s.answer call status).mainDone = s.mainDone := by
  cases call
  · rfl
  · rfl

theorem releaseSender_mainDone (s : World M) (c si : Nat) (rest : List Nat) :
    (s.releaseSender c si rest).mainDone = s.mainDone := by
  unfold World.releaseSender
  simp only
  split <;> rfl

theorem move_sender_mainDone (s : World M) (c : Nat) : (s.move_sender c).mainDone = s.mainDone := by
  unfold World.move_sender
  dsimp only
  split
  · rfl
  · split
    · exact releaseSender_mainDone ..
    · rfl

theorem receives_mainDone (s : World M) (c : Nat) (text : Option M) (call : Call M) :
    (s.receives c text call).mainDone = s.mainDone := by
  cases text
  · exact answer_mainDone ..
  · exact answer_mainDone ..

theorem async_send_mainDone (s : World M) (w i c : Nat) (m : M) (cell : Nat) (nested : Bool) :
    (s.async_send w i c m cell nested).mainDone = s.mainDone := by
  unfold async_send
  split
  · rfl
  dsimp only
  split
  · exact answer_mainDone ..
  split
  · exact answer_mainDone ..
  split
  · exact answer_mainDone ..
  split
  · rfl
  · rfl

theorem async_recv_mainDone (s : World M) (w i c cell : Nat) (nested : Bool) :
    (s.async_recv w i c cell nested).mainDone = s.mainDone := by
  unfold async_recv
  split
  · rfl
  dsimp only
  split
  · exact (move_sender_mainDone ..).trans (receives_mainDone ..)
  split
  · exact (receives_mainDone ..).trans (releaseSender_mainDone ..)
  split
  · exact answer_mainDone ..
  split
  · rfl
  · rfl

theorem calls_mainDone (b : s.Books) (d : Do M) : (s.calls w i d).mainDone = s.mainDone := by
  unfold World.calls
  split
  · rfl
  · unfold spawn
    split
    · rfl
    · rfl
  · unfold async_yield
    split
    · rfl
    · rfl
  · unfold async_await
    split
    · rfl
    split
    · rfl
    split
    · rfl
    · rfl
  · unfold chan_new
    split
    · rfl
    · rfl
  · exact async_send_mainDone ..
  · exact async_recv_mainDone ..
  · rename_i c
    by_cases here : c < s.nchans
    · rw [b.chan_close_eq here]
    · unfold chan_close
      rw [if_pos (Nat.le_of_not_lt here)]
  · rfl

theorem Acts.calls (b : s.Books) (at_ : (s.stackOf w).top = some (i, .running)) (clean : (s.threads i).Clean)
    (inside : i < s.nthreads) (d : Do M) : Acts s (s.calls w i d) i where
  others _ other := passes_calls b d other
  nests _ other wait := (Builtin.calls b at_ clean inside d).nests at_ other wait
  nthreads := (Quiet.calls at_ d).nthreads
  main done := (calls_mainDone b d).trans done

end Builtins

section Scheduler

variable {s s' : World M} {w i : Nat} {pending : Nat → Option Suspension} {argument : Nat → Nat}

/-- A task whose run is at the top of a stack is in no nested wait, short of one it is entering. -/
theorem RunInv.away (inv : s.RunInv) {ph : Phase M} (top : (s.stackOf w).top = some (i, ph)) (wait : Wait)
    (other : ph ≠ .entering wait) : ¬s.NestedIn i wait := by
  obtain ⟨here, below⟩ := inv.top_only top
  rintro ⟨v, top' | below'⟩
  · by_cases same : v = w
    · subst same
      cases Option.some.inj (top.symm.trans top')
      exact other rfl
    · exact here v same (mem_progress_top top')
  · by_cases same : v = w
    · subst same
      exact below wait below'
    · exact here v same (mem_progress_below below')

theorem not_nestedIn (gone : ∀ v, i ∉ (s.stackOf v).progress) (wait : Wait) : ¬s.NestedIn i wait := by
  rintro ⟨v, top | below⟩
  · exact gone v (mem_progress_top top)
  · exact gone v (mem_progress_below below)

/-- A task with nothing to wait for has no call open. -/
theorem Links.free (links : s.Links pending argument) (alive : (s.threads i).state ≠ .done)
    (call : (s.threads i).call = none) (text : (s.threads i).resumeText = none) (block : (s.threads i).block ≠ .await)
    (away : ∀ wait, ¬s.NestedIn i wait) : pending i = none := by
  cases open_ : pending i with
  | none => rfl
  | some held =>
    obtain ⟨nests, _, _, hears⟩ := links.linked i held alive open_
    obtain ⟨kind, cell, nested⟩ := held
    cases nested with
    | true => exact absurd (nests rfl) (away _)
    | false =>
      cases kind with
      | await id =>
        rcases hears.2 with ⟨_, await_, _⟩ | ⟨_, told, holds, _⟩
        · exact absurd await_ block
        · exact absurd (text.symm.trans holds) nofun
      | send =>
        obtain ⟨_, ⟨held, at_, _⟩, _⟩ := hears
        exact absurd (call.symm.trans at_) nofun
      | recv =>
        obtain ⟨_, ⟨held, at_, _⟩, _⟩ := hears
        exact absurd (call.symm.trans at_) nofun

theorem Hears.same {call : Suspension} (hears : s.Hears i call) (at_ : (s'.threads i).call = (s.threads i).call)
    (text : (s'.threads i).resumeText = (s.threads i).resumeText) (block : (s'.threads i).block = (s.threads i).block)
    (waitOn : (s'.threads i).waitOn = (s.threads i).waitOn)
    (stays : ∀ j, (s.threads j).state = .done → (s'.threads j).state = .done ∧ (s'.threads j).status = (s.threads j).status) :
    s'.Hears i call := by
  obtain ⟨kind, cell, nested⟩ := call
  cases kind with
  | await id =>
    simp only [Hears, at_, text, block, waitOn] at hears ⊢
    refine ⟨hears.1, ?_⟩
    split
    · rename_i nests
      rw [if_pos nests] at hears
      exact hears.2
    · rename_i nests
      rw [if_neg nests] at hears
      exact hears.2.imp_right fun ⟨block, text, holds, suits⟩ => ⟨block, text, holds, suits.settled stays⟩
  | send =>
    simp only [Hears, at_, text, block] at hears ⊢
    exact hears
  | recv =>
    simp only [Hears, at_, text, block] at hears ⊢
    exact hears

/-- Nothing that the links rest on changes but the state of task `i`. -/
theorem Links.restates (links : s.Links pending argument) (acts : s.Acts s' i) (inside : i < s.nthreads)
    (alive : (s.threads i).state ≠ .done) (alive' : (s'.threads i).state ≠ .done)
    (call : (s'.threads i).call = (s.threads i).call) (text : (s'.threads i).resumeText = (s.threads i).resumeText)
    (block : (s'.threads i).block = (s.threads i).block) (waitOn : (s'.threads i).waitOn = (s.threads i).waitOn)
    (cell : (s'.threads i).resumeCell = (s.threads i).resumeCell)
    (nests : ∀ wait, s'.NestedIn i wait ↔ s.NestedIn i wait) : s'.Links pending argument := by
  have stays : ∀ j, (s.threads j).state = .done →
      (s'.threads j).state = .done ∧ (s'.threads j).status = (s.threads j).status := fun j done =>
    (acts.others j fun same => alive (same ▸ done)).settled done (links.ended j done).2
  refine links.acts acts alive (fun _ _ => rfl) (fun _ _ => rfl) (fun _ none_ => ?_) (fun held _ open_ => ?_)
    (fun done => absurd done alive') (fun same done => ?_) fun _ _ => Nat.lt_of_lt_of_le inside acts.nthreads
  · have idle := links.idle i alive none_
    exact ⟨call.trans idle.call, text.trans idle.text, block.symm ▸ idle.block,
      fun wait nested => idle.away wait ((nests wait).mp nested)⟩
  · have linked := links.linked i held alive open_
    refine ⟨fun nested => (nests _).mpr (linked.nests nested),
      fun free wait nested => linked.away free wait ((nests wait).mp nested), ?_,
      linked.hears.same call text block waitOn stays⟩
    rw [cell]
    exact linked.cell
  · subst same
    exact absurd done alive'

/-- What the links do not look at may change. -/
theorem Links.frame (links : s.Links pending argument) (threads : s'.threads = s.threads)
    (nests : ∀ j wait, s'.NestedIn j wait ↔ s.NestedIn j wait) (nthreads : s'.nthreads = s.nthreads)
    (main : s.mainDone = true → s'.mainDone = true) : s'.Links pending argument := by
  have out : (s.threads s.nthreads).state ≠ .done := fun done => Nat.lt_irrefl _ (links.ended _ done).2
  have passes : ∀ j, s.Passes s' j := fun j => .same (congrFun threads j)
  refine links.acts (i := s.nthreads) ⟨fun j _ => passes j, fun j _ => nests j, nthreads.ge, main⟩ out (fun _ _ => rfl)
    (fun _ _ => rfl) (fun _ none_ => (links.idle _ out none_).passes (passes _) (nests _))
    (fun call _ open_ => absurd (links.inside _ call open_) (Nat.lt_irrefl _))
    (fun done => absurd (threads ▸ done) out) (fun same done => ?_)
    (fun call open_ => absurd (links.inside _ call open_) (Nat.lt_irrefl _))
  rw [threads] at done
  exact main (links.main done)

end Scheduler

end World
end Cocolog.Green
