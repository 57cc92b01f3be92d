import Cocolog.Lib.Search

/-! The engine's step over its continuation and its choice frames: the control constructs, the
cuts, `catch/3` and `throw/1`, a predicate's clauses tried in turn, and backtracking. Terms,
unification, the builtins and the clause store are the operations of `Memory`. The index of a
frame is how many frames lie under it. -/

set_option linter.all false

namespace Cocolog.Engine

open Cocolog.Lib

/-- A dereferenced goal as `coco_construct` takes it; `other` is a predicate's or a builtin's. -/
inductive Construct (T : Type) where
  | true_
  | fail
  | cut
  | conj (l r : T)
  | disj (l r : T)
  | ifThen (c t : T)
  | softThen (c t : T)
  | naf (g : T)
  | not_ (g : T)
  | once (g : T)
  | ignore (g : T)
  | call (g : T)
  | catch_ (g catcher recovery : T)
  | throw_ (ball : T)
  | other

/-- What running a goal that is no construct comes to. `calls` is `call/N`, whose goal has been
built; `clauses` are the candidates the call began with. -/
inductive Called (σ ω T B C : Type) where
  | exits (s : σ) (w : ω)
  | fails (w : ω)
  | raises (w : ω) (ball : B)
  | calls (s : σ) (w : ω) (g : T)
  | clauses (w : ω) (candidates : List C)

/-- The machine under the engine: `σ` its heap and trail, `M` a frame's marks, `ω` what no
backtracking takes back, `T` a term, `B` a stored ball, `C` a clause. -/
structure Memory (σ M ω T B C : Type) where
  view : σ → T → Construct T
  /-- `coco_goal_ok`: the error of a goal that is none. -/
  unfit : σ → T → Option B
  /-- The ball `throw/1` stores, an instantiation error for an unbound one. -/
  thrown : σ → T → B
  called : σ → ω → T → Called σ ω T B C
  /-- `coco_try_clause`: the head unified and the body's goals. -/
  tryClause : σ → T → C → Option (σ × List T)
  /-- The catcher unified with a fresh copy of the ball. -/
  catches : σ → T → B → Option σ
  mark : σ → M
  back : σ → M → σ

/-- A goal on the continuation, the engine's own markers among them. -/
inductive Item (T : Type) where
  | goal (g : T)
  | true_
  | fail
  | cut (h : Nat)
  | softcut (h : Nat)
  | catchExit (ci : Nat)

/-- A `'$k'` frame: a goal and its cut barrier. -/
structure Pending (T : Type) where
  item : Item T
  barrier : Nat

inductive Kind where
  | clause
  | goal
  | catch_
  | dead
  | catchRetry
  deriving DecidableEq

/-- A choice frame's `call`: the goal or the alternative, a catch's `'$catch'(C, R)`, or none. -/
inductive Held (T : Type) where
  | item (i : Item T)
  | catch_ (catcher recovery : T)
  | none

/-- `coco_choice`; `left` are the candidates still to try and `target` the frame a retry frame
turns back on. -/
structure Choice (M T C : Type) where
  kind : Kind
  call : Held T
  goals : List (Pending T)
  barrier : Nat
  mark : M
  left : List C
  target : Nat

/-- The choice frames stand newest first. -/
structure State (σ M ω T C : Type) where
  memory : σ
  world : ω
  goals : List (Pending T)
  choices : List (Choice M T C)

inductive Outcome (σ M ω T B C : Type) where
  | goes (e : State σ M ω T C)
  | solved (e : State σ M ω T C)
  | no (s : σ) (w : ω)
  | uncaught (s : σ) (w : ω) (ball : B)

variable {σ M ω T B C : Type}

/-- The state entered, or what failing to enter one comes to. -/
def enters : Option (State σ M ω T C) → Outcome σ M ω T B C → Outcome σ M ω T B C
  | some e, _ => .goes e
  | none, failing => failing

/-- `nchoices` set to `h`. -/
def cutTo (h : Nat) (choices : List (Choice M T C)) : List (Choice M T C) :=
  choices.drop (choices.length - h)

def kindAt (h : Nat) (choices : List (Choice M T C)) : Option Kind :=
  if h < choices.length then (choices[choices.length - 1 - h]?).map Choice.kind else none

def setKind (h : Nat) (kind : Kind) (choices : List (Choice M T C)) : List (Choice M T C) :=
  choices.modify (choices.length - 1 - h) (fun c => { c with kind := kind })

/-- A frame with something left to try. -/
def Kind.live : Kind → Bool
  | .clause => true
  | .goal => true
  | .catch_ => false
  | .dead => false
  | .catchRetry => false

/-- The frame `$softcut` names loses its alternative. -/
def softcut (h : Nat) (choices : List (Choice M T C)) : List (Choice M T C) :=
  if kindAt h choices = some .goal then setKind h .dead choices else choices

/-- A retry frame popped: the catch it names catches again. -/
def revive (target : Nat) (choices : List (Choice M T C)) : List (Choice M T C) :=
  if kindAt target choices = some .dead then setKind target .catch_ choices else choices

theorem length_setKind (h : Nat) (kind : Kind) (choices : List (Choice M T C)) :
    (setKind h kind choices).length = choices.length := by
  simp only [setKind, List.length_modify]

theorem length_revive (target : Nat) (choices : List (Choice M T C)) :
    (revive target choices).length = choices.length := by
  unfold revive
  split
  · exact length_setKind _ _ _
  · rfl

namespace Memory

variable (mem : Memory σ M ω T B C)

/-- The right spine of a conjunction, at most `n` of its goals taken off it. -/
def spine (s : σ) : Nat → T → List T
  | 0, g => [g]
  | n + 1, g =>
    match mem.view s g with
    | .conj l r => l :: spine s n r
    | _ => [g]

def pushGoals (gs : List T) (barrier : Nat) (k : List (Pending T)) : List (Pending T) :=
  gs.map (fun g => ⟨.goal g, barrier⟩) ++ k

/-- `coco_select_clause` on the frame `c` over `rest`: the last candidate goes without it. -/
def selectClause (s : σ) (w : ω) (c : Choice M T C) (g : T) (rest : List (Choice M T C)) :
    List C → Option (State σ M ω T C)
  | [] => none
  | clause :: left =>
    match mem.tryClause s g clause with
    | some (s', body) =>
      some ⟨s', w, pushGoals body rest.length c.goals,
        if left.isEmpty then rest else { c with left := left } :: rest⟩
    | none => selectClause s w c g rest left

/-- A clause frame's next candidate, once its goal is read back from the frame. -/
def retry (s : σ) (w : ω) (c : Choice M T C) (rest : List (Choice M T C)) :
    Option (State σ M ω T C) :=
  match c.call with
  | .item (.goal g) => mem.selectClause s w c g rest c.left
  | _ => none

def resumeAlt (s : σ) (w : ω) (c : Choice M T C) (rest : List (Choice M T C)) :
    Option (State σ M ω T C) :=
  match c.call with
  | .item alt => some ⟨s, w, ⟨alt, c.barrier⟩ :: c.goals, rest⟩
  | _ => none

/-- `coco_backtrack`, at most `n` frames looked at. -/
def unwind : Nat → σ → ω → List (Choice M T C) → Outcome σ M ω T B C
  | 0, s, w, _ => .no s w
  | _ + 1, s, w, [] => .no s w
  | n + 1, s, w, c :: rest =>
    match c.kind with
    | .goal =>
      enters (resumeAlt (mem.back s c.mark) w c rest) (unwind n (mem.back s c.mark) w rest)
    | .catchRetry => unwind n (mem.back s c.mark) w (revive c.target rest)
    | .catch_ => unwind n (mem.back s c.mark) w rest
    | .dead => unwind n (mem.back s c.mark) w rest
    | .clause =>
      enters (mem.retry (mem.back s c.mark) w c rest) (unwind n (mem.back s c.mark) w rest)

def backtrack (s : σ) (w : ω) (choices : List (Choice M T C)) : Outcome σ M ω T B C :=
  mem.unwind choices.length s w choices

/-- `coco_throw` with the ball already in the store. -/
def throw_ (s : σ) (w : ω) (ball : B) : List (Choice M T C) → Outcome σ M ω T B C
  | [] => .uncaught s w ball
  | c :: rest =>
    match c.kind, c.call with
    | .catch_, .catch_ catcher recovery =>
      match mem.catches (mem.back s c.mark) catcher ball with
      | some s' => .goes ⟨s', w, ⟨.goal recovery, c.barrier⟩ :: c.goals, rest⟩
      | none => throw_ (mem.back s c.mark) w ball rest
    | _, _ => throw_ (mem.back s c.mark) w ball rest

/-- `coco_push_choice`. -/
def frame (e : State σ M ω T C) (kind : Kind) (call : Held T) (goals : List (Pending T))
    (barrier : Nat) : Choice M T C :=
  ⟨kind, call, goals, barrier, mem.mark e.memory, [], 0⟩

/-- `coco_ite`: the condition under a barrier of its own, `$cut` between it and what follows. -/
def ite (e : State σ M ω T C) (c : T) (t els : Item T) (b : Nat) : State σ M ω T C :=
  { e with
    goals := ⟨.goal c, e.choices.length + 1⟩ :: ⟨.cut e.choices.length, b⟩ :: ⟨t, b⟩ :: e.goals
    choices := mem.frame e .goal (.item els) e.goals b :: e.choices }

/-- `coco_soft_ite`. -/
def softIte (e : State σ M ω T C) (c t : T) (els : Item T) (b : Nat) : State σ M ω T C :=
  { e with
    goals := ⟨.goal c, e.choices.length + 1⟩ :: ⟨.softcut e.choices.length, b⟩ ::
      ⟨.goal t, b⟩ :: e.goals
    choices := mem.frame e .goal (.item els) e.goals b :: e.choices }

/-- `coco_catch_exit`. The retry frame is pushed only over something to fail back into. -/
def catchExit (e : State σ M ω T C) (ci b : Nat) : State σ M ω T C :=
  if kindAt ci e.choices = some .catch_ then
    if (e.choices.take (e.choices.length - 1 - ci)).any (fun c => c.kind.live) then
      { e with choices := { mem.frame e .catchRetry .none e.goals b with target := ci } ::
          setKind ci .dead e.choices }
    else { e with choices := cutTo ci e.choices }
  else e

/-- The clauses of a call: no frame for a single candidate. -/
def tryClauses (e : State σ M ω T C) (g : T) (b : Nat) : List C → Outcome σ M ω T B C
  | [] => mem.backtrack e.memory e.world e.choices
  | [clause] =>
    match mem.tryClause e.memory g clause with
    | some (s, body) => .goes ⟨s, e.world, pushGoals body e.choices.length e.goals, e.choices⟩
    | none => mem.backtrack e.memory e.world e.choices
  | candidates =>
    enters (mem.selectClause e.memory e.world (mem.frame e .clause (.item (.goal g)) e.goals b) g
      e.choices candidates) (mem.backtrack e.memory e.world e.choices)

/-- The goal of a `call/N`, under a barrier of its own. -/
def enterCall (e : State σ M ω T C) (c : T) : State σ M ω T C :=
  { e with goals := ⟨.goal c, e.choices.length⟩ :: e.goals }

/-- A goal that is none is raised from `e` as it stands. -/
def checked (e : State σ M ω T C) (g : T) (then_ : State σ M ω T C) : Outcome σ M ω T B C :=
  match mem.unfit e.memory g with
  | some ball => mem.throw_ e.memory e.world ball e.choices
  | none => .goes then_

/-- The frame of a `catch/3`, its goal under a barrier of its own and `'$catch_exit'` after it. -/
def enterCatch (e : State σ M ω T C) (c catcher recovery : T) (b : Nat) : State σ M ω T C :=
  { e with
    goals := ⟨.goal c, e.choices.length + 1⟩ :: ⟨.catchExit e.choices.length, b⟩ :: e.goals
    choices := mem.frame e .catch_ (.catch_ catcher recovery) e.goals b :: e.choices }

/-- The step's way on from a goal that is no construct. -/
def enterCalled (e : State σ M ω T C) (b : Nat) (called : Called σ ω T B C) (g : T) :
    Outcome σ M ω T B C :=
  match called with
  | .exits s w => .goes { e with memory := s, world := w }
  | .fails w => mem.backtrack e.memory w e.choices
  | .raises w ball => mem.throw_ e.memory w ball e.choices
  | .calls s w g' => .goes (enterCall { e with memory := s, world := w } g')
  | .clauses w candidates => mem.tryClauses { e with world := w } g b candidates

/-- `coco_construct` and the dispatch after it; `e.goals` is the continuation after the goal. -/
def construct (e : State σ M ω T C) (g : T) (b : Nat) : Outcome σ M ω T B C :=
  match mem.view e.memory g with
  | .true_ => .goes e
  | .fail => mem.backtrack e.memory e.world e.choices
  | .cut => .goes { e with choices := cutTo b e.choices }
  | .conj _ _ => .goes { e with goals := pushGoals (mem.spine e.memory 63 g) b e.goals }
  | .disj l r =>
    match mem.view e.memory l with
    | .ifThen c t => .goes (mem.ite e c (.goal t) (.goal r) b)
    | .softThen c t => .goes (mem.softIte e c t (.goal r) b)
    | _ => .goes { e with
        goals := ⟨.goal l, b⟩ :: e.goals
        choices := mem.frame e .goal (.item (.goal r)) e.goals b :: e.choices }
  | .ifThen c t => .goes (mem.ite e c (.goal t) .fail b)
  | .softThen c t => .goes (mem.softIte e c t .fail b)
  | .naf c => .goes (mem.ite e c .fail .true_ b)
  | .not_ c => mem.checked e c (mem.ite e c .fail .true_ b)
  | .once c => mem.checked e c (mem.ite e c .true_ .fail b)
  | .ignore c => mem.checked e c (mem.ite e c .true_ .true_ b)
  | .call c => mem.checked e c (enterCall e c)
  | .catch_ c catcher recovery =>
    -- the frame is there before the goal is checked, so its catcher sees the error
    let e := mem.enterCatch e c catcher recovery b
    mem.checked e c e
  | .throw_ ball => mem.throw_ e.memory e.world (mem.thrown e.memory ball) e.choices
  | .other => mem.enterCalled e b (mem.called e.memory e.world g) g

/-- One turn of `coco_engine_run`. -/
def step (e : State σ M ω T C) : Outcome σ M ω T B C :=
  match e.goals with
  | [] => .solved e
  | ⟨item, b⟩ :: k =>
    match item with
    | .goal g => mem.construct { e with goals := k } g b
    | .true_ => .goes { e with goals := k }
    | .fail => mem.backtrack e.memory e.world e.choices
    | .cut h => .goes { e with goals := k, choices := cutTo h e.choices }
    | .softcut h => .goes { e with goals := k, choices := softcut h e.choices }
    | .catchExit ci => .goes (mem.catchExit { e with goals := k } ci b)

/-- `n` turns of a run, each from a state that goes on. -/
def Takes : Nat → Outcome σ M ω T B C → Outcome σ M ω T B C → Prop
  | 0, o, o' => o = o'
  | n + 1, .goes e, o' => Takes n (mem.step e) o'
  | _ + 1, _, _ => False

/-- `coco_engine_ask`. -/
def ask (s : σ) (w : ω) (query : T) : Outcome σ M ω T B C :=
  .goes ⟨s, w, [⟨.goal query, 0⟩], []⟩

/-- The answers `coco_engine_next` gives one after another in `n` turns, the host doing
`host` to the world between two of them. -/
def asked (host : σ → ω → ω) : Nat → Outcome σ M ω T B C → List (σ × ω) × Ending ω B
  | _, .no _ w => ([], .failed w)
  | _, .uncaught _ w ball => ([], .thrown w ball)
  | 0, _ => ([], .unfinished)
  | n + 1, .goes e => asked host n (mem.step e)
  | n + 1, .solved e =>
    let rest := asked host n (mem.backtrack e.memory (host e.memory e.world) e.choices)
    ((e.memory, e.world) :: rest.1, rest.2)

/-- What a run comes to on its way, resumed after each answer. -/
inductive Reaches (host : σ → ω → ω) (o : Outcome σ M ω T B C) : Outcome σ M ω T B C → Prop
  | start : Reaches host o o
  | step {e : State σ M ω T C} : Reaches host o (.goes e) → Reaches host o (mem.step e)
  | resume {e : State σ M ω T C} : Reaches host o (.solved e) →
      Reaches host o (mem.backtrack e.memory (host e.memory e.world) e.choices)

end Memory

end Cocolog.Engine
