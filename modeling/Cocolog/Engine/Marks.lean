import Cocolog.Engine.Answers
import Mathlib.Data.List.Forall2

/-! Undoing to a frame's marks gives back the state the frame was made in. The engine that keeps
marks runs in step with one whose frames keep the whole state: at every frame of every run, what
undoing to its marks would restore is what the other has kept. -/

set_option linter.all false

namespace Cocolog.Engine

open Cocolog.Lib

variable {σ M ω T B C : Type}

/-- The marks of a memory restore it: `le` says one state came of another by running on, and
undoing to a state's marks from any that came of it gives the state. -/
structure Restores (mem : Memory σ M ω T B C) (le : σ → σ → Prop) : Prop where
  refl : ∀ s, le s s
  trans : ∀ {s s' s''}, le s s' → le s' s'' → le s s''
  back : ∀ {s s'}, le s s' → mem.back s' (mem.mark s) = s
  exits : ∀ {s w g s' w'}, mem.called s w g = .exits s' w' → le s s'
  calls : ∀ {s w g s' w' g'}, mem.called s w g = .calls s' w' g' → le s s'
  enters : ∀ {s g clause s' body}, mem.tryClause s g clause = some (s', body) → le s s'
  catches : ∀ {s catcher ball s'}, mem.catches s catcher ball = some s' → le s s'

namespace Memory

/-- The memory whose marks are the states themselves. -/
def saved (mem : Memory σ M ω T B C) : Memory σ σ ω T B C where
  view := mem.view
  unfit := mem.unfit
  thrown := mem.thrown
  called := mem.called
  tryClause := mem.tryClause
  catches := mem.catches
  mark s := s
  back _ s := s

theorem saved_kept (mem : Memory σ M ω T B C) : Kept mem.saved where
  mark _ := rfl
  back _ _ := rfl

end Memory

section Marked

variable (mem : Memory σ M ω T B C)

def Choice.marked (c : Choice σ T C) : Choice M T C :=
  ⟨c.kind, c.call, c.goals, c.barrier, mem.mark c.mark, c.left, c.target⟩

def State.marked (e : State σ σ ω T C) : State σ M ω T C :=
  ⟨e.memory, e.world, e.goals, e.choices.map (Choice.marked mem)⟩

def Outcome.marked : Outcome σ σ ω T B C → Outcome σ M ω T B C
  | .goes e => .goes (e.marked mem)
  | .solved e => .solved (e.marked mem)
  | .no s w => .no s w
  | .uncaught s w ball => .uncaught s w ball

variable (choices : List (Choice σ T C)) (h : Nat)

theorem cutTo_marked :
    cutTo h (choices.map (Choice.marked mem)) = (cutTo h choices).map (Choice.marked mem) := by
  rw [cutTo, cutTo, List.length_map, List.map_drop]

theorem kindAt_marked : kindAt h (choices.map (Choice.marked mem)) = kindAt h choices := by
  simp only [kindAt, List.length_map, List.getElem?_map, Option.map_map]
  rfl

theorem setKind_marked (kind : Kind) :
    setKind h kind (choices.map (Choice.marked mem)) =
      (setKind h kind choices).map (Choice.marked mem) := by
  rw [setKind, setKind, List.length_map]
  generalize choices.length - 1 - h = i
  induction choices generalizing i with
  | nil => simp only [List.map_nil, List.modify_nil]
  | cons c rest ih =>
    cases i with
    | zero => rfl
    | succ i => simp only [List.map_cons, List.modify_succ_cons, ih]

theorem softcut_marked :
    softcut h (choices.map (Choice.marked mem)) = (softcut h choices).map (Choice.marked mem) := by
  rw [softcut, softcut, kindAt_marked, setKind_marked, apply_ite (List.map (Choice.marked mem))]

theorem revive_marked :
    revive h (choices.map (Choice.marked mem)) = (revive h choices).map (Choice.marked mem) := by
  rw [revive, revive, kindAt_marked, setKind_marked, apply_ite (List.map (Choice.marked mem))]

theorem live_marked :
    (choices.map (Choice.marked mem)).any (fun c => c.kind.live) =
      choices.any (fun c => c.kind.live) := by
  rw [List.any_map]
  rfl

end Marked

/-- Each frame's state came of the one under it, the oldest's of `base` and the run's of the
newest's. -/
def Chain (le : σ → σ → Prop) (base : σ) : σ → List (Choice σ T C) → Prop
  | s, [] => le base s
  | s, c :: rest => le c.mark s ∧ Chain le base c.mark rest

def Standing (le : σ → σ → Prop) (base : σ) : Outcome σ σ ω T B C → Prop
  | .goes e => Chain le base e.memory e.choices
  | .solved e => Chain le base e.memory e.choices
  | .no s _ => le base s
  | .uncaught s _ _ => le base s

namespace Restores

variable {mem : Memory σ M ω T B C} {le : σ → σ → Prop} {base : σ} (restores : Restores mem le)
include restores

theorem chain_grow {s s' : σ} {choices : List (Choice σ T C)} (chain : Chain le base s choices)
    (grow : le s s') : Chain le base s' choices := by
  cases choices with
  | nil => exact restores.trans chain grow
  | cons c rest => exact ⟨restores.trans chain.1 grow, chain.2⟩

theorem chain_drop {s : σ} {choices : List (Choice σ T C)} (chain : Chain le base s choices)
    (n : Nat) : Chain le base s (choices.drop n) := by
  induction n generalizing s choices with
  | zero => exact chain
  | succ n ih =>
    cases choices with
    | nil => exact chain
    | cons c rest => exact restores.chain_grow (ih chain.2) chain.1

theorem chain_base {s : σ} {choices : List (Choice σ T C)} (chain : Chain le base s choices) :
    le base s := by
  induction choices generalizing s with
  | nil => exact chain
  | cons c rest ih => exact restores.trans (ih chain.2) chain.1

end Restores

theorem Chain.modify {le : σ → σ → Prop} {base s : σ} {choices : List (Choice σ T C)}
    (chain : Chain le base s choices) (i : Nat) (kind : Kind) :
    Chain le base s (choices.modify i (fun c => { c with kind := kind })) := by
  induction choices generalizing s i with
  | nil =>
    rw [List.modify_nil]
    exact chain
  | cons c rest ih =>
    cases i with
    | zero => exact chain
    | succ i => exact ⟨chain.1, ih chain.2 i⟩

theorem Chain.softcut {le : σ → σ → Prop} {base s : σ} {choices : List (Choice σ T C)}
    (chain : Chain le base s choices) (h : Nat) : Chain le base s (softcut h choices) := by
  unfold Engine.softcut
  split
  · exact chain.modify _ _
  · exact chain

theorem Chain.revive {le : σ → σ → Prop} {base s : σ} {choices : List (Choice σ T C)}
    (chain : Chain le base s choices) (h : Nat) : Chain le base s (revive h choices) := by
  unfold Engine.revive
  split
  · exact chain.modify _ _
  · exact chain

/-- The two runs stand at the same place. -/
structure Follows (mem : Memory σ M ω T B C) (le : σ → σ → Prop) (base : σ)
    (o : Outcome σ M ω T B C) (o' : Outcome σ σ ω T B C) : Prop where
  marked : o = o'.marked mem
  standing : Standing le base o'

/-- The two runs enter the same state, or neither enters one. -/
structure FollowsIn (mem : Memory σ M ω T B C) (le : σ → σ → Prop) (base : σ)
    (o : Option (State σ M ω T C)) (o' : Option (State σ σ ω T C)) : Prop where
  marked : o = o'.map (State.marked mem)
  standing : ∀ e ∈ o', Chain le base e.memory e.choices

section Follows

variable {mem : Memory σ M ω T B C} {le : σ → σ → Prop} {base s : σ} {w : ω}
  {choices : List (Choice σ T C)}

theorem Follows.goes {e : State σ σ ω T C} (chain : Chain le base e.memory e.choices) :
    Follows (B := B) mem le base (.goes (e.marked mem)) (.goes e) where
  marked := rfl
  standing := chain

theorem FollowsIn.enters {o : Option (State σ M ω T C)} {o' : Option (State σ σ ω T C)}
    {failing : Outcome σ M ω T B C} {failing' : Outcome σ σ ω T B C}
    (follows : FollowsIn mem le base o o') (fails : Follows mem le base failing failing') :
    Follows mem le base (enters o failing) (enters o' failing') := by
  cases o' with
  | none =>
    rw [follows.marked]
    exact fails
  | some e =>
    rw [follows.marked]
    exact Follows.goes (follows.standing e rfl)

theorem FollowsIn.nowhere : FollowsIn mem le base none none where
  marked := rfl
  standing := by
    intro e none
    cases none

variable (restores : Restores mem le)
include restores

theorem select_follows {c : Choice σ T C} (g : T) (from_ : le c.mark s)
    (chain : Chain le base c.mark choices) (left : List C) :
    FollowsIn mem le base
      (mem.selectClause s w (c.marked mem) g (choices.map (Choice.marked mem)) left)
      (mem.saved.selectClause s w c g choices left) := by
  induction left with
  | nil => exact FollowsIn.nowhere
  | cons clause left ih =>
    unfold Memory.selectClause
    simp only [Memory.saved]
    cases entered : mem.tryClause s g clause with
    | none => exact ih
    | some entry =>
      obtain ⟨s', body⟩ := entry
      have grow := restores.trans from_ (restores.enters entered)
      constructor
      · simp only [Option.map_some, State.marked, List.length_map]
        cases left with
        | nil => rfl
        | cons next left => rfl
      · intro e same
        cases same
        cases left with
        | nil => exact restores.chain_grow chain grow
        | cons next left => exact ⟨grow, chain⟩

theorem retry_follows {c : Choice σ T C} (chain : Chain le base c.mark choices) :
    FollowsIn mem le base
      (mem.retry c.mark w (c.marked mem) (choices.map (Choice.marked mem)))
      (mem.saved.retry c.mark w c choices) := by
  have call : (c.marked mem).call = c.call := rfl
  unfold Memory.retry
  rw [call]
  cases c.call with
  | item i =>
    cases i with
    | goal g => exact select_follows restores g (restores.refl _) chain c.left
    | _ => exact FollowsIn.nowhere
  | catch_ catcher recovery => exact FollowsIn.nowhere
  | none => exact FollowsIn.nowhere

omit restores in
theorem resumeAlt_follows {c : Choice σ T C} (chain : Chain le base c.mark choices) :
    FollowsIn mem le base
      (Memory.resumeAlt c.mark w (c.marked mem) (choices.map (Choice.marked mem)))
      (Memory.resumeAlt c.mark w c choices) := by
  have call : (c.marked mem).call = c.call := rfl
  unfold Memory.resumeAlt
  rw [call]
  cases c.call with
  | item alt =>
    constructor
    · rfl
    · intro e same
      cases same
      exact chain
  | catch_ catcher recovery => exact FollowsIn.nowhere
  | none => exact FollowsIn.nowhere

theorem unwind_follows (n : Nat) (chain : Chain le base s choices) :
    Follows mem le base (mem.unwind n s w (choices.map (Choice.marked mem)))
      (mem.saved.unwind n s w choices) := by
  induction n generalizing s choices with
  | zero =>
    constructor
    · rfl
    · exact restores.chain_base chain
  | succ n ih =>
    cases choices with
    | nil => exact ⟨rfl, chain⟩
    | cons c rest =>
      unfold Memory.unwind
      have restored : mem.back s (Choice.marked mem c).mark = c.mark := restores.back chain.1
      simp only [List.map_cons, restored]
      have kind : (Choice.marked mem c).kind = c.kind := rfl
      rw [kind]
      cases c.kind with
      | goal => exact (resumeAlt_follows chain.2).enters (ih chain.2)
      | catchRetry =>
        simp only [Choice.marked, revive_marked]
        exact ih (chain.2.revive c.target)
      | catch_ => exact ih chain.2
      | dead => exact ih chain.2
      | clause => exact (retry_follows restores chain.2).enters (ih chain.2)

theorem backtrack_follows (chain : Chain le base s choices) :
    Follows mem le base (mem.backtrack s w (choices.map (Choice.marked mem)))
      (mem.saved.backtrack s w choices) := by
  unfold Memory.backtrack
  rw [List.length_map]
  exact unwind_follows restores choices.length chain

theorem throw_follows (ball : B) (chain : Chain le base s choices) :
    Follows mem le base (mem.throw_ s w ball (choices.map (Choice.marked mem)))
      (mem.saved.throw_ s w ball choices) := by
  induction choices generalizing s with
  | nil => exact ⟨rfl, chain⟩
  | cons c rest ih =>
    have restored : mem.back s (Choice.marked mem c).mark = c.mark := restores.back chain.1
    have past : Follows mem le base (mem.throw_ (mem.back s (Choice.marked mem c).mark) w ball
        (rest.map (Choice.marked mem))) (mem.saved.throw_ c.mark w ball rest) := by
      rw [restored]
      exact ih chain.2
    rw [List.map_cons]
    cases call : c.call with
    | catch_ catcher recovery =>
      by_cases kind : c.kind = .catch_
      · rw [mem.throw_catch (c := c.marked mem) s w _ ball kind call, restored]
        rw [mem.saved.throw_catch s w rest ball kind call]
        simp only [Memory.saved]
        cases caught : mem.catches c.mark catcher ball with
        | none => exact ih chain.2
        | some s' =>
          have grown : Chain le base s' rest :=
            restores.chain_grow chain.2 (restores.catches caught)
          exact Follows.goes
            (e := ⟨s', w, ⟨.goal recovery, c.barrier⟩ :: c.goals, rest⟩) grown
      · rw [mem.throw_past (c := c.marked mem) s w _ ball kind]
        rw [mem.saved.throw_past s w rest ball kind]
        exact past
    | item i =>
      have odd : ∀ catcher recovery, c.call ≠ .catch_ catcher recovery := by
        intro catcher recovery same
        rw [call] at same
        cases same
      rw [mem.throw_odd (c := c.marked mem) s w _ ball odd, mem.saved.throw_odd s w rest ball odd]
      exact past
    | none =>
      have odd : ∀ catcher recovery, c.call ≠ .catch_ catcher recovery := by
        intro catcher recovery same
        rw [call] at same
        cases same
      rw [mem.throw_odd (c := c.marked mem) s w _ ball odd, mem.saved.throw_odd s w rest ball odd]
      exact past

theorem tryClauses_follows {e : State σ σ ω T C} (g : T) (b : Nat) (candidates : List C)
    (chain : Chain le base e.memory e.choices) :
    Follows mem le base (mem.tryClauses (e.marked mem) g b candidates)
      (mem.saved.tryClauses e g b candidates) := by
  rw [mem.tryClauses_eq, mem.saved.tryClauses_eq]
  apply FollowsIn.enters
  · exact select_follows restores (c := mem.saved.frame e .clause (.item (.goal g)) e.goals b) g
      (restores.refl _) chain candidates
  · exact backtrack_follows restores chain

theorem checked_follows {e next : State σ σ ω T C} (g : T)
    (chain : Chain le base e.memory e.choices)
    (chain' : Chain le base next.memory next.choices) :
    Follows mem le base (mem.checked (e.marked mem) g (next.marked mem))
      (mem.saved.checked e g next) := by
  unfold Memory.checked
  simp only [State.marked, Memory.saved]
  cases mem.unfit e.memory g with
  | some ball => exact throw_follows restores ball chain
  | none => exact Follows.goes chain'

theorem catchExit_follows {e : State σ σ ω T C} (ci b : Nat)
    (chain : Chain le base e.memory e.choices) :
    Follows (B := B) mem le base (.goes (mem.catchExit (e.marked mem) ci b))
      (.goes (mem.saved.catchExit e ci b)) := by
  unfold Memory.catchExit
  simp only [State.marked, kindAt_marked, List.length_map, ← List.map_take, live_marked,
    setKind_marked, cutTo_marked]
  split
  · split
    · constructor
      · rfl
      · exact ⟨restores.refl _, chain.modify _ _⟩
    · constructor
      · rfl
      · exact restores.chain_drop chain _
  · exact Follows.goes chain

omit restores in
theorem ite_marked (e : State σ σ ω T C) (c : T) (t els : Item T) (b : Nat) :
    mem.ite (e.marked mem) c t els b = (mem.saved.ite e c t els b).marked mem := by
  simp only [Memory.ite, Memory.frame, State.marked, Choice.marked, Memory.saved, List.length_map,
    List.map_cons]

omit restores in
theorem softIte_marked (e : State σ σ ω T C) (c t : T) (els : Item T) (b : Nat) :
    mem.softIte (e.marked mem) c t els b = (mem.saved.softIte e c t els b).marked mem := by
  simp only [Memory.softIte, Memory.frame, State.marked, Choice.marked, Memory.saved,
    List.length_map, List.map_cons]

omit restores in
theorem enterCatch_marked (e : State σ σ ω T C) (c catcher recovery : T) (b : Nat) :
    mem.enterCatch (e.marked mem) c catcher recovery b =
      (mem.saved.enterCatch e c catcher recovery b).marked mem := by
  simp only [Memory.enterCatch, Memory.frame, State.marked, Choice.marked, Memory.saved,
    List.length_map, List.map_cons]

omit restores in
theorem spine_saved (n : Nat) (g : T) : mem.saved.spine s n g = mem.spine s n g := by
  induction n generalizing g with
  | zero => rfl
  | succ n ih =>
    simp only [Memory.spine, ih]
    rfl

theorem ite_follows (e : State σ σ ω T C) (c : T) (t els : Item T) (b : Nat)
    (chain : Chain le base e.memory e.choices) :
    Follows mem le base (.goes (mem.ite (e.marked mem) c t els b))
      (.goes (mem.saved.ite e c t els b)) := by
  rw [ite_marked]
  exact Follows.goes ⟨restores.refl _, chain⟩

theorem softIte_follows (e : State σ σ ω T C) (c t : T) (els : Item T) (b : Nat)
    (chain : Chain le base e.memory e.choices) :
    Follows mem le base (.goes (mem.softIte (e.marked mem) c t els b))
      (.goes (mem.saved.softIte e c t els b)) := by
  rw [softIte_marked]
  exact Follows.goes ⟨restores.refl _, chain⟩

theorem checkedIte_follows (e : State σ σ ω T C) (c : T) (t els : Item T) (b : Nat)
    (chain : Chain le base e.memory e.choices) :
    Follows mem le base (mem.checked (e.marked mem) c (mem.ite (e.marked mem) c t els b))
      (mem.saved.checked e c (mem.saved.ite e c t els b)) := by
  rw [ite_marked]
  exact checked_follows restores c chain ⟨restores.refl _, chain⟩

theorem called_follows {e : State σ σ ω T C} (g : T) (b : Nat)
    (chain : Chain le base e.memory e.choices) :
    Follows mem le base
      (mem.enterCalled (e.marked mem) b (mem.called e.memory e.world g) g)
      (mem.saved.enterCalled e b (mem.called e.memory e.world g) g) := by
  cases called : mem.called e.memory e.world g with
  | exits s w =>
    have grown := restores.chain_grow chain (restores.exits called)
    exact Follows.goes (e := ⟨s, w, e.goals, e.choices⟩) grown
  | fails w => exact backtrack_follows restores chain
  | raises w ball => exact throw_follows restores ball chain
  | calls s w g' =>
    have grown := restores.chain_grow chain (restores.calls called)
    constructor
    · simp only [Memory.enterCalled, Memory.enterCall, State.marked, Outcome.marked,
        List.length_map]
    · exact grown
  | clauses w candidates =>
    exact tryClauses_follows restores (e := { e with world := w }) g b candidates chain

theorem construct_follows {e : State σ σ ω T C} (g : T) (b : Nat)
    (chain : Chain le base e.memory e.choices) :
    Follows mem le base (mem.construct (e.marked mem) g b) (mem.saved.construct e g b) := by
  have framed : ∀ kind call goals barrier,
      Chain le base e.memory (mem.saved.frame e kind call goals barrier :: e.choices) := by
    intro kind call goals barrier
    exact ⟨restores.refl _, chain⟩
  unfold Memory.construct
  have view : mem.saved.view = mem.view := rfl
  have memory : (e.marked mem).memory = e.memory := rfl
  rw [view, memory]
  cases mem.view e.memory g with
  | true_ => exact Follows.goes chain
  | fail => exact backtrack_follows restores chain
  | cut =>
    constructor
    · simp only [State.marked, cutTo_marked, Outcome.marked]
    · exact restores.chain_drop chain _
  | conj l r =>
    simp only [spine_saved]
    exact Follows.goes (e := { e with
      goals := Memory.pushGoals (mem.spine e.memory 63 g) b e.goals }) chain
  | disj l r =>
    simp only
    cases mem.view e.memory l with
    | ifThen c t => exact ite_follows restores e c _ _ b chain
    | softThen c t => exact softIte_follows restores e c t _ b chain
    | _ => exact Follows.goes (e := { e with
        goals := ⟨.goal l, b⟩ :: e.goals
        choices := mem.saved.frame e .goal (.item (.goal r)) e.goals b :: e.choices }) <|
          framed _ _ _ _
  | ifThen c t => exact ite_follows restores e c _ _ b chain
  | softThen c t => exact softIte_follows restores e c t _ b chain
  | naf c => exact ite_follows restores e c _ _ b chain
  | not_ c => exact checkedIte_follows restores e c _ _ b chain
  | once c => exact checkedIte_follows restores e c _ _ b chain
  | ignore c => exact checkedIte_follows restores e c _ _ b chain
  | call c =>
    have same : Memory.enterCall (e.marked mem) c = (Memory.enterCall e c).marked mem := by
      simp only [Memory.enterCall, State.marked, List.length_map]
    simp only [same]
    exact checked_follows restores c chain chain
  | catch_ c catcher recovery =>
    simp only [enterCatch_marked]
    exact checked_follows restores c (framed _ _ _ _) (framed _ _ _ _)
  | throw_ ball => exact throw_follows restores _ chain
  | other => exact called_follows restores g b chain

theorem step_follows {e : State σ σ ω T C} (chain : Chain le base e.memory e.choices) :
    Follows mem le base (mem.step (e.marked mem)) (mem.saved.step e) := by
  obtain ⟨s, w, goals, choices⟩ := e
  cases goals with
  | nil => exact ⟨rfl, chain⟩
  | cons p k =>
    obtain ⟨item, b⟩ := p
    cases item with
    | goal g => exact construct_follows restores (e := ⟨s, w, k, choices⟩) g b chain
    | true_ => exact Follows.goes (e := ⟨s, w, k, choices⟩) chain
    | fail => exact backtrack_follows restores chain
    | cut h =>
      rw [State.marked, mem.step_cut, mem.saved.step_cut, cutTo_marked]
      exact Follows.goes (e := ⟨s, w, k, cutTo h choices⟩) (restores.chain_drop chain _)
    | softcut h =>
      rw [State.marked, mem.step_softcut, mem.saved.step_softcut, softcut_marked]
      exact Follows.goes (e := ⟨s, w, k, softcut h choices⟩) (chain.softcut h)
    | catchExit ci => exact catchExit_follows restores (e := ⟨s, w, k, choices⟩) ci b chain

/-- The two runs of a query, from the state it was asked in. -/
theorem ask_follows (s : σ) (w : ω) (query : T) :
    Follows (C := C) (B := B) mem le s (Memory.ask s w query) (Memory.ask s w query) :=
  Follows.goes (e := ⟨s, w, [⟨.goal query, 0⟩], []⟩) (restores.refl s)

/-- The two runs answer alike. -/
theorem asked_follows (host : σ → ω → ω) (n : Nat) {o : Outcome σ M ω T B C}
    {o' : Outcome σ σ ω T B C} (follows : Follows mem le base o o') :
    mem.asked host n o = mem.saved.asked host n o' := by
  induction n generalizing o o' with
  | zero =>
    rw [follows.marked]
    cases o' <;> rfl
  | succ n ih =>
    rw [follows.marked]
    cases o' with
    | goes e => exact ih (step_follows restores follows.standing)
    | solved e =>
      have rest := ih (backtrack_follows restores (w := host e.memory e.world) follows.standing)
      simp only [Memory.asked, Outcome.marked]
      rw [State.marked, rest]
    | no s w => rfl
    | uncaught s w ball => rfl

/-- Wherever the one run comes, the other comes to the same place. -/
theorem reaches_follows {host : σ → ω → ω} {o o₁ : Outcome σ M ω T B C} {o' : Outcome σ σ ω T B C}
    (follows : Follows mem le base o o') (reached : mem.Reaches host o o₁) :
    ∃ o₁', mem.saved.Reaches host o' o₁' ∧ Follows mem le base o₁ o₁' := by
  induction reached with
  | start => exact ⟨o', .start, follows⟩
  | step _ ih =>
    obtain ⟨o₁', reached', same⟩ := ih
    cases o₁' with
    | goes e' =>
      cases same.marked
      exact ⟨_, .step reached', step_follows restores same.standing⟩
    | solved e' => cases same.marked
    | no s w => cases same.marked
    | uncaught s w ball => cases same.marked
  | resume _ ih =>
    obtain ⟨o₁', reached', same⟩ := ih
    cases o₁' with
    | goes e' => cases same.marked
    | solved e' =>
      cases same.marked
      exact ⟨_, .resume reached', backtrack_follows restores same.standing⟩
    | no s w => cases same.marked
    | uncaught s w ball => cases same.marked

theorem chain_restores (chain : Chain le base s choices) :
    List.Forall₂ (fun c c' => c = c'.marked mem ∧ mem.back s c.mark = c'.mark)
      (choices.map (Choice.marked mem)) choices := by
  have all : ∀ c ∈ choices, le c.mark s := by
    induction choices generalizing s with
    | nil =>
      intro c none
      cases none
    | cons c rest ih =>
      intro c' among
      rcases List.mem_cons.mp among with rfl | under
      · exact chain.1
      · exact restores.trans (ih chain.2 c' under) chain.1
  rw [List.forall₂_map_left_iff, List.forall₂_same]
  intro c among
  exact ⟨rfl, restores.back (all c among)⟩

end Follows

end Cocolog.Engine
