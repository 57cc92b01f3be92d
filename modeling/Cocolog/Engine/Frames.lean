import Cocolog.Engine.Meaning

/-! What each kind of choice frame does when it is failed into or thrown past, and what naming
a frame by its index reaches. `Kept` is a memory whose marks hold the whole state, so a frame
gives back exactly the state it was made in. -/

set_option linter.all false

namespace Cocolog.Engine

open Cocolog.Lib

variable {σ M ω T B C : Type}

section Index

variable (above rest : List (Choice M T C)) (c : Choice M T C)

theorem cutTo_over {h : Nat} (within : h ≤ rest.length) :
    cutTo h (above ++ rest) = cutTo h rest := by
  have past : (above ++ rest).length - h = above.length + (rest.length - h) := by
    rw [List.length_append]
    omega
  simp only [cutTo, past, List.drop_append]
  rw [List.drop_of_length_le (by omega), List.nil_append]
  congr 1
  omega

theorem cutTo_length : cutTo rest.length rest = rest := by
  simp [cutTo]

theorem cutTo_all : cutTo rest.length (above ++ rest) = rest := by
  rw [cutTo_over above rest (Nat.le_refl _), cutTo_length]

theorem cutTo_under {h : Nat} (height : rest.length = h) :
    cutTo (h + 1) (c :: rest) = c :: rest := by
  rw [← height]
  exact cutTo_length (c :: rest)

theorem length_cutTo {h : Nat} (within : h ≤ rest.length) : (cutTo h rest).length = h := by
  rw [cutTo, List.length_drop]
  omega

theorem position : (above ++ c :: rest).length - 1 - rest.length = above.length := by
  rw [List.length_append, List.length_cons]
  omega

theorem kindAt_at : kindAt rest.length (above ++ c :: rest) = some c.kind := by
  have within : rest.length < (above ++ c :: rest).length := by
    rw [List.length_append, List.length_cons]
    omega
  rw [kindAt, if_pos within, position, List.getElem?_append_right (Nat.le_refl _), Nat.sub_self]
  rfl

theorem setKind_at (kind : Kind) :
    setKind rest.length kind (above ++ c :: rest) = above ++ { c with kind := kind } :: rest := by
  rw [setKind, position]
  induction above with
  | nil => rfl
  | cons _ above ih => simp only [List.cons_append, List.length_cons, List.modify_succ_cons, ih]

theorem softcut_goal (goal : c.kind = .goal) :
    softcut rest.length (above ++ c :: rest) = above ++ { c with kind := .dead } :: rest := by
  rw [softcut, kindAt_at, goal, if_pos rfl, setKind_at]

theorem softcut_other (other : c.kind ≠ .goal) :
    softcut rest.length (above ++ c :: rest) = above ++ c :: rest := by
  rw [softcut, kindAt_at, if_neg]
  intro same
  exact other (Option.some.inj same)

theorem revive_dead (dead : c.kind = .dead) :
    revive rest.length (above ++ c :: rest) = above ++ { c with kind := .catch_ } :: rest := by
  rw [revive, kindAt_at, dead, if_pos rfl, setKind_at]

end Index

namespace Memory

variable (mem : Memory σ M ω T B C) (s : σ) (w : ω) {c : Choice M T C} (rest : List (Choice M T C))

@[simp] theorem backtrack_nil : mem.backtrack s w ([] : List (Choice M T C)) = .no s w := rfl

theorem backtrack_goal {alt : Item T} (kind : c.kind = .goal) (call : c.call = .item alt) :
    mem.backtrack s w (c :: rest) =
      .goes ⟨mem.back s c.mark, w, ⟨alt, c.barrier⟩ :: c.goals, rest⟩ := by
  simp only [backtrack, List.length_cons, unwind, kind, resumeAlt, call, enters]

theorem backtrack_catch (kind : c.kind = .catch_) :
    mem.backtrack s w (c :: rest) = mem.backtrack (mem.back s c.mark) w rest := by
  simp only [backtrack, List.length_cons, unwind, kind]

theorem backtrack_dead (kind : c.kind = .dead) :
    mem.backtrack s w (c :: rest) = mem.backtrack (mem.back s c.mark) w rest := by
  simp only [backtrack, List.length_cons, unwind, kind]

theorem backtrack_retry (kind : c.kind = .catchRetry) :
    mem.backtrack s w (c :: rest) = mem.backtrack (mem.back s c.mark) w (revive c.target rest) := by
  simp only [backtrack, List.length_cons, unwind, kind, length_revive]

theorem backtrack_clause {g : T} (kind : c.kind = .clause) (call : c.call = .item (.goal g)) :
    mem.backtrack s w (c :: rest) =
      enters (mem.selectClause (mem.back s c.mark) w c g rest c.left)
        (mem.backtrack (mem.back s c.mark) w rest) := by
  simp only [backtrack, List.length_cons, unwind, kind, retry, call]

theorem throw_catch {catcher recovery : T} (ball : B) (kind : c.kind = .catch_)
    (call : c.call = .catch_ catcher recovery) :
    mem.throw_ s w ball (c :: rest) =
      match mem.catches (mem.back s c.mark) catcher ball with
      | some s' => .goes ⟨s', w, ⟨.goal recovery, c.barrier⟩ :: c.goals, rest⟩
      | none => mem.throw_ (mem.back s c.mark) w ball rest := by
  cases caught : mem.catches (mem.back s c.mark) catcher ball with
  | some s' => simp only [throw_, kind, call, caught]
  | none => simp only [throw_, kind, call, caught]

theorem throw_past (ball : B) (kind : c.kind ≠ .catch_) :
    mem.throw_ s w ball (c :: rest) = mem.throw_ (mem.back s c.mark) w ball rest := by
  cases other : c.kind with
  | catch_ => exact absurd other kind
  | clause => simp only [throw_, other]
  | goal => simp only [throw_, other]
  | dead => simp only [throw_, other]
  | catchRetry => simp only [throw_, other]

theorem catchExit_live (e : State σ M ω T C) {above : List (Choice M T C)} {b : Nat}
    (choices : e.choices = above ++ c :: rest) (catches : c.kind = .catch_)
    (live : above.any (fun c => c.kind.live) = true) :
    mem.catchExit e rest.length b = { e with
      choices := { mem.frame e .catchRetry .none e.goals b with target := rest.length } ::
        (above ++ { c with kind := .dead } :: rest) } := by
  rw [Memory.catchExit, choices, kindAt_at, catches, if_pos rfl, position, List.take_left,
    if_pos live, setKind_at]

theorem catchExit_still (e : State σ M ω T C) {above : List (Choice M T C)} {b : Nat}
    (choices : e.choices = above ++ c :: rest) (catches : c.kind = .catch_)
    (still : above.any (fun c => c.kind.live) = false) :
    mem.catchExit e rest.length b = { e with choices := rest } := by
  rw [Memory.catchExit, choices, kindAt_at, catches, if_pos rfl, position, List.take_left, if_neg,
    List.append_cons, cutTo_all]
  rw [still]
  exact Bool.false_ne_true

/-- A call with a single candidate is what its frame would have made of it. -/
theorem tryClauses_eq (e : State σ M ω T C) (g : T) (b : Nat) (candidates : List C) :
    mem.tryClauses e g b candidates =
      enters (mem.selectClause e.memory e.world (mem.frame e .clause (.item (.goal g)) e.goals b) g
        e.choices candidates) (mem.backtrack e.memory e.world e.choices) := by
  cases candidates with
  | nil => rfl
  | cons clause left =>
    cases left with
    | nil =>
      simp only [tryClauses, selectClause, List.isEmpty_nil, if_true, frame]
      cases mem.tryClause e.memory g clause with
      | none => rfl
      | some entered => rfl
    | cons _ _ => rfl

theorem throw_odd (ball : B) (call : ∀ catcher recovery, c.call ≠ .catch_ catcher recovery) :
    mem.throw_ s w ball (c :: rest) = mem.throw_ (mem.back s c.mark) w ball rest := by
  cases held : c.call with
  | catch_ catcher recovery => exact absurd held (call catcher recovery)
  | item i => cases kind : c.kind <;> simp only [throw_, kind, held]
  | none => cases kind : c.kind <;> simp only [throw_, kind, held]

section Step

variable (k : List (Pending T)) (choices : List (Choice M T C)) (b : Nat)

theorem step_goal (g : T) :
    mem.step ⟨s, w, ⟨.goal g, b⟩ :: k, choices⟩ = mem.construct ⟨s, w, k, choices⟩ g b := rfl

theorem step_true : mem.step ⟨s, w, ⟨.true_, b⟩ :: k, choices⟩ = .goes ⟨s, w, k, choices⟩ := rfl

theorem step_fail : mem.step ⟨s, w, ⟨.fail, b⟩ :: k, choices⟩ = mem.backtrack s w choices := rfl

theorem step_cut (h : Nat) :
    mem.step ⟨s, w, ⟨.cut h, b⟩ :: k, choices⟩ = .goes ⟨s, w, k, cutTo h choices⟩ := rfl

theorem step_softcut (h : Nat) :
    mem.step ⟨s, w, ⟨.softcut h, b⟩ :: k, choices⟩ = .goes ⟨s, w, k, softcut h choices⟩ := rfl

theorem step_catchExit (ci : Nat) :
    mem.step ⟨s, w, ⟨.catchExit ci, b⟩ :: k, choices⟩ =
      .goes (mem.catchExit ⟨s, w, k, choices⟩ ci b) := rfl

end Step

/-- Neither ends a run with an answer. -/
theorem enters_unsolved (entered : Option (State σ M ω T C)) {failing : Outcome σ M ω T B C}
    (unsolved : ∀ e, failing ≠ .solved e) (e : State σ M ω T C) :
    enters entered failing ≠ .solved e := by
  cases entered with
  | none => exact unsolved e
  | some e' =>
    intro solved
    cases solved

theorem backtrack_unsolved (choices : List (Choice M T C)) (e : State σ M ω T C) :
    mem.backtrack s w choices ≠ .solved e := by
  unfold backtrack
  generalize choices.length = n
  induction n generalizing s choices e with
  | zero =>
    intro solved
    cases solved
  | succ n ih =>
    cases choices with
    | nil =>
      intro solved
      cases solved
    | cons c rest =>
      unfold unwind
      cases c.kind with
      | goal => exact enters_unsolved _ (ih _ _) e
      | catchRetry => exact ih _ _ e
      | catch_ => exact ih _ _ e
      | dead => exact ih _ _ e
      | clause => exact enters_unsolved _ (ih _ _) e

theorem throw_unsolved (ball : B) (choices : List (Choice M T C)) (e : State σ M ω T C) :
    mem.throw_ s w ball choices ≠ .solved e := by
  induction choices generalizing s with
  | nil =>
    intro solved
    cases solved
  | cons c rest ih =>
    unfold throw_
    split
    · split
      · intro solved
        cases solved
      · exact ih _
    · exact ih _

theorem throw_over (s : σ) (w : ω) (ball : B) {above : List (Choice M T C)}
    (quiet : ∀ c ∈ above, c.kind ≠ .catch_) (rest : List (Choice M T C)) :
    ∃ s', mem.throw_ s w ball (above ++ rest) = mem.throw_ s' w ball rest := by
  induction above generalizing s with
  | nil => exact ⟨s, rfl⟩
  | cons c above ih =>
    rw [List.cons_append, mem.throw_past s w _ ball (quiet c List.mem_cons_self)]
    apply ih
    intro c' mem
    exact quiet c' (List.mem_cons_of_mem _ mem)

end Memory

/-- Marks that hold the whole state. -/
structure Kept (mem : Memory σ σ ω T B C) : Prop where
  mark : ∀ s, mem.mark s = s
  back : ∀ s m, mem.back s m = m

end Cocolog.Engine
