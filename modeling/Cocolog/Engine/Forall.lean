import Cocolog.Engine.Findall

/-! `forall/2`: the search for a counterexample to `(C, \+ A)`, over at the first. An answer's
state came of the state its search began in, so what was built before the search stands in it. -/

set_option linter.all false

namespace Cocolog.Engine

open Cocolog.Lib

variable {σ M ω T B C A : Type}

/-- The goal `coco_b_forall` searches with, built on the machine, and how it tells the list it
gets from `[]`. -/
structure Refuting (σ T : Type) where
  build : σ → T → T → σ × T
  isAtom : σ → T → Bool

namespace Memory

/-- `coco_b_forall`, its search `n` turns long. -/
def forall_ (mem : Memory σ M ω T B C) (keeping : Keeping σ T A) (refuting : Refuting σ T) (n : Nat)
    (s : σ) (w : ω) (template condition action : T) : Option (Called σ ω T B C) :=
  match mem.unfit s condition, mem.unfit s action with
  | some ball, _ => some (.raises w ball)
  | none, some ball => some (.raises w ball)
  | none, none =>
    let built := refuting.build s condition action
    match mem.findall keeping true n built.1 w template built.2 with
    | none => none
    | some (.raises _ w ball) => some (.raises w ball)
    | some (.lists s w l) => if refuting.isAtom s l then some (.exits s w) else some (.fails w)

/-- The goal built is `(C, \+ A)` there, its second part wherever the run goes on to; and the
empty list is an atom as no other is. -/
structure Refutes (mem : Memory σ M ω T B C) (le : σ → σ → Prop) (keeping : Keeping σ T A)
    (refuting : Refuting σ T) : Prop where
  goal : ∀ s c a, ∃ g,
    mem.view (refuting.build s c a).1 (refuting.build s c a).2 = .conj c g ∧
      ∀ s', le (refuting.build s c a).1 s' → mem.view s' g = .naf a
  nil : ∀ s, refuting.isAtom (keeping.nil s).1 (keeping.nil s).2 = true
  cons : ∀ s a l, refuting.isAtom (keeping.cons s a l).1 (keeping.cons s a l).2 = false

section Came

variable {mem : Memory σ M ω T B C} {le : σ → σ → Prop} (restores : Restores mem le)
include restores

theorem choose_came {f : σ → ω → T → Search σ ω B} (each : ∀ s w g, (f s w g).Each (le s)) (s : σ)
    (g : T) (left : List C) (w : ω) : (mem.choose f s g left w).Each (le s) := by
  induction left generalizing w with
  | nil => trivial
  | cons clause left ih =>
    unfold choose
    apply Search.Each.orElse
    · cases entered : mem.tryClause s g clause with
      | none => trivial
      | some entry =>
        have body := Search.Each.all restores.refl restores.trans each entry.2 entry.1 w
        exact body.weaken (fun s' grown => restores.trans (restores.enters entered) grown)
    · exact ih

omit restores in
theorem guarded_came {s : σ} {w : ω} {g : T} {x : Search σ ω B} (each : x.Each (le s)) :
    (mem.guarded s w g x).Each (le s) := by
  unfold guarded
  split
  · trivial
  · exact each

/-- The answers of a goal's search are at states that came of the one it began in. -/
theorem solve_came (n : Nat) (s : σ) (w : ω) (g : T) : (mem.solve n s w g).Each (le s) := by
  induction n generalizing s w g with
  | zero => trivial
  | succ n ih =>
    have further : ∀ {s'} (w' : ω) (g' : T), le s s' → (mem.solve n s' w' g').Each (le s) := by
      intro s' w' g' grown
      exact (ih s' w' g').weaken (fun s'' more => restores.trans grown more)
    have here : ∀ (w' : ω), (Search.answer s w' (B := B) .fail).Each (le s) := by
      intro w'
      exact ⟨restores.refl s, fun _ => trivial⟩
    have there : ∀ {s'} (w' : ω), le s s' → (Search.answer s' w' (B := B) .fail).Each (le s) := by
      intro s' w' grown
      exact ⟨grown, fun _ => trivial⟩
    unfold solve
    cases mem.view s g with
    | true_ => exact here w
    | fail => trivial
    | cut => exact here w
    | conj l r => exact Search.Each.all restores.refl restores.trans ih _ s w
    | disj l r =>
      simp only
      cases mem.view s l with
      | ifThen c t => exact (ih s w c).ite (fun _ w' => further w' t) (fun w' => ih s w' r)
      | softThen c t => exact (ih s w c).soft (fun _ w' => further w' t) (fun w' => ih s w' r)
      | _ => exact (ih s w l).orElse (fun w' => ih s w' r)
    | ifThen c t => exact (ih s w c).ite (fun _ w' => further w' t) (fun _ => trivial)
    | softThen c t => exact (ih s w c).soft (fun _ w' => further w' t) (fun _ => trivial)
    | naf c => exact (ih s w c).ite (fun _ _ _ => trivial) here
    | not_ c => exact guarded_came ((ih s w c).ite (fun _ _ _ => trivial) here)
    | once c => exact guarded_came ((ih s w c).ite (fun _ => there) (fun _ => trivial))
    | ignore c => exact guarded_came ((ih s w c).ite (fun _ => there) here)
    | call c => exact guarded_came (ih s w c).closed
    | catch_ c catcher recovery =>
      apply (guarded_came (ih s w c)).catching
      intro w' ball y handled
      obtain ⟨s', caught, rfl⟩ := Option.map_eq_some_iff.mp handled
      exact further w' recovery (restores.catches caught)
    | throw_ ball => trivial
    | other =>
      simp only
      cases called : mem.called s w g with
      | exits s' w' => exact there w' (restores.exits called)
      | fails w' => trivial
      | raises w' ball => trivial
      | calls s' w' g' => exact (further w' g' (restores.calls called)).closed
      | clauses w' candidates => exact (choose_came restores ih s g candidates w').closed

end Came

section Forall

variable {mem : Memory σ M ω T B C} {le : σ → σ → Prop} (restores : Restores mem le)
  {host : σ → ω → ω} {s : σ} {w : ω} {condition action goal g : T}

/-- The search of `(C, \+ A)`, one call deep. -/
theorem solve_refuting (came : ∀ s', le s s' → mem.view s' g = .naf action)
    (view : mem.view s goal = .conj condition g) (restores : Restores mem le) (n : Nat) :
    mem.solve (n + 2) s w goal = (mem.solve (n + 1) s w condition).andThen
      (fun s w => (mem.solve n s w action).ite (fun _ w => .fail w) (fun w => .answer s w .fail)) := by
  have spine : mem.spine s 63 goal = [condition, g] := by
    simp only [spine, view, came s (restores.refl s)]
  have single : ∀ (y : Search σ ω B) (s' : σ), (y.ite (fun _ w => .fail w)
      (fun w => .answer s' w .fail)).andThen (fun s w => .answer s w .fail) =
      y.ite (fun _ w => .fail w) (fun w => .answer s' w .fail) := by
    intro y s'
    induction y with
    | fail w => rfl
    | throw w ball => rfl
    | lost => rfl
    | cut rest ih => exact ih
    | answer s w rest _ => rfl
  rw [solve]
  simp only [view, spine]
  apply (solve_came restores (n + 1) s w condition).andThen_congr
  intro s' w' grown
  have last : mem.solve (n + 1) s' w' g = (mem.solve n s' w' action).ite (fun _ w => .fail w)
      (fun w => .answer s' w .fail) := by
    rw [solve]
    simp only [came s' grown]
  rw [Search.all, last]
  exact single _ s'

include restores

/-- Far enough down, each of finitely many searches that answer has answered. -/
theorem answered_from (answers : List (σ × ω))
    (every : ∀ a ∈ answers, ∃ a', mem.Begins (fun _ w => w) a.1 a.2 action a') :
    ∃ n, ∀ m, n ≤ m → ∀ a ∈ answers,
      ((mem.solve m a.1 a.2 action).found (fun _ w => w)).1 ≠ [] := by
  apply eventually_all answers
    (fun a m => ((mem.solve m a.1 a.2 action).found (fun _ w => w)).1 ≠ [])
  intro a among
  obtain ⟨a', begins⟩ := every a among
  obtain ⟨n, deep⟩ := begins_from restores begins
  refine ⟨n, ?_⟩
  intro m le
  obtain ⟨more, first⟩ := deep m le
  rw [first]
  exact List.cons_ne_nil _ _

/-- The run of `(C, \+ A)` fails just where each answer of `C` has one of `A`. -/
theorem refuting_ends (came : ∀ s', le s s' → mem.view s' g = .naf action)
    (view : mem.view s goal = .conj condition g)
    (leaves : ∀ s w s' w', mem.Begins (fun _ w => w) s w action (s', w') → host s w = w') (w' : ω) :
    mem.Ends (fun _ w => w) s w goal ([], .failed w') ↔
      ∃ answers, mem.Ends host s w condition (answers, .failed w') ∧
        ∀ a ∈ answers, ∃ a', mem.Begins (fun _ w => w) a.1 a.2 action a' := by
  have resumed : ∀ n s w s' w'' more, ((mem.solve n s w action).found (fun _ w => w)).1 =
      (s', w'') :: more → host s w = w'' := by
    intro n s w s' w'' more first
    apply leaves s w s' w''
    rw [begins_iff restores]
    exact ⟨n, more, first⟩
  have refuted := fun n => Search.found_refuted host (mem.solve (n + 1) s w condition)
    (fun _ w => w) (fun s w => mem.solve n s w action) (resumed n) w'
  have turned := fun n => solve_refuting (w := w) came view restores n
  constructor
  · intro ends
    obtain ⟨n, found⟩ := ends_from restores ends
    have deep := found (n + 2) (Nat.le_add_right n 2)
    rw [turned n, refuted n] at deep
    obtain ⟨answers, whole, every⟩ := deep
    refine ⟨answers, ends_of restores whole (Ending.failed_over w'), ?_⟩
    intro a among
    obtain ⟨a', more, first⟩ := List.exists_cons_of_ne_nil (every a among)
    refine ⟨a', ?_⟩
    rw [begins_iff restores]
    exact ⟨n, more, first⟩
  · rintro ⟨answers, ends, every⟩
    obtain ⟨n, found⟩ := ends_from restores ends
    obtain ⟨n', answered⟩ := answered_from restores answers every
    apply ends_of restores (n := max n n' + 2) _ (Ending.failed_over w')
    rw [turned, refuted]
    refine ⟨answers, found _ ?_, answered _ (Nat.le_max_right n n')⟩
    exact Nat.le_trans (Nat.le_max_left n n') (Nat.le_succ _)

end Forall

end Memory

namespace Script

def refuting : Refuting Machine Script where
  build s c a := (s, .construct (.conj c (.construct (.naf a))))
  isAtom _ l :=
    match l with
    | .pred [] => true
    | _ => false

theorem refutes : memory.Refutes Machine.Writes keeping refuting where
  goal := by
    intro s c a
    refine ⟨.construct (.naf a), rfl, ?_⟩
    intro s' _
    rfl
  nil _ := rfl
  cons := by
    intro s a l
    cases l <;> rfl

end Script

end Cocolog.Engine
