import Cocolog.Engine.Adequacy

/-! `findall/3`'s search: an engine of its own on the machine, its answers copied out one after
another, the machine put back where the search found it, and the list built there. -/

set_option linter.all false

namespace Cocolog.Engine

open Cocolog.Lib Cocolog.Term

variable {σ M ω T B C A : Type}

/-- What the answers are kept with: a template's copy in the store, and the list made of the
copies read back, from the last one on. -/
structure Keeping (σ T A : Type) where
  put : σ → T → A
  nil : σ → σ × T
  cons : σ → A → T → σ × T

def Keeping.list (keeping : Keeping σ T A) (s : σ) : List A → σ × T
  | [] => keeping.nil s
  | a :: kept => keeping.cons (keeping.list s kept).1 a (keeping.list s kept).2

/-- Where the search left the machine, what it kept and how it ended. -/
structure Collected (σ ω A B : Type) where
  memory : σ
  kept : List A
  ending : Ending ω B

inductive Listed (σ ω T B : Type) where
  | lists (s : σ) (w : ω) (l : T)
  | raises (s : σ) (w : ω) (ball : B)

namespace Memory

section Findall

variable (mem : Memory σ M ω T B C)

/-- The loop of `coco_engine_findall` over its engine, `n` turns of it; `forall/2`'s is over at
the first answer. -/
def collect (keep : σ → A) (first : Bool) :
    Nat → List A → Outcome σ M ω T B C → Option (Collected σ ω A B)
  | _, kept, .no s w => some ⟨s, kept, .failed w⟩
  | _, kept, .uncaught s w ball => some ⟨s, kept, .thrown w ball⟩
  | 0, _, _ => none
  | n + 1, kept, .goes e => collect keep first n kept (mem.step e)
  | n + 1, kept, .solved e =>
    if first then some ⟨e.memory, kept ++ [keep e.memory], .failed e.world⟩
    else collect keep first n (kept ++ [keep e.memory])
      (mem.backtrack e.memory e.world e.choices)

/-- `coco_engine_findall`. A ball is raised again where the search began. -/
def findall (keeping : Keeping σ T A) (first : Bool) (n : Nat) (s : σ) (w : ω)
    (template goal : T) : Option (Listed σ ω T B) :=
  match mem.collect (fun s => keeping.put s template) first n [] (ask s w goal) with
  | none => none
  | some found =>
    let s := mem.back found.memory (mem.mark s)
    match found.ending with
    | .failed w => some (.lists (keeping.list s found.kept).1 w (keeping.list s found.kept).2)
    | .thrown w ball => some (.raises s w ball)
    | .unfinished => none

end Findall

section Collect

variable {mem : Memory σ M ω T B C} {o : Outcome σ M ω T B C} {keep : σ → A}

theorem collect_no (first : Bool) (n : Nat) (kept : List A) (s : σ) (w : ω) :
    mem.collect keep first n kept (.no s w) = some ⟨s, kept, .failed w⟩ := by
  cases n <;> rfl

theorem collect_uncaught (first : Bool) (n : Nat) (kept : List A) (s : σ) (w : ω) (ball : B) :
    mem.collect keep first n kept (.uncaught s w ball) = some ⟨s, kept, .thrown w ball⟩ := by
  cases n <;> rfl

/-- The answers the loop keeps are the run's, in its order. -/
theorem collect_asked (mem : Memory σ M ω T B C) (keep : σ → A) (n : Nat) (kept : List A)
    (o : Outcome σ M ω T B C) :
    ((mem.asked (fun _ w => w) n o).2 = .unfinished ∧ mem.collect keep false n kept o = none) ∨
    (mem.asked (fun _ w => w) n o).2 ≠ .unfinished ∧ ∃ s, mem.collect keep false n kept o =
      some ⟨s, kept ++ (mem.asked (fun _ w => w) n o).1.map (fun a => keep a.1),
        (mem.asked (fun _ w => w) n o).2⟩ := by
  have finished : ∀ n kept s w, (mem.asked (fun _ w => w) n (.no s w)).2 ≠ .unfinished ∧
      ∃ s', mem.collect keep false n kept (.no s w) =
        some ⟨s', kept ++ (mem.asked (fun _ w => w) n (.no s w)).1.map (fun a => keep a.1),
          (mem.asked (fun _ w => w) n (.no s w)).2⟩ := by
    intro n kept s w
    rw [asked_no, collect_no]
    refine ⟨Ending.failed_over w, s, ?_⟩
    rw [List.map_nil, List.append_nil]
  have raised : ∀ n kept s w ball,
      (mem.asked (fun _ w => w) n (.uncaught s w ball)).2 ≠ .unfinished ∧
      ∃ s', mem.collect keep false n kept (.uncaught s w ball) =
        some ⟨s', kept ++ (mem.asked (fun _ w => w) n (.uncaught s w ball)).1.map
          (fun a => keep a.1), (mem.asked (fun _ w => w) n (.uncaught s w ball)).2⟩ := by
    intro n kept s w ball
    rw [asked_uncaught, collect_uncaught]
    refine ⟨Ending.thrown_over w ball, s, ?_⟩
    rw [List.map_nil, List.append_nil]
  induction n generalizing o kept with
  | zero =>
    cases o with
    | goes e => exact .inl ⟨rfl, rfl⟩
    | solved e => exact .inl ⟨rfl, rfl⟩
    | no s w => exact .inr (finished 0 kept s w)
    | uncaught s w ball => exact .inr (raised 0 kept s w ball)
  | succ n ih =>
    cases o with
    | goes e => exact ih kept (mem.step e)
    | solved e =>
      have rest := ih (kept ++ [keep e.memory]) (mem.backtrack e.memory e.world e.choices)
      simp only [List.append_assoc, List.singleton_append] at rest
      exact rest
    | no s w => exact .inr (finished (n + 1) kept s w)
    | uncaught s w ball => exact .inr (raised (n + 1) kept s w ball)

/-- The search of a `forall/2` is over with the run's first answer. -/
theorem collect_first (mem : Memory σ M ω T B C) (keep : σ → A) (n : Nat) (kept : List A)
    (o : Outcome σ M ω T B C) :
    (∃ a rest, (mem.asked (fun _ w => w) n o).1 = a :: rest ∧ ∃ s,
      mem.collect keep true n kept o = some ⟨s, kept ++ [keep a.1], .failed a.2⟩) ∨
    ((mem.asked (fun _ w => w) n o).1 = [] ∧
      (((mem.asked (fun _ w => w) n o).2 = .unfinished ∧ mem.collect keep true n kept o = none) ∨
      (mem.asked (fun _ w => w) n o).2 ≠ .unfinished ∧ ∃ s, mem.collect keep true n kept o =
        some ⟨s, kept, (mem.asked (fun _ w => w) n o).2⟩)) := by
  induction n generalizing o with
  | zero =>
    right
    cases o with
    | goes e => exact ⟨rfl, .inl ⟨rfl, rfl⟩⟩
    | solved e => exact ⟨rfl, .inl ⟨rfl, rfl⟩⟩
    | no s w => exact ⟨rfl, .inr ⟨Ending.failed_over w, s, rfl⟩⟩
    | uncaught s w ball => exact ⟨rfl, .inr ⟨Ending.thrown_over w ball, s, rfl⟩⟩
  | succ n ih =>
    cases o with
    | goes e => exact ih (mem.step e)
    | solved e =>
      left
      exact ⟨(e.memory, e.world), _, rfl, e.memory, rfl⟩
    | no s w => exact .inr ⟨rfl, .inr ⟨Ending.failed_over w, s, rfl⟩⟩
    | uncaught s w ball => exact .inr ⟨rfl, .inr ⟨Ending.thrown_over w ball, s, rfl⟩⟩

variable {le : σ → σ → Prop} (restores : Restores mem le) {base : σ} {o' : Outcome σ σ ω T B C}
include restores

/-- Wherever the loop leaves the machine, it came of the state the search began in. -/
theorem collect_came {first : Bool} {n : Nat} {kept : List A} {r : Collected σ ω A B}
    (follows : Follows mem le base o o') (collected : mem.collect keep first n kept o = some r) :
    le base r.memory := by
  induction n generalizing o o' kept with
  | zero =>
    rw [follows.marked] at collected
    have standing := follows.standing
    cases o' with
    | goes e => cases collected
    | solved e => cases collected
    | no s w =>
      cases collected
      exact standing
    | uncaught s w ball =>
      cases collected
      exact standing
  | succ n ih =>
    rw [follows.marked] at collected
    have standing := follows.standing
    cases o' with
    | goes e => exact ih (step_follows restores standing) collected
    | solved e =>
      cases first with
      | true =>
        cases collected
        exact restores.chain_base standing
      | false => exact ih (backtrack_follows restores standing) collected
    | no s w =>
      cases collected
      exact standing
    | uncaught s w ball =>
      cases collected
      exact standing

variable (keeping : Keeping σ T A) {s : σ} {w : ω} {template goal : T}

/-- The machine is back where the search found it, whatever the search did. -/
theorem findall_back {first : Bool} {n : Nat} {r : Collected σ ω A B}
    (collected : mem.collect (fun s => keeping.put s template) first n [] (ask s w goal) = some r) :
    mem.back r.memory (mem.mark s) = s :=
  restores.back (collect_came restores (ask_follows restores s w goal) collected)

/-- `findall/3` comes to the list of its goal's answers, in their order and made of the template's
copies as each answer left it, or to the ball the goal's run ends with; in either case on the
machine as it stood before the search. -/
theorem findall_collects (r : Listed σ ω T B) :
    (∃ n, mem.findall keeping false n s w template goal = some r) ↔
      (∃ answers w', mem.Ends (fun _ w => w) s w goal (answers, .failed w') ∧
        r = .lists (keeping.list s (answers.map (fun a => keeping.put a.1 template))).1 w'
          (keeping.list s (answers.map (fun a => keeping.put a.1 template))).2) ∨
      ∃ answers w' ball, mem.Ends (fun _ w => w) s w goal (answers, .thrown w' ball) ∧
        r = .raises s w' ball := by
  constructor
  · rintro ⟨n, found⟩
    unfold findall at found
    rcases collect_asked mem (fun s => keeping.put s template) n []
        (ask s w goal) with ⟨_, nothing⟩ | ⟨finished, s', collected⟩
    · rw [nothing] at found
      cases found
    · have back := findall_back restores keeping collected
      rw [collected] at found
      simp only [List.nil_append] at found back
      rw [back] at found
      cases ran : mem.asked (fun _ w => w) n (ask s w goal) with
      | mk answers ending =>
        rw [ran] at found finished
        cases ending with
        | failed w' =>
          left
          cases found
          exact ⟨answers, w', ⟨finished, n, ran⟩, rfl⟩
        | thrown w' ball =>
          right
          cases found
          exact ⟨answers, w', ball, ⟨finished, n, ran⟩, rfl⟩
        | unfinished => cases found
  · have collects : ∀ {answers ending}, mem.Ends (fun _ w => w) s w goal (answers, ending) →
        ∃ n s', mem.collect (fun s => keeping.put s template) false n [] (ask s w goal) =
          some ⟨s', answers.map (fun a => keeping.put a.1 template), ending⟩ ∧
          mem.back s' (mem.mark s) = s := by
      rintro answers ending ⟨finished, n, ran⟩
      rcases collect_asked mem (fun s => keeping.put s template) n []
          (ask s w goal) with ⟨open_, _⟩ | ⟨_, s', collected⟩
      · rw [ran] at open_
        exact absurd open_ finished
      · rw [ran] at collected
        exact ⟨n, s', collected, findall_back restores keeping collected⟩
    rintro (⟨answers, w', ends, rfl⟩ | ⟨answers, w', ball, ends, rfl⟩)
    · obtain ⟨n, s', collected, back⟩ := collects ends
      refine ⟨n, ?_⟩
      simp only [findall, collected, back]
    · obtain ⟨n, s', collected, back⟩ := collects ends
      refine ⟨n, ?_⟩
      simp only [findall, collected, back]

/-- Cut short at its goal's first answer, the search comes to that answer's list. -/
theorem findall_first (r : Listed σ ω T B) :
    (∃ n, mem.findall keeping true n s w template goal = some r) ↔
      (∃ a, mem.Begins (fun _ w => w) s w goal a ∧
        r = .lists (keeping.list s [keeping.put a.1 template]).1 a.2
          (keeping.list s [keeping.put a.1 template]).2) ∨
      (∃ w', mem.Ends (fun _ w => w) s w goal ([], .failed w') ∧
        r = .lists (keeping.nil s).1 w' (keeping.nil s).2) ∨
      ∃ w' ball, mem.Ends (fun _ w => w) s w goal ([], .thrown w' ball) ∧ r = .raises s w' ball := by
  constructor
  · rintro ⟨n, found⟩
    unfold findall at found
    rcases collect_first mem (fun s => keeping.put s template) n []
        (ask s w goal) with
        ⟨a, rest, first, s', collected⟩ | ⟨none, ⟨_, nothing⟩ | ⟨finished, s', collected⟩⟩
    · have back := findall_back restores keeping collected
      rw [collected] at found
      simp only [back] at found
      cases found
      exact .inl ⟨a, ⟨n, rest, first⟩, rfl⟩
    · rw [nothing] at found
      cases found
    · have back := findall_back restores keeping collected
      rw [collected] at found
      simp only [back] at found
      cases ran : mem.asked (fun _ w => w) n (ask s w goal) with
      | mk answers ending =>
        rw [ran] at found finished none
        cases none
        cases ending with
        | failed w' =>
          cases found
          exact .inr (.inl ⟨w', ⟨finished, n, ran⟩, rfl⟩)
        | thrown w' ball =>
          cases found
          exact .inr (.inr ⟨w', ball, ⟨finished, n, ran⟩, rfl⟩)
        | unfinished => cases found
  · have ended : ∀ {ending}, mem.Ends (fun _ w => w) s w goal ([], ending) →
        ∃ n s', mem.collect (fun s => keeping.put s template) true n [] (ask s w goal) =
          some ⟨s', [], ending⟩ ∧ mem.back s' (mem.mark s) = s := by
      rintro ending ⟨finished, n, ran⟩
      rcases collect_first mem (fun s => keeping.put s template) n []
          (ask s w goal) with ⟨a, rest, first, _⟩ | ⟨_, ⟨open_, _⟩ | ⟨_, s', collected⟩⟩
      · rw [ran] at first
        cases first
      · rw [ran] at open_
        exact absurd open_ finished
      · rw [ran] at collected
        exact ⟨n, s', collected, findall_back restores keeping collected⟩
    rintro (⟨a, ⟨n, rest, first⟩, rfl⟩ | ⟨w', ends, rfl⟩ | ⟨w', ball, ends, rfl⟩)
    · refine ⟨n, ?_⟩
      rcases collect_first mem (fun s => keeping.put s template) n []
          (ask s w goal) with ⟨a', rest', first', s', collected⟩ | ⟨none, _⟩
      · rw [first] at first'
        cases first'
        simp only [findall, collected, findall_back restores keeping collected]
        rfl
      · rw [first] at none
        cases none
    · obtain ⟨n, s', collected, back⟩ := ended ends
      refine ⟨n, ?_⟩
      simp only [findall, collected, back]
      rfl
    · obtain ⟨n, s', collected, back⟩ := ended ends
      refine ⟨n, ?_⟩
      simp only [findall, collected, back]

end Collect

end Memory

/-- A template `V = _` is kept as what the cell `V` holds, and a list is a predicate's bodies. -/
def Script.keeping : Keeping Machine Script Cell where
  put s template :=
    match template with
    | .unify v _ => s.cells.heap v
    | _ => .ref 0
  nil s := (s, .pred [])
  cons s a l :=
    let entry : Script :=
      match a with
      | .ref v => .unify 0 v
      | _ => .unify 0 0
    match l with
    | .pred bodies => (s, .pred (entry :: bodies))
    | _ => (s, .pred [entry])

theorem Memory.findall_collects_pred :
    ∃ n s l, Script.memory.findall Script.keeping false n Script.blank () (.unify 0 0)
      (.pred [.unify 0 2, .unify 0 1]) = some (.lists s () l) ∧ l = .pred [.unify 0 2, .unify 0 1] := by
  have ends : ∃ answers, Script.memory.Ends (fun _ w => w) Script.blank ()
      (.pred [.unify 0 2, .unify 0 1]) (answers, .failed ()) ∧
      answers.map (fun a => Script.keeping.put a.1 (.unify 0 0)) = [.ref 2, .ref 1] := by
    refine ⟨_, ⟨Ending.failed_over _, 20, Prod.ext rfl ?_⟩, ?_⟩
    · decide
    · decide
  obtain ⟨answers, ends, kept⟩ := ends
  have lists : ∃ n, Script.memory.findall Script.keeping false n Script.blank () (.unify 0 0)
      (.pred [.unify 0 2, .unify 0 1]) = some (.lists
        (Script.keeping.list Script.blank [.ref 2, .ref 1]).1 ()
        (Script.keeping.list Script.blank [.ref 2, .ref 1]).2) := by
    apply (Memory.findall_collects Script.overCells.restores Script.keeping _).mpr
    left
    refine ⟨answers, (), ends, ?_⟩
    rw [kept]
  obtain ⟨n, found⟩ := lists
  exact ⟨n, _, _, found, rfl⟩

end Cocolog.Engine
