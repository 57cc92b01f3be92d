import Cocolog.Engine.Heap

/-! The engine against the meaning of its query, and what the meaning says of the constructs:
a run under marks gives the search's answers in the search's order and ends as it does. -/

set_option linter.all false

namespace Cocolog.Engine

open Cocolog.Lib

variable {σ M ω T B C : Type}

/-- In every state a run comes to, undoing to the marks of any of its frames gives just the state
the frame was made in: the run whose frames keep those states comes to the same state, its frames
the same but for what they keep. -/
theorem marks_restore {mem : Memory σ M ω T B C} {le : σ → σ → Prop} (restores : Restores mem le)
    {host : σ → ω → ω} {s : σ} {w : ω} {query : T} {e : State σ M ω T C}
    (reached : mem.Reaches host (Memory.ask s w query) (.goes e)) :
    ∃ e', mem.saved.Reaches host (Memory.ask s w query) (.goes e') ∧
      e'.memory = e.memory ∧ e'.world = e.world ∧ e'.goals = e.goals ∧
      List.Forall₂ (fun c c' => c = c'.marked mem ∧ mem.back e.memory c.mark = c'.mark)
        e.choices e'.choices := by
  obtain ⟨o', reached', same⟩ := reaches_follows restores (ask_follows restores s w query) reached
  cases o' with
  | goes e' =>
    cases same.marked
    exact ⟨e', reached', rfl, rfl, rfl, chain_restores restores same.standing⟩
  | solved e' => cases same.marked
  | no s w => cases same.marked
  | uncaught s w ball => cases same.marked

theorem marks_restore_query :
    ∃ (e : State Machine Mark Unit Script Script) (e' : State Machine Machine Unit Script Script),
      Script.memory.Reaches (fun _ w => w) (Memory.ask Script.blank () Script.query) (.goes e) ∧
      e.choices.length = 2 ∧
      List.Forall₂ (fun c c' => c = c'.marked Script.memory ∧
        Script.memory.back e.memory c.mark = c'.mark) e.choices e'.choices := by
  have entered : ∃ e, Script.memory.step (Script.memory.enterCatch ⟨Script.blank, (), [], []⟩
      Script.raising (.unify 0 1) (.unify 0 1) 0) = .goes e ∧ e.choices.length = 2 := ⟨_, rfl, rfl⟩
  obtain ⟨e, step, two⟩ := entered
  have reached : Script.memory.Reaches (fun _ w => w) (Memory.ask Script.blank () Script.query)
      (.goes e) := by
    rw [← step]
    exact .step (.step .start)
  obtain ⟨e', _, _, _, _, frames⟩ := marks_restore Script.overCells.restores reached
  exact ⟨e, e', reached, two, frames⟩

namespace Memory

section Saved

variable (mem : Memory σ M ω T B C)

theorem choose_saved (f : σ → ω → T → Search σ ω B) (s : σ) (g : T) (left : List C) (w : ω) :
    mem.saved.choose f s g left w = mem.choose f s g left w := by
  induction left generalizing w with
  | nil => rfl
  | cons clause left ih =>
    have rest : mem.saved.choose f s g left = mem.choose f s g left := by
      funext w
      exact ih w
    simp only [choose, rest]
    rfl

/-- Marks play no part in what a goal means. -/
theorem solve_saved (n : Nat) : mem.saved.solve n = mem.solve n := by
  induction n with
  | zero => rfl
  | succ n ih =>
    funext s w g
    simp only [solve, ih, spine_saved, choose_saved]
    rfl

end Saved

section Means

variable {mem : Memory σ M ω T B C} {le : σ → σ → Prop} (restores : Restores mem le)
  (host : σ → ω → ω) (s : σ) (w : ω) (query : T)
include restores

theorem asked_saved (n : Nat) :
    mem.asked host n (ask s w query) = mem.saved.asked host n (ask s w query) :=
  asked_follows restores host n (ask_follows restores s w query)

omit restores in
theorem ask_fulfils (n : Nat) :
    mem.saved.Fulfils (mem.solve n s w query) [] [] 0 n (ask s w query) := by
  rw [← solve_saved]
  exact carries (saved_kept mem) n s w query [] [] 0 (Nat.le_refl 0)

/-- What a run says in `n` turns the search says at depth `n + 1`. -/
theorem asked_means (n : Nat) :
    Upto (mem.asked host n (ask s w query)) ((mem.solve (n + 1) s w query).found host) := by
  rw [asked_saved restores]
  exact asked_upto host (ask_fulfils s w query (n + 1)) (Nat.lt_succ_self n)

/-- What the search says at a depth the run says in enough turns. -/
theorem found_asked (n : Nat) :
    ∃ m, Upto ((mem.solve n s w query).found host) (mem.asked host m (ask s w query)) := by
  obtain ⟨m, upto⟩ := found_upto host (ask_fulfils s w query n)
  refine ⟨m, ?_⟩
  rw [asked_saved restores]
  exact upto

/-- A run is over just where the search is. -/
theorem ran_iff {answers : List (σ × ω)} {ending : Ending ω B} (finished : ending ≠ .unfinished) :
    (∃ n, mem.asked host n (ask s w query) = (answers, ending)) ↔
      ∃ n, (mem.solve n s w query).found host = (answers, ending) := by
  constructor
  · rintro ⟨n, ran⟩
    refine ⟨n + 1, ?_⟩
    have upto := asked_means restores host s w query n
    rw [ran] at upto
    exact (upto.ended finished).symm
  · rintro ⟨n, found⟩
    obtain ⟨m, upto⟩ := found_asked restores host s w query n
    refine ⟨m, ?_⟩
    rw [found] at upto
    exact (upto.ended finished).symm

end Means

/-- A run's answers and its end are those of the search its query means: what it says in `n`
turns the search says at depth `n + 1`, what the search says at any depth the run says in enough
turns, and the one is over just where the other is. -/
theorem answers_mean {mem : Memory σ M ω T B C} {le : σ → σ → Prop} (restores : Restores mem le)
    (host : σ → ω → ω) (s : σ) (w : ω) (query : T) :
    (∀ n, Upto (mem.asked host n (ask s w query)) ((mem.solve (n + 1) s w query).found host)) ∧
    (∀ n, ∃ m, Upto ((mem.solve n s w query).found host) (mem.asked host m (ask s w query))) ∧
    (∀ answers ending, ending ≠ .unfinished →
      ((∃ n, mem.asked host n (ask s w query) = (answers, ending)) ↔
        ∃ n, (mem.solve n s w query).found host = (answers, ending))) := by
  refine ⟨asked_means restores host s w query, found_asked restores host s w query, ?_⟩
  intro answers ending finished
  exact ran_iff restores host s w query finished

theorem answers_mean_query :
    Script.held ((Script.memory.solve 31 Script.blank () Script.query).found (fun _ w => w)).1 =
      [.ref 2, .ref 1] := by
  have upto :=
    (answers_mean Script.overCells.restores (fun _ w => w) Script.blank () Script.query).1 30
  rw [← upto.ended (by decide)]
  decide

/-- A query's run ends with these answers, and so. -/
def Ends (mem : Memory σ M ω T B C) (host : σ → ω → ω) (s : σ) (w : ω) (query : T)
    (r : List (σ × ω) × Ending ω B) : Prop :=
  r.2 ≠ .unfinished ∧ ∃ n, mem.asked host n (ask s w query) = r

/-- A query's first answer. -/
def Begins (mem : Memory σ M ω T B C) (host : σ → ω → ω) (s : σ) (w : ω) (query : T)
    (a : σ × ω) : Prop :=
  ∃ n rest, (mem.asked host n (ask s w query)).1 = a :: rest

/-- What `once/1`, `ignore/1`, `not/1` and `\+` make of their goal's first answer, and of its
failing. -/
def settling (host : σ → ω → ω) (s : σ) : Construct T →
    Option (T × (σ → ω → List (σ × ω) × Ending ω B) × (ω → List (σ × ω) × Ending ω B))
  | .once g => some (g, fun s w => ([(s, w)], .failed (host s w)), fun w => ([], .failed w))
  | .ignore g =>
    some (g, fun s w => ([(s, w)], .failed (host s w)), fun w => ([(s, w)], .failed (host s w)))
  | .not_ g => some (g, fun _ w => ([], .failed w), fun w => ([(s, w)], .failed (host s w)))
  | .naf g => some (g, fun _ w => ([], .failed w), fun w => ([(s, w)], .failed (host s w)))
  | _ => none

section Constructs

variable {mem : Memory σ M ω T B C} {le : σ → σ → Prop} (restores : Restores mem le)
  {host : σ → ω → ω} {s : σ} {w : ω} {query g : T} {r : List (σ × ω) × Ending ω B}
include restores

theorem ends_iff :
    mem.Ends host s w query r ↔
      r.2 ≠ .unfinished ∧ ∃ n, (mem.solve (n + 1) s w query).found host = r := by
  obtain ⟨answers, ending⟩ := r
  constructor
  · rintro ⟨finished, ran⟩
    refine ⟨finished, ?_⟩
    obtain ⟨n, found⟩ := (ran_iff restores host s w query finished).mp ran
    cases n with
    | zero =>
      cases found
      exact absurd rfl finished
    | succ n => exact ⟨n, found⟩
  · rintro ⟨finished, n, found⟩
    exact ⟨finished, (ran_iff restores host s w query finished).mpr ⟨_, found⟩⟩

theorem ends_of {n : Nat} {answers : List (σ × ω)} {ending : Ending ω B}
    (found : (mem.solve n s w query).found host = (answers, ending))
    (finished : ending ≠ .unfinished) :
    mem.Ends host s w query (answers, ending) :=
  ⟨finished, (ran_iff restores host s w query finished).mpr ⟨n, found⟩⟩

/-- A run that ends is found whole at every depth from some one on. -/
theorem ends_from (ends : mem.Ends host s w query r) :
    ∃ n, ∀ m, n ≤ m → (mem.solve m s w query).found host = r := by
  obtain ⟨finished, n, ran⟩ := ends
  refine ⟨n + 1, ?_⟩
  intro m le
  obtain ⟨j, rfl⟩ := Nat.exists_eq_add_of_le le
  have more := asked_more mem host n j (ask s w query)
  rw [ran] at more
  have upto := asked_means restores host s w query (n + j)
  rw [← more.ended finished] at upto
  rw [Nat.add_right_comm]
  exact (upto.ended finished).symm

theorem begins_from {a : σ × ω} (begins : mem.Begins host s w query a) :
    ∃ n, ∀ m, n ≤ m → ∃ rest, ((mem.solve m s w query).found host).1 = a :: rest := by
  obtain ⟨n, rest, first⟩ := begins
  refine ⟨n + 1, ?_⟩
  intro m le
  obtain ⟨j, rfl⟩ := Nat.exists_eq_add_of_le le
  obtain ⟨more, longer⟩ :=
    (asked_more mem host n j (ask s w query)).begins first
  rw [Nat.add_right_comm]
  exact (asked_means restores host s w query (n + j)).begins longer

theorem begins_iff (a : σ × ω) :
    mem.Begins host s w query a ↔
      ∃ n rest, ((mem.solve n s w query).found host).1 = a :: rest := by
  constructor
  · rintro ⟨n, rest, first⟩
    exact ⟨n + 1, (asked_means restores host s w query n).begins first⟩
  · rintro ⟨n, rest, first⟩
    obtain ⟨m, upto⟩ := found_asked restores host s w query n
    exact ⟨m, upto.begins first⟩

omit restores in
theorem solve_settling {yes : σ → ω → List (σ × ω) × Ending ω B}
    {no : ω → List (σ × ω) × Ending ω B} {c : Construct T} (view : mem.view s query = c)
    (settles : settling host s c = some (g, yes, no)) (fit : mem.unfit s g = none) (n : Nat) :
    (mem.solve (n + 1) s w query).found host =
      Search.settled yes no ((mem.solve n s w g).found host) := by
  cases c with
  | once g' =>
    cases settles
    simp only [solve, view, guarded, fit, Search.found_ite]
    rfl
  | ignore g' =>
    cases settles
    simp only [solve, view, guarded, fit, Search.found_ite]
    rfl
  | not_ g' =>
    cases settles
    simp only [solve, view, guarded, fit, Search.found_ite]
    rfl
  | naf g' =>
    cases settles
    simp only [solve, view, Search.found_ite]
    rfl
  | _ => cases settles

omit restores in
theorem settling_over {yes : σ → ω → List (σ × ω) × Ending ω B}
    {no : ω → List (σ × ω) × Ending ω B} {c : Construct T}
    (settles : settling host s c = some (g, yes, no)) :
    (∀ s w, (yes s w).2 ≠ .unfinished) ∧ ∀ w, (no w).2 ≠ .unfinished := by
  cases c with
  | once g' =>
    cases settles
    exact ⟨fun _ _ => Ending.failed_over _, fun _ => Ending.failed_over _⟩
  | ignore g' =>
    cases settles
    exact ⟨fun _ _ => Ending.failed_over _, fun _ => Ending.failed_over _⟩
  | not_ g' =>
    cases settles
    exact ⟨fun _ _ => Ending.failed_over _, fun _ => Ending.failed_over _⟩
  | naf g' =>
    cases settles
    exact ⟨fun _ _ => Ending.failed_over _, fun _ => Ending.failed_over _⟩
  | _ => cases settles

omit restores in
theorem solve_ite {c t els l : T} (view : mem.view s query = .disj l els)
    (arrow : mem.view s l = .ifThen c t) (n : Nat) :
    (mem.solve (n + 1) s w query).found host =
      Search.settled (fun s w => (mem.solve n s w t).found host)
        (fun w => (mem.solve n s w els).found host) ((mem.solve n s w c).found host) := by
  simp only [solve, view, arrow, Search.found_ite]

/-- `catch/3` hands its goal's answers on in their order. Where the goal's run ends with a ball
that the catcher takes in the state of the call, the recovery's answers from that state follow
them; any other end is its own. -/
theorem catch_hands_on {catcher recovery : T} (view : mem.view s query = .catch_ g catcher recovery)
    (fit : mem.unfit s g = none) :
    mem.Ends host s w query r ↔
      (mem.Ends host s w g r ∧
        ∀ w' ball, r.2 = .thrown w' ball → mem.catches s catcher ball = none) ∨
      ∃ answers w' ball s' more, mem.Ends host s w g (answers, .thrown w' ball) ∧
        mem.catches s catcher ball = some s' ∧ mem.Ends host s' w' recovery more ∧
        r = (answers ++ more.1, more.2) := by
  have whole : ∀ n, (mem.solve (n + 1) s w query).found host =
      Search.handled (fun w' ball => (mem.catches s catcher ball).map
        (fun s' => (mem.solve n s' w' recovery).found host)) ((mem.solve n s w g).found host) := by
    intro n
    simp only [solve, view, guarded, fit, Search.found_catching, Option.map_map]
    rfl
  rw [ends_iff restores]
  constructor
  · rintro ⟨finished, n, found⟩
    rw [whole] at found
    cases goal : (mem.solve n s w g).found host with
    | mk answers ending =>
      rw [goal] at found
      cases ending with
      | failed w' =>
        left
        rw [← found]
        refine ⟨ends_of restores goal (Ending.failed_over w'), ?_⟩
        intro w'' ball thrown
        cases thrown
      | unfinished =>
        rw [← found] at finished
        exact absurd rfl finished
      | thrown w' ball =>
        have ran := ends_of restores goal (Ending.thrown_over w' ball)
        simp only [Search.handled] at found
        cases caught : mem.catches s catcher ball with
        | none =>
          left
          rw [caught] at found
          rw [← found]
          refine ⟨ran, ?_⟩
          intro w'' ball' thrown
          cases thrown
          exact caught
        | some s' =>
          right
          rw [caught] at found
          cases recovered : (mem.solve n s' w' recovery).found host with
          | mk more ending =>
            rw [Option.map_some, recovered] at found
            rw [← found] at finished ⊢
            exact ⟨answers, w', ball, s', (more, ending), ran, caught,
              ends_of restores recovered finished, rfl⟩
  · rintro (⟨ran, uncaught⟩ | ⟨answers, w', ball, s', more, ran, caught, recovers, rfl⟩)
    · obtain ⟨n, found⟩ := ends_from restores ran
      refine ⟨ran.1, n, ?_⟩
      rw [whole, found n (Nat.le_refl n)]
      obtain ⟨answers, ending⟩ := r
      cases ending with
      | failed w' => rfl
      | unfinished => rfl
      | thrown w' ball =>
        simp only [Search.handled, uncaught w' ball rfl]
        rfl
    · obtain ⟨n, found⟩ := ends_from restores ran
      obtain ⟨m, found'⟩ := ends_from restores recovers
      refine ⟨recovers.1, max n m, ?_⟩
      rw [whole, found _ (Nat.le_max_left n m)]
      simp only [Search.handled, caught, Option.map_some, found' _ (Nat.le_max_right n m)]

end Constructs

theorem catch_hands_on_query :
    ∃ answers ending,
      Script.memory.Ends (fun _ w => w) Script.blank () Script.query (answers, ending) ∧
      Script.held answers = [.ref 2, .ref 1] := by
  have raises : ∃ answers, Script.memory.Ends (fun _ w => w) Script.blank () Script.raising
      (answers, .thrown () 1) ∧ Script.held answers = [.ref 2] := by
    refine ⟨_, ⟨Ending.thrown_over _ _, 20, Prod.ext rfl ?_⟩, ?_⟩
    · decide
    · decide
  have recovers : ∃ s, Script.memory.catches Script.blank (.unify 0 1) 1 = some s ∧
      ∃ more, Script.memory.Ends (fun _ w => w) s () (.unify 0 1) (more, .failed ()) ∧
        Script.held more = [.ref 1] := by
    refine ⟨_, rfl, _, ⟨Ending.failed_over _, 9, Prod.ext rfl ?_⟩, ?_⟩
    · decide
    · decide
  obtain ⟨answers, ends, heldFirst⟩ := raises
  obtain ⟨s, caught, more, recovered, heldMore⟩ := recovers
  refine ⟨answers ++ more, .failed (), ?_, ?_⟩
  · apply (catch_hands_on Script.overCells.restores (g := Script.raising) rfl rfl).mpr
    right
    exact ⟨answers, (), 1, s, (more, .failed ()), ends, caught, recovered, rfl⟩
  · rw [Script.held, List.map_append]
    exact congrArg₂ (· ++ ·) heldFirst heldMore

end Memory

end Cocolog.Engine
