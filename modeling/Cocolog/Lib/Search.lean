import Mathlib.Data.List.Basic

/-! Searches that backtrack. A search fails, raises a ball, runs out, commits to itself, or
answers and says how it goes on when it is resumed; `σ` is what resuming takes back and `ω`
what it does not, so the rest of a search is a function of the `ω` it is resumed with. -/

set_option linter.all false

namespace Cocolog.Lib

inductive Search (σ ω B : Type) where
  | fail (w : ω)
  | throw (w : ω) (ball : B)
  | lost
  | cut (rest : Search σ ω B)
  | answer (s : σ) (w : ω) (rest : ω → Search σ ω B)

/-- How a list of answers ends. -/
inductive Ending (ω B : Type) where
  | failed (w : ω)
  | thrown (w : ω) (ball : B)
  | unfinished
  deriving DecidableEq

namespace Ending

variable {ω B : Type}

theorem failed_over (w : ω) : (failed w : Ending ω B) ≠ unfinished := by
  intro same
  cases same

theorem thrown_over (w : ω) (ball : B) : thrown w ball ≠ unfinished := by
  intro same
  cases same

end Ending

namespace Search

variable {σ ω B : Type}

/-- The alternative is tried when the search fails, and dropped once the search commits. -/
def orElse : Search σ ω B → (ω → Search σ ω B) → Search σ ω B
  | fail w, q => q w
  | throw w ball, _ => throw w ball
  | lost, _ => lost
  | cut rest, _ => cut rest
  | answer s w rest, q => answer s w (fun w' => (rest w').orElse q)

/-- Each answer goes on with `f`; a commitment in `f` is one of the whole. -/
def andThen : Search σ ω B → (σ → ω → Search σ ω B) → Search σ ω B
  | fail w, _ => fail w
  | throw w ball, _ => throw w ball
  | lost, _ => lost
  | cut rest, f => cut (rest.andThen f)
  | answer s w rest, f => (f s w).orElse (fun w' => (rest w').andThen f)

/-- The search with its commitments kept to itself. -/
def closed : Search σ ω B → Search σ ω B
  | fail w => fail w
  | throw w ball => throw w ball
  | lost => lost
  | cut rest => rest.closed
  | answer s w rest => answer s w (fun w' => (rest w').closed)

/-- The first answer goes on with `t`; with none, `e`. -/
def ite : Search σ ω B → (σ → ω → Search σ ω B) → (ω → Search σ ω B) → Search σ ω B
  | fail w, _, e => e w
  | throw w ball, _, _ => throw w ball
  | lost, _, _ => lost
  | cut rest, t, e => rest.ite t e
  | answer s w _, t, _ => t s w

/-- Every answer goes on with `t`; with none, `e`. -/
def soft : Search σ ω B → (σ → ω → Search σ ω B) → (ω → Search σ ω B) → Search σ ω B
  | fail w, _, e => e w
  | throw w ball, _, _ => throw w ball
  | lost, _, _ => lost
  | cut rest, t, e => rest.soft t e
  | answer s w rest, t, _ => (t s w).orElse (fun w' => (rest w').closed.andThen t)

/-- A ball the search itself raises is offered to `h`. -/
def catching : Search σ ω B → (ω → B → Option (Search σ ω B)) → Search σ ω B
  | fail w, _ => fail w
  | throw w ball, h => (h w ball).getD (throw w ball)
  | lost, _ => lost
  | cut rest, h => rest.catching h
  | answer s w rest, h => answer s w (fun w' => (rest w').catching h)

/-- The goals one after another, each a search from the state the one before left. -/
def all {T : Type} (f : σ → ω → T → Search σ ω B) : List T → σ → ω → Search σ ω B
  | [], s, w => answer s w fail
  | g :: gs, s, w => (f s w g).andThen (all f gs)

/-- The answers, resumed each time with what `host` makes of the answer's `ω`. -/
def found (host : σ → ω → ω) : Search σ ω B → List (σ × ω) × Ending ω B
  | fail w => ([], .failed w)
  | throw w ball => ([], .thrown w ball)
  | lost => ([], .unfinished)
  | cut rest => rest.found host
  | answer s w rest =>
    ((s, w) :: ((rest (host s w)).found host).1, ((rest (host s w)).found host).2)

/-- Answers cut short: what the first comes to, or the end that came without one. -/
def settled (yes : σ → ω → List (σ × ω) × Ending ω B) (no : ω → List (σ × ω) × Ending ω B) :
    List (σ × ω) × Ending ω B → List (σ × ω) × Ending ω B
  | ((s, w) :: _, _) => yes s w
  | ([], .failed w) => no w
  | ([], .thrown w ball) => ([], .thrown w ball)
  | ([], .unfinished) => ([], .unfinished)

/-- Answers that go on after a ball `h` takes. -/
def handled (h : ω → B → Option (List (σ × ω) × Ending ω B)) :
    List (σ × ω) × Ending ω B → List (σ × ω) × Ending ω B
  | (answers, .thrown w ball) =>
    match h w ball with
    | some more => (answers ++ more.1, more.2)
    | none => (answers, .thrown w ball)
  | (answers, .failed w) => (answers, .failed w)
  | (answers, .unfinished) => (answers, .unfinished)

variable (host : σ → ω → ω) (x : Search σ ω B)

theorem found_closed : x.closed.found host = x.found host := by
  induction x with
  | fail w => rfl
  | throw w ball => rfl
  | lost => rfl
  | cut rest ih => exact ih
  | answer s w rest ih => simp only [closed, found, ih]

theorem found_ite (t : σ → ω → Search σ ω B) (e : ω → Search σ ω B) :
    (x.ite t e).found host =
      settled (fun s w => (t s w).found host) (fun w => (e w).found host) (x.found host) := by
  induction x with
  | fail w => rfl
  | throw w ball => rfl
  | lost => rfl
  | cut rest ih => exact ih
  | answer s w rest _ => rfl

theorem settled_begins {yes : σ → ω → List (σ × ω) × Ending ω B}
    {no : ω → List (σ × ω) × Ending ω B} {found : List (σ × ω) × Ending ω B} {s : σ} {w : ω}
    {rest : List (σ × ω)} (first : found.1 = (s, w) :: rest) : settled yes no found = yes s w := by
  obtain ⟨answers, ending⟩ := found
  cases first
  rfl

/-- Answers cut short come of a first answer, of failing or of a ball. -/
theorem settled_ended {yes : σ → ω → List (σ × ω) × Ending ω B}
    {no : ω → List (σ × ω) × Ending ω B} {found r : List (σ × ω) × Ending ω B}
    (ends : settled yes no found = r) (finished : r.2 ≠ .unfinished) :
    (∃ s w rest, found.1 = (s, w) :: rest ∧ r = yes s w) ∨
      (∃ w, found = ([], .failed w) ∧ r = no w) ∨
      ∃ w ball, found = ([], .thrown w ball) ∧ r = ([], .thrown w ball) := by
  obtain ⟨answers, ending⟩ := found
  cases answers with
  | cons a rest => exact .inl ⟨a.1, a.2, rest, rfl, ends.symm⟩
  | nil =>
    cases ending with
    | failed w => exact .inr (.inl ⟨w, rfl, ends.symm⟩)
    | thrown w ball => exact .inr (.inr ⟨w, ball, rfl, ends.symm⟩)
    | unfinished =>
      rw [← ends] at finished
      exact absurd rfl finished

theorem handled_cons (h : ω → B → Option (List (σ × ω) × Ending ω B)) (a : σ × ω)
    (r : List (σ × ω) × Ending ω B) :
    handled h (a :: r.1, r.2) = (a :: (handled h r).1, (handled h r).2) := by
  obtain ⟨answers, ending⟩ := r
  cases ending with
  | failed w => rfl
  | unfinished => rfl
  | thrown w ball =>
    simp only [handled]
    cases h w ball with
    | none => rfl
    | some more => rfl

theorem found_catching (h : ω → B → Option (Search σ ω B)) :
    (x.catching h).found host =
      handled (fun w ball => (h w ball).map (found host)) (x.found host) := by
  induction x with
  | fail w => rfl
  | throw w ball =>
    simp only [catching, found, handled]
    cases h w ball with
    | none => rfl
    | some y => rfl
  | lost => rfl
  | cut rest ih => exact ih
  | answer s w rest ih =>
    simp only [catching, found, ih]
    exact (handled_cons _ _ _).symm

/-- Every answer, however the search is resumed, is at a state of `P`. -/
def Each (P : σ → Prop) : Search σ ω B → Prop
  | fail _ => True
  | throw _ _ => True
  | lost => True
  | cut rest => rest.Each P
  | answer s _ rest => P s ∧ ∀ w, (rest w).Each P

namespace Each

variable {P Q : σ → Prop} {x : Search σ ω B} {f : σ → ω → Search σ ω B} {q : ω → Search σ ω B}

theorem weaken (each : x.Each P) (within : ∀ s, P s → Q s) : x.Each Q := by
  induction x with
  | fail w => trivial
  | throw w ball => trivial
  | lost => trivial
  | cut rest ih => exact ih each
  | answer s w rest ih =>
    constructor
    · exact within s each.1
    · intro w'
      exact ih w' (each.2 w')

theorem orElse (each : x.Each P) (others : ∀ w, (q w).Each P) : (x.orElse q).Each P := by
  induction x with
  | fail w => exact others w
  | throw w ball => trivial
  | lost => trivial
  | cut rest _ => exact each
  | answer s w rest ih =>
    constructor
    · exact each.1
    · intro w'
      exact ih w' (each.2 w')

theorem andThen (each : x.Each P) (goes : ∀ s w, P s → (f s w).Each Q) : (x.andThen f).Each Q := by
  induction x with
  | fail w => trivial
  | throw w ball => trivial
  | lost => trivial
  | cut rest ih => exact ih each
  | answer s w rest ih =>
    apply orElse
    · exact goes s w each.1
    · intro w'
      exact ih w' (each.2 w')

theorem closed (each : x.Each P) : x.closed.Each P := by
  induction x with
  | fail w => trivial
  | throw w ball => trivial
  | lost => trivial
  | cut rest ih => exact ih each
  | answer s w rest ih =>
    constructor
    · exact each.1
    · intro w'
      exact ih w' (each.2 w')

theorem ite (each : x.Each P) (goes : ∀ s w, P s → (f s w).Each Q) (others : ∀ w, (q w).Each Q) :
    (x.ite f q).Each Q := by
  induction x with
  | fail w => exact others w
  | throw w ball => trivial
  | lost => trivial
  | cut rest ih => exact ih each
  | answer s w rest _ => exact goes s w each.1

theorem soft (each : x.Each P) (goes : ∀ s w, P s → (f s w).Each Q) (others : ∀ w, (q w).Each Q) :
    (x.soft f q).Each Q := by
  induction x with
  | fail w => exact others w
  | throw w ball => trivial
  | lost => trivial
  | cut rest ih => exact ih each
  | answer s w rest _ =>
    apply orElse
    · exact goes s w each.1
    · intro w'
      exact (each.2 w').closed.andThen goes

theorem catching {h : ω → B → Option (Search σ ω B)} (each : x.Each P)
    (handles : ∀ w ball y, h w ball = some y → y.Each P) : (x.catching h).Each P := by
  induction x with
  | fail w => trivial
  | throw w ball =>
    unfold Search.catching
    cases taken : h w ball with
    | none => trivial
    | some y => exact handles w ball y taken
  | lost => trivial
  | cut rest ih => exact ih each
  | answer s w rest ih =>
    constructor
    · exact each.1
    · intro w'
      exact ih w' (each.2 w')

theorem all {T : Type} {le : σ → σ → Prop} (refl : ∀ s, le s s)
    (trans : ∀ {s s' s''}, le s s' → le s' s'' → le s s'') {f : σ → ω → T → Search σ ω B}
    (each : ∀ s w g, (f s w g).Each (le s)) (gs : List T) (s : σ) (w : ω) :
    (all f gs s w).Each (le s) := by
  induction gs generalizing s w with
  | nil => exact ⟨refl s, fun _ => trivial⟩
  | cons g gs ih =>
    apply (each s w g).andThen
    intro s' w' grown
    exact (ih s' w').weaken (fun s'' further => trans grown further)

/-- What follows an answer matters only at the states answered. -/
theorem andThen_congr {f' : σ → ω → Search σ ω B} (each : x.Each P)
    (same : ∀ s w, P s → f s w = f' s w) : x.andThen f = x.andThen f' := by
  induction x with
  | fail w => rfl
  | throw w ball => rfl
  | lost => rfl
  | cut rest ih => exact congrArg cut (ih each)
  | answer s w rest ih =>
    have rests : (fun w' => (rest w').andThen f) = fun w' => (rest w').andThen f' := by
      funext w'
      exact ih w' (each.2 w')
    rw [Search.andThen, Search.andThen, same s w each.1, rests]

end Each

theorem ite_begins {t : σ → ω → Search σ ω B} {e : ω → Search σ ω B} {s : σ} {w : ω}
    {more : List (σ × ω)} (first : (x.found host).1 = (s, w) :: more) : x.ite t e = t s w := by
  induction x with
  | fail w => cases first
  | throw w ball => cases first
  | lost => cases first
  | cut rest ih => exact ih first
  | answer s' w' rest _ =>
    cases first
    rfl

theorem ite_ends {t : σ → ω → Search σ ω B} {e : ω → Search σ ω B}
    (none : (x.found host).1 = []) :
    (∃ w, x.ite t e = e w) ∨ (∃ w ball, x.ite t e = throw w ball) ∨ x.ite t e = lost := by
  induction x with
  | fail w => exact .inl ⟨w, rfl⟩
  | throw w ball => exact .inr (.inl ⟨w, ball, rfl⟩)
  | lost => exact .inr (.inr rfl)
  | cut rest ih => exact ih none
  | answer s w rest _ => cases none

/-- A search whose every answer is to be refuted fails just where `y` answers at each of them; it
is resumed in the world that answer of `y` leaves. -/
theorem found_refuted (host' : σ → ω → ω) (y : σ → ω → Search σ ω B)
    (leaves : ∀ s w s' w' more, ((y s w).found host').1 = (s', w') :: more → host s w = w')
    (w' : ω) :
    (x.andThen (fun s w => (y s w).ite (fun _ w => fail w) (fun w => answer s w fail))).found host' =
        ([], .failed w') ↔
      ∃ answers, x.found host = (answers, .failed w') ∧
        ∀ a ∈ answers, ((y a.1 a.2).found host').1 ≠ [] := by
  induction x with
  | fail w =>
    constructor
    · intro same
      cases same
      refine ⟨[], rfl, ?_⟩
      intro a among
      cases among
    · rintro ⟨answers, same, _⟩
      cases same
      rfl
  | throw w ball =>
    constructor
    · intro same
      cases same
    · rintro ⟨answers, same, _⟩
      cases same
  | lost =>
    constructor
    · intro same
      cases same
    · rintro ⟨answers, same, _⟩
      cases same
  | cut rest ih => exact ih
  | answer s w rest ih =>
    rw [andThen, found]
    cases tested : ((y s w).found host').1 with
    | cons a more =>
      have resumed : host s w = a.2 := leaves s w a.1 a.2 more tested
      rw [ite_begins host' (y s w) tested, orElse, ih a.2, resumed]
      constructor
      · rintro ⟨answers, same, every⟩
        rw [same]
        refine ⟨(s, w) :: answers, rfl, ?_⟩
        intro b among
        rcases List.mem_cons.mp among with rfl | older
        · rw [tested]
          exact List.cons_ne_nil _ _
        · exact every b older
      · rintro ⟨answers, same, every⟩
        cases found : (rest a.2).found host with
        | mk answers' ending =>
          rw [found] at same
          cases same
          refine ⟨answers', rfl, ?_⟩
          intro b among
          exact every b (List.mem_cons_of_mem _ among)
    | nil =>
      constructor
      · intro same
        rcases ite_ends host' (y s w) tested (t := fun _ w => fail w)
          (e := fun w => answer s w fail) with ⟨w'', ends⟩ | ⟨w'', ball, ends⟩ | ends
        · rw [ends] at same
          cases same
        · rw [ends] at same
          cases same
        · rw [ends] at same
          cases same
      · rintro ⟨answers, same, every⟩
        obtain ⟨whole, _⟩ := Prod.ext_iff.mp same
        cases whole
        exact absurd tested (every (s, w) List.mem_cons_self)

theorem closed_andThen_answer : x.closed.andThen (fun s w => answer s w fail) = x.closed := by
  induction x with
  | fail w => rfl
  | throw w ball => rfl
  | lost => rfl
  | cut rest ih => exact ih
  | answer s w rest ih =>
    have rests : (fun w' => (rest w').closed.andThen (fun s w => answer s w fail)) =
        fun w' => (rest w').closed := by
      funext w'
      exact ih w'
    exact congrArg (answer s w) rests

/-- The alternative of a search that commits to nothing goes on where it failed. -/
theorem found_orElse {q : ω → Search σ ω B} {answers : List (σ × ω)} {w : ω}
    (failed : x.found host = (answers, .failed w)) :
    (x.closed.orElse q).found host =
      (answers ++ ((q w).found host).1, ((q w).found host).2) := by
  induction x generalizing answers with
  | fail w' =>
    cases failed
    rfl
  | throw w' ball => cases failed
  | lost => cases failed
  | cut rest ih => exact ih failed
  | answer s w' rest ih =>
    obtain ⟨whole, end_⟩ := Prod.ext_iff.mp failed
    have later := ih (host s w') (Prod.ext rfl end_)
    rw [closed, orElse, found, later]
    cases whole
    rfl

/-- Where each answer of `x` goes on with a search that ends by failing, and resumes `x` in the
world that leaves, the answers are those of these searches in turn. -/
theorem found_loops {y : σ → ω → Search σ ω B} {after : σ → ω → ω}
    {each : σ × ω → List (σ × ω)} {answers : List (σ × ω)} {w' : ω}
    (failed : x.found after = (answers, .failed w'))
    (turns : ∀ a ∈ answers, (y a.1 a.2).found host = (each a, .failed (after a.1 a.2))) :
    (x.andThen (fun s w => (y s w).closed)).found host = (answers.flatMap each, .failed w') := by
  induction x generalizing answers with
  | fail w =>
    cases failed
    rfl
  | throw w ball => cases failed
  | lost => cases failed
  | cut rest ih => exact ih failed turns
  | answer s w rest ih =>
    obtain ⟨whole, end_⟩ := Prod.ext_iff.mp failed
    cases whole
    have later := ih (after s w) (Prod.ext rfl end_)
      (fun a among => turns a (List.mem_cons_of_mem _ among))
    rw [andThen, found_orElse host (y s w) (turns (s, w) List.mem_cons_self), later]
    rfl

end Search

/-- What each of finitely many comes to in the end, they all come to together. -/
theorem eventually_all {α : Type} (xs : List α) (P : α → Nat → Prop)
    (every : ∀ x ∈ xs, ∃ n, ∀ m, n ≤ m → P x m) : ∃ n, ∀ m, n ≤ m → ∀ x ∈ xs, P x m := by
  induction xs with
  | nil =>
    refine ⟨0, ?_⟩
    intro m _ x among
    cases among
  | cons x rest ih =>
    obtain ⟨n, later⟩ := ih (fun y among => every y (List.mem_cons_of_mem _ among))
    obtain ⟨n', now⟩ := every x List.mem_cons_self
    refine ⟨max n n', ?_⟩
    intro m le y among
    rcases List.mem_cons.mp among with rfl | older
    · exact now m (Nat.le_trans (Nat.le_max_right n n') le)
    · exact later m (Nat.le_trans (Nat.le_max_left n n') le) y older

/-- The answers of `a` are the first of `b`'s, and all of them once `a` has ended. -/
def Upto {A ω B : Type} (a b : List A × Ending ω B) : Prop :=
  (a.2 = .unfinished ∧ a.1 <+: b.1) ∨ a = b

namespace Upto

variable {A ω B : Type} {a b : List A × Ending ω B}

theorem nothing (b : List A × Ending ω B) : Upto ([], .unfinished) b := by
  left
  constructor
  · rfl
  · exact List.nil_prefix

theorem cons (x : A) (upto : Upto a b) : Upto (x :: a.1, a.2) (x :: b.1, b.2) := by
  rcases upto with ⟨open_, first⟩ | same
  · left
    constructor
    · exact open_
    · exact List.cons_prefix_cons.mpr ⟨rfl, first⟩
  · right
    rw [same]

theorem ended (upto : Upto a b) (finished : a.2 ≠ .unfinished) : a = b := by
  rcases upto with ⟨open_, _⟩ | same
  · exact absurd open_ finished
  · exact same

/-- An answer one has made is made by the other. -/
theorem begins (upto : Upto a b) {x : A} {rest : List A} (first : a.1 = x :: rest) :
    ∃ more, b.1 = x :: more := by
  rcases upto with ⟨_, more, whole⟩ | same
  · rw [first] at whole
    exact ⟨rest ++ more, whole.symm⟩
  · rw [← same]
    exact ⟨rest, first⟩

end Upto

end Cocolog.Lib
