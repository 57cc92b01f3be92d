import Cocolog.Engine.Frames

/-! When a run carries a search out. The run stands over frames that are not the search's; an
answer leaves frames of its own over them, catches nothing with them, and whatever has become of
the frames under them meanwhile, failing into its own goes on as the rest of the search does.
Each way of putting searches together is met by the frames the engine makes for it. -/

set_option linter.all false

namespace Cocolog.Engine

open Cocolog.Lib

variable {σ ω T B C : Type}

namespace Memory

section Takes

variable {M : Type} {mem : Memory σ M ω T B C} {o o' o'' : Outcome σ M ω T B C} {n m : Nat}

theorem Takes.trans (first : mem.Takes n o o') (then_ : mem.Takes m o' o'') :
    mem.Takes (n + m) o o'' := by
  induction n generalizing o with
  | zero =>
    cases first
    rw [Nat.zero_add]
    exact then_
  | succ n ih =>
    rw [Nat.succ_add]
    cases o with
    | goes e => exact ih first
    | solved e => cases first
    | no s w => cases first
    | uncaught s w ball => cases first

theorem Takes.one {e : State σ M ω T C} (step : mem.step e = o) : mem.Takes 1 (.goes e) o :=
  step

/-- Before its last turn a run goes on. -/
theorem Takes.before (takes : mem.Takes n o o') {j : Nat} (lt : j < n) :
    ∃ e, mem.Takes j o (.goes e) := by
  induction n generalizing o j with
  | zero => cases lt
  | succ n ih =>
    cases o with
    | goes e =>
      cases j with
      | zero => exact ⟨e, rfl⟩
      | succ j => exact ih takes (Nat.lt_of_succ_lt_succ lt)
    | solved e => cases takes
    | no s w => cases takes
    | uncaught s w ball => cases takes

end Takes

variable (mem : Memory σ σ ω T B C)

/-- `choices` are the frames the search was entered over, `k` what follows an answer, `b` the
frames a commitment leaves; where the search is lost the run takes `d` turns at least. -/
def Fulfils : Search σ ω B → List (Choice σ T C) → List (Pending T) → Nat → Nat →
    Outcome σ σ ω T B C → Prop
  | .fail w, choices, _, _, _, o => ∃ n s, mem.Takes n o (mem.backtrack s w choices)
  | .throw w ball, choices, _, _, _, o => ∃ n s, mem.Takes n o (mem.throw_ s w ball choices)
  | .lost, _, _, _, d, o => ∀ n < d, ∃ e, mem.Takes n o (.goes e)
  | .cut rest, choices, k, b, d, o => Fulfils rest (cutTo b choices) k b d o
  | .answer s w rest, choices, k, b, d, o =>
    ∃ n own, mem.Takes n o (.goes ⟨s, w, k, own ++ choices⟩) ∧
      (∀ c ∈ own, c.kind ≠ .catch_) ∧
      (own.any (fun c => c.kind.live) = false → ∀ w', rest w' = .fail w') ∧
      ∀ choices' w' s', choices'.length = choices.length →
        Fulfils (rest w') choices' k b (d - n) (mem.backtrack s' w' (own ++ choices'))

namespace Fulfils

variable {mem : Memory σ σ ω T B C} {x : Search σ ω B} {choices own : List (Choice σ T C)}
  {k k' : List (Pending T)} {b d : Nat} {o o' : Outcome σ σ ω T B C}

/-- Fewer turns are asked of a lost search. -/
theorem fewer (fulfils : mem.Fulfils x choices k b d o) {d' : Nat} (le : d' ≤ d) :
    mem.Fulfils x choices k b d' o := by
  induction x generalizing choices d d' o with
  | fail w => exact fulfils
  | throw w ball => exact fulfils
  | lost =>
    intro n lt
    exact fulfils n (Nat.lt_of_lt_of_le lt le)
  | cut rest ih => exact ih fulfils le
  | answer s w rest ih =>
    obtain ⟨n, own, reached, quiet, spent, resumes⟩ := fulfils
    refine ⟨n, own, reached, quiet, spent, ?_⟩
    intro choices' w' s' same
    apply ih w' (resumes choices' w' s' same)
    omega

/-- Turns taken before. -/
theorem after {n : Nat} (takes : mem.Takes n o o')
    (fulfils : mem.Fulfils x choices k b (d - n) o') :
    mem.Fulfils x choices k b d o := by
  induction x generalizing choices with
  | fail w =>
    obtain ⟨m, s, reached⟩ := fulfils
    exact ⟨n + m, s, takes.trans reached⟩
  | throw w ball =>
    obtain ⟨m, s, reached⟩ := fulfils
    exact ⟨n + m, s, takes.trans reached⟩
  | lost =>
    intro m lt
    rcases Nat.lt_or_ge m n with before | past
    · exact takes.before before
    · obtain ⟨e, reached⟩ := fulfils (m - n) (by omega)
      refine ⟨e, ?_⟩
      rw [← Nat.add_sub_of_le past]
      exact takes.trans reached
  | cut rest ih => exact ih fulfils
  | answer s w rest ih =>
    obtain ⟨m, own, reached, quiet, spent, resumes⟩ := fulfils
    refine ⟨n + m, own, takes.trans reached, quiet, spent, ?_⟩
    intro choices' w' s' same
    rw [← Nat.sub_sub]
    exact resumes choices' w' s' same

/-- One turn from a state that goes on. -/
theorem turn {e : State σ σ ω T C} (fulfils : mem.Fulfils x choices k b d (mem.step e)) :
    mem.Fulfils x choices k b (d + 1) (.goes e) :=
  after (n := 1) rfl fulfils

theorem failed (s : σ) (w : ω) : mem.Fulfils (.fail w) choices k b d (mem.backtrack s w choices) :=
  ⟨0, s, rfl⟩

theorem thrown (s : σ) (w : ω) (ball : B) :
    mem.Fulfils (.throw w ball) choices k b d (mem.throw_ s w ball choices) :=
  ⟨0, s, rfl⟩

/-- An answer that leaves no frame. -/
theorem yes (s : σ) (w : ω) :
    mem.Fulfils (.answer s w .fail) choices k b d (.goes ⟨s, w, k, choices⟩) := by
  refine ⟨0, [], rfl, ?_, ?_, ?_⟩
  · intro c none
    cases none
  · intro _ w'
    rfl
  · intro choices' w' s' _
    exact failed s' w'

/-- A search kept to itself runs under a barrier of its own. -/
theorem closed (fulfils : mem.Fulfils x choices k choices.length d o) :
    mem.Fulfils x.closed choices k b d o := by
  induction x generalizing choices d o with
  | fail w => exact fulfils
  | throw w ball => exact fulfils
  | lost => exact fulfils
  | cut rest ih =>
    rw [Fulfils, cutTo_length] at fulfils
    exact ih fulfils
  | answer s w rest ih =>
    obtain ⟨n, own, reached, quiet, spent, resumes⟩ := fulfils
    refine ⟨n, own, reached, quiet, ?_, ?_⟩
    · intro none w'
      simp only [spent none w']
      rfl
    · intro choices' w' s' same
      apply ih
      rw [same]
      exact resumes choices' w' s' same

/-- The alternative waits in the frames `own` over the others. -/
theorem orElse (own : List (Choice σ T C)) {q : ω → Search σ ω B} (within : b ≤ choices.length)
    (fulfils : mem.Fulfils x (own ++ choices) k b d o) (quiet : ∀ c ∈ own, c.kind ≠ .catch_)
    (spent : own.any (fun c => c.kind.live) = false → ∀ w', q w' = .fail w')
    (resumes : ∀ choices' w' s', choices'.length = choices.length →
      mem.Fulfils (q w') choices' k b d (mem.backtrack s' w' (own ++ choices'))) :
    mem.Fulfils (x.orElse q) choices k b d o := by
  induction x generalizing choices d o with
  | fail w =>
    obtain ⟨n, s, takes⟩ := fulfils
    apply after takes
    exact (resumes choices w s rfl).fewer (Nat.sub_le d n)
  | throw w ball =>
    obtain ⟨n, s, takes⟩ := fulfils
    obtain ⟨s', past⟩ := mem.throw_over s w ball quiet choices
    rw [past] at takes
    exact ⟨n, s', takes⟩
  | lost => exact fulfils
  | cut rest ih =>
    rw [Fulfils, cutTo_over own choices within] at fulfils
    exact fulfils
  | answer s w rest ih =>
    obtain ⟨n, more, takes, quiet', spent', resumes'⟩ := fulfils
    refine ⟨n, more ++ own, ?_, ?_, ?_, ?_⟩
    · rw [List.append_assoc]
      exact takes
    · intro c among
      rcases List.mem_append.mp among with newer | older
      · exact quiet' c newer
      · exact quiet c older
    · intro none w'
      rw [List.any_append, Bool.or_eq_false_iff] at none
      simp only [spent' none.1 w']
      exact spent none.2 w'
    · intro choices' w' s' same
      apply ih w'
      · rw [same]
        exact within
      · rw [List.append_assoc]
        apply resumes' (own ++ choices')
        rw [List.length_append, List.length_append, same]
      · intro choices'' w'' s'' same'
        exact (resumes choices'' w'' s'' (same'.trans same)).fewer (Nat.sub_le d n)

/-- What an answer goes on with runs over the frames the answer left. -/
theorem andThen {f : σ → ω → Search σ ω B} (within : b ≤ choices.length)
    (fulfils : mem.Fulfils x choices k' b d o)
    (goes : ∀ s w (choices : List (Choice σ T C)), b ≤ choices.length →
      mem.Fulfils (f s w) choices k b d (.goes ⟨s, w, k', choices⟩)) :
    mem.Fulfils (x.andThen f) choices k b d o := by
  induction x generalizing choices d o with
  | fail w => exact fulfils
  | throw w ball => exact fulfils
  | lost => exact fulfils
  | cut rest ih =>
    apply ih _ fulfils goes
    exact Nat.le_of_eq (length_cutTo choices within).symm
  | answer s w rest ih =>
    obtain ⟨n, own, takes, quiet, spent, resumes⟩ := fulfils
    apply after takes
    apply orElse own within
    · apply (goes s w (own ++ choices) _).fewer (Nat.sub_le d n)
      rw [List.length_append]
      omega
    · exact quiet
    · intro none w'
      simp only [spent none w']
      rfl
    · intro choices' w' s' same
      apply ih w'
      · rw [same]
        exact within
      · exact resumes choices' w' s' same
      · intro s w choices within
        exact (goes s w choices within).fewer (Nat.sub_le d n)

/-- The goals of a body, one after another under one barrier. -/
theorem all {f : σ → ω → T → Search σ ω B}
    (goal : ∀ s w g k (choices : List (Choice σ T C)), b ≤ choices.length →
      mem.Fulfils (f s w g) choices k b d (.goes ⟨s, w, ⟨.goal g, b⟩ :: k, choices⟩))
    (gs : List T) (s : σ) (w : ω) (choices : List (Choice σ T C)) (within : b ≤ choices.length) :
    mem.Fulfils (Search.all f gs s w) choices k b d (.goes ⟨s, w, pushGoals gs b k, choices⟩) := by
  induction gs generalizing s w choices with
  | nil => exact yes s w
  | cons g gs ih =>
    have first : mem.Fulfils (f s w g) choices (pushGoals gs b k) b d
        (.goes ⟨s, w, pushGoals (g :: gs) b k, choices⟩) := goal s w g _ choices within
    exact andThen within first ih

end Fulfils

end Memory

end Cocolog.Engine
