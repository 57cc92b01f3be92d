import Cocolog.Engine.Fulfils

/-! The control constructs carry their searches out: the conditions under `$cut` and
`$softcut`, the goal of a `catch/3` with its exit marker, and a call's clauses. -/

set_option linter.all false

namespace Cocolog.Engine

open Cocolog.Lib

variable {σ ω T B C : Type}

namespace Memory.Fulfils

variable {mem : Memory σ σ ω T B C} {x : Search σ ω B} {choices : List (Choice σ T C)}
  {c : Choice σ T C} {k k' : List (Pending T)} {b b' d : Nat} {o : Outcome σ σ ω T B C}

/-- `$cut` takes the frame of the alternative with everything the condition left. -/
theorem ite {f : σ → ω → Search σ ω B} {e : ω → Search σ ω B} (alone : c.kind ≠ .catch_)
    (fulfils : mem.Fulfils x (c :: choices) (⟨.cut choices.length, b'⟩ :: k')
      (choices.length + 1) d o)
    (goes : ∀ s w, mem.Fulfils (f s w) choices k b d (.goes ⟨s, w, k', choices⟩))
    (els : ∀ s w, mem.Fulfils (e w) choices k b d (mem.backtrack s w (c :: choices))) :
    mem.Fulfils (x.ite f e) choices k b d o := by
  induction x generalizing o with
  | fail w =>
    obtain ⟨n, s, takes⟩ := fulfils
    apply after takes
    exact (els s w).fewer (Nat.sub_le d n)
  | throw w ball =>
    obtain ⟨n, s, takes⟩ := fulfils
    rw [mem.throw_past s w choices ball alone] at takes
    exact ⟨n, _, takes⟩
  | lost => exact fulfils
  | cut rest ih =>
    rw [Fulfils, cutTo_under choices c rfl] at fulfils
    exact ih fulfils
  | answer s w rest _ =>
    obtain ⟨n, own, takes, _⟩ := fulfils
    have committed : mem.Takes (n + 1) o (.goes ⟨s, w, k', choices⟩) := by
      apply takes.trans
      apply Takes.one
      rw [mem.step_cut, List.append_cons, cutTo_all]
    apply after committed
    exact (goes s w).fewer (Nat.sub_le d (n + 1))

/-- The catch of a goal: off while the goal is out by an answer, and on again when anything
fails back into it. -/
theorem catching {h : ω → B → Option (Search σ ω B)} {m : Nat} (catches : c.kind = .catch_)
    (height : choices.length = m)
    (fulfils : mem.Fulfils x (c :: choices) (⟨.catchExit m, b'⟩ :: k) (m + 1) d o)
    (handled : ∀ (choices : List (Choice σ T C)) s w ball, choices.length = m →
      mem.Fulfils ((h w ball).getD (.throw w ball)) choices k b d
        (mem.throw_ s w ball (c :: choices))) :
    mem.Fulfils (x.catching h) choices k b d o := by
  induction x generalizing choices d o with
  | fail w =>
    obtain ⟨n, s, takes⟩ := fulfils
    rw [mem.backtrack_catch s w choices catches] at takes
    exact ⟨n, _, takes⟩
  | throw w ball =>
    obtain ⟨n, s, takes⟩ := fulfils
    apply after takes
    exact (handled choices s w ball height).fewer (Nat.sub_le d n)
  | lost => exact fulfils
  | cut rest ih =>
    rw [Fulfils, cutTo_under choices c height] at fulfils
    exact ih height fulfils handled
  | answer s w rest ih =>
    obtain ⟨n, own, takes, quiet, spent, resumes⟩ := fulfils
    have fewer : d - (n + 1) ≤ d := Nat.sub_le d (n + 1)
    cases live : own.any (fun c => c.kind.live) with
    | false =>
      refine ⟨n + 1, [], ?_, ?_, ?_, ?_⟩
      · apply takes.trans
        apply Takes.one
        rw [mem.step_catchExit, ← height, mem.catchExit_still choices _ rfl catches live]
        rfl
      · intro c' none
        cases none
      · intro _ w'
        simp only [spent live w']
        rfl
      · intro choices' w' s' _
        simp only [spent live w']
        exact failed s' w'
    | true =>
      refine ⟨n + 1, { mem.frame ⟨s, w, k, own ++ c :: choices⟩ .catchRetry .none k b' with
        target := m } :: own ++ [{ c with kind := .dead }], ?_, ?_, ?_, ?_⟩
      · apply takes.trans
        apply Takes.one
        rw [mem.step_catchExit, ← height, mem.catchExit_live choices _ rfl catches live]
        rw [List.cons_append, List.cons_append, ← List.append_cons]
      · intro c' among
        rcases List.mem_append.mp among with newer | same
        · rcases List.mem_cons.mp newer with rfl | inside
          · exact Kind.noConfusion
          · exact quiet c' inside
        · rw [List.mem_singleton.mp same]
          exact Kind.noConfusion
      · intro none
        rw [List.cons_append, List.any_cons, List.any_append, live] at none
        simp at none
      · intro choices' w' s' same
        rw [List.cons_append, List.cons_append, ← List.append_cons]
        rw [mem.backtrack_retry s' w' _ rfl]
        have again : ({ c with kind := .catch_ } : Choice σ T C) = c := by
          cases c
          cases catches
          rfl
        have height' : choices'.length = m := same.trans height
        apply ih w' height'
        · rw [← height', revive_dead own choices' _ rfl, again, height']
          apply (resumes (c :: choices') w' _ _).fewer
          · omega
          · rw [List.length_cons, List.length_cons, same]
        · intro choices s w ball height
          exact (handled choices s w ball height).fewer fewer

/-- Once the alternative is dead, `$softcut` finds nothing to take. -/
theorem softDead {f : σ → ω → Search σ ω B} {h : Nat} (dead : c.kind = .dead)
    (height : choices.length = h) (within : b ≤ h)
    (fulfils : mem.Fulfils x (c :: choices) (⟨.softcut h, b'⟩ :: k') (h + 1) d o)
    (goes : ∀ s w (choices : List (Choice σ T C)), b ≤ choices.length →
      mem.Fulfils (f s w) choices k b d (.goes ⟨s, w, k', choices⟩)) :
    mem.Fulfils (x.closed.andThen f) choices k b d o := by
  have quiet : c.kind ≠ .catch_ := by
    rw [dead]
    exact Kind.noConfusion
  induction x generalizing choices d o with
  | fail w =>
    obtain ⟨n, s, takes⟩ := fulfils
    rw [mem.backtrack_dead s w choices dead] at takes
    exact ⟨n, _, takes⟩
  | throw w ball =>
    obtain ⟨n, s, takes⟩ := fulfils
    rw [mem.throw_past s w choices ball quiet] at takes
    exact ⟨n, _, takes⟩
  | lost => exact fulfils
  | cut rest ih =>
    rw [Fulfils, cutTo_under choices c height] at fulfils
    exact ih height fulfils goes
  | answer s w rest ih =>
    obtain ⟨n, own, takes, quiet', spent, resumes⟩ := fulfils
    have past : mem.Takes (n + 1) o (.goes ⟨s, w, k', own ++ c :: choices⟩) := by
      apply takes.trans
      apply Takes.one
      rw [mem.step_softcut, ← height, softcut_other]
      rw [dead]
      exact Kind.noConfusion
    have fewer : d - (n + 1) ≤ d := Nat.sub_le d (n + 1)
    apply after past
    rw [List.append_cons]
    apply orElse (own ++ [c])
    · rw [height]
      exact within
    · apply (goes s w (own ++ [c] ++ choices) _).fewer fewer
      rw [List.length_append, height]
      omega
    · intro c' among
      rcases List.mem_append.mp among with newer | same
      · exact quiet' c' newer
      · rw [List.mem_singleton.mp same]
        exact quiet
    · intro none w'
      rw [List.any_append, Bool.or_eq_false_iff] at none
      simp only [spent none.1 w']
      rfl
    · intro choices' w' s' same
      rw [← List.append_cons]
      apply ih w' (same.trans height)
      · apply (resumes (c :: choices') w' s' _).fewer
        · omega
        · rw [List.length_cons, List.length_cons, same]
      · intro s w choices within
        exact (goes s w choices within).fewer fewer

/-- `$softcut` kills the alternative alone, and what the condition left stays. -/
theorem soft {f : σ → ω → Search σ ω B} {e : ω → Search σ ω B} (goal : c.kind = .goal)
    (within : b ≤ choices.length)
    (fulfils : mem.Fulfils x (c :: choices) (⟨.softcut choices.length, b'⟩ :: k')
      (choices.length + 1) d o)
    (goes : ∀ s w (choices : List (Choice σ T C)), b ≤ choices.length →
      mem.Fulfils (f s w) choices k b d (.goes ⟨s, w, k', choices⟩))
    (els : ∀ s w, mem.Fulfils (e w) choices k b d (mem.backtrack s w (c :: choices))) :
    mem.Fulfils (x.soft f e) choices k b d o := by
  induction x generalizing o with
  | fail w =>
    obtain ⟨n, s, takes⟩ := fulfils
    apply after takes
    exact (els s w).fewer (Nat.sub_le d n)
  | throw w ball =>
    obtain ⟨n, s, takes⟩ := fulfils
    rw [mem.throw_past s w choices ball] at takes
    · exact ⟨n, _, takes⟩
    · rw [goal]
      exact Kind.noConfusion
  | lost => exact fulfils
  | cut rest ih =>
    rw [Fulfils, cutTo_under choices c rfl] at fulfils
    exact ih fulfils
  | answer s w rest _ =>
    obtain ⟨n, own, takes, quiet, spent, resumes⟩ := fulfils
    have past : mem.Takes (n + 1) o
        (.goes ⟨s, w, k', own ++ { c with kind := .dead } :: choices⟩) := by
      apply takes.trans
      apply Takes.one
      rw [mem.step_softcut, softcut_goal own choices c goal]
    have fewer : d - (n + 1) ≤ d := Nat.sub_le d (n + 1)
    apply after past
    rw [List.append_cons]
    apply orElse (own ++ [{ c with kind := .dead }]) within
    · apply (goes s w _ _).fewer fewer
      rw [List.length_append]
      omega
    · intro c' among
      rcases List.mem_append.mp among with newer | same
      · exact quiet c' newer
      · rw [List.mem_singleton.mp same]
        exact Kind.noConfusion
    · intro none w'
      rw [List.any_append, Bool.or_eq_false_iff] at none
      simp only [spent none.1 w']
      rfl
    · intro choices' w' s' same
      rw [← List.append_cons]
      apply softDead (c := { c with kind := .dead }) rfl same within
      · apply (resumes ({ c with kind := .dead } :: choices') w' s' _).fewer
        · omega
        · rw [List.length_cons, List.length_cons, same]
      · intro s w choices within
        exact (goes s w choices within).fewer fewer

variable (kept : Kept mem)
include kept

/-- The candidates of a call, from the frame they wait in. -/
theorem choose {f : σ → ω → T → Search σ ω B} {g : T} {m : Nat}
    (goal : ∀ s w g k (choices : List (Choice σ T C)), m ≤ choices.length →
      mem.Fulfils (f s w g) choices k m d (.goes ⟨s, w, ⟨.goal g, m⟩ :: k, choices⟩))
    (left : List C) (clause : c.kind = .clause) (call : c.call = .item (.goal g))
    (height : choices.length = m) (s : σ) (w : ω) :
    mem.Fulfils (mem.choose f c.mark g left w) choices c.goals m d
      (enters (mem.selectClause c.mark w c g choices left) (mem.backtrack s w choices)) := by
  induction left generalizing c choices s w with
  | nil => exact failed s w
  | cons cl left ih =>
    rw [Memory.choose, Memory.selectClause]
    cases entered : mem.tryClause c.mark g cl with
    | none => exact ih clause call height s w
    | some entry =>
      obtain ⟨s', body⟩ := entry
      cases left with
      | nil =>
        apply orElse [] (Nat.le_of_eq height.symm)
        · rw [height]
          exact all goal body s' w choices (Nat.le_of_eq height.symm)
        · intro c' none
          cases none
        · intro _ w'
          rfl
        · intro choices' w' s'' _
          exact failed s'' w'
      | cons next left =>
        apply orElse [{ c with left := next :: left }] (Nat.le_of_eq height.symm)
        · rw [height]
          apply all goal body s' w
          rw [List.length_append, height]
          omega
        · intro c' among
          rw [List.mem_singleton.mp among, clause]
          exact Kind.noConfusion
        · intro none
          rw [List.any_cons, clause] at none
          simp [Kind.live] at none
        · intro choices' w' s'' same
          rw [List.singleton_append]
          rw [mem.backtrack_clause (c := { c with left := next :: left }) s'' w' choices' clause
            call]
          rw [kept.back]
          exact ih (c := { c with left := next :: left }) clause call (same.trans height) c.mark w'

end Memory.Fulfils

end Cocolog.Engine
