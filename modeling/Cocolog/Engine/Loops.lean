import Cocolog.Engine.Forall

/-! Conjunctions as nested loops: the second goal is run through at each answer of the first,
which is resumed in the world that leaves. -/

set_option linter.all false

namespace Cocolog.Engine

open Cocolog.Lib

variable {σ M ω T B C : Type}

namespace Memory

section Loops

variable {mem : Memory σ M ω T B C} {le : σ → σ → Prop} {host : σ → ω → ω} {s : σ} {w : ω}
  {goal first g t : T}

/-- The search of `(A, call(B))`, one call deep. -/
theorem solve_loops (restores : Restores mem le)
    (came : ∀ s', le s s' → mem.view s' g = .call t ∧ mem.unfit s' t = none)
    (view : mem.view s goal = .conj first g) (n : Nat) :
    mem.solve (n + 2) s w goal =
      (mem.solve (n + 1) s w first).andThen (fun s w => (mem.solve n s w t).closed) := by
  have spine : mem.spine s 63 goal = [first, g] := by
    simp only [spine, view, (came s (restores.refl s)).1]
  rw [solve]
  simp only [view, spine]
  apply (solve_came restores (n + 1) s w first).andThen_congr
  intro s' w' grown
  have last : mem.solve (n + 1) s' w' g = (mem.solve n s' w' t).closed := by
    rw [solve]
    simp only [(came s' grown).1, guarded, (came s' grown).2]
  rw [Search.all, last]
  exact Search.closed_andThen_answer _

/-- `(A, call(B))` runs through `B` at each answer of `A`: where `A`'s run, resumed each time in
the world `B`'s failing there left, ends by failing, its answers are those of `B` in turn. -/
theorem conj_loops (restores : Restores mem le)
    (came : ∀ s', le s s' → mem.view s' g = .call t ∧ mem.unfit s' t = none)
    (view : mem.view s goal = .conj first g) {after : σ → ω → ω}
    {each : σ × ω → List (σ × ω)} {answers : List (σ × ω)} {w' : ω}
    (ends : mem.Ends after s w first (answers, .failed w'))
    (turns : ∀ a ∈ answers, mem.Ends host a.1 a.2 t (each a, .failed (after a.1 a.2))) :
    mem.Ends host s w goal (answers.flatMap each, .failed w') := by
  obtain ⟨n, found⟩ := ends_from restores ends
  obtain ⟨n', each_⟩ := eventually_all answers
    (fun a m => (mem.solve m a.1 a.2 t).found host = (each a, .failed (after a.1 a.2)))
    (fun a among => ends_from restores (turns a among))
  apply ends_of restores (n := max n n' + 2) _ (Ending.failed_over w')
  rw [solve_loops restores came view]
  apply Search.found_loops
  · exact found _ (Nat.le_trans (Nat.le_max_left n n') (Nat.le_succ _))
  · exact each_ _ (Nat.le_max_right n n')

end Loops

theorem conj_loops_pred :
    ∃ answers, Script.memory.Ends (fun _ w => w) Script.blank ()
      (.construct (.conj (.pred [.unify 0 2, .unify 0 1])
        (.construct (.call (.pred [.unify 0 1, .unify 0 2]))))) (answers, .failed ()) ∧
      Script.held answers = [.ref 2, .ref 1] := by
  have run : ∃ answers, Script.memory.Ends (fun _ w => w) Script.blank ()
        (.pred [.unify 0 2, .unify 0 1]) (answers, .failed ()) ∧
      (∀ a ∈ answers, (Script.memory.asked (fun _ w => w) 20
        (ask a.1 a.2 (.pred [.unify 0 1, .unify 0 2]))).2 = .failed ()) ∧
      Script.held (answers.flatMap (fun a => (Script.memory.asked (fun _ w => w) 20
        (ask a.1 a.2 (.pred [.unify 0 1, .unify 0 2]))).1)) = [.ref 2, .ref 1] := by
    refine ⟨_, ⟨Ending.failed_over _, 20, Prod.ext rfl ?_⟩, ?_, ?_⟩
    · decide
    · decide
    · decide
  obtain ⟨answers, ends, over_, held⟩ := run
  refine ⟨_, ?_, held⟩
  apply conj_loops Script.overCells.restores (t := .pred [.unify 0 1, .unify 0 2])
    (g := .construct (.call (.pred [.unify 0 1, .unify 0 2]))) _ rfl ends
  · intro a among
    exact ⟨Ending.failed_over _, 20, Prod.ext rfl (over_ a among)⟩
  · intro s' _
    exact ⟨rfl, rfl⟩

end Memory

end Cocolog.Engine
