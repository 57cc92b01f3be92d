import Cocolog.Lib.Answers
import Mathlib.Data.List.Infix

/-! Goals that take from a source and hand on what is left of it. Such a goal is exact for a
text when it takes that text, no more and no less, whatever follows, and has no answer where
a source that can be at its end holds only a part. Exact goals one after the other are exact
for their texts one after the other. -/

set_option linter.all false

namespace Cocolog.Lib

/-- What a goal sees of a source: the entries to come, and what no goal changes of it. -/
structure Feed (σ ι φ : Type) where
  coming : σ → List ι
  frame : σ → φ
  /-- The source is at its end after what is to come. -/
  ends : φ → Prop

namespace Feed

variable {σ ι φ ε α β : Type} (F : Feed σ ι φ)

structure Exact (p : σ → Answers ε (α × σ)) (w : List ι) (a : α) : Prop where
  whole : ∀ s rest, F.coming s = w ++ rest →
    ∃ s', p s = .one (a, s') ∧ F.coming s' = rest ∧ F.frame s' = F.frame s
  short : ∀ s, F.ends (F.frame s) → F.coming s <+: w → F.coming s ≠ w → p s = .fail

variable {F} {p : σ → Answers ε (α × σ)} {f : α × σ → Answers ε (β × σ)} {w v : List ι} {a : α} {b : β}

theorem Exact.done (a : α) : F.Exact (ε := ε) (fun s => .one (a, s)) [] a where
  whole s rest comes := ⟨s, rfl, comes, rfl⟩
  short _ _ before other := absurd (List.prefix_nil.mp before) other

theorem Exact.bind (first : F.Exact p w a) (next : F.Exact (fun s => f (a, s)) v b) :
    F.Exact (fun s => p s >>= f) (w ++ v) b where
  whole s rest comes := by
    rw [List.append_assoc] at comes
    obtain ⟨s₁, one, left, frame⟩ := first.whole s _ comes
    obtain ⟨s₂, two, left', frame'⟩ := next.whole s₁ rest left
    refine ⟨s₂, ?_, left', frame'.trans frame⟩
    show (p s >>= f) = _
    rw [one, Answers.one_bind]
    exact two
  short s ends before other := by
    show (p s >>= f) = _
    by_cases enough : w <+: F.coming s
    · obtain ⟨u, comes⟩ := enough
      obtain ⟨s₁, one, left, frame⟩ := first.whole s u comes.symm
      rw [one, Answers.one_bind]
      rw [← comes] at before other
      refine next.short s₁ (frame ▸ ends) ?_ ?_
      · rw [left]
        exact (List.prefix_append_right_inj w).mp before
      · rw [left]
        rintro rfl
        exact other rfl
    · have part : F.coming s <+: w := by
        rcases List.prefix_or_prefix_of_prefix before (List.prefix_append w v) with part | whole
        · exact part
        · exact absurd whole enough
      rw [first.short s ends part fun same => enough (same ▸ List.prefix_rfl), Answers.fail_bind]

/-- Goals that agree on every source. -/
theorem Exact.congr {p' : σ → Answers ε (α × σ)} (exact_ : F.Exact p w a) (same : ∀ s, p' s = p s) :
    F.Exact p' w a where
  whole s rest comes := same s ▸ exact_.whole s rest comes
  short s ends before other := (same s).trans (exact_.short s ends before other)

end Feed
end Cocolog.Lib
