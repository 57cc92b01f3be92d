import Cocolog.Gc.Collect

/-! The engines after a collection: the same ones, each root where its cell went, each
barrier with its two marks rewritten. -/

set_option linter.all false

namespace Cocolog.Gc

namespace Engine

theorem barriers_moveRoots (x : Engine) (cell mark : Nat → Nat) (innermost outermost : Bool) :
    (x.moveRoots cell mark innermost outermost).barriers outermost =
      (x.barriers outermost).map fun b => (b.1, mark b.2) := by
  cases outermost with
  | true => simp [barriers, moveRoots, Function.comp_def]
  | false => simp [barriers, moveRoots, Function.comp_def]

theorem roots_moveRoots (x : Engine) (cell mark : Nat → Nat) (innermost outermost : Bool) :
    (x.moveRoots cell mark innermost outermost).roots innermost =
      (x.roots innermost).map cell := by
  have frames : ∀ cs : List Choice,
      (cs.map fun c => ({ c with
        call := cell c.call
        goals := cell c.goals
        heapMark := mark c.heapMark
        traced := if x.shadows then cell c.traced else c.traced } : Choice)).flatMap
          (fun c => [c.call, c.goals] ++ if x.shadows then [c.traced] else []) =
        (cs.flatMap fun c => [c.call, c.goals] ++ if x.shadows then [c.traced] else []).map cell := by
    intro cs
    induction cs with
    | nil => rfl
    | cons c cs ih =>
      rw [List.map_cons, List.flatMap_cons, List.flatMap_cons, ih, List.map_append]
      cases x.shadows <;> rfl
  unfold roots moveRoots
  dsimp only
  rw [frames]
  cases innermost <;> simp

theorem barriers_setTrailMarks (x : Engine) (outermost : Bool) {marks : List Nat}
    (length : marks.length = (x.barriers outermost).length) :
    (x.setTrailMarks outermost marks).barriers outermost =
      marks.zip ((x.barriers outermost).map Prod.snd) := by
  have frames : ∀ (cs : List Choice) (marks : List Nat), marks.length = cs.length →
      (cs.zipWith (fun c k => { c with trailMark := k }) marks).map
        (fun c => (c.trailMark, c.heapMark)) = marks.zip (cs.map Choice.heapMark) := by
    intro cs
    induction cs with
    | nil =>
      intro marks length
      rw [List.length_eq_zero_iff.mp length]
      rfl
    | cons c cs ih =>
      intro marks length
      cases marks with
      | nil => cases length
      | cons k marks =>
        rw [List.zipWith_cons_cons, List.map_cons, ih marks (Nat.succ.inj length)]
        rfl
  cases outermost with
  | true =>
    simp only [barriers, if_true, List.nil_append, List.length_map] at length ⊢
    simp only [setTrailMarks, if_true, List.map_map]
    exact frames x.choices marks length
  | false =>
    cases marks with
    | nil => simp [barriers] at length
    | cons k marks =>
      simp only [barriers, Bool.false_eq_true, if_false, List.length_append, List.length_map,
        List.length_cons, List.length_nil] at length
      simp only [barriers, setTrailMarks, Bool.false_eq_true, if_false, List.headD_cons,
        List.tail_cons, List.singleton_append, List.map_cons, List.map_map, List.zip_cons_cons]
      rw [frames x.choices marks (by omega)]
      rfl

/-- The trail marks are no roots. -/
theorem roots_setTrailMarks (x : Engine) (outermost innermost : Bool) {marks : List Nat}
    (length : marks.length = (x.barriers outermost).length) :
    (x.setTrailMarks outermost marks).roots innermost = x.roots innermost := by
  have frames : ∀ (cs : List Choice) (marks : List Nat), marks.length = cs.length →
      (cs.zipWith (fun c k => ({ c with trailMark := k } : Choice)) marks).flatMap
        (fun c => [c.call, c.goals] ++ if x.shadows then [c.traced] else []) =
        cs.flatMap fun c => [c.call, c.goals] ++ if x.shadows then [c.traced] else [] := by
    intro cs
    induction cs with
    | nil =>
      intro marks _
      rfl
    | cons c cs ih =>
      intro marks length
      cases marks with
      | nil => cases length
      | cons k marks =>
        rw [List.zipWith_cons_cons, List.flatMap_cons, ih marks (Nat.succ.inj length)]
        rfl
  unfold roots setTrailMarks
  dsimp only
  rw [frames]
  cases outermost with
  | true => simpa [barriers] using length
  | false =>
    rw [barriers] at length
    simp at length ⊢
    omega

end Engine

theorem chainBarriers_singleton (x : Engine) (outermost : Bool) :
    chainBarriers outermost [x] = x.barriers outermost := List.append_nil _

theorem chainRoots_singleton (x : Engine) (innermost : Bool) :
    chainRoots innermost [x] = x.roots innermost := List.append_nil _

theorem length_chainBarriers_cons (x : Engine) (outermost : Bool) (inner : List Engine) :
    (chainBarriers outermost (x :: inner)).length =
      (x.barriers outermost).length + (chainBarriers false inner).length := by
  rw [chainBarriers, List.length_append]

theorem chainBarriers_setTrailMarks (outermost : Bool) (chain : List Engine) {marks : List Nat}
    (length : marks.length = (chainBarriers outermost chain).length) :
    chainBarriers outermost (setTrailMarks outermost chain marks) =
      marks.zip ((chainBarriers outermost chain).map Prod.snd) := by
  induction chain generalizing outermost marks with
  | nil =>
    rw [List.length_eq_zero_iff.mp length]
    rfl
  | cons x inner ih =>
    rw [length_chainBarriers_cons] at length
    have first : (marks.take (x.barriers outermost).length).length = (x.barriers outermost).length := by
      rw [List.length_take]
      omega
    have second : (marks.drop (x.barriers outermost).length).length =
        (chainBarriers false inner).length := by
      rw [List.length_drop]
      omega
    rw [setTrailMarks, chainBarriers, chainBarriers, x.barriers_setTrailMarks outermost first,
      ih false second, List.map_append]
    conv_rhs => rw [← List.take_append_drop (x.barriers outermost).length marks]
    exact (List.zip_append (by rw [first, List.length_map])).symm

/-- Engines with the same roots. -/
theorem chainRoots_setTrailMarks (chain : List Engine) {marks : List Nat}
    (length : marks.length = (chainBarriers true chain).length) :
    chainRoots true (setTrailMarks true chain marks).reverse = chainRoots true chain.reverse := by
  have each : ∀ (outermost : Bool) (chain : List Engine) (marks : List Nat),
      marks.length = (chainBarriers outermost chain).length →
      List.Forall₂ (fun x y : Engine => ∀ innermost, x.roots innermost = y.roots innermost)
        (setTrailMarks outermost chain marks) chain := by
    intro outermost chain
    induction chain generalizing outermost with
    | nil =>
      intro marks _
      exact .nil
    | cons x inner ih =>
      intro marks length
      rw [length_chainBarriers_cons] at length
      refine .cons (fun innermost => x.roots_setTrailMarks outermost innermost ?_) (ih false _ ?_)
      · rw [List.length_take]
        omega
      · rw [List.length_drop]
        omega
  have same : ∀ (innermost : Bool) (l l' : List Engine),
      List.Forall₂ (fun x y : Engine => ∀ innermost, x.roots innermost = y.roots innermost) l l' →
      chainRoots innermost l = chainRoots innermost l' := by
    intro innermost l l' pairs
    induction pairs generalizing innermost with
    | nil => rfl
    | cons one _ ih => rw [chainRoots, chainRoots, one, ih]
  exact same true _ _ (List.forall₂_reverse_iff.mpr (each true chain marks length))

theorem chainBarriers_concat (chain : List Engine) (x : Engine) (outermost : Bool) :
    chainBarriers outermost (chain ++ [x]) =
      chainBarriers outermost chain ++ x.barriers (outermost && chain.isEmpty) := by
  induction chain generalizing outermost with
  | nil =>
    rw [List.nil_append, chainBarriers_singleton, chainBarriers, List.nil_append, List.isEmpty_nil,
      Bool.and_true]
  | cons y chain ih =>
    rw [List.cons_append, chainBarriers, chainBarriers, ih false, List.append_assoc,
      List.isEmpty_cons, Bool.and_false, Bool.false_and]

theorem chainBarriers_moveRoots (cell mark : Nat → Nat) (innermost : Bool) (chain : List Engine) :
    chainBarriers true (moveRoots cell mark innermost chain).reverse =
      (chainBarriers true chain.reverse).map fun b => (b.1, mark b.2) := by
  induction chain generalizing innermost with
  | nil => rfl
  | cons x outer ih =>
    cases outer with
    | nil =>
      rw [moveRoots, List.reverse_singleton, List.reverse_singleton, chainBarriers_singleton,
        chainBarriers_singleton, x.barriers_moveRoots]
    | cons y outer =>
      have some_ : (moveRoots cell mark false (y :: outer)).reverse.isEmpty = false := by
        cases outer <;> simp [moveRoots]
      rw [moveRoots, List.reverse_cons, List.reverse_cons (a := x), chainBarriers_concat,
        chainBarriers_concat, ih false, some_, List.map_append]
      simp only [Bool.and_false, List.isEmpty_reverse, List.isEmpty_cons]
      rw [x.barriers_moveRoots]

theorem chainRoots_moveRoots (cell mark : Nat → Nat) (innermost : Bool) (chain : List Engine) :
    chainRoots innermost (moveRoots cell mark innermost chain) =
      (chainRoots innermost chain).map cell := by
  induction chain generalizing innermost with
  | nil => rfl
  | cons x outer ih =>
    cases outer with
    | nil =>
      rw [moveRoots, chainRoots_singleton, chainRoots_singleton, x.roots_moveRoots]
    | cons y outer =>
      rw [moveRoots, chainRoots, chainRoots, ih false, List.map_append, x.roots_moveRoots]

end Cocolog.Gc
