import Cocolog.Heap.Undo
import Cocolog.Term.Unify

/-! `coco_unify` on the machine: what it binds goes on the trail. The bindings are a most
general unifier of the two terms as rational trees, and undone they leave the cells as they
were, the headers linked on the way among them. -/

set_option linter.all false

namespace Cocolog.Heap

open Cocolog.Lib Cocolog.Term Cocolog.Gc

/-- Trees for the variables that make the two terms one. -/
def Unifier (tb : Tables) (h : Mem) (len a b : Nat) (σ : Nat → PathTree Label) : Prop :=
  treeAt tb h len σ a = treeAt tb h len σ b

/-- The trees for the variables are an instance of what the variables were bound to. -/
def InstanceOf (tb : Tables) (h bound : Mem) (len : Nat) (σ : Nat → PathTree Label) : Prop :=
  ∀ v, h v = .ref v → σ v = treeAt tb bound len σ v

/-- The variables bound, oldest first: what `coco_bind` put on the trail. -/
def trailed (binds : List (Nat × Nat)) : List Nat := (binds.map Prod.fst).reverse

theorem trailed_cons (v t : Nat) (older : List (Nat × Nat)) : trailed ((v, t) :: older) = trailed older ++ [v] := by
  rw [trailed, List.map_cons, List.reverse_cons]
  rfl

/-- The bindings undone, newest first. -/
theorem undo_bindAll {len : Nat} {h : Mem} {binds : List (Nat × Nat)} (made : Binds len h binds)
    (small : len ≤ 2 ^ 60) (left : Nat) (trail : List Nat) :
    undo (left + (trailed binds).length) (trail ++ trailed binds).reverse (bindAll binds h) =
      undo left trail.reverse h := by
  induction binds with
  | nil => rw [trailed, List.map_nil, List.reverse_nil, List.append_nil, List.length_nil, Nat.add_zero, bindAll]
  | cons q older ih =>
    obtain ⟨v, t⟩ := q
    obtain ⟨⟨unbound, off, lt, -, -⟩, rest⟩ := made
    have fits : v < 2 ^ 63 := by omega
    have one : Function.update (bindAll ((v, t) :: older) h) v (.ref v) = bindAll older h := by
      rw [bindAll, Function.update_idem, ← unbound, Function.update_eq_self]
    rw [trailed_cons, List.length_append, ← List.append_assoc, List.reverse_append, ← Nat.add_assoc]
    show undo (left + (trailed older).length + 1) (v :: (trail ++ trailed older).reverse) _ = _
    rw [undo_var _ _ fits, one]
    exact ih rest

namespace Cells

/-- `coco_unify`: the answer, the cells after it and the countdown. -/
def unify (tb : Tables) (s : Cells) (budget a b : Nat) : Bool × Cells × Nat :=
  let u := Term.unify tb s.len budget s.heap a b
  (u.ok, { s with heap := u.heap, trail := s.trail ++ trailed u.binds }, u.budget)

/-- `coco_unify` ends whatever its countdown. It answers yes exactly where the two terms have
a unifier; the bindings it then leaves, each on the trail, of a variable unbound before and
of the younger of two, are a most general one; and yes or no, undoing the trail gives every
cell back. -/
theorem unify_most_general (tb : Tables) (s : Cells) (budget a b : Nat) (_armed : 0 < budget)
    (sound : Sound tb s.heap s.len) (small : s.len ≤ 2 ^ 60) (ha : a < s.len) (hb : b < s.len) :
    let u := s.unify tb budget a b
    (∃ ok w, (∀ turns, unifyTurns s.len budget ≤ turns →
        Walk.go tb s.len turns (Walk.start budget s.heap a b) = some (ok, w)) ∧
      u.1 = ok ∧ u.2.1.heap = undoLinks w.links w.heap ∧ u.2.2 = w.budget) ∧
    (u.1 = true ↔ ∃ σ, Unifier tb s.heap s.len a b σ) ∧
    (∃ binds, Binds s.len s.heap binds ∧ u.2.1.heap = bindAll binds s.heap ∧
      u.2.1.trail = s.trail ++ trailed binds ∧ u.2.1.len = s.len) ∧
    (u.1 = true → ∀ σ, Unifier tb s.heap s.len a b σ ↔ InstanceOf tb s.heap u.2.1.heap s.len σ) ∧
    (∀ i, s.heap i ≠ .ref i → u.2.1.heap i = s.heap i) ∧
    undo (u.2.1.trail.length - s.trail.length) u.2.1.trail.reverse u.2.1.heap = s.heap := by
  have spec := unify_spec sound ha hb budget
  obtain ⟨ok, w, ran, -, -⟩ := Walk.start_spec sound ha hb budget
  have result : Term.unify tb s.len budget s.heap a b =
      ⟨ok, undoLinks w.links w.heap, w.binds, w.budget⟩ := by rw [Term.unify, ran]
  -- a unifier's trees are those of the memory with the bindings
  have forth : (Term.unify tb s.len budget s.heap a b).ok = true → ∀ σ, Unifier tb s.heap s.len a b σ →
      InstanceOf tb s.heap (Term.unify tb s.len budget s.heap a b).heap s.len σ := by
    intro yes σ one v unbound
    have admits := (spec.yes yes _).mpr ⟨sound.treeAt_admits σ, one⟩
    have vars : ∀ x, (Term.unify tb s.len budget s.heap a b).heap x = .ref x →
        treeAt tb s.heap s.len σ x = σ x := by
      intro x still
      rw [spec.heap] at still
      exact treeAt_var tb s.len σ (bindAll_unbound spec.made still)
    rw [← spec.sound.eq_treeAt admits vars v, treeAt_var tb s.len σ unbound]
  have back : (Term.unify tb s.len budget s.heap a b).ok = true → ∀ σ,
      InstanceOf tb s.heap (Term.unify tb s.len budget s.heap a b).heap s.len σ →
      Unifier tb s.heap s.len a b σ := by
    intro yes σ instance_
    obtain ⟨admits, one⟩ := (spec.yes yes _).mp (spec.sound.treeAt_admits σ)
    have vars : ∀ v, s.heap v = .ref v →
        treeAt tb (Term.unify tb s.len budget s.heap a b).heap s.len σ v = σ v :=
      fun v unbound => (instance_ v unbound).symm
    rw [Unifier, ← sound.eq_treeAt admits vars a, ← sound.eq_treeAt admits vars b]
    exact one
  refine ⟨⟨ok, w, fun turns le => Walk.go_more ran le, ?_, ?_, ?_⟩, ?_, ?_, ?_, ?_, ?_⟩
  · simp only [Cells.unify, result]
  · simp only [Cells.unify, result]
  · simp only [Cells.unify, result]
  · show (Term.unify tb s.len budget s.heap a b).ok = true ↔ _
    rw [unify_ok_iff sound ha hb]
    constructor
    · rintro ⟨ρ, admits, same⟩
      refine ⟨ρ, ?_⟩
      rw [Unifier, ← sound.eq_treeAt admits (fun _ _ => rfl) a, ← sound.eq_treeAt admits (fun _ _ => rfl) b]
      exact same
    · rintro ⟨σ, one⟩
      exact ⟨_, sound.treeAt_admits σ, one⟩
  · exact ⟨_, spec.made, spec.heap, rfl, rfl⟩
  · exact fun yes σ => ⟨forth yes σ, back yes σ⟩
  · intro i held
    show (Term.unify tb s.len budget s.heap a b).heap i = _
    rw [spec.heap]
    exact bindAll_held spec.made held
  · have undone := undo_bindAll spec.made small 0 s.trail
    have nothing : undo 0 s.trail.reverse s.heap = s.heap := by
      cases s.trail.reverse with
      | nil => rfl
      | cons v ws => cases ws <;> rfl
    rw [nothing, ← spec.heap, Nat.zero_add] at undone
    have count : (s.trail ++ trailed (Term.unify tb s.len budget s.heap a b).binds).length - s.trail.length =
        (trailed (Term.unify tb s.len budget s.heap a b).binds).length := by
      rw [List.length_append, Nat.add_sub_cancel_left]
    simp only [Cells.unify]
    rw [count]
    exact undone

/-- `X = f(X)` and `Y = f(Y)`. -/
def knots : Cells :=
  { heap := fun i => if i = 0 ∨ i = 2 then .func 0 else if i = 1 then .ref 0 else if i = 3 then .ref 2 else .ref i
    len := 4, trail := [] }

/-- One functor, of one argument. -/
def oneFunctor : Tables := { functors := fun _ => ⟨0, 1⟩ }

theorem knots_sound : Sound oneFunctor knots.heap knots.len where
  inside := by decide
  ends := by
    have near : ∀ i < 4, End knots.heap (deref knots.heap 1 i) := by decide
    exact fun i lt => ⟨1, near i lt⟩
  beyond := by
    intro i past
    have far : 4 ≤ i := past
    simp only [knots]
    rw [if_neg (by omega), if_neg (by omega), if_neg (by omega)]

/-- The two knots are one tree, and the walk finds it linked from its second pair on. -/
theorem unify_most_general_knots :
    (knots.unify oneFunctor 2 0 2).1 = true ∧ ∃ σ, Unifier oneFunctor knots.heap 4 0 2 σ :=
  have yes : (knots.unify oneFunctor 2 0 2).1 = true := by decide
  ⟨yes, (unify_most_general oneFunctor knots 2 0 2 (by decide) knots_sound (by decide) (by decide)
    (by decide)).2.1.mp yes⟩

end Cells

end Cocolog.Heap
