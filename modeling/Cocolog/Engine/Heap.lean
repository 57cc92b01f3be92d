import Cocolog.Engine.Marks
import Cocolog.Heap.Undo

/-! The engine over the machine's own cells. What runs between two marks writes the heap by
pushing, binding and setting arguments, the trail keeping what it must; so the trail mark and
the heap mark of a frame restore the heap, and the engine over them answers as its goals mean. -/

set_option linter.all false

namespace Cocolog.Engine

open Cocolog.Lib Cocolog.Term Cocolog.Gc Cocolog.Heap

/-- Cells with nothing past their end, few enough for a trail word to name each. -/
structure Machine where
  cells : Cells
  beyond : ∀ i, cells.len ≤ i → cells.heap i = .ref i
  small : cells.len ≤ 2 ^ 40

/-- A choice frame's `trail_mark` and `heap_mark`. -/
structure Mark where
  trail : Nat
  heap : Nat
  small : heap ≤ 2 ^ 40

namespace Machine

theorem ext {a b : Machine} (heap : a.cells.heap = b.cells.heap) (len : a.cells.len = b.cells.len)
    (trail : a.cells.trail = b.cells.trail) : a = b := by
  obtain ⟨⟨_, _, _⟩, _, _⟩ := a
  obtain ⟨⟨_, _, _⟩, _, _⟩ := b
  cases heap
  cases len
  cases trail
  rfl

def mark (s : Machine) : Mark where
  trail := s.cells.trail.length
  heap := s.cells.len
  small := s.small

/-- What is past the end is no part of the machine's state. -/
def tidied (c : Cells) : Cells :=
  { c with heap := fun i => if i < c.len then c.heap i else .ref i }

theorem tidied_beyond (c : Cells) (i : Nat) (past : (tidied c).len ≤ i) :
    (tidied c).heap i = .ref i :=
  if_neg (Nat.not_lt.mpr past)

/-- `coco_undo_to` the trail mark, and `heap_len` the heap mark. -/
def back (s : Machine) (m : Mark) : Machine where
  cells := tidied (s.cells.back m.trail m.heap)
  beyond := tidied_beyond _
  small := m.small

/-- The one came of the other by the writes a machine may make. -/
def Writes (s s' : Machine) : Prop :=
  ∃ ws, Along Cells.write Cells.Allowed s.cells ws ∧ s'.cells = run Cells.write s.cells ws

theorem Writes.refl (s : Machine) : Writes s s := ⟨[], trivial, rfl⟩

theorem along_append {s : Cells} {first second : List Write}
    (one : Along Cells.write Cells.Allowed s first)
    (two : Along Cells.write Cells.Allowed (run Cells.write s first) second) :
    Along Cells.write Cells.Allowed s (first ++ second) := by
  induction first generalizing s with
  | nil => exact two
  | cons w rest ih =>
    constructor
    · exact one.1
    · exact ih one.2 two

theorem Writes.trans {s s' s'' : Machine} (first : Writes s s') (second : Writes s' s'') :
    Writes s s'' := by
  obtain ⟨ws, allowed, cells⟩ := first
  obtain ⟨ws', allowed', cells'⟩ := second
  rw [cells] at allowed' cells'
  refine ⟨ws ++ ws', along_append allowed allowed', ?_⟩
  rw [run_append]
  exact cells'

/-- Whatever was written since a mark, going back to it gives the state it was taken in. -/
theorem Writes.back {s s' : Machine} (writes : Writes s s') : s'.back s.mark = s := by
  obtain ⟨ws, allowed, cells⟩ := writes
  have undoes := run_along (fun _ w ok (undoes : Cells.Undoes s.cells _) => undoes.write w ok)
    s.cells ws allowed (Cells.Undoes.refl s.small)
  obtain ⟨heap, len, trail⟩ := undoes.back
  rw [← cells] at heap len trail
  apply ext
  · funext i
    rcases Nat.lt_or_ge i s.cells.len with below | past
    · exact (if_pos below).trans (heap i below)
    · exact (if_neg (Nat.not_lt.mpr past)).trans (s.beyond i past).symm
  · exact len
  · exact trail

end Machine

/-- The operations of a machine's memory over its cells: the frames' marks are the trail's and
the heap's, and whatever a builtin, a head or a catcher writes is written so. -/
structure OverCells {ω T B C : Type} (mem : Memory Machine Mark ω T B C) : Prop where
  mark : mem.mark = Machine.mark
  back : mem.back = Machine.back
  exits : ∀ {s w g s' w'}, mem.called s w g = .exits s' w' → Machine.Writes s s'
  calls : ∀ {s w g s' w' g'}, mem.called s w g = .calls s' w' g' → Machine.Writes s s'
  enters : ∀ {s g clause s' body}, mem.tryClause s g clause = some (s', body) → Machine.Writes s s'
  catches : ∀ {s catcher ball s'}, mem.catches s catcher ball = some s' → Machine.Writes s s'

/-- The trail and the heap marks restore the machine. -/
theorem OverCells.restores {ω T B C : Type} {mem : Memory Machine Mark ω T B C}
    (cells : OverCells mem) : Restores mem Machine.Writes where
  refl := Machine.Writes.refl
  trans := Machine.Writes.trans
  back := by
    intro s s' writes
    rw [cells.mark, cells.back]
    exact writes.back
  exits := cells.exits
  calls := cells.calls
  enters := cells.enters
  catches := cells.catches

namespace Machine

theorem bind_beyond {s : Machine} {v : Nat} (t : Nat) (lt : v < s.cells.len) (i : Nat)
    (past : s.cells.len ≤ i) : (s.cells.bind v t).heap i = .ref i := by
  have off : i ≠ v := by omega
  exact (Function.update_of_ne off _ _).trans (s.beyond i past)

/-- `coco_bind`. -/
def bind (s : Machine) (v t : Nat) (lt : v < s.cells.len) : Machine where
  cells := s.cells.bind v t
  beyond := bind_beyond t lt
  small := s.small

/-- `coco_unify` of a cell with an atom's. -/
def bindAtom (s : Machine) (v t : Nat) : Option Machine :=
  if free : v < s.cells.len ∧ s.cells.heap v = .ref v then some (s.bind v t free.1)
  else if s.cells.heap v = .ref t then some s else none

theorem bindAtom_writes {s s' : Machine} {v t : Nat} (bound : s.bindAtom v t = some s') :
    Writes s s' := by
  unfold bindAtom at bound
  split at bound
  · rename_i free
    cases bound
    exact ⟨[.bind v t], ⟨free, trivial⟩, rfl⟩
  · split at bound
    · cases bound
      exact Writes.refl s
    · cases bound

end Machine

/-- A small language to run: the constructs, `V = A` for cells `V` and `A`, and a predicate
without arguments whose clauses are its bodies. -/
inductive Script where
  | construct (c : Construct Script)
  | unify (v a : Nat)
  | pred (bodies : List Script)

namespace Script

def called (s : Machine) (w : Unit) : Script → Called Machine Unit Script Nat Script
  | .unify v a =>
    match s.bindAtom v a with
    | some s' => .exits s' w
    | none => .fails w
  | .pred bodies => .clauses w bodies
  | .construct _ => .fails w

/-- A catcher `V = A` takes the ball `A`. -/
def catches (s : Machine) : Script → Nat → Option Machine
  | .unify v a, ball => if ball = a then s.bindAtom v a else none
  | _, _ => none

def memory : Memory Machine Mark Unit Script Nat Script where
  view _ g :=
    match g with
    | .construct c => c
    | _ => .other
  unfit _ _ := none
  thrown _ ball :=
    match ball with
    | .unify _ a => a
    | _ => 0
  called := called
  tryClause s _ body := some (s, [body])
  catches := catches
  mark := Machine.mark
  back := Machine.back

theorem called_writes {s s' : Machine} {w w' : Unit} {g : Script}
    (exits : called s w g = .exits s' w') : Machine.Writes s s' := by
  cases g with
  | construct c => cases exits
  | pred bodies => cases exits
  | unify v a =>
    simp only [called] at exits
    cases bound : s.bindAtom v a with
    | none =>
      rw [bound] at exits
      cases exits
    | some s₁ =>
      rw [bound] at exits
      cases exits
      exact Machine.bindAtom_writes bound

theorem overCells : OverCells memory where
  mark := rfl
  back := rfl
  exits := called_writes
  calls := by
    intro s w g s' w' g' calls
    cases g with
    | construct c => cases calls
    | pred bodies => cases calls
    | unify v a =>
      simp only [memory, called] at calls
      cases bound : s.bindAtom v a with
      | none =>
        rw [bound] at calls
        cases calls
      | some s₁ =>
        rw [bound] at calls
        cases calls
  enters := by
    intro s g clause s' body entered
    cases entered
    exact Machine.Writes.refl s
  catches := by
    intro s catcher ball s' caught
    cases catcher with
    | construct c => cases caught
    | pred bodies => cases caught
    | unify v a =>
      simp only [memory, catches] at caught
      split at caught
      · exact Machine.bindAtom_writes caught
      · cases caught

theorem blank_beyond (i : Nat) (_ : 3 ≤ i) :
    (if i = 1 then Cell.atom 1 else if i = 2 then Cell.atom 2 else Cell.ref i) = .ref i := by
  rw [if_neg (by omega), if_neg (by omega)]

/-- A variable and two atoms. -/
def blank : Machine where
  cells := ⟨fun i => if i = 1 then .atom 1 else if i = 2 then .atom 2 else .ref i, 3, []⟩
  beyond := blank_beyond
  small := by decide

/-- What the variable holds at each answer. -/
def held (answers : List (Machine × Unit)) : List Cell := answers.map (fun a => a.1.cells.heap 0)

/-- `p, X = 2 ; throw(A)` for `p` of the clauses `X = A` and `X = B`. -/
def raising : Script :=
  .construct (.disj
    (.construct (.conj (.pred [.unify 0 1, .unify 0 2]) (.unify 0 2)))
    (.construct (.throw_ (.unify 0 1))))

/-- That under a `catch/3` whose catcher and recovery are `X = A`. -/
def query : Script := .construct (.catch_ raising (.unify 0 1) (.unify 0 1))

end Script

end Cocolog.Engine
