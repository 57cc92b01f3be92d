import Cocolog.Lib.Runs
import Cocolog.Gc.Trail

/-! What writes a cell and what the trail keeps of it. A binding leaves one word, setarg/3
two, a global's copy two that name cell 0; undone newest first, each puts back what stood
before it, so a mark's cells come back whatever was written since. -/

set_option linter.all false

namespace Cocolog.Heap

open Cocolog.Lib Cocolog.Term Cocolog.Gc

/-- The cells, how many there are, and the trail's words, oldest first. -/
structure Cells where
  heap : Mem
  len : Nat
  trail : List Nat

/-- A write to the machine's cells. -/
inductive Write where
  | push (c : Cell)
  | bind (v t : Nat)
  | setarg (a : Nat) (c : Cell)
  | sent (serial i : Nat)

namespace Cells

/-- `coco_push`. -/
def push (s : Cells) (c : Cell) : Cells :=
  { s with heap := Function.update s.heap s.len c, len := s.len + 1 }

/-- `coco_bind`. -/
def bind (s : Cells) (v t : Nat) : Cells :=
  { s with heap := Function.update s.heap v (.ref t), trail := s.trail ++ [v] }

/-- `coco_trail_pair`. -/
def trailPair (s : Cells) (saved at_ : Nat) : Cells :=
  { s with trail := s.trail ++ [saved ||| pairBit, at_ ||| pairBit] }

/-- `coco_trail_sent`. -/
def trailSent (s : Cells) (serial i : Nat) : Cells :=
  { s with trail := s.trail ++
      [(i + 1) % 2 ^ 64 * 2 ^ 40 % 2 ^ 64 ||| pairBit, serial * 2 ^ 40 % 2 ^ 64 ||| pairBit] }

/-- `coco_bi_setarg` on the argument's cell: the old content goes into a cell of its own. -/
def setarg (s : Cells) (a : Nat) (c : Cell) : Cells :=
  let s := (s.push (s.heap a)).trailPair s.len a
  { s with heap := Function.update s.heap a c }

def write (s : Cells) : Write → Cells
  | .push c => s.push c
  | .bind v t => s.bind v t
  | .setarg a c => s.setarg a c
  | .sent serial i => s.trailSent serial i

/-- `coco_undo_to` a trail mark and the heap cut to a heap mark. -/
def back (s : Cells) (tmark hmark : Nat) : Cells :=
  { heap := undo (s.trail.length - tmark) s.trail.reverse s.heap, len := hmark
    trail := s.trail.take tmark }

/-- A variable is bound while it is unbound, an argument set is one there is, and the cells
stay below the 2^40 a trail word can name. -/
def Allowed (s : Cells) : Write → Prop
  | .push _ => s.len < 2 ^ 40
  | .bind v _ => v < s.len ∧ s.heap v = .ref v
  | .setarg a _ => a < s.len ∧ s.len < 2 ^ 40
  | .sent _ _ => True

instance (s : Cells) (w : Write) : Decidable (s.Allowed w) := by
  cases w <;> unfold Allowed <;> infer_instance

/-- Whatever lies past the cells, undoing what was trailed since `old` gives its cells. -/
structure Undoes (old s : Cells) : Prop where
  small : s.len ≤ 2 ^ 40
  grows : old.len ≤ s.len
  since : ∃ new, s.trail = old.trail ++ new
  cells : ∀ g : Mem, (∀ i < s.len, g i = s.heap i) →
    ∀ i < old.len, undo (s.trail.length - old.trail.length) s.trail.reverse g i = old.heap i

theorem isPair_or (x : Nat) : isPair (x ||| pairBit) = true := by
  rw [isPair, Nat.testBit_or, pairBit, Nat.testBit_two_pow_self, Bool.or_true]

theorem trailCell_or {x : Nat} (small : x < 2 ^ 63) : trailCell (x ||| pairBit) = x % 2 ^ 40 := by
  rw [or_pairBit small, trailCell, pairBit]
  omega

/-- The two words of a sentinel name cell 0. -/
theorem trailCell_sent (x : Nat) : trailCell (x * 2 ^ 40 % 2 ^ 64 ||| pairBit) = 0 := by
  rw [trailCell, Nat.or_mod_two_pow, pairBit]
  have low : x * 2 ^ 40 % 2 ^ 64 % 2 ^ 40 = 0 := by omega
  rw [low]
  decide

namespace Undoes

variable {old s : Cells}

theorem refl {old : Cells} (small : old.len ≤ 2 ^ 40) : Undoes old old where
  small := small
  grows := Nat.le_refl _
  since := ⟨[], (List.append_nil _).symm⟩
  cells := by
    intro g agree i lt
    rw [Nat.sub_self]
    have nothing : undo 0 old.trail.reverse g = g := by
      cases old.trail.reverse with
      | nil => rfl
      | cons v ws => cases ws <;> rfl
    rw [nothing]
    exact agree i lt

/-- More words on the trail, whose undoing gives back the cells there were. -/
theorem trailed (undoes : Undoes old s) {s' : Cells} {words : List Nat}
    (small : s'.len ≤ 2 ^ 40) (grows : s.len ≤ s'.len) (trail : s'.trail = s.trail ++ words)
    (back : ∀ g : Mem, (∀ i < s'.len, g i = s'.heap i) → ∃ g' : Mem, (∀ i < s.len, g' i = s.heap i) ∧
      ∀ left, undo (left + words.length) s'.trail.reverse g = undo left s.trail.reverse g') :
    Undoes old s' where
  small := small
  grows := Nat.le_trans undoes.grows grows
  since := by
    obtain ⟨new, since⟩ := undoes.since
    exact ⟨new ++ words, by rw [trail, since, List.append_assoc]⟩
  cells := by
    intro g agree i lt
    obtain ⟨g', same, step⟩ := back g agree
    obtain ⟨new, since⟩ := undoes.since
    have count : s'.trail.length - old.trail.length =
        s.trail.length - old.trail.length + words.length := by
      rw [trail, List.length_append, since, List.length_append]
      omega
    rw [count, step]
    exact undoes.cells g' same i lt

theorem push (undoes : Undoes old s) (c : Cell) (room : s.len < 2 ^ 40) : Undoes old (s.push c) := by
  refine undoes.trailed room (Nat.le_succ _) (List.append_nil s.trail).symm ?_
  intro g agree
  refine ⟨g, ?_, fun left => rfl⟩
  intro i lt
  have off : i ≠ s.len := Nat.ne_of_lt lt
  exact (agree i (Nat.lt_succ_of_lt lt)).trans (Function.update_of_ne off _ _)

theorem bind (undoes : Undoes old s) {v : Nat} (t : Nat) (lt : v < s.len) (unbound : s.heap v = .ref v) :
    Undoes old (s.bind v t) := by
  refine undoes.trailed undoes.small (Nat.le_refl _) rfl ?_
  intro g agree
  refine ⟨Function.update g v (.ref v), ?_, ?_⟩
  · intro i below
    by_cases at_v : i = v
    · rw [at_v, Function.update_self, unbound]
    · rw [Function.update_of_ne at_v]
      exact (agree i below).trans (Function.update_of_ne at_v _ _)
  · intro left
    have small := undoes.small
    have fits : v < 2 ^ 63 := by omega
    show undo (left + 1) (s.trail ++ [v]).reverse g = _
    rw [List.reverse_append]
    exact undo_var s.trail.reverse g fits

theorem setarg (undoes : Undoes old s) {a : Nat} (c : Cell) (lt : a < s.len) (room : s.len < 2 ^ 40) :
    Undoes old (s.setarg a c) := by
  refine undoes.trailed room (Nat.le_succ _) rfl ?_
  intro g agree
  have off : a ≠ s.len := Nat.ne_of_lt lt
  have saved : g s.len = s.heap a := by
    have here := agree s.len (Nat.lt_succ_self _)
    simpa [Cells.setarg, Cells.push, trailPair, off.symm] using here
  refine ⟨Function.update g a (g s.len), ?_, ?_⟩
  · intro i below
    by_cases at_a : i = a
    · rw [at_a, Function.update_self, saved]
    · rw [Function.update_of_ne at_a]
      have off' : i ≠ s.len := Nat.ne_of_lt below
      have here := agree i (Nat.lt_succ_of_lt below)
      simpa [Cells.setarg, Cells.push, trailPair, off', at_a] using here
  · intro left
    show undo (left + 2) (s.trail ++ [s.len ||| pairBit, a ||| pairBit]).reverse g = _
    have first : trailCell (a ||| pairBit) = a := by
      rw [trailCell_or (by omega)]
      exact Nat.mod_eq_of_lt (by omega)
    have second : trailCell (s.len ||| pairBit) = s.len := by
      rw [trailCell_or (by omega)]
      exact Nat.mod_eq_of_lt room
    rw [List.reverse_append]
    have step := undo_pair left (s.len ||| pairBit) s.trail.reverse g (isPair_or a)
    rwa [first, second] at step

theorem sent (undoes : Undoes old s) (serial i : Nat) : Undoes old (s.trailSent serial i) := by
  refine undoes.trailed undoes.small (Nat.le_refl _) rfl ?_
  intro g agree
  refine ⟨g, agree, ?_⟩
  intro left
  show undo (left + 2) (s.trail ++ [_, _]).reverse g = _
  rw [List.reverse_append]
  have step := undo_pair left ((i + 1) % 2 ^ 64 * 2 ^ 40 % 2 ^ 64 ||| pairBit) s.trail.reverse g
    (isPair_or (serial * 2 ^ 40 % 2 ^ 64))
  rwa [trailCell_sent, trailCell_sent, Function.update_eq_self] at step

/-- No write loses what a mark needs. -/
theorem write (undoes : Undoes old s) (w : Write) (allowed : s.Allowed w) : Undoes old (s.write w) := by
  cases w with
  | push c => exact undoes.push c allowed
  | bind v t => exact undoes.bind t allowed.1 allowed.2
  | setarg a c => exact undoes.setarg c allowed.1 allowed.2
  | sent serial i => exact undoes.sent serial i

/-- Winding back to the mark. -/
theorem back (undoes : Undoes old s) :
    (∀ i < old.len, (s.back old.trail.length old.len).heap i = old.heap i) ∧
      (s.back old.trail.length old.len).len = old.len ∧
      (s.back old.trail.length old.len).trail = old.trail := by
  refine ⟨undoes.cells s.heap fun _ _ => rfl, rfl, ?_⟩
  obtain ⟨new, since⟩ := undoes.since
  show s.trail.take old.trail.length = _
  rw [since]
  exact List.take_left

end Undoes

/-- Whatever was written since a mark, undoing the trail to it and cutting the heap to its
length gives back every cell below it and the trail as it was. -/
theorem back_to_mark (old : Cells) (small : old.len ≤ 2 ^ 40) (writes : List Write)
    (allowed : Along write Allowed old writes) :
    let now := (run write old writes).back old.trail.length old.len
    (∀ i < old.len, now.heap i = old.heap i) ∧ now.len = old.len ∧ now.trail = old.trail :=
  (run_along (fun _ w ok undoes => undoes.write w ok) old writes allowed (Undoes.refl small)).back

/-- A cell made, bound, set and set again before it is bound once more, a global read between. -/
def twice : List Write :=
  [.push (.ref 2), .bind 2 0, .setarg 2 (.atom 7), .sent 3 0, .setarg 2 (.ref 2), .bind 2 1, .setarg 0 (.int 5)]

theorem back_to_mark_twice :
    let old : Cells := ⟨fun i => .ref i, 2, [1]⟩
    Along write Allowed old twice ∧
      ∀ i < 2, ((run write old twice).back 1 2).heap i = .ref i :=
  ⟨by decide, (back_to_mark ⟨fun i => .ref i, 2, [1]⟩ (by decide) twice (by decide)).1⟩

end Cells

end Cocolog.Heap
