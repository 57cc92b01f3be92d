import Mathlib.Logic.Function.Basic
import Mathlib.Data.List.Basic
import Mathlib.Data.Nat.ModEq

/-! A ring of a fixed number of slots, with the place of the oldest entry and the count,
and the queue it stands for. A slot may be empty even where an entry should be. -/

set_option linter.all false

namespace Cocolog.Lib

structure RingBuffer (α : Type*) where
  slots : Nat → Option α
  head : Nat
  count : Nat

namespace RingBuffer

variable {α : Type*} {cap : Nat} {items : List α}

def empty : RingBuffer α := ⟨fun _ => none, 0, 0⟩

def push (r : RingBuffer α) (cap : Nat) (entry : Option α) : RingBuffer α :=
  { r with slots := Function.update r.slots ((r.head + r.count) % cap) entry, count := r.count + 1 }

def first (r : RingBuffer α) : Option α := r.slots r.head

def pop (r : RingBuffer α) (cap : Nat) : RingBuffer α := { r with head := (r.head + 1) % cap, count := r.count - 1 }

/-- The ring stands for the queue of these items, oldest first. -/
structure Holds (r : RingBuffer α) (cap : Nat) (items : List α) : Prop where
  count : r.count = items.length
  fits : items.length ≤ cap
  head : 0 < cap → r.head < cap
  slot : ∀ i, (h : i < items.length) → r.slots ((r.head + i) % cap) = some items[i]

theorem holds_empty (cap : Nat) : (empty : RingBuffer α).Holds cap [] :=
  ⟨rfl, Nat.zero_le _, id, fun _ inside => absurd inside (Nat.not_lt_zero _)⟩

/-- Places less than a whole turn apart are different slots. -/
theorem place_ne {head i j : Nat} (less : i < j) (within : j < i + cap) : (head + i) % cap ≠ (head + j) % cap := by
  intro same
  have whole : cap ∣ (head + j) - (head + i) := (Nat.modEq_iff_dvd' (by omega)).mp same
  have gap : 0 < (head + j) - (head + i) := by omega
  have := Nat.le_of_dvd gap whole
  omega

theorem Holds.push {r : RingBuffer α} (holds : r.Holds cap items) (room : items.length < cap) (a : α) :
    (r.push cap (some a)).Holds cap (items ++ [a]) where
  count := by simp [RingBuffer.push, holds.count]
  fits := by simpa using Nat.succ_le_of_lt room
  head := holds.head
  slot i inside := by
    rw [List.length_append, List.length_singleton] at inside
    simp only [RingBuffer.push, holds.count]
    rcases Nat.lt_succ_iff_lt_or_eq.mp inside with old | rfl
    · have apart : (r.head + i) % cap ≠ (r.head + items.length) % cap := place_ne old (by omega)
      rw [Function.update_of_ne apart, holds.slot i old, List.getElem_append_left old]
    · simp

theorem Holds.pop {r : RingBuffer α} {a : α} (holds : r.Holds cap (a :: items)) :
    r.first = some a ∧ (r.pop cap).Holds cap items := by
  have inside : r.head < cap := holds.head (Nat.lt_of_lt_of_le (Nat.zero_lt_succ _) holds.fits)
  refine ⟨?_, ?_, ?_, fun _ => Nat.mod_lt _ (by omega), fun i less => ?_⟩
  · have slot := holds.slot 0 (Nat.zero_lt_succ _)
    rwa [Nat.add_zero, Nat.mod_eq_of_lt inside] at slot
  · simp [RingBuffer.pop, holds.count]
  · exact Nat.le_of_succ_le holds.fits
  · have slot := holds.slot (i + 1) (Nat.succ_lt_succ less)
    simp only [RingBuffer.pop, Nat.mod_add_mod]
    rwa [Nat.add_assoc, Nat.add_comm 1 i]

end RingBuffer
end Cocolog.Lib
