import Mathlib.Algebra.Order.Ring.Nat
import Mathlib.Data.Fintype.Card
import Mathlib.Data.Nat.Bits
import Mathlib.Logic.Function.Iterate

/-! Probing a cyclic table from a start until a position stops the walk. The walk is
cut off after a number of turns; the lemmas say when it stops of itself, where, and
that filling a free position it never passed leaves the answer alone. -/

set_option linter.all false

namespace Cocolog.Lib

/-- From `i` on, by `next`, to the first position `stop` accepts. -/
def probe (stop : Nat → Bool) (next : Nat → Nat) : Nat → Nat → Nat
  | 0, i => i
  | turns + 1, i => if stop i = true then i else probe stop next turns (next i)

/-- The walk from `i` first stops at `s`, and within the turns allowed. -/
def StopsAt (stop : Nat → Bool) (next : Nat → Nat) (turns i s : Nat) : Prop :=
  ∃ j < turns, next^[j] i = s ∧ stop s = true ∧ ∀ k < j, stop (next^[k] i) = false

theorem StopsAt.probe_eq {stop : Nat → Bool} {next : Nat → Nat} {turns i s : Nat}
    (hs : StopsAt stop next turns i s) : probe stop next turns i = s := by
  obtain ⟨j, enough, rfl, stopped, first⟩ := hs
  induction turns generalizing i j with
  | zero => omega
  | succ turns ih =>
    cases j with
    | zero =>
      rw [Function.iterate_zero_apply] at stopped ⊢
      rw [probe, if_pos stopped]
    | succ j =>
      have go : stop i = false := first 0 (by omega)
      rw [probe, if_neg (by simp [go]), Function.iterate_succ_apply]
      rw [Function.iterate_succ_apply] at stopped
      exact ih j (by omega) stopped (fun k hk => first (k + 1) (by omega))

/-- A stop within the turns allowed is where the walk ends. -/
theorem probe_stopsAt {stop : Nat → Bool} {next : Nat → Nat} {turns i : Nat}
    (ends : ∃ j < turns, stop (next^[j] i) = true) :
    StopsAt stop next turns i (probe stop next turns i) := by
  classical
  have reached : ∃ j, stop (next^[j] i) = true := by
    obtain ⟨j, -, h⟩ := ends
    exact ⟨j, h⟩
  have enough : Nat.find reached < turns := by
    obtain ⟨j, hj, h⟩ := ends
    exact Nat.lt_of_le_of_lt (Nat.find_min' reached h) hj
  have first : ∀ k < Nat.find reached, stop (next^[k] i) = false := by
    intro k hk
    simpa using Nat.find_min reached hk
  have stops : StopsAt stop next turns i (next^[Nat.find reached] i) :=
    ⟨Nat.find reached, enough, rfl, Nat.find_spec reached, first⟩
  rw [stops.probe_eq]
  exact stops

/-- The stops taken away are only ones the walk never met. -/
theorem StopsAt.mono {stop : Nat → Bool} {next : Nat → Nat} {turns i s : Nat}
    (hs : StopsAt stop next turns i s) (stop' : Nat → Bool) (keeps : stop' s = true)
    (fewer : ∀ t, stop t = false → stop' t = false) : StopsAt stop' next turns i s := by
  obtain ⟨j, enough, rfl, -, first⟩ := hs
  exact ⟨j, enough, rfl, keeps, fun k hk => fewer _ (first k hk)⟩

section Cyclic

variable {e : Nat}

/-- The successor in a table of a power of two positions, by its mask. -/
theorem iterate_mask_succ {i : Nat} (start : i < 2 ^ e) (j : Nat) :
    (fun k => (k + 1) &&& (2 ^ e - 1))^[j] i = (i + j) % 2 ^ e := by
  induction j with
  | zero => simp [Nat.mod_eq_of_lt start]
  | succ j ih =>
    rw [Function.iterate_succ_apply', ih, Nat.and_two_pow_sub_one_eq_mod, Nat.mod_add_mod,
      Nat.add_assoc]

/-- Every position of the table is met in as many turns as it has positions. -/
theorem mask_walk_meets {i t : Nat} (start : i < 2 ^ e) (target : t < 2 ^ e) :
    ∃ j < 2 ^ e, (fun k => (k + 1) &&& (2 ^ e - 1))^[j] i = t := by
  by_cases le : i ≤ t
  · refine ⟨t - i, by omega, ?_⟩
    rw [iterate_mask_succ start, Nat.add_sub_cancel' le, Nat.mod_eq_of_lt target]
  · refine ⟨2 ^ e - i + t, by omega, ?_⟩
    have wraps : i + (2 ^ e - i + t) = 2 ^ e + t := by omega
    rw [iterate_mask_succ start, wraps, Nat.add_mod_left, Nat.mod_eq_of_lt target]

end Cyclic

/-- More boxes than things: some box is empty. -/
theorem exists_free {boxes things : Nat} (fewer : things < boxes) (taken : Nat → Prop)
    (holds : Nat → Nat) (bound : ∀ b < boxes, taken b → holds b < things)
    (apart : ∀ b < boxes, ∀ c < boxes, taken b → taken c → holds b = holds c → b = c) :
    ∃ b < boxes, ¬ taken b := by
  by_contra full
  simp only [not_exists, not_and, not_not] at full
  let f : Fin boxes → Fin things := fun b => ⟨holds b, bound b b.2 (full b b.2)⟩
  have injective : Function.Injective f := by
    intro b c same
    have values : holds b = holds c := congrArg Fin.val same
    exact Fin.ext (apart b b.2 c c.2 (full b b.2) (full c c.2) values)
  have card := Fintype.card_le_of_injective f injective
  simp only [Fintype.card_fin] at card
  omega

end Cocolog.Lib
