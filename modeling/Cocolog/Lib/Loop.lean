import Mathlib.Logic.Relation
import Mathlib.Order.WellFounded

/-! Loops that may not end, run with fuel. A computation settles when every large enough
fuel gives the same answer; a loop settles when its step has nothing more to do. -/

set_option linter.all false

namespace Cocolog.Lib

variable {S A B : Type*}

/-- Enough fuel gives the answer. -/
def Settles (f : Nat → Option A) (a : A) : Prop := ∃ enough, ∀ fuel, enough ≤ fuel → f fuel = some a

namespace Settles

theorem of_eq {f : Nat → Option A} {a : A} (same : ∀ fuel, f fuel = some a) : Settles f a :=
  ⟨0, fun fuel _ => same fuel⟩

theorem bind {f : Nat → Option A} {g : A → Nat → Option B} {a : A} {b : B} (one : Settles f a)
    (two : Settles (g a) b) : Settles (fun fuel => (f fuel).bind fun x => g x fuel) b := by
  obtain ⟨n, first⟩ := one
  obtain ⟨k, second⟩ := two
  refine ⟨max n k, ?_⟩
  intro fuel le
  simp only [first fuel (by omega), Option.bind_some]
  exact second fuel (by omega)

theorem map {f : Nat → Option A} {a : A} (one : Settles f a) (g : A → B) :
    Settles (fun fuel => (f fuel).map g) (g a) := by
  obtain ⟨n, first⟩ := one
  refine ⟨n, ?_⟩
  intro fuel le
  simp only [first fuel le, Option.map_some]

theorem congr {f g : Nat → Option A} {a : A} (one : Settles f a) (same : ∀ fuel, g fuel = f fuel) :
    Settles g a := by
  obtain ⟨n, first⟩ := one
  exact ⟨n, fun fuel le => (same fuel).trans (first fuel le)⟩

end Settles

/-- The step taken until it answers nothing. -/
def loop (step : S → Option S) : Nat → S → Option S
  | 0, _ => none
  | fuel + 1, s =>
    match step s with
    | none => some s
    | some s' => loop step fuel s'

variable {step : S → Option S} {s s' e : S}

theorem loop_stop (done : step s = none) : Settles (fun fuel => loop step fuel s) s := by
  refine ⟨1, ?_⟩
  intro fuel le
  obtain ⟨fuel, rfl⟩ : ∃ k, fuel = k + 1 := ⟨fuel - 1, by omega⟩
  simp only [loop, done]

theorem loop_step (next : step s = some s') (rest : Settles (fun fuel => loop step fuel s') e) :
    Settles (fun fuel => loop step fuel s) e := by
  obtain ⟨n, enough⟩ := rest
  refine ⟨n + 1, ?_⟩
  intro fuel le
  obtain ⟨fuel, rfl⟩ : ∃ k, fuel = k + 1 := ⟨fuel - 1, by omega⟩
  simp only [loop, next]
  exact enough fuel (by omega)

/-- States one step apart. -/
def Steps (step : S → Option S) : S → S → Prop := Relation.ReflTransGen fun s s' => step s = some s'

theorem loop_steps (reached : Steps step s s') (rest : Settles (fun fuel => loop step fuel s') e) :
    Settles (fun fuel => loop step fuel s) e := by
  induction reached using Relation.ReflTransGen.head_induction_on with
  | refl => exact rest
  | head next _ ih => exact loop_step next ih

theorem loop_reaches {fuel : Nat} (ran : loop step fuel s = some e) : Steps step s e ∧ step e = none := by
  induction fuel generalizing s with
  | zero => cases ran
  | succ fuel ih =>
    rw [loop] at ran
    cases next : step s with
    | none =>
      rw [next] at ran
      obtain rfl := Option.some.inj ran
      exact ⟨.refl, next⟩
    | some s' =>
      rw [next] at ran
      obtain ⟨rest, done⟩ := ih ran
      exact ⟨.head next rest, done⟩

/-- More fuel gives the same end. -/
theorem loop_more {fuel k : Nat} (le : fuel ≤ k) (ran : loop step fuel s = some e) : loop step k s = some e := by
  induction fuel generalizing s k with
  | zero => cases ran
  | succ fuel ih =>
    obtain ⟨k, rfl⟩ : ∃ j, k = j + 1 := ⟨k - 1, by omega⟩
    rw [loop] at ran ⊢
    cases next : step s with
    | none =>
      rw [next] at ran
      exact ran
    | some s' =>
      rw [next] at ran
      exact ih (by omega) ran

/-- A loop whose steps another follows, one for one, ends where the other does. -/
theorem loop_follows {T : Type*} {step' : T → Option T} {rel : S → T → Prop} {t : T}
    (going : ∀ s t s', rel s t → step s = some s' → ∃ t', step' t = some t' ∧ rel s' t')
    (stopped : ∀ s t, rel s t → step s = none → step' t = none) (related : rel s t)
    (settles : Settles (fun fuel => loop step fuel s) e) :
    ∃ e', Settles (fun fuel => loop step' fuel t) e' ∧ rel e e' := by
  obtain ⟨enough, all⟩ := settles
  have ran : loop step enough s = some e := all enough le_rfl
  clear all
  induction enough generalizing s t with
  | zero => cases ran
  | succ fuel ih =>
    simp only [loop] at ran
    cases next : step s with
    | none =>
      rw [next] at ran
      obtain rfl := Option.some.inj ran
      exact ⟨t, loop_stop (stopped s t related next), related⟩
    | some s' =>
      rw [next] at ran
      obtain ⟨t', next', related'⟩ := going s t s' related next
      obtain ⟨e', rest, at_end⟩ := ih related' ran
      exact ⟨e', loop_step next' rest, at_end⟩

/-- What each step keeps holds of every state on the way. -/
theorem Steps.invariant {I : S → Prop} (keeps : ∀ s s', I s → step s = some s' → I s')
    (reached : Steps step s s') (start : I s) : I s' := by
  induction reached with
  | refl => exact start
  | tail _ next ih => exact keeps _ _ ih next

/-- The loop ends in a state the invariant holds of, when each step brings a measure down. -/
theorem loop_settles {T : Type*} {lt : T → T → Prop} (wf : WellFounded lt) (measure : S → T) {I : S → Prop}
    (keeps : ∀ s s', I s → step s = some s' → I s' ∧ lt (measure s') (measure s)) (start : I s) :
    ∃ e, Settles (fun fuel => loop step fuel s) e ∧ I e ∧ step e = none := by
  induction hm : measure s using wf.induction generalizing s with
  | _ n ih =>
    cases next : step s with
    | none => exact ⟨s, loop_stop next, start, next⟩
    | some s' =>
      obtain ⟨kept, less⟩ := keeps s s' start next
      obtain ⟨e, rest, at_end⟩ := ih (measure s') (hm ▸ less) kept rfl
      exact ⟨e, loop_step next rest, at_end⟩

/-- Fuel above a number that each step brings down is enough. -/
theorem loop_within (measure : S → Nat) {I : S → Prop}
    (keeps : ∀ s s', I s → step s = some s' → I s' ∧ measure s' < measure s) (start : I s) {fuel : Nat}
    (enough : measure s < fuel) : ∃ e, loop step fuel s = some e ∧ I e ∧ step e = none := by
  induction fuel generalizing s with
  | zero => exact absurd enough (Nat.not_lt_zero _)
  | succ fuel ih =>
    cases next : step s with
    | none => exact ⟨s, by simp only [loop, next], start, next⟩
    | some s' =>
      obtain ⟨kept, less⟩ := keeps s s' start next
      obtain ⟨e, ran, at_end⟩ := ih kept (by omega)
      exact ⟨e, by simp only [loop, next, ran], at_end⟩

/-- The loop ends in a state the invariant holds of, when its steps lead to a stop. -/
theorem loop_settles_at {I : S → Prop} (keeps : ∀ s s', I s → step s = some s' → I s') (start : I s)
    (reached : Steps step s e) (done : step e = none) :
    Settles (fun fuel => loop step fuel s) e ∧ I e :=
  ⟨loop_steps reached (loop_stop done), reached.invariant keeps start⟩

/-- Pairs of numbers, the first deciding. -/
def Lower : Nat × Nat → Nat × Nat → Prop := Prod.Lex (· < ·) (· < ·)

theorem lower_wf : WellFounded Lower := WellFounded.prod_lex wellFounded_lt wellFounded_lt

/-- The first falls, or it does not rise and the second falls. -/
theorem lower_of {a b c d : Nat} (order : a < c ∨ (a ≤ c ∧ b < d)) : Lower (a, b) (c, d) := by
  rw [Lower, Prod.lex_def]
  simp only
  omega

end Cocolog.Lib
