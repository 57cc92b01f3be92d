import Mathlib.Data.List.Nodup
import Mathlib.Logic.Function.Basic

/-! Numbered promises. Each is made under a key, stands open there, and is closed with an
outcome; an outcome under a key with nothing open is written down apart. A ledger in which no
outcome strays accounts for every promise exactly once. -/

set_option linter.all false

namespace Cocolog.Lib

structure Ledger (K A O : Type*) where
  count : Nat
  pending : K → Option (Nat × A)
  closed : List (Nat × A × O)
  stray : List (K × O)

namespace Ledger

variable {K A O : Type*}

def empty : Ledger K A O := ⟨0, fun _ => none, [], []⟩

/-- Every promise made is open under one key or closed once, and no outcome strayed. -/
structure Even (l : Ledger K A O) : Prop where
  below : ∀ k n a, l.pending k = some (n, a) → n < l.count
  apart : ∀ j k n a b, l.pending j = some (n, a) → l.pending k = some (n, b) → j = k
  once : (l.closed.map (·.1)).Nodup
  settled : ∀ n ∈ l.closed.map (·.1), n < l.count ∧ ∀ k a, l.pending k ≠ some (n, a)
  all : ∀ n < l.count, (∃ k a, l.pending k = some (n, a)) ∨ n ∈ l.closed.map (·.1)
  straight : l.stray = []

theorem Even.empty : (Ledger.empty : Ledger K A O).Even :=
  ⟨nofun, nofun, List.nodup_nil, nofun, nofun, rfl⟩

variable [DecidableEq K] {l : Ledger K A O} {k : K}

def opens (l : Ledger K A O) (k : K) (a : A) : Ledger K A O :=
  { l with count := l.count + 1, pending := Function.update l.pending k (some (l.count, a)) }

def closes (l : Ledger K A O) (k : K) (o : O) : Ledger K A O :=
  match l.pending k with
  | some (n, a) => { l with pending := Function.update l.pending k none, closed := (n, a, o) :: l.closed }
  | none => { l with stray := (k, o) :: l.stray }

theorem opens_self (a : A) : (l.opens k a).pending k = some (l.count, a) := Function.update_self ..

theorem opens_other {j : K} (other : j ≠ k) (a : A) : (l.opens k a).pending j = l.pending j :=
  Function.update_of_ne other ..

theorem closes_open {n : Nat} {a : A} (at_ : l.pending k = some (n, a)) (o : O) : l.closes k o =
    { l with pending := Function.update l.pending k none, closed := (n, a, o) :: l.closed } := by
  rw [closes, at_]

theorem closes_self (o : O) : (l.closes k o).pending k = none := by
  unfold closes
  split
  · exact Function.update_self ..
  · rename_i none_
    exact none_

theorem closes_other {j : K} (other : j ≠ k) (o : O) : (l.closes k o).pending j = l.pending j := by
  unfold closes
  split
  · exact Function.update_of_ne other ..
  · rfl

theorem Even.opens (even : l.Even) (free : l.pending k = none) (a : A) : (l.opens k a).Even where
  below j n b at_ := by
    by_cases same : j = k
    · subst same
      rw [opens_self] at at_
      cases at_
      exact Nat.lt_succ_self _
    · rw [opens_other same] at at_
      exact Nat.lt_succ_of_lt (even.below j n b at_)
  apart i j n b c one two := by
    -- the new number is above all that are open
    have new {j : K} (other : j ≠ k) {b : A} : l.pending j ≠ some (l.count, b) := fun at_ =>
      Nat.lt_irrefl _ (even.below j _ b at_)
    by_cases here : i = k <;> by_cases there : j = k
    · rw [here, there]
    · subst here
      rw [opens_self] at one
      rw [opens_other there] at two
      cases one
      exact absurd two (new there)
    · subst there
      rw [opens_self] at two
      rw [opens_other here] at one
      cases two
      exact absurd one (new here)
    · rw [opens_other here] at one
      rw [opens_other there] at two
      exact even.apart i j n b c one two
  once := even.once
  settled n mem := by
    obtain ⟨below, shut⟩ := even.settled n mem
    refine ⟨Nat.lt_succ_of_lt below, fun j b at_ => ?_⟩
    by_cases same : j = k
    · subst same
      rw [opens_self] at at_
      cases at_
      exact Nat.lt_irrefl _ below
    · rw [opens_other same] at at_
      exact shut j b at_
  all n below := by
    rcases Nat.lt_succ_iff_lt_or_eq.mp below with old | rfl
    · refine (even.all n old).imp_left fun ⟨j, b, at_⟩ => ⟨j, b, ?_⟩
      rwa [opens_other]
      rintro rfl
      exact absurd (free.symm.trans at_) nofun
    · exact .inl ⟨k, a, opens_self a⟩
  straight := even.straight

theorem Even.closes (even : l.Even) (taken : l.pending k ≠ none) (o : O) : (l.closes k o).Even := by
  obtain ⟨⟨n, a⟩, at_⟩ := Option.ne_none_iff_exists'.mp taken
  have left {j : K} {m : Nat} {b : A} (open_ : (l.closes k o).pending j = some (m, b)) :
      j ≠ k ∧ l.pending j = some (m, b) := by
    have other : j ≠ k := by
      rintro rfl
      rw [closes_self] at open_
      cases open_
    exact ⟨other, closes_other other o ▸ open_⟩
  have closed : (l.closes k o).closed = (n, a, o) :: l.closed := by rw [closes_open at_]
  have count : (l.closes k o).count = l.count := by rw [closes_open at_]
  refine ⟨fun j m b open_ => ?_, fun i j m b c one two => even.apart i j m b c (left one).2 (left two).2,
    ?_, fun m mem => ?_, fun m below => ?_, ?_⟩
  · rw [count]
    exact even.below j m b (left open_).2
  · rw [closed]
    exact List.nodup_cons.mpr ⟨fun mem => (even.settled n mem).2 k a at_, even.once⟩
  · rw [closed] at mem
    rw [count]
    rcases List.mem_cons.mp mem with rfl | mem
    · exact ⟨even.below k _ a at_, fun j b open_ => (left open_).1 (even.apart j k _ b a (left open_).2 at_)⟩
    · exact ⟨(even.settled m mem).1, fun j b open_ => (even.settled m mem).2 j b (left open_).2⟩
  · rw [count] at below
    rw [closed]
    rcases even.all m below with ⟨j, b, open_⟩ | old
    · by_cases same : j = k
      · subst same
        cases at_.symm.trans open_
        exact .inr List.mem_cons_self
      · exact .inl ⟨j, b, (closes_other same o).trans open_⟩
    · exact .inr (List.mem_cons_of_mem _ old)
  · rw [closes_open at_]
    exact even.straight

end Ledger
end Cocolog.Lib
