import Cocolog.Lib.Probe

/-! A table of a power of two positions, each with a key or free. A key is looked for from
its own start, onward and around, to itself or to the first free position, and is entered
there. What a position holds is all these lemmas are told of the table. -/

set_option linter.all false

namespace Cocolog.Lib

variable {K : Type*} [DecidableEq K] {e : Nat} {start : K → Nat} {at_ : Nat → Option K} {k : K}

/-- The next position, around the table. -/
def around (e i : Nat) : Nat := (i + 1) &&& (2 ^ e - 1)

/-- The search for `k` ends here. -/
def ends (at_ : Nat → Option K) (k : K) (i : Nat) : Bool := at_ i == none || at_ i == some k

/-- Where the search for `k` ends. -/
def seek (e : Nat) (start : K → Nat) (at_ : Nat → Option K) (k : K) : Nat :=
  probe (ends at_ k) (around e) (2 ^ e) (start k)

/-- Every key entered is found where it is, and a position is free. -/
structure Hashed (e : Nat) (start : K → Nat) (at_ : Nat → Option K) : Prop where
  begins : ∀ k, start k < 2 ^ e
  found : ∀ {s k}, s < 2 ^ e → at_ s = some k → seek e start at_ k = s
  free : ∃ s < 2 ^ e, at_ s = none

namespace Hashed

theorem stops (hashed : Hashed e start at_) (k : K) :
    StopsAt (ends at_ k) (around e) (2 ^ e) (start k) (seek e start at_ k) := by
  obtain ⟨s, lt, empty⟩ := hashed.free
  obtain ⟨j, enough, meets⟩ := mask_walk_meets (hashed.begins k) lt
  refine probe_stopsAt ⟨j, enough, ?_⟩
  have at_s : (around e)^[j] (start k) = s := meets
  rw [at_s]
  simp [ends, empty]

theorem seek_lt (hashed : Hashed e start at_) (k : K) : seek e start at_ k < 2 ^ e := by
  obtain ⟨j, -, at_j, -⟩ := hashed.stops k
  have walk : (around e)^[j] (start k) = (start k + j) % 2 ^ e := iterate_mask_succ (hashed.begins k) j
  rw [← at_j, walk]
  exact Nat.mod_lt _ (Nat.two_pow_pos e)

theorem seek_ends (hashed : Hashed e start at_) (k : K) :
    at_ (seek e start at_ k) = none ∨ at_ (seek e start at_ k) = some k := by
  obtain ⟨j, -, -, stopped, -⟩ := hashed.stops k
  simpa [ends] using stopped

/-- The key is where the search for it ends, if it is in the table. -/
theorem seek_some (hashed : Hashed e start at_) {s : Nat} (lt : s < 2 ^ e) (here : at_ s = some k) :
    at_ (seek e start at_ k) = some k := by
  rw [hashed.found lt here]
  exact here

theorem inj (hashed : Hashed e start at_) {s s' : Nat} (lt : s < 2 ^ e) (lt' : s' < 2 ^ e) (here : at_ s = some k)
    (there : at_ s' = some k) : s = s' :=
  (hashed.found lt here).symm.trans (hashed.found lt' there)

/-- A key entered where its search ends leaves every key found where it is. -/
theorem enter (hashed : Hashed e start at_) (new : at_ (seek e start at_ k) = none)
    (more : ∃ s < 2 ^ e, s ≠ seek e start at_ k ∧ at_ s = none) :
    Hashed e start (Function.update at_ (seek e start at_ k) (some k)) := by
  have fewer : ∀ k' i, ends at_ k' i = false →
      ends (Function.update at_ (seek e start at_ k) (some k)) k' i = false := by
    intro k' i going
    have off : i ≠ seek e start at_ k := by
      rintro rfl
      simp [ends, new] at going
    unfold ends at going ⊢
    rwa [Function.update_of_ne off]
  refine ⟨hashed.begins, ?_, ?_⟩
  · intro s k' lt here
    by_cases at_k : s = seek e start at_ k
    · rw [at_k, Function.update_self, Option.some.injEq] at here
      subst here
      refine (StopsAt.probe_eq ((hashed.stops k).mono _ ?_ (fewer k))).trans at_k.symm
      simp [ends]
    · rw [Function.update_of_ne at_k] at here
      have stops := hashed.stops k'
      rw [hashed.found lt here] at stops
      refine StopsAt.probe_eq (stops.mono _ ?_ (fewer k'))
      simp [ends, Function.update_of_ne at_k, here]
  · obtain ⟨s, lt, off, empty⟩ := more
    exact ⟨s, lt, by rw [Function.update_of_ne off, empty]⟩

/-- In a table without the key its search ends at the first free position. -/
theorem seek_free (hashed : Hashed e start at_) (absent : ∀ s < 2 ^ e, at_ s ≠ some k) :
    probe (fun i => at_ i == none) (around e) (2 ^ e) (start k) = seek e start at_ k ∧
      at_ (seek e start at_ k) = none := by
  have lt := hashed.seek_lt k
  have empty := (hashed.seek_ends k).resolve_right (absent _ lt)
  refine ⟨StopsAt.probe_eq ((hashed.stops k).mono _ (by simp [empty]) ?_), empty⟩
  intro i going
  simp only [ends, Bool.or_eq_false_iff] at going
  exact going.1

end Hashed

/-- A table with fewer keys than positions has a free one, besides one that is free. -/
theorem free_besides {l : List K} {at_ : Nat → Option K} {n : Nat} (p : Nat) (fewer : l.length + 1 < n)
    (listed : ∀ s k, s < n → at_ s = some k → k ∈ l)
    (apart : ∀ s s' k, s < n → s' < n → at_ s = some k → at_ s' = some k → s = s') :
    ∃ s < n, s ≠ p ∧ at_ s = none := by
  -- the position left out counts as one thing more
  let thing : Nat → Nat := fun s =>
    match at_ s with
    | some k => l.idxOf k
    | none => l.length
  have free := exists_free fewer (fun s => s = p ∨ at_ s ≠ none)
    (fun s => if s = p then l.length else thing s) ?_ ?_
  · obtain ⟨s, lt, not_taken⟩ := free
    simp only [not_or, not_not] at not_taken
    exact ⟨s, lt, not_taken⟩
  · intro s lt taken
    split
    · omega
    · rename_i off
      cases here : at_ s with
      | none => exact absurd here (taken.resolve_left off)
      | some k =>
        have lt' := List.idxOf_lt_length_of_mem (listed s k lt here)
        simp only [thing, here]
        omega
  · intro s lt s' lt' taken taken' same
    by_cases at_p : s = p
    · by_cases at_p' : s' = p
      · rw [at_p, at_p']
      · exfalso
        rw [if_pos at_p, if_neg at_p'] at same
        cases there : at_ s' with
        | none => exact absurd there (taken'.resolve_left at_p')
        | some k' =>
          have := List.idxOf_lt_length_of_mem (listed s' k' lt' there)
          simp only [thing, there] at same
          omega
    · cases here : at_ s with
      | none => exact absurd here (taken.resolve_left at_p)
      | some k =>
        have in_ks := List.idxOf_lt_length_of_mem (listed s k lt here)
        by_cases at_p' : s' = p
        · exfalso
          rw [if_neg at_p, if_pos at_p'] at same
          simp only [thing, here] at same
          omega
        · rw [if_neg at_p, if_neg at_p'] at same
          cases there : at_ s' with
          | none => exact absurd there (taken'.resolve_left at_p')
          | some k' =>
            simp only [thing, here, there] at same
            have same_key : k = k' := (List.idxOf_inj (listed s k lt here)).mp same
            rw [← same_key] at there
            exact apart s s' k lt lt' here there

end Cocolog.Lib
