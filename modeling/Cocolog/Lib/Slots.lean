import Mathlib.Data.List.Nodup
import Mathlib.Data.Nat.Count

/-! Tables whose entries are named by index. Entries given up go on a free list, which new
ones take from before the table grows. -/

set_option linter.all false

namespace Cocolog.Lib

/-- How an array's growth is answered: a doubling, then what is needed and a sixteenth. -/
inductive Grant where
  | doubled
  | short
  | refused
deriving Repr, DecidableEq

/-- Doubled until it is enough, `fuel` times at most. -/
def doubling (need : Nat) : Nat → Nat → Nat
  | 0, cap => cap
  | fuel + 1, cap => if cap < need then doubling need fuel (cap * 2) else cap

theorem doubling_enough {need : Nat} (fuel : Nat) {cap : Nat} (some_ : 0 < cap) (enough : need ≤ cap + fuel) :
    need ≤ doubling need fuel cap := by
  induction fuel generalizing cap with
  | zero => exact enough
  | succ fuel ih =>
    rw [doubling]
    split
    · exact ih (by omega) (by omega)
    · omega

/-- What a doubling asks for. -/
def doubled (cap need : Nat) : Nat := doubling need need (if cap = 0 then 64 else cap)

theorem le_doubled (cap need : Nat) : need ≤ doubled cap need := by
  refine doubling_enough need ?_ (by omega)
  split <;> omega

/-- The room of an array of `cap` entries once `need` are asked for, nothing when they are
refused. -/
def grow (cap need : Nat) (g : Grant) : Option Nat :=
  if need ≤ cap then some cap
  else match g with
    | .doubled => some (doubled cap need)
    | .short => some (need + (need / 16 + 64))
    | .refused => none

theorem le_grow {cap need : Nat} {g : Grant} {c : Nat} (given : grow cap need g = some c) : need ≤ c := by
  unfold grow at given
  split at given
  · rename_i fits
    exact Option.some.inj given ▸ fits
  · cases g with
    | doubled => exact Option.some.inj given ▸ le_doubled cap need
    | short =>
      have is := Option.some.inj given
      omega
    | refused => cases given

/-- A table, with the room its two arrays have. The head of `free` is taken next. -/
structure Slots (α : Type) where
  entries : List α := []
  cap : Nat := 0
  free : List Nat := []
  freeCap : Nat := 0
  within : ∀ i ∈ free, i < entries.length := by simp
  distinct : free.Nodup := by simp
  room : entries.length ≤ cap := by simp
  freeRoom : free.length ≤ freeCap := by simp

namespace Slots

/-- The table of some entries, with no room to spare. -/
def full {α : Type} (entries : List α) : Slots α := { entries, cap := entries.length }

variable {α : Type}

/-- An entry in use. -/
def InUse (t : Slots α) (i : Nat) : Prop := i < t.entries.length ∧ i ∉ t.free

/-- An entry for `v`: a free one first. -/
def take (t : Slots α) (v : α) (g : Grant) : Option (Nat × Slots α) :=
  match free : t.free with
  | i :: rest => some (i,
      { t with
        entries := t.entries.set i v
        free := rest
        within := by
          intro j mem
          rw [List.length_set]
          exact t.within j (free ▸ List.mem_cons_of_mem i mem)
        distinct := (List.nodup_cons.mp (free ▸ t.distinct)).2
        room := by
          rw [List.length_set]
          exact t.room
        freeRoom := by
          have fits := t.freeRoom
          rw [free, List.length_cons] at fits
          omega })
  | [] =>
    match given : grow t.cap (t.entries.length + 1) g with
    | none => none
    | some c => some (t.entries.length,
        { t with
          entries := t.entries ++ [v]
          cap := c
          within := by
            intro j mem
            rw [free] at mem
            cases mem
          room := by
            rw [List.length_append]
            exact le_grow given })

/-- What is taken was not in use, and every entry in use stays as it was. -/
theorem take_spec {t t' : Slots α} {v : α} {g : Grant} {i : Nat} (taken : t.take v g = some (i, t')) :
    ¬ t.InUse i ∧ t'.InUse i ∧ t'.entries[i]? = some v ∧
      ∀ j, t.InUse j → t'.InUse j ∧ t'.entries[j]? = t.entries[j]? := by
  unfold take at taken
  split at taken
  · rename_i k rest free
    obtain ⟨rfl, rfl⟩ := Prod.mk.inj (Option.some.inj taken)
    have listed : k ∈ t.free := free ▸ List.mem_cons_self
    have lt : k < t.entries.length := t.within k listed
    have once : k ∉ rest := (List.nodup_cons.mp (free ▸ t.distinct)).1
    refine ⟨fun used => used.2 listed, ⟨?_, once⟩, ?_, ?_⟩
    · rw [List.length_set]
      exact lt
    · exact List.getElem?_set_self lt
    · intro j used
      have ne : k ≠ j := by
        rintro rfl
        exact used.2 listed
      refine ⟨⟨?_, ?_⟩, List.getElem?_set_ne ne⟩
      · rw [List.length_set]
        exact used.1
      · intro mem
        exact used.2 (free ▸ List.mem_cons_of_mem k mem)
  · rename_i free
    split at taken
    · cases taken
    · obtain ⟨rfl, rfl⟩ := Prod.mk.inj (Option.some.inj taken)
      refine ⟨fun used => Nat.lt_irrefl _ used.1, ⟨?_, ?_⟩, List.getElem?_concat_length, ?_⟩
      · rw [List.length_append]
        exact Nat.lt_succ_self _
      · simp only [free, List.not_mem_nil, not_false_eq_true]
      · intro j used
        refine ⟨⟨?_, used.2⟩, List.getElem?_append_left used.1⟩
        rw [List.length_append]
        exact Nat.lt_succ_of_lt used.1

/-- The length with the entries at the end that are not live cut off. -/
def cut (live : Nat → Bool) : Nat → Nat
  | 0 => 0
  | n + 1 => if live n = true then n + 1 else cut live n

theorem cut_le (live : Nat → Bool) (n : Nat) : cut live n ≤ n := by
  induction n with
  | zero => exact le_rfl
  | succ n ih =>
    rw [cut]
    split
    · exact le_rfl
    · exact Nat.le_succ_of_le ih

theorem lt_cut {live : Nat → Bool} {n i : Nat} (lt : i < n) (is : live i = true) : i < cut live n := by
  induction n with
  | zero => exact absurd lt (Nat.not_lt_zero i)
  | succ n ih =>
    rw [cut]
    split
    · exact lt
    · rename_i dead
      have ne : i ≠ n := by
        rintro rfl
        exact dead is
      exact ih (by omega)

/-- The entries below `n` that are not live, on top of `l` with the lowest first. -/
def freed (live : Nat → Bool) : Nat → List Nat → List Nat
  | 0, l => l
  | i + 1, l => freed live i (if live i = true then l else i :: l)

theorem freed_eq (live : Nat → Bool) (n : Nat) (l : List Nat) :
    freed live n l = (List.range n).filter (fun i => !live i) ++ l := by
  induction n generalizing l with
  | zero => rfl
  | succ n ih =>
    rw [freed, ih, List.range_succ, List.filter_append, List.append_assoc]
    congr 1
    cases is : live n with
    | false => simp [is]
    | true => simp [is]

theorem mem_freed {live : Nat → Bool} {n i : Nat} : i ∈ freed live n [] ↔ i < n ∧ live i = false := by
  rw [freed_eq, List.append_nil, List.mem_filter, List.mem_range, Bool.not_eq_true']

/-- How many entries are live: the others below the cut are the ones that are freed. -/
def lives (live : Nat → Bool) (n : Nat) : Nat := (List.range n).countP live

theorem lives_cut (live : Nat → Bool) (n : Nat) : lives live (cut live n) = lives live n := by
  induction n with
  | zero => rfl
  | succ n ih =>
    rw [cut]
    split
    · rfl
    · rename_i dead
      rw [ih, lives, lives, List.range_succ, List.countP_append, List.countP_singleton, if_neg dead, Nat.add_zero]

theorem freed_length (live : Nat → Bool) (n : Nat) :
    (freed live (cut live n) []).length = cut live n - lives live n := by
  rw [freed_eq, List.append_nil, ← List.countP_eq_length_filter, ← lives_cut]
  have both := List.length_eq_countP_add_countP live (l := List.range (cut live n))
  have dead : (fun i => decide (¬ live i = true)) = fun i => !live i := by
    funext i
    cases live i <;> rfl
  rw [List.length_range, dead] at both
  rw [lives]
  omega

/-- The table after a sweep: `drop` is done to a dead entry, those at the end are cut off,
and the others are freed where the list has room or is given it. -/
def sweep (t : Slots α) (live : Nat → Bool) (drop : α → α) (g : Grant) : Slots α :=
  let n := t.entries.length
  let entries := (t.entries.mapIdx fun i v => if live i = true then v else drop v).take (cut live n)
  have length : entries.length = cut live n := by
    rw [List.length_take, List.length_mapIdx]
    exact Nat.min_eq_left (cut_le live n)
  have room : entries.length ≤ t.cap := length ▸ (cut_le live n).trans t.room
  match given : grow t.freeCap (cut live n - lives live n) g with
  | none => { t with entries, free := [], within := by simp, distinct := by simp, room, freeRoom := by simp }
  | some c =>
    { t with
      entries
      room
      free := freed live (cut live n) []
      freeCap := c
      within := fun i mem => length ▸ (mem_freed.mp mem).1
      distinct := by
        rw [freed_eq, List.append_nil]
        exact List.nodup_range.filter _
      freeRoom := freed_length live n ▸ le_grow given }

/-- A live entry stays as it was and is not freed. -/
theorem sweep_live {t : Slots α} {live : Nat → Bool} {drop : α → α} {g : Grant} {i : Nat}
    (lt : i < t.entries.length) (is : live i = true) :
    (t.sweep live drop g).InUse i ∧ (t.sweep live drop g).entries[i]? = t.entries[i]? := by
  have entries : (t.sweep live drop g).entries =
      (t.entries.mapIdx fun i v => if live i = true then v else drop v).take (cut live t.entries.length) := by
    unfold sweep
    dsimp only
    split <;> rfl
  have kept := lt_cut lt is
  refine ⟨⟨?_, ?_⟩, ?_⟩
  · rw [entries, List.length_take, List.length_mapIdx]
    exact Nat.lt_min.mpr ⟨kept, lt⟩
  · unfold sweep
    dsimp only
    split
    · exact List.not_mem_nil
    · intro mem
      rw [(mem_freed.mp mem).2] at is
      cases is
  · rw [entries, List.getElem?_take_of_lt kept, List.getElem?_mapIdx, List.getElem?_eq_getElem lt]
    simp only [Option.map_some, if_pos is]

end Slots

end Cocolog.Lib
