import Cocolog.Lib.Arrays
import Cocolog.Store.Pred

/-! The clause list as one list of records, each clause with its key, origin, mute,
program and death. The arrays are read entry by entry into records; every loop over
them is shown to be an edit of the list that moves whole records. -/

set_option linter.all false

namespace Cocolog.Store

open Cocolog.Lib

/-- One clause with everything the arrays say of it. -/
structure Rec where
  clause : Nat
  key : Nat
  origin : Nat
  muted : Int
  code : Option Code
  death : Nat
deriving Repr, DecidableEq

/-- The record of a clause not dead. -/
def Rec.live (r : Rec) : Bool := r.death == 0

/-- The record a new clause starts as. -/
def NewClause.asRec (c : NewClause) : Rec :=
  { clause := c.clause, key := c.key, origin := c.origin, muted := c.muted, code := none,
    death := 0 }

namespace Pred

/-- Entry `i` of the five arrays that always move. -/
def rowAt (p : Pred) (i : Nat) : Rec :=
  { clause := p.clauses i, key := p.keys i, origin := p.origins i, muted := p.muted i,
    code := p.codes i, death := 0 }

/-- Entry `i` of all six. -/
def recAt (p : Pred) (i : Nat) : Rec := { p.rowAt i with death := p.deathAt i }

/-- The clause list. -/
def recs (p : Pred) : List Rec := entries p.recAt p.nclauses

/-- The predicate without its six arrays. -/
def bare (p : Pred) : Pred :=
  { p with
    clauses := fun _ => 0, keys := fun _ => 0, origins := fun _ => 0, muted := fun _ => 0
    codes := fun _ => none, tomb := none }

@[simp] theorem length_recs (p : Pred) : p.recs.length = p.nclauses := by simp [recs]

theorem deathAt_none {p : Pred} (none_ : p.tomb = none) (i : Nat) : p.deathAt i = 0 := by
  simp [deathAt, none_]

@[simp] theorem withCount_recAt (p : Pred) (n : Nat) : (p.withCount n).recAt = p.recAt := rfl
@[simp] theorem withCount_nclauses (p : Pred) (n : Nat) : (p.withCount n).nclauses = n := rfl
@[simp] theorem setNprobe_recAt (p : Pred) : p.setNprobe.recAt = p.recAt := rfl
@[simp] theorem bumpVer_recAt (p : Pred) : p.bumpVer.recAt = p.recAt := rfl
@[simp] theorem unindex_recAt (p : Pred) : p.unindex.recAt = p.recAt := rfl
@[simp] theorem setNprobe_recs (p : Pred) : p.setNprobe.recs = p.recs := rfl
@[simp] theorem bumpVer_recs (p : Pred) : p.bumpVer.recs = p.recs := rfl
@[simp] theorem unindex_recs (p : Pred) : p.unindex.recs = p.recs := rfl

/- The moves of one entry. -/

theorem copyRow_rowAt (p : Pred) (dst src j : Nat) :
    (p.copyRow dst src).rowAt j = if j = dst then p.rowAt src else p.rowAt j := by
  by_cases h : j = dst
  · subst h
    simp [rowAt, copyRow]
  · simp [rowAt, copyRow, h]

theorem copyRow_bare (p : Pred) (dst src : Nat) : (p.copyRow dst src).bare = p.bare := rfl

theorem copyRow_tomb (p : Pred) (dst src : Nat) : (p.copyRow dst src).tomb = p.tomb := rfl

theorem copyTomb_bare (p : Pred) (dst src : Nat) : (p.copyTomb dst src).bare = p.bare := rfl

theorem copyTomb_deathAt (p : Pred) (dst src j : Nat) :
    (p.copyTomb dst src).deathAt j = if j = dst then p.deathAt src else p.deathAt j := by
  cases h : p.tomb with
  | none => simp [deathAt, copyTomb, h]
  | some tomb =>
    by_cases at_dst : j = dst
    · subst at_dst
      simp [deathAt, copyTomb, h]
    · simp [deathAt, copyTomb, h, at_dst]

theorem copyEntry_recAt (p : Pred) (dst src j : Nat) :
    ((p.copyRow dst src).copyTomb dst src).recAt j =
      if j = dst then p.recAt src else p.recAt j := by
  have row : ((p.copyRow dst src).copyTomb dst src).rowAt j = (p.copyRow dst src).rowAt j := rfl
  have death : ((p.copyRow dst src).copyTomb dst src).deathAt j =
      if j = dst then p.deathAt src else p.deathAt j := copyTomb_deathAt (p.copyRow dst src) dst src j
  rw [recAt, row, death, copyRow_rowAt]
  split <;> rfl

theorem putRow_recAt (p : Pred) (i : Nat) (c : NewClause) (j : Nat) :
    (p.putRow i c).recAt j = if j = i then c.asRec else p.recAt j := by
  cases h : p.tomb with
  | none =>
    by_cases at_i : j = i
    · subst at_i
      simp [recAt, rowAt, deathAt, putRow, h, NewClause.asRec]
    · simp [recAt, rowAt, deathAt, putRow, h, at_i]
  | some tomb =>
    by_cases at_i : j = i
    · subst at_i
      simp [recAt, rowAt, deathAt, putRow, h, NewClause.asRec]
    · simp [recAt, rowAt, deathAt, putRow, h, at_i]

/- The moves of a stretch. -/

theorem shiftUp_bare (p : Pred) (k i : Nat) : (p.shiftUp k i).bare = p.bare := by
  induction i generalizing p with
  | zero => rfl
  | succ i ih =>
    rw [shiftUp]
    split
    · rw [ih]
      rfl
    · rfl

theorem shiftUp_recAt (p : Pred) (k n j : Nat) :
    (p.shiftUp k n).recAt j = if k < j ∧ j ≤ n then p.recAt (j - 1) else p.recAt j := by
  induction n generalizing p with
  | zero => rw [shiftUp, if_neg (by omega)]
  | succ i ih =>
    rw [shiftUp]
    split
    · rename_i above
      rw [ih, copyEntry_recAt, copyEntry_recAt]
      by_cases at_top : j = i + 1
      · rw [if_neg (show ¬ (k < j ∧ j ≤ i) by omega), if_pos at_top,
          if_pos (show k < j ∧ j ≤ i + 1 by omega), at_top, Nat.add_sub_cancel]
      · by_cases inside : k < j ∧ j ≤ i
        · rw [if_pos inside, if_neg (show ¬ j - 1 = i + 1 by omega),
            if_pos (show k < j ∧ j ≤ i + 1 by omega)]
        · rw [if_neg inside, if_neg at_top, if_neg (show ¬ (k < j ∧ j ≤ i + 1) by omega)]
    · rw [if_neg (by omega)]

theorem shiftDown_fold (p : Pred) (i m : Nat) :
    ∀ q, q = (List.range' i m).foldl (fun p j => p.copyRow j (j + 1)) p →
      q.bare = p.bare ∧ q.tomb = p.tomb ∧
      ∀ j, q.rowAt j = if i ≤ j ∧ j < i + m then p.rowAt (j + 1) else p.rowAt j := by
  induction m with
  | zero =>
    rintro q rfl
    refine ⟨rfl, rfl, ?_⟩
    intro j
    rw [if_neg (by omega)]
  | succ m ih =>
    rintro q rfl
    obtain ⟨bare, tomb, rows⟩ := ih _ rfl
    rw [List.range'_1_concat, List.foldl_append]
    refine ⟨bare, tomb, ?_⟩
    intro j
    simp only [List.foldl_cons, List.foldl_nil]
    rw [copyRow_rowAt, rows, rows]
    by_cases at_end : j = i + m
    · rw [if_pos at_end, if_neg (by omega), if_pos (by omega), at_end]
    · rw [if_neg at_end]
      by_cases inside : i ≤ j ∧ j < i + m
      · rw [if_pos inside, if_pos (by omega)]
      · rw [if_neg inside, if_neg (by omega)]

theorem shiftDown_spec (p : Pred) (i : Nat) :
    (p.shiftDown i).bare = p.bare ∧ (p.shiftDown i).tomb = p.tomb ∧
      ∀ j, (p.shiftDown i).rowAt j =
        if i ≤ j ∧ j < i + (p.nclauses - 1 - i) then p.rowAt (j + 1) else p.rowAt j :=
  shiftDown_fold p i (p.nclauses - 1 - i) _ rfl

/-- The test of a compaction reads the clause at hand and nothing the loop has moved. -/
def ReadsRow (p : Pred) (drop : Pred → Nat → Bool) : Prop :=
  ∀ q i, q.bare = p.bare → q.tomb = p.tomb → q.rowAt i = p.rowAt i → drop q i = drop p i

/-- What the compacting loop has done after the first `m` positions. -/
structure Compacted (p : Pred) (drop : Pred → Nat → Bool) (m : Nat) (s : Pred × Nat) :
    Prop where
  bare : s.1.bare = p.bare
  tomb : s.1.tomb = p.tomb
  rows : entries s.1.rowAt s.2 = ((List.range m).filter fun i => !drop p i).map p.rowAt
  ahead : ∀ j, m ≤ j → s.1.rowAt j = p.rowAt j
  kept : s.2 ≤ m

theorem Compacted.step {p : Pred} {drop : Pred → Nat → Bool} (reads : p.ReadsRow drop) {m : Nat}
    {s : Pred × Nat} (h : Compacted p drop m s) : Compacted p drop (m + 1) (keepStep drop s m) := by
  have test : drop s.1 m = drop p m := reads s.1 m h.bare h.tomb (h.ahead m (Nat.le_refl m))
  rw [keepStep, test]
  by_cases dropped : drop p m = true
  · rw [if_pos dropped]
    refine ⟨h.bare, h.tomb, ?_, fun j hj => h.ahead j (by omega), Nat.le_succ_of_le h.kept⟩
    simp [List.range_succ, List.filter_append, dropped, h.rows]
  · rw [if_neg dropped]
    have target : (List.range (m + 1)).filter (fun i => !drop p i) =
        (List.range m).filter (fun i => !drop p i) ++ [m] := by
      simp [List.range_succ, List.filter_append, dropped]
    by_cases moves : s.2 ≠ m
    · rw [if_pos moves]
      refine ⟨h.bare, h.tomb, ?_, ?_, Nat.succ_le_succ h.kept⟩
      · have same : ∀ j < s.2, (s.1.copyRow s.2 m).rowAt j = s.1.rowAt j := by
          intro j hj
          rw [copyRow_rowAt, if_neg (by omega)]
        rw [entries_append same, target, List.map_append, h.rows, copyRow_rowAt, if_pos rfl,
          h.ahead m (Nat.le_refl m)]
        rfl
      · intro j hj
        have below := h.kept
        rw [copyRow_rowAt, if_neg (by omega)]
        exact h.ahead j (by omega)
    · rw [if_neg moves]
      have at_m : s.2 = m := not_not.mp moves
      refine ⟨h.bare, h.tomb, ?_, fun j hj => h.ahead j (by omega), Nat.succ_le_succ h.kept⟩
      rw [entries_append (fun j _ => rfl), target, List.map_append, h.rows, at_m,
        h.ahead m (Nat.le_refl m)]
      rfl

theorem compact_spec (p : Pred) {drop : Pred → Nat → Bool} (reads : p.ReadsRow drop) :
    Compacted p drop p.nclauses (p.compact drop) := by
  have loop : ∀ m, Compacted p drop m ((List.range m).foldl (keepStep drop) (p, 0)) := by
    intro m
    induction m with
    | zero => exact ⟨rfl, rfl, rfl, fun _ _ => rfl, Nat.le_refl 0⟩
    | succ m ih =>
      rw [List.range_succ, List.foldl_append]
      exact ih.step reads
  exact loop p.nclauses

end Pred

end Cocolog.Store
