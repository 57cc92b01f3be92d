import Cocolog.Compact.Copies

/-! Pass two: the roots are moved in the order they were copied, by one counter, so each
gets the cell its own term landed at. Every clause's program is found by the old cell
while the table still knows it. -/

set_option linter.all false

namespace Cocolog.Compact

open Cocolog.Lib Cocolog.Term Cocolog.Store Cocolog.Copy

variable {tb : Tables} {st tmp : Heap} {span : Nat → Nat} {at_ last k : Nat} {roots more rs all : List Nat}

/-- The row of the first roots, and of those after them. -/
theorem Row.split (row : Row tb st tmp span at_ (roots ++ more) rs last) :
    ∃ mid, Row tb st tmp span at_ roots (rs.take roots.length) mid ∧
      Row tb st tmp span mid more (rs.drop roots.length) last := by
  induction roots generalizing at_ rs with
  | nil => exact ⟨at_, .nil at_, row⟩
  | cons root roots ih =>
    cases row with
    | cons landed rest =>
      obtain ⟨mid, first, second⟩ := ih rest
      exact ⟨mid, .cons landed first, second⟩

theorem getD_of_drop {i r : Nat} (is : all.drop k = rs) (here : rs[i]? = some r) :
    all.getD (k + i) 0 = r := by
  rw [← is, List.getElem?_drop] at here
  rw [List.getD_eq_getElem?_getD, here]
  rfl

/-- A predicate as pass two leaves it: its clauses at the cells their terms landed at, its
programs found, and nothing else of it changed. -/
structure PredMoved (tb : Tables) (old : Base) (tmp : Heap) (span : Nat → Nat) (p p' : Pred) : Prop where
  other : p' = { p with clauses := p'.clauses, codes := p'.codes }
  landed : ∀ j < p.nclauses, Landed tb old.cells tmp (p.clauses j) (span (p.clauses j)) (p'.clauses j)
  code : ∀ j < p.nclauses, p'.codes j = old.codeOf p j

/-- The loop over a predicate's clauses, `n` turns on. -/
theorem movePred_turns (old : Base) (all : List Nat) (p : Pred) (kept : Code → Bool) (k n : Nat) :
    (List.range n).foldl
      (fun s j =>
        let cd := old.codeOf s.1 j
        let p := { s.1 with
          codes := Function.update s.1.codes j cd
          clauses := Function.update s.1.clauses j (all.getD s.2.2 0) }
        (p, keep s.2.1 cd, s.2.2 + 1))
      (p, kept, k) =
    ({ p with
      codes := fun j => if j < n then old.codeOf p j else p.codes j
      clauses := fun j => if j < n then all.getD (k + j) 0 else p.clauses j },
      fun cd => kept cd || decide (∃ j < n, old.codeOf p j = some cd), k + n) := by
  induction n with
  | zero => simp
  | succ n ih =>
    rw [List.range_succ, List.foldl_append, ih]
    have same : old.codeOf { p with
        codes := fun j => if j < n then old.codeOf p j else p.codes j
        clauses := fun j => if j < n then all.getD (k + j) 0 else p.clauses j } n = old.codeOf p n := by
      simp [Base.codeOf]
    have codes : Function.update (fun j => if j < n then old.codeOf p j else p.codes j) n (old.codeOf p n) =
        fun j => if j < n + 1 then old.codeOf p j else p.codes j := by
      funext j
      by_cases here : j = n
      · rw [here, Function.update_self, if_pos (Nat.lt_succ_self n)]
      · rw [Function.update_of_ne here]
        simp only [show j < n + 1 ↔ j < n by omega]
    have clauses : Function.update (fun j => if j < n then all.getD (k + j) 0 else p.clauses j) n
        (all.getD (k + n) 0) = fun j => if j < n + 1 then all.getD (k + j) 0 else p.clauses j := by
      funext j
      by_cases here : j = n
      · rw [here, Function.update_self, if_pos (Nat.lt_succ_self n)]
      · rw [Function.update_of_ne here]
        simp only [show j < n + 1 ↔ j < n by omega]
    have marked : keep (fun cd => kept cd || decide (∃ j < n, old.codeOf p j = some cd)) (old.codeOf p n) =
        fun cd => kept cd || decide (∃ j < n + 1, old.codeOf p j = some cd) := by
      funext cd
      have more : (∃ j < n + 1, old.codeOf p j = some cd) ↔
          (∃ j < n, old.codeOf p j = some cd) ∨ old.codeOf p n = some cd := by
        constructor
        · rintro ⟨j, lt, is⟩
          by_cases here : j = n
          · exact .inr (here ▸ is)
          · exact .inl ⟨j, by omega, is⟩
        · rintro (⟨j, lt, is⟩ | is)
          · exact ⟨j, by omega, is⟩
          · exact ⟨n, Nat.lt_succ_self n, is⟩
      simp only [more, Bool.decide_or, ← Bool.or_assoc]
      cases found : old.codeOf p n with
      | none => simp [keep]
      | some cd' =>
        by_cases here : cd = cd'
        · simp [keep, here]
        · simp [keep, Function.update_of_ne here, Ne.symm here]
    simp only [List.foldl_cons, List.foldl_nil, same, codes, clauses, marked]
    rfl

theorem cellsOf_length (p : Pred) : (cellsOf p).length = p.nclauses := by
  rw [cellsOf, List.length_map, List.length_range]

/-- A predicate moved: its clauses' new cells are the next of the row. -/
theorem movePred_spec (old : Base) {p : Pred} (kept : Code → Bool)
    (row : Row tb old.cells tmp span at_ (cellsOf p ++ more) rs last) (drop : all.drop k = rs) :
    PredMoved tb old tmp span p (movePred old all p kept k).1 ∧
      cellsOf (movePred old all p kept k).1 = rs.take p.nclauses ∧
      (∃ mid, Row tb old.cells tmp span mid more (rs.drop p.nclauses) last) ∧
      all.drop (movePred old all p kept k).2.2 = rs.drop p.nclauses ∧
      ∀ cd, (movePred old all p kept k).2.1 cd = true ↔ kept cd = true ∨ ∃ j < p.nclauses, old.codeOf p j = some cd := by
  obtain ⟨mid, mine, rest⟩ := row.split
  rw [cellsOf_length] at mine rest
  have len : p.nclauses ≤ rs.length := by
    have := mine.length_eq
    rw [List.length_take, cellsOf_length] at this
    omega
  -- the cell the counter names, for a clause of the predicate
  have cell : ∀ j < p.nclauses, rs[j]? = some (all.getD (k + j) 0) := by
    intro j lt
    obtain ⟨r, is⟩ : ∃ r, rs[j]? = some r := ⟨_, List.getElem?_eq_getElem (by omega)⟩
    rw [getD_of_drop drop is, is]
  have turns : movePred old all p kept k = _ := movePred_turns old all p kept k p.nclauses
  rw [turns]
  refine ⟨⟨rfl, ?_, ?_⟩, ?_, ⟨mid, rest⟩, ?_, ?_⟩
  · intro j lt
    have one : (cellsOf p)[j]? = some (p.clauses j) := by simp [cellsOf, lt]
    have two : (rs.take p.nclauses)[j]? = some (all.getD (k + j) 0) := by
      rw [List.getElem?_take_of_lt lt, cell j lt]
    simp only [if_pos lt]
    exact mine.landed one two
  · intro j lt
    simp only [if_pos lt]
  · apply List.ext_getElem?
    intro j
    by_cases lt : j < p.nclauses
    · rw [List.getElem?_take_of_lt lt, cell j lt]
      simp [cellsOf, lt]
    · rw [List.getElem?_eq_none (by rw [cellsOf_length]; exact Nat.le_of_not_lt lt),
        List.getElem?_eq_none (by rw [List.length_take]; omega)]
  · rw [← drop, List.drop_drop]
  · intro cd
    simp

/-- Every predicate moved. -/
theorem movePreds_spec (old : Base) {ps : List Pred} (kept : Code → Bool)
    (row : Row tb old.cells tmp span at_ (ps.flatMap cellsOf ++ more) rs last) (drop : all.drop k = rs) :
    List.Forall₂ (PredMoved tb old tmp span) ps (movePreds old all ps kept k).1 ∧
      (movePreds old all ps kept k).1.flatMap cellsOf = rs.take (ps.flatMap cellsOf).length ∧
      (∃ mid, Row tb old.cells tmp span mid more (rs.drop (ps.flatMap cellsOf).length) last) ∧
      all.drop (movePreds old all ps kept k).2.2 = rs.drop (ps.flatMap cellsOf).length ∧
      ∀ cd, (movePreds old all ps kept k).2.1 cd = true ↔
        kept cd = true ∨ ∃ p ∈ ps, ∃ j < p.nclauses, old.codeOf p j = some cd := by
  induction ps generalizing kept k rs at_ with
  | nil => exact ⟨.nil, rfl, ⟨at_, row⟩, drop, fun cd => by simp [movePreds]⟩
  | cons p ps ih =>
    rw [List.flatMap_cons, List.append_assoc] at row
    obtain ⟨one, cells, ⟨mid, row'⟩, drop', marked⟩ := movePred_spec old kept row drop
    obtain ⟨many, cells', rest, drop'', marked'⟩ := ih (movePred old all p kept k).2.1 row' drop'
    have len : ((p :: ps).flatMap cellsOf).length = p.nclauses + (ps.flatMap cellsOf).length := by
      rw [List.flatMap_cons, List.length_append, cellsOf_length]
    refine ⟨.cons one many, ?_, ?_, ?_, ?_⟩
    · rw [movePreds, List.flatMap_cons, cells, cells', len, List.take_add]
    · rw [len, ← List.drop_drop]
      exact rest
    · rw [len, ← List.drop_drop]
      exact drop''
    · intro cd
      refine (marked' cd).trans ?_
      rw [marked cd]
      simp only [List.mem_cons, exists_eq_or_imp, or_assoc]

/-- The globals moved. -/
theorem moveGlobals_spec {old : Heap} {gs : List Global}
    (row : Row tb old tmp span at_ (gs.map Global.cell ++ more) rs last) (drop : all.drop k = rs) :
    List.Forall₂ (fun g g' => g' = { g with cell := g'.cell } ∧ Landed tb old tmp g.cell (span g.cell) g'.cell) gs
        (moveGlobals all gs k).1 ∧
      (moveGlobals all gs k).1.map Global.cell = rs.take gs.length ∧
      (∃ mid, Row tb old tmp span mid more (rs.drop gs.length) last) ∧
      all.drop (moveGlobals all gs k).2 = rs.drop gs.length := by
  induction gs generalizing k rs at_ with
  | nil => exact ⟨.nil, rfl, ⟨at_, row⟩, drop⟩
  | cons g gs ih =>
    cases row with
    | @cons _ _ _ _ rs landed rest =>
      obtain ⟨many, cells, rest', drop'⟩ := ih (k := k + 1) rest (by rw [← List.drop_drop, drop]; rfl)
      have is : all.getD (k + 0) 0 = at_ := getD_of_drop drop rfl
      refine ⟨.cons ⟨rfl, ?_⟩ many, ?_, rest', drop'⟩
      · show Landed tb old tmp g.cell (span g.cell) (all.getD (k + 0) 0)
        rw [is]
        exact landed
      · show all.getD (k + 0) 0 :: _ = _
        rw [is, cells]
        rfl

/-- A rootset's entries moved. -/
theorem moveSet_spec {old : Heap} {set : List Nat} (row : Row tb old tmp span at_ (set ++ more) rs last)
    (drop : all.drop k = rs) :
    List.Forall₂ (fun r r' => Landed tb old tmp r (span r) r') set (moveSet all set k).1 ∧
      (moveSet all set k).1 = rs.take set.length ∧
      (∃ mid, Row tb old tmp span mid more (rs.drop set.length) last) ∧
      all.drop (moveSet all set k).2 = rs.drop set.length := by
  induction set generalizing k rs at_ with
  | nil => exact ⟨.nil, rfl, ⟨at_, row⟩, drop⟩
  | cons r set ih =>
    cases row with
    | @cons _ _ _ _ rs landed rest =>
      obtain ⟨many, cells, rest', drop'⟩ := ih (k := k + 1) rest (by rw [← List.drop_drop, drop]; rfl)
      have is : all.getD (k + 0) 0 = at_ := getD_of_drop drop rfl
      refine ⟨.cons ?_ many, ?_, rest', drop'⟩
      · show Landed tb old tmp r (span r) (all.getD (k + 0) 0)
        rw [is]
        exact landed
      · show all.getD (k + 0) 0 :: _ = _
        rw [is, cells]
        rfl

/-- Every rootset moved. -/
theorem moveSets_spec {old : Heap} {sets : List (List Nat)} (row : Row tb old tmp span at_ sets.flatten rs last)
    (drop : all.drop k = rs) :
    List.Forall₂ (List.Forall₂ fun r r' => Landed tb old tmp r (span r) r') sets (moveSets all sets k).1 ∧
      (moveSets all sets k).1.flatten = rs := by
  induction sets generalizing k rs at_ with
  | nil =>
    cases row
    exact ⟨.nil, rfl⟩
  | cons set sets ih =>
    rw [List.flatten_cons] at row
    obtain ⟨one, cells, ⟨mid, rest⟩, drop'⟩ := moveSet_spec row drop
    obtain ⟨many, cells'⟩ := ih rest drop'
    refine ⟨.cons one many, ?_⟩
    show _ ++ _ = rs
    rw [cells, cells', List.take_append_drop]

end Cocolog.Compact
