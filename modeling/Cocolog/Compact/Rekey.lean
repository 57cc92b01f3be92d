import Cocolog.Compact.Codes
import Cocolog.Compact.Model

/-! The table of the compiled clauses over a compaction: emptied, with what no clause owns
retired or freed, and every owned program keyed by its clause's new cell. -/

set_option linter.all false

namespace Cocolog.Compact

open Cocolog.Lib Cocolog.Store

variable {st : Base} {t : CodeTable} {L : List (Nat × Code)}

/-- A program the table has and does not keep. -/
def Base.Dropped (st : Base) (n : Nat) (cd : Code) : Prop :=
  ∃ i < n, st.table.keys i ≠ 0 ∧ st.table.vals i = some cd ∧ st.kept cd = false

/-- The store with the first `n` positions of the table emptied. -/
structure Emptying (st : Base) (n : Nat) (s : Base) : Prop where
  other : s = { st with table := s.table, retired := s.retired, freed := s.freed }
  cap : s.table.cap = st.table.cap
  cleared : ∀ i < n, s.table.keys i = 0
  rest : ∀ i, n ≤ i → s.table.keys i = st.table.keys i ∧ s.table.vals i = st.table.vals i
  retired : ∀ cd, cd ∈ s.retired ↔ cd ∈ st.retired ∨ (st.Dropped n cd ∧ st.envd cd = true)
  freed : ∀ cd, cd ∈ s.freed ↔ cd ∈ st.freed ∨ (st.Dropped n cd ∧ st.envd cd = false)

theorem dropped_succ {n : Nat} {cd : Code} : st.Dropped (n + 1) cd ↔
    st.Dropped n cd ∨ (st.table.keys n ≠ 0 ∧ st.table.vals n = some cd ∧ st.kept cd = false) := by
  constructor
  · rintro ⟨i, lt, entry⟩
    by_cases here : i = n
    · exact .inr (here ▸ entry)
    · exact .inl ⟨i, by omega, entry⟩
  · rintro (⟨i, lt, entry⟩ | entry)
    · exact ⟨i, by omega, entry⟩
    · exact ⟨n, Nat.lt_succ_self n, entry⟩

theorem retire_spec (s : Base) (cd : Code) :
    s.retire cd = { s with retired := (s.retire cd).retired, freed := (s.retire cd).freed } ∧
      (∀ c, c ∈ (s.retire cd).retired ↔ c ∈ s.retired ∨ (c = cd ∧ s.envd cd = true)) ∧
      ∀ c, c ∈ (s.retire cd).freed ↔ c ∈ s.freed ∨ (c = cd ∧ s.envd cd = false) := by
  unfold Base.retire
  split
  · rename_i no
    refine ⟨rfl, fun c => by simp [no], fun c => ?_⟩
    simp only [List.mem_cons, no, and_true]
    exact or_comm
  · rename_i yes
    refine ⟨rfl, fun c => ?_, fun c => by simp [yes]⟩
    simp only [List.mem_cons, Bool.not_eq_false] at yes ⊢
    rw [yes]
    simp only [and_true]
    exact or_comm

/-- The program at a position goes its way. -/
theorem dropped_spec (s : Base) (n : Nat) :
    let s' := match s.table.vals n with
      | some cd => if s.kept cd then s else s.retire cd
      | none => s
    s' = { s with retired := s'.retired, freed := s'.freed } ∧
      (∀ c, c ∈ s'.retired ↔ c ∈ s.retired ∨ ((s.table.vals n = some c ∧ s.kept c = false) ∧ s.envd c = true)) ∧
      ∀ c, c ∈ s'.freed ↔ c ∈ s.freed ∨ ((s.table.vals n = some c ∧ s.kept c = false) ∧ s.envd c = false) := by
  dsimp only
  cases vals : s.table.vals n with
  | none => simp
  | some cd =>
    dsimp only
    by_cases keep : s.kept cd = true
    · rw [if_pos keep]
      refine ⟨rfl, fun c => ?_, fun c => ?_⟩
      all_goals
        simp only [Option.some.injEq, iff_self_or]
        rintro ⟨⟨rfl, no⟩, -⟩
        rw [keep] at no
        cases no
    · rw [if_neg keep]
      obtain ⟨other, retired, freed⟩ := retire_spec s cd
      have no : s.kept cd = false := by simpa using keep
      refine ⟨other, fun c => (retired c).trans (or_congr_right ?_), fun c => (freed c).trans (or_congr_right ?_)⟩
      all_goals
        simp only [Option.some.injEq]
        constructor
        · rintro ⟨rfl, env⟩
          exact ⟨⟨rfl, no⟩, env⟩
        · rintro ⟨⟨rfl, -⟩, env⟩
          exact ⟨rfl, env⟩

/-- One position more. -/
theorem Emptying.next {n : Nat} {s : Base} (before : Emptying st n s) :
    Emptying st (n + 1)
      (if s.table.keys n = 0 then s
      else
        let s := match s.table.vals n with
          | some cd => if s.kept cd then s else s.retire cd
          | none => s
        { s with table := { s.table with
          keys := Function.update s.table.keys n 0
          vals := Function.update s.table.vals n none } }) := by
  obtain ⟨other, cap, cleared, rest, retired, freed⟩ := before
  obtain ⟨key, val⟩ := rest n le_rfl
  have kept : s.kept = st.kept := by rw [other]
  have envd : s.envd = st.envd := by rw [other]
  split
  · rename_i zero
    have same : ∀ cd, st.Dropped (n + 1) cd ↔ st.Dropped n cd := by
      intro cd
      rw [dropped_succ, or_iff_left]
      rintro ⟨some_, -⟩
      exact some_ (key.symm.trans zero)
    refine ⟨other, cap, ?_, fun i le => rest i (by omega), ?_, ?_⟩
    · intro i lt
      by_cases here : i = n
      · rw [here]
        exact zero
      · exact cleared i (by omega)
    · intro cd
      rw [same, retired]
    · intro cd
      rw [same, freed]
  · rename_i some_
    have more : ∀ cd, st.Dropped (n + 1) cd ↔ st.Dropped n cd ∨ (s.table.vals n = some cd ∧ s.kept cd = false) := by
      intro cd
      rw [dropped_succ, val, kept]
      rw [key] at some_
      simp only [some_, ne_eq, not_false_eq_true, true_and]
    obtain ⟨other', retired', freed'⟩ := dropped_spec s n
    revert other' retired' freed'
    generalize (match s.table.vals n with
      | some cd => if s.kept cd then s else s.retire cd
      | none => s) = s'
    intro other' retired' freed'
    have table : s'.table = s.table := by rw [other']
    refine ⟨?_, ?_, ?_, ?_, ?_, ?_⟩
    · rw [other', other]
    · show s'.table.cap = _
      rw [table, cap]
    · intro i lt
      show Function.update s'.table.keys n 0 i = 0
      by_cases here : i = n
      · rw [here, Function.update_self]
      · rw [Function.update_of_ne here, table]
        exact cleared i (by omega)
    · intro i le
      have off : i ≠ n := by omega
      show Function.update s'.table.keys n 0 i = _ ∧ Function.update s'.table.vals n none i = _
      rw [Function.update_of_ne off, Function.update_of_ne off, table]
      exact rest i (by omega)
    · intro cd
      show cd ∈ s'.retired ↔ _
      rw [retired', retired, more, envd, or_and_right, or_assoc]
    · intro cd
      show cd ∈ s'.freed ↔ _
      rw [freed', freed, more, envd, or_and_right, or_assoc]

/-- The table emptied. -/
theorem emptied_spec (st : Base) (power : st.table.cap = 0 ∨ ∃ e, 8 ≤ e ∧ st.table.cap = 2 ^ e) :
    CodeTable.Lists st.emptied.table [] ∧
      st.emptied = { st with table := st.emptied.table, retired := st.emptied.retired, freed := st.emptied.freed } ∧
      (∀ cd, cd ∈ st.emptied.retired ↔ cd ∈ st.retired ∨ (st.Dropped st.table.cap cd ∧ st.envd cd = true)) ∧
      ∀ cd, cd ∈ st.emptied.freed ↔ cd ∈ st.freed ∨ (st.Dropped st.table.cap cd ∧ st.envd cd = false) := by
  have all : ∀ n, Emptying st n ((List.range n).foldl
      (fun s i =>
        if s.table.keys i = 0 then s
        else
          let s := match s.table.vals i with
            | some cd => if s.kept cd then s else s.retire cd
            | none => s
          { s with table := { s.table with
            keys := Function.update s.table.keys i 0
            vals := Function.update s.table.vals i none } })
      st) := by
    intro n
    induction n with
    | zero =>
      refine ⟨rfl, rfl, fun i lt => absurd lt (Nat.not_lt_zero i), fun i _ => ⟨rfl, rfl⟩, fun cd => ?_, fun cd => ?_⟩
      all_goals
        simp [Base.Dropped]
    | succ n ih =>
      rw [List.range_succ, List.foldl_append]
      exact ih.next
  have done := all st.table.cap
  unfold Base.emptied
  dsimp only
  generalize List.foldl _ st (List.range st.table.cap) = s at done
  obtain ⟨other, cap, cleared, -, retired, freed⟩ := done
  refine ⟨.empty ?_ rfl ?_, ?_, retired, freed⟩
  · show s.table.cap = 0 ∨ ∃ e, 8 ≤ e ∧ s.table.cap = 2 ^ e
    rw [cap]
    exact power
  · intro i lt
    exact cleared i (by rw [← cap]; exact lt)
  · rw [other]

/-- The programs in a predicate's slots, with the clauses' cells. -/
def slotsOf (p : Pred) : List (Nat × Code) :=
  (List.range p.nclauses).filterMap fun j => (p.codes j).map fun cd => (p.clauses j, cd)

theorem mem_slotsOf {p : Pred} {e : Nat × Code} :
    e ∈ slotsOf p ↔ ∃ j < p.nclauses, p.codes j = some e.2 ∧ p.clauses j = e.1 := by
  simp only [slotsOf, List.mem_filterMap, List.mem_range, Option.map_eq_some_iff]
  constructor
  · rintro ⟨j, lt, cd, slot, rfl⟩
    exact ⟨j, lt, slot, rfl⟩
  · rintro ⟨j, lt, slot, cell⟩
    exact ⟨j, lt, e.2, slot, by rw [cell]⟩

/-- One program keyed by one cell. -/
def Base.keyOne (s : Base × (Nat → Bool)) (e : Nat × Code) : Base × (Nat → Bool) :=
  if s.1.kept e.2 then
    let put := s.1.table.put e.1 e.2 s.2
    ({ s.1 with kept := Function.update s.1.kept e.2 false, table := put.1 }, put.2)
  else s

theorem keyed_eq (st : Base) (rooms : Nat → Bool) :
    st.keyed rooms = ((st.preds.flatMap slotsOf).foldl Base.keyOne (st, rooms)).1 := by
  rw [List.foldl_flatMap]
  unfold Base.keyed
  congr 2
  funext s p
  unfold slotsOf
  rw [List.foldl_filterMap]
  congr 1
  funext s j
  unfold Base.keyClause Base.keyOne
  cases p.codes j <;> rfl

theorem put_rooms (clause : Nat) (cd : Code) {rooms : Nat → Bool} :
    (∀ k, rooms k = true) → ∀ k, (t.put clause cd rooms).2 k = true := by
  intro all k
  unfold CodeTable.put
  dsimp only
  split
  · exact all k
  · split
    · exact all (k + 1)
    · exact all (k + 1)

theorem put_refused {clause : Nat} {cd : Code} {rooms : Nat → Bool} :
    (∃ k, (t.put clause cd rooms).2 k = false) → ∃ k, rooms k = false := by
  rintro ⟨k, no⟩
  by_contra none_
  simp only [not_exists, Bool.not_eq_false] at none_
  rw [put_rooms clause cd none_ k] at no
  cases no

/-- Every owned program is keyed by its cell, unless a growth of the table was refused. -/
theorem keyed_spec {l : List (Nat × Code)} {s : Base × (Nat → Bool)} (lists : CodeTable.Lists s.1.table L)
    (apart : (l.map Prod.fst).Nodup) (own : (l.map Prod.snd).Nodup) (kept : ∀ e ∈ l, s.1.kept e.2 = true)
    (absent : ∀ e ∈ l, e.1 + 1 ∉ L.map Prod.fst) :
    ∃ L', CodeTable.Lists (l.foldl Base.keyOne s).1.table L' ∧
      (∀ e ∈ L', e ∈ L ∨ ∃ e' ∈ l, e = (e'.1 + 1, e'.2)) ∧ (∀ e ∈ L, e ∈ L') ∧
      (∀ e ∈ l, (e.1 + 1, e.2) ∈ L' ∨ ∃ k, s.2 k = false) ∧
      (l.foldl Base.keyOne s).1 =
        { s.1 with table := (l.foldl Base.keyOne s).1.table, kept := (l.foldl Base.keyOne s).1.kept } ∧
      ∀ cd, (l.foldl Base.keyOne s).1.kept cd = true ↔ s.1.kept cd = true ∧ cd ∉ l.map Prod.snd := by
  induction l generalizing s L with
  | nil => exact ⟨L, lists, fun e mem => .inl mem, fun e mem => mem, fun e mem => (nomatch mem), rfl, fun cd => by simp⟩
  | cons e l ih =>
    rw [List.map_cons, List.nodup_cons] at apart own
    have here : Base.keyOne s e = ({ s.1 with
        kept := Function.update s.1.kept e.2 false
        table := (s.1.table.put e.1 e.2 s.2).1 }, (s.1.table.put e.1 e.2 s.2).2) :=
      if_pos (kept e List.mem_cons_self)
    have still : ∀ e' ∈ l, Function.update s.1.kept e.2 false e'.2 = true := by
      intro e' mem
      rw [Function.update_of_ne (fun same => own.1 (List.mem_map.mpr ⟨e', mem, same⟩))]
      exact kept e' (List.mem_cons_of_mem _ mem)
    have marked : ∀ cd, (Function.update s.1.kept e.2 false cd = true ∧ cd ∉ l.map Prod.snd) ↔
        (s.1.kept cd = true ∧ cd ∉ (e :: l).map Prod.snd) := by
      intro cd
      by_cases at_ : cd = e.2
      · simp [at_]
      · rw [Function.update_of_ne at_, List.map_cons, List.mem_cons, not_or, and_iff_right (show ¬cd = e.2 from at_)]
    rw [List.foldl_cons, here]
    rcases CodeTable.put_spec lists (absent e List.mem_cons_self) e.2 s.2 with put | ⟨same, refused⟩
    · obtain ⟨L', lists', from_, to_, all, other, kept'⟩ := ih (s := ({ s.1 with
          kept := Function.update s.1.kept e.2 false
          table := (s.1.table.put e.1 e.2 s.2).1 }, (s.1.table.put e.1 e.2 s.2).2)) put apart.2 own.2 still (by
        intro e' mem at_
        rcases List.mem_cons.mp at_ with at_ | at_
        · exact apart.1 (List.mem_map.mpr ⟨e', mem, by omega⟩)
        · exact absent e' (List.mem_cons_of_mem _ mem) at_)
      refine ⟨L', lists', ?_, fun e' mem => to_ e' (List.mem_cons_of_mem _ mem), ?_, other, fun cd => (kept' cd).trans (marked cd)⟩
      · intro e' mem
        rcases from_ e' mem with at_ | ⟨e'', mem', is⟩
        · rcases List.mem_cons.mp at_ with rfl | at_
          · exact .inr ⟨e, List.mem_cons_self, rfl⟩
          · exact .inl at_
        · exact .inr ⟨e'', List.mem_cons_of_mem _ mem', is⟩
      · intro e' mem
        rcases List.mem_cons.mp mem with rfl | mem
        · exact .inl (to_ _ List.mem_cons_self)
        · exact (all e' mem).imp id put_refused
    · obtain ⟨L', lists', from_, to_, all, other, kept'⟩ := ih (s := ({ s.1 with
          kept := Function.update s.1.kept e.2 false
          table := (s.1.table.put e.1 e.2 s.2).1 }, (s.1.table.put e.1 e.2 s.2).2)) (L := L) (by rw [same]; exact lists)
        apart.2 own.2 still (fun e' mem => absent e' (List.mem_cons_of_mem _ mem))
      refine ⟨L', lists', ?_, to_, ?_, other, fun cd => (kept' cd).trans (marked cd)⟩
      · intro e' mem
        exact (from_ e' mem).imp id fun ⟨e'', mem', is⟩ => ⟨e'', List.mem_cons_of_mem _ mem', is⟩
      · exact fun e' _ => .inr refused

end Cocolog.Compact
