import Cocolog.Compact.Failure
import Cocolog.Compact.Rekey
import Cocolog.Compact.Roots
import Mathlib.Order.Interval.Finset.Nat

/-! A compaction that answers 1 on a store that is well formed: every root reads as it did,
every clause has its program, and the store is no longer than it was. -/

set_option linter.all false

namespace Cocolog.Compact

open Cocolog.Lib Cocolog.Term Cocolog.Store Cocolog.Copy

/-- Every cell the store names. -/
def Base.live (st : Base) : List Nat := st.preds.flatMap cellsOf ++ (st.globals.map Global.cell ++ st.roots.flatten)

/-- Two terms of the store with no cell in common. -/
def Apart (span : Nat → Nat) (r r' : Nat) : Prop := r + span r ≤ r' ∨ r' + span r' ≤ r

/-- The programs the clauses own, by the clauses' cells. -/
def Base.owned (st : Base) : List (Nat × Code) :=
  st.preds.flatMap fun p => (List.range p.nclauses).filterMap fun j => (st.codeOf p j).map fun cd => (p.clauses j, cd)

/-- A store between two operations: every root a term of its own that can be read, the
globals' sizes exact, and no program of two clauses. -/
structure WellFormed {tb : Tables} (ws : Words tb) (st : Base) (span : Nat → Nat) : Prop where
  block : ∀ r ∈ st.live, Block tb st.cells r (span r)
  readable : ∀ r ∈ st.live, Readable ws st.cells r
  apart : st.live.Pairwise (Apart span)
  sizes : ∀ g ∈ st.globals, g.size = span g.cell
  table : st.table.cap = 0 ∨ ∃ e, 8 ≤ e ∧ st.table.cap = 2 ^ e
  owners : (st.owned.map Prod.snd).Nodup
  kept : ∀ cd, st.kept cd = false

/-- A program the table has and no clause owns. -/
def Base.Orphan (st : Base) (cd : Code) : Prop :=
  (∃ i < st.table.cap, st.table.keys i ≠ 0 ∧ st.table.vals i = some cd) ∧ cd ∉ st.owned.map Prod.snd

/-- A predicate and what a compaction made of it: nothing but its clauses' cells and slots
is changed, a clause reads as it did, and its program is in its slot and under its new cell,
unless the table would not grow. -/
structure PredRenewed {tb : Tables} (ws : Words tb) (n : Nat) (st st' : Base) (rooms : Nat → Bool) (p p' : Pred) :
    Prop where
  other : p' = { p with clauses := p'.clauses, codes := p'.codes }
  reads : ∀ j < p.nclauses, ReadsAlike ws n st.cells (p.clauses j) st'.cells (p'.clauses j)
  slot : ∀ j < p.nclauses, p'.codes j = st.codeOf p j
  found : ∀ j < p.nclauses, st'.table.find (p'.clauses j) = st.codeOf p j ∨
    (st'.table.find (p'.clauses j) = none ∧ ∃ k, rooms k = false)

/-- A store and what a compaction made of it. -/
structure Renewed {tb : Tables} (ws : Words tb) (n : Nat) (st st' : Base) (rooms : Nat → Bool) : Prop where
  preds : List.Forall₂ (PredRenewed ws n st st' rooms) st.preds st'.preds
  globals : List.Forall₂ (fun g g' => g' = { g with cell := g'.cell } ∧
    BlocksAlike ws n st.cells g.cell g.size st'.cells g'.cell g'.size) st.globals st'.globals
  roots : List.Forall₂ (List.Forall₂ fun r r' => ReadsAlike ws n st.cells r st'.cells r') st.roots st'.roots
  retired : ∀ cd, cd ∈ st'.retired ↔ cd ∈ st.retired ∨ (st.Orphan cd ∧ st.envd cd = true)
  freed : ∀ cd, cd ∈ st'.freed ↔ cd ∈ st.freed ∨ (st.Orphan cd ∧ st.envd cd = false)
  shorter : st'.cells.len ≤ st.cells.len

variable {tb : Tables} {ws : Words tb} {span : Nat → Nat} {st st' : Base} {m m' : Mach} {a : Answers}
  {rooms : Nat → Bool} {fuel : Nat}

/-- Terms with no cell in common take no more cells than there are. -/
theorem spans_le {l : List Nat} {len : Nat} (apart : l.Pairwise (Apart span)) (inside : ∀ r ∈ l, r + span r ≤ len) :
    (l.map span).sum ≤ len := by
  obtain ⟨F, card, cells⟩ : ∃ F : Finset Nat, F.card = (l.map span).sum ∧
      ∀ x ∈ F, x < len ∧ ∃ r ∈ l, r ≤ x ∧ x < r + span r := by
    induction l with
    | nil => exact ⟨∅, rfl, fun x mem => absurd mem (Finset.notMem_empty x)⟩
    | cons r l ih =>
      obtain ⟨first, rest⟩ := List.pairwise_cons.mp apart
      obtain ⟨F, card, cells⟩ := ih rest fun r' mem => inside r' (List.mem_cons_of_mem _ mem)
      have here := inside r List.mem_cons_self
      have disjoint : Disjoint (Finset.Ico r (r + span r)) F := by
        refine Finset.disjoint_left.mpr fun x mem mem' => ?_
        obtain ⟨-, r', mem'', le, lt⟩ := cells x mem'
        have bounds := Finset.mem_Ico.mp mem
        rcases first r' mem'' with before | after <;> omega
      refine ⟨Finset.Ico r (r + span r) ∪ F, ?_, fun x mem => ?_⟩
      · rw [Finset.card_union_of_disjoint disjoint, card, Nat.card_Ico, List.map_cons, List.sum_cons,
          Nat.add_sub_cancel_left]
      · rcases Finset.mem_union.mp mem with mem | mem
        · have bounds := Finset.mem_Ico.mp mem
          exact ⟨by omega, r, List.mem_cons_self, bounds.1, bounds.2⟩
        · obtain ⟨lt, r', mem', bounds⟩ := cells x mem
          exact ⟨lt, r', List.mem_cons_of_mem _ mem', bounds⟩
  have sub : F ⊆ Finset.range len := fun x mem => Finset.mem_range.mpr (cells x mem).1
  have := Finset.card_le_card sub
  rw [Finset.card_range] at this
  omega

/-- What a compaction did that answered 1. -/
theorem compact_done (done : compact ws fuel st m a rooms = some (true, st', m')) :
    ∃ clauses s₁ globals sized s₂ sets s₃,
      copyRoots ws fuel st.cells m.heap.len (st.preds.flatMap cellsOf) (m.start st a) = some (clauses, s₁) ∧
      copyGlobals ws fuel st.cells m.heap.len st.globals s₁ = some (globals, sized, s₂) ∧
      copyRoots ws fuel st.cells m.heap.len st.roots.flatten s₂ = some (sets, s₃) ∧
      s₃.tmp.oom = false ∧ s₃.m.oom = false ∧ m' = s₃.m ∧
      st' = ({ st with globals := sized } : Base).moved (clauses ++ globals ++ sets) s₃.tmp s₃.answers rooms := by
  unfold compact at done
  split at done
  · cases done
  split at done
  · cases done
  split at done
  · cases done
  simp only [Option.bind_eq_some_iff, Option.map_eq_some_iff] at done
  obtain ⟨⟨clauses, s₁⟩, first, ⟨globals, sized, s₂⟩, second, ⟨sets, s₃⟩, third, is⟩ := done
  refine ⟨clauses, s₁, globals, sized, s₂, sets, s₃, first, second, third, ?_⟩
  split at is
  · cases is
  · rename_i ok
    simp only [Bool.or_eq_true, not_or, Bool.not_eq_true] at ok
    cases is
    exact ⟨ok.1, ok.2, rfl, rfl⟩

/-- Pass one, whole: every live term landed, one behind the other. -/
theorem compact_row (wf : WellFormed ws st span) (maps : ∀ k, a.maps k = true)
    (done : compact ws fuel st m a rooms = some (true, st', m')) :
    ∃ (rs : List Nat) (tmp : Fresh) (answers : Answers), Row tb st.cells tmp.cells span 0 st.live rs tmp.cells.len ∧
      st' = st.moved rs tmp answers rooms ∧ m'.cycPuts = m.cycPuts := by
  obtain ⟨clauses, s₁, globals, sized, s₂, sets, s₃, first, second, third, tmp_ok, m_ok, rfl, is⟩ := compact_done done
  have onward := copyRoots_onward third
  have onward' := copyGlobals_onward second
  have mapped₀ : (m.start st a).answers.Mapped := maps
  have mapped₁ := (copyRoots_onward first).mapped mapped₀
  have in_live : ∀ {r}, r ∈ st.preds.flatMap cellsOf → r ∈ st.live := fun mem => List.mem_append_left _ mem
  obtain ⟨row₁, -, puts₁⟩ := copyRoots_row (fun r mem => wf.block r (in_live mem)) mapped₀ first
    (onward'.tmp (onward.tmp tmp_ok)) (onward'.m (onward.m m_ok))
  obtain ⟨row₂, longer₂, puts₂, rfl⟩ := copyGlobals_row
    (fun g mem => wf.block g.cell (List.mem_append_right _ (List.mem_append_left _ (List.mem_map_of_mem mem))))
    wf.sizes mapped₁ second (onward.tmp tmp_ok) (onward.m m_ok)
  obtain ⟨row₃, longer₃, puts₃⟩ := copyRoots_row
    (fun r mem => wf.block r (List.mem_append_right _ (List.mem_append_right _ mem)))
    (onward'.mapped mapped₁) third tmp_ok m_ok
  refine ⟨clauses ++ (globals ++ sets), s₃.tmp, s₃.answers, ?_, ?_, puts₃.trans (puts₂.trans puts₁)⟩
  · exact (row₁.longer (longer₂.trans longer₃)).append ((row₂.longer longer₃).append row₃)
  · rw [is, List.append_assoc]

theorem forall₂_mem {A B : Type*} {R S : A → B → Prop} {l : List A} {l' : List B} (all : List.Forall₂ R l l')
    (imp : ∀ x ∈ l, ∀ y ∈ l', R x y → S x y) : List.Forall₂ S l l' := by
  induction all with
  | nil => exact .nil
  | cons first _ ih =>
    exact .cons (imp _ List.mem_cons_self _ List.mem_cons_self first)
      (ih fun x mem y mem' => imp x (List.mem_cons_of_mem _ mem) y (List.mem_cons_of_mem _ mem'))

theorem mem_owned {e : Nat × Code} :
    e ∈ st.owned ↔ ∃ p ∈ st.preds, ∃ j < p.nclauses, st.codeOf p j = some e.2 ∧ p.clauses j = e.1 := by
  simp only [Base.owned, List.mem_flatMap, List.mem_filterMap, List.mem_range, Option.map_eq_some_iff]
  constructor
  · rintro ⟨p, mem, j, lt, cd, code, rfl⟩
    exact ⟨p, mem, j, lt, code, rfl⟩
  · rintro ⟨p, mem, j, lt, code, cell⟩
    exact ⟨p, mem, j, lt, e.2, code, by rw [cell]⟩

theorem mem_codes {cd : Code} :
    cd ∈ st.owned.map Prod.snd ↔ ∃ p ∈ st.preds, ∃ j < p.nclauses, st.codeOf p j = some cd := by
  simp only [List.mem_map, mem_owned]
  constructor
  · rintro ⟨e, ⟨p, mem, j, lt, code, -⟩, rfl⟩
    exact ⟨p, mem, j, lt, code⟩
  · rintro ⟨p, mem, j, lt, code⟩
    exact ⟨(p.clauses j, cd), ⟨p, mem, j, lt, code, rfl⟩, rfl⟩

/-- A predicate's clauses: their cells and what is in their slots. -/
def entriesOf (p : Pred) : List (Nat × Option Code) := (List.range p.nclauses).map fun j => (p.clauses j, p.codes j)

theorem slotsOf_eq (p : Pred) : slotsOf p = (entriesOf p).filterMap fun e => e.2.map fun cd => (e.1, cd) := by
  rw [entriesOf, List.filterMap_map]
  rfl

theorem entries_fst (ps : List Pred) : (ps.flatMap entriesOf).map Prod.fst = ps.flatMap cellsOf := by
  rw [List.map_flatMap]
  congr 1
  funext p
  rw [entriesOf, List.map_map]
  rfl

theorem slots_eq (ps : List Pred) :
    ps.flatMap slotsOf = (ps.flatMap entriesOf).filterMap fun e => e.2.map fun cd => (e.1, cd) := by
  rw [List.filterMap_flatMap]
  congr 1
  funext p
  exact slotsOf_eq p

theorem fst_sublist (l : List (Nat × Option Code)) :
    ((l.filterMap fun e => e.2.map fun cd => (e.1, cd)).map Prod.fst).Sublist (l.map Prod.fst) := by
  induction l with
  | nil => exact .slnil
  | cons e l ih =>
    obtain ⟨c, slot⟩ := e
    cases slot with
    | none => exact ih.cons c
    | some cd => exact ih.cons_cons c

/-- Where no two clauses have one cell, a cell with no program in its slot is no cell of a
program. -/
theorem slots_once {ps : List Pred} (apart : (ps.flatMap cellsOf).Nodup) {p : Pred} (mem : p ∈ ps) {j : Nat}
    (lt : j < p.nclauses) {cd : Code} (at_ : (p.clauses j, cd) ∈ ps.flatMap slotsOf) : p.codes j = some cd := by
  rw [← entries_fst] at apart
  have here : (p.clauses j, p.codes j) ∈ ps.flatMap entriesOf :=
    List.mem_flatMap.mpr ⟨p, mem, List.mem_map.mpr ⟨j, List.mem_range.mpr lt, rfl⟩⟩
  rw [slots_eq, List.mem_filterMap] at at_
  obtain ⟨⟨c, slot⟩, there, is⟩ := at_
  obtain ⟨cd', rfl, is⟩ := Option.map_eq_some_iff.mp is
  obtain ⟨rfl, rfl⟩ := Prod.mk.inj is
  exact congrArg Prod.snd (List.inj_on_of_nodup_map apart here there rfl)

/-- The slots of the moved predicates hold what the clauses owned. -/
theorem moved_codes {tmp : Heap} {ps ps' : List Pred} (moved : List.Forall₂ (PredMoved tb st tmp span) ps ps') :
    (ps'.flatMap slotsOf).map Prod.snd =
      (ps.flatMap fun p => (List.range p.nclauses).filterMap fun j =>
        (st.codeOf p j).map fun cd => (p.clauses j, cd)).map Prod.snd := by
  induction moved with
  | nil => rfl
  | @cons p p' ps ps' one _ ih =>
    have count : p'.nclauses = p.nclauses := by rw [one.other]
    rw [List.flatMap_cons, List.flatMap_cons, List.map_append, List.map_append, ih]
    congr 1
    rw [slotsOf, count, List.map_filterMap, List.map_filterMap]
    refine List.filterMap_congr fun j mem => ?_
    rw [one.code j (List.mem_range.mp mem), Option.map_map, Option.map_map]
    rfl

theorem trim_cells (tmp : Fresh) (a : Answers) : (trim tmp a).cells = tmp.cells := by
  unfold trim
  split <;> rfl

/-- The store with its roots moved and its table to be done. -/
def Base.shifted (st : Base) (roots : List Nat) (tmp : Fresh) (a : Answers) : Base :=
  let preds := movePreds st roots st.preds st.kept 0
  let globals := moveGlobals roots st.globals preds.2.2
  { st with
    preds := preds.1
    kept := preds.2.1
    globals := globals.1
    roots := (moveSets roots st.roots globals.2).1
    cells := (trim tmp a).cells
    cap := (trim tmp a).cap
    mark := (trim tmp a).cells.len
    dead := 0
    ncompacts := st.ncompacts + 1 }

/-- Pass two and the table, from where the terms landed. -/
theorem moved_renewed (wf : WellFormed ws st span) {rs : List Nat} {tmp : Fresh} {answers : Answers}
    (row : Row tb st.cells tmp.cells span 0 st.live rs tmp.cells.len) (n : Nat) :
    Renewed ws n st (st.moved rs tmp answers rooms) rooms := by
  obtain ⟨preds, cells, ⟨mid, row'⟩, drop, marked⟩ := @movePreds_spec tb tmp.cells span 0 _ 0 _ rs rs st _ st.kept row rfl
  obtain ⟨globals, -, ⟨mid', row''⟩, drop'⟩ := moveGlobals_spec row' drop
  obtain ⟨roots, -⟩ := moveSets_spec row'' drop'
  have is : st.moved rs tmp answers rooms = (st.shifted rs tmp answers).emptied.keyed rooms := rfl
  obtain ⟨lists, other, retired, freed⟩ := emptied_spec (st.shifted rs tmp answers) wf.table
  have slots : (st.shifted rs tmp answers).emptied.preds = (movePreds st rs st.preds st.kept 0).1 := by
    rw [other]
    rfl
  have own := (moved_codes preds).symm ▸ wf.owners
  have apart : ((movePreds st rs st.preds st.kept 0).1.flatMap cellsOf).Nodup := by
    rw [cells]
    exact row.nodup.sublist (List.take_sublist ..)
  have apart' : (((movePreds st rs st.preds st.kept 0).1.flatMap slotsOf).map Prod.fst).Nodup := by
    rw [slots_eq]
    refine List.Nodup.sublist (fst_sublist _) ?_
    rw [entries_fst]
    exact apart
  have kept : ∀ cd, (st.shifted rs tmp answers).kept cd = true ↔ cd ∈ st.owned.map Prod.snd := by
    intro cd
    rw [mem_codes]
    refine (marked cd).trans ?_
    simp [wf.kept cd]
  obtain ⟨L, lists', from_, -, all, other', -⟩ := @keyed_spec [] ((movePreds st rs st.preds st.kept 0).1.flatMap slotsOf)
    ((st.shifted rs tmp answers).emptied, rooms) lists apart' own
    (by
      intro e mem
      rw [other]
      refine (kept e.2).mpr ?_
      rw [Base.owned, ← moved_codes preds]
      exact List.mem_map_of_mem mem)
    (fun e _ => List.not_mem_nil)
  rw [← slots, ← keyed_eq] at lists' other'
  rw [is]
  generalize (st.shifted rs tmp answers).emptied.keyed rooms = after at lists' other'
  have preds' : after.preds = (movePreds st rs st.preds st.kept 0).1 := by rw [other', other]; rfl
  have cells' : after.cells = tmp.cells := by
    rw [other', other]
    exact trim_cells tmp answers
  have dropped : ∀ cd, (st.shifted rs tmp answers).Dropped (st.shifted rs tmp answers).table.cap cd ↔ st.Orphan cd := by
    intro cd
    have free : (st.shifted rs tmp answers).kept cd = false ↔ cd ∉ st.owned.map Prod.snd := by
      rw [← kept cd, Bool.not_eq_true]
    constructor
    · rintro ⟨i, lt, key, val, no⟩
      exact ⟨⟨i, lt, key, val⟩, free.mp no⟩
    · rintro ⟨⟨i, lt, key, val⟩, no⟩
      exact ⟨i, lt, key, val, free.mpr no⟩
  -- a term that landed reads as it did
  have alike : ∀ r ∈ st.live, ∀ r', Landed tb st.cells tmp.cells r (span r) r' →
      BlocksAlike ws n st.cells r (span r) after.cells r' (span r) := by
    intro r mem r' landed
    rw [cells']
    exact blocksAlike (wf.readable r mem) (wf.block r mem).enclosed landed.block.enclosed landed.alike n
  refine ⟨?_, ?_, ?_, ?_, ?_, ?_⟩
  · rw [preds']
    refine forall₂_mem preds fun p mem p' mem' moved => ?_
    have count : p'.nclauses = p.nclauses := by rw [moved.other]
    refine ⟨moved.other, ?_, moved.code, ?_⟩
    · intro j lt
      have here : p.clauses j ∈ st.live := List.mem_append_left _ (List.mem_flatMap.mpr
        ⟨p, mem, List.mem_map.mpr ⟨j, List.mem_range.mpr lt, rfl⟩⟩)
      exact (alike _ here _ (moved.landed j lt)).reads
    · intro j lt
      obtain ⟨some_, none_⟩ := lists'.find_eq (p'.clauses j)
      have code := moved.code j lt
      -- what the table has under the clause's cell is what is in its slot
      have only : ∀ cd, (p'.clauses j + 1, cd) ∈ L → p'.codes j = some cd := by
        intro cd at_
        obtain ⟨⟨c, cd'⟩, mem_e, is⟩ := (from_ _ at_).resolve_left List.not_mem_nil
        obtain ⟨cell, rfl⟩ := Prod.mk.inj is
        obtain rfl : p'.clauses j = c := Nat.succ.inj cell
        exact slots_once apart mem' (by rw [count]; exact lt) mem_e
      cases found : st.codeOf p j with
      | none =>
        refine .inl (none_ fun cd at_ => ?_)
        rw [code, found] at only
        cases only cd at_
      | some cd =>
        by_cases keyed : ∃ cd', (p'.clauses j + 1, cd') ∈ L
        · obtain ⟨cd', at_⟩ := keyed
          have same := only cd' at_
          rw [code, found] at same
          obtain rfl := Option.some.inj same
          exact .inl (some_ _ at_)
        · refine .inr ⟨none_ fun cd' at_ => keyed ⟨cd', at_⟩, ?_⟩
          have slot : (p'.clauses j, cd) ∈ (movePreds st rs st.preds st.kept 0).1.flatMap slotsOf :=
            List.mem_flatMap.mpr ⟨p', mem', mem_slotsOf.mpr ⟨j, by rw [count]; exact lt, code.trans found, rfl⟩⟩
          exact (all _ slot).resolve_left fun at_ => keyed ⟨cd, at_⟩
  · have same : after.globals = (moveGlobals rs st.globals (movePreds st rs st.preds st.kept 0).2.2).1 := by
      rw [other', other]
      rfl
    rw [same]
    refine forall₂_mem globals fun g mem g' _ moved => ⟨moved.1, ?_⟩
    have here : g.cell ∈ st.live := List.mem_append_right _ (List.mem_append_left _ (List.mem_map_of_mem mem))
    have size : g'.size = g.size := by rw [moved.1]
    rw [size, wf.sizes g mem]
    exact alike _ here _ moved.2
  · have same : after.roots = (moveSets rs st.roots (moveGlobals rs st.globals
        (movePreds st rs st.preds st.kept 0).2.2).2).1 := by
      rw [other', other]
      rfl
    rw [same]
    refine forall₂_mem roots fun set mem set' _ moved => forall₂_mem moved fun r mem_r r' _ landed => ?_
    have here : r ∈ st.live := List.mem_append_right _ (List.mem_append_right _ (List.mem_flatten.mpr ⟨set, mem, mem_r⟩))
    exact (alike _ here _ landed).reads
  · intro cd
    rw [other']
    refine (retired cd).trans ?_
    rw [dropped]
    rfl
  · intro cd
    rw [other']
    refine (freed cd).trans ?_
    rw [dropped]
    rfl
  · rw [cells', row.last_eq, Nat.zero_add]
    exact spans_le wf.apart fun r mem => (wf.block r mem).enclosed.inside

/-- Compacting changes no term: while every map of variables may grow, a compaction that
answers 1 leaves every clause, global and registered root reading as it did, every clause
with its program, and what no clause owns retired where an environment has named it. -/
theorem compact_changes_no_term {tb : Tables} (ws : Words tb) (fuel : Nat) (st st' : Base) (span : Nat → Nat)
    (m m' : Mach) (a : Answers) (rooms : Nat → Bool) (wf : WellFormed ws st span) (maps : ∀ k, a.maps k = true)
    (done : compact ws fuel st m a rooms = some (true, st', m')) :
    Renewed ws m.cycPuts st st' rooms ∧ m'.cycPuts = m.cycPuts := by
  obtain ⟨rs, tmp, answers, row, rfl, puts⟩ := compact_row wf maps done
  exact ⟨moved_renewed wf row m.cycPuts, puts⟩

/-- One clause, `f(X, X)`, a cell that was abandoned, and a program under a cell no clause
has, which no environment has named. -/
def pairStore : Base where
  preds := [{ arity := 2, nclauses := 1 }]
  globals := []
  roots := []
  cells := ⟨fun | 0 => .func 0 | 1 => .ref 3 | 2 => .ref 3 | 3 => .ref 3 | _ => .atom 1, 5⟩
  cap := 64
  table := { keys := fun i => if i = 0 then 9 else 0, vals := fun i => if i = 0 then some 7 else none, cap := 256, len := 1 }

def roomyHeap : Mach where
  heap := ⟨fun i => .ref i, 0⟩
  heapCap := 64

/-- Memory for everything, but for the maps of variables as told. -/
def allGiven (maps : Bool) : Answers := ⟨fun _ => .doubled, fun _ => maps⟩

theorem pairStore_block : Block knotTables pairStore.cells 0 4 := by
  have self : Leads pairStore.cells.cells 4 3 3 := .stop (by decide) (.inl rfl)
  have slot : ∀ k < 2, Leads pairStore.cells.cells 4 (0 + 1 + k) 3
    | 0, _ => .step (by decide) rfl (by decide) self
    | 1, _ => .step (by decide) rfl (by decide) self
  have args : Takes knotTables (itemAt pairStore.cells.cells pairStore.cells.len) [1, 2] 0 (insert 3 (insert 3 ∅)) :=
    .var rfl (.var rfl .nil)
  refine ⟨⟨.intro (.stop (by decide) (.inr rfl)) ?_, fun i p _ _ _ => Nat.zero_le p, by decide⟩, _, _,
    .comp (s := 0) (f := 0) rfl args, rfl⟩
  intro f k _ below
  exact .intro (slot k below) fun g _ cell => nomatch cell

theorem pairStore_wellFormed : WellFormed knotWords pairStore fun _ => 4 := by
  have live : pairStore.live = [0] := rfl
  have owned : pairStore.owned = [] := rfl
  constructor
  case sizes => exact fun g mem => nomatch mem
  case table => exact .inr ⟨8, le_rfl, rfl⟩
  case kept => exact fun _ => rfl
  case block =>
    intro r mem
    rw [live, List.mem_singleton] at mem
    rw [mem]
    exact pairStore_block
  case readable =>
    intro r mem cyclic
    rw [live, List.mem_singleton] at mem
    rw [mem] at cyclic
    cases cyclic
  case apart =>
    rw [live]
    exact List.pairwise_singleton ..
  case owners =>
    rw [owned]
    exact List.nodup_nil

theorem compact_changes_no_term_pair :
    ∃ st' m', compact knotWords 20 pairStore roomyHeap (allGiven true) (fun _ => true) = some (true, st', m') ∧
      Renewed knotWords 0 pairStore st' (fun _ => true) ∧ m'.cycPuts = 0 := by
  have ran : (compact knotWords 20 pairStore roomyHeap (allGiven true) fun _ => true).map (fun r => r.1) = some true := by
    decide +kernel
  obtain ⟨⟨answer, st', m'⟩, done, is⟩ := Option.map_eq_some_iff.mp ran
  obtain rfl : answer = true := is
  exact ⟨st', m', done, compact_changes_no_term knotWords 20 pairStore st' (fun _ => 4) roomyHeap m' (allGiven true)
    (fun _ => true) pairStore_wellFormed (fun _ => rfl) done⟩

/-- Two places of a stored term that are one variable where it was, and two where it is,
tell that it does not read alike. -/
theorem not_readsAlike {s s' : Heap} {t t' v x x' : Nat} {p q : List Nat} (rooted : Rooted tb s.cells s.len t)
    (rooted' : Rooted tb s'.cells s'.len t') (one : tree tb s.cells s.len t p = some (.var v))
    (two : tree tb s.cells s.len t q = some (.var v)) (one' : tree tb s'.cells s'.len t' p = some (.var x))
    (two' : tree tb s'.cells s'.len t' q = some (.var x')) (off : x ≠ x') : ¬ ReadsAlike ws 0 s t s' t' := by
  intro alike
  obtain ⟨r, g, r', g', ⟨n, here⟩, ⟨n', there⟩, σ, -, -, same⟩ := alike ⟨fun i => .ref i, 0⟩ ⟨fun i => .ref i, 0⟩
  obtain ⟨r₁, g₁, ⟨k, fetched⟩, π, R, bisim, related, fun_, -, -⟩ := storeGet_alike rooted ⟨fun i => .ref i, 0⟩
  obtain ⟨r₂, g₂, ⟨k', fetched'⟩, π', R', bisim', related', -, own', -⟩ := storeGet_alike rooted' ⟨fun i => .ref i, 0⟩
  have left := here (max n k) (by omega)
  have right := there (max n' k') (by omega)
  simp only [storeRead_eq, fetched (max n k) (by omega), Option.bind_some, finish, if_true, Option.some.injEq,
    Prod.mk.injEq, Bank.mk.injEq, and_true] at left
  simp only [storeRead_eq, fetched' (max n' k') (by omega), Option.bind_some, finish, if_true, Option.some.injEq,
    Prod.mk.injEq, Bank.mk.injEq, and_true] at right
  obtain ⟨rfl, rfl⟩ := left
  obtain ⟨rfl, rfl⟩ := right
  -- the variable's copy, met at both places
  have at_ : ∀ {path u}, tree tb s.cells s.len t path = some (.var u) →
      ∃ y, π u y ∧ tree tb g₁.cells g₁.len r₁ path = some (.var y) := by
    intro path u is
    have pairs := bisim.pairs related path
    rw [is] at pairs
    match found : tree tb g₁.cells g₁.len r₁ path, pairs with
    | some (.var y), paired => exact ⟨y, paired, rfl⟩
  have at_' : ∀ {path u}, tree tb s'.cells s'.len t' path = some (.var u) →
      ∃ y, π' u y ∧ tree tb g₂.cells g₂.len r₂ path = some (.var y) := by
    intro path u is
    have pairs := bisim'.pairs related' path
    rw [is] at pairs
    match found : tree tb g₂.cells g₂.len r₂ path, pairs with
    | some (.var y), paired => exact ⟨y, paired, rfl⟩
  obtain ⟨y, paired, place⟩ := at_ one
  obtain ⟨y₁, paired₁, place₁⟩ := at_ two
  obtain ⟨z, paired', place'⟩ := at_' one'
  obtain ⟨z₁, paired₁', place₁'⟩ := at_' two'
  obtain rfl := fun_ _ _ _ paired paired₁
  have first := same p
  have second := same q
  rw [place, place'] at first
  rw [place₁, place₁'] at second
  have meet : z = z₁ := Mark.var.inj (Option.some.inj (first.trans second.symm))
  exact off (own' _ _ _ paired' (meet ▸ paired₁'))

/-- The program nobody owns and nobody named is freed at once; and where no map of
variables may grow, the clause's two arguments are two variables when it is read again. -/
theorem compact_frees_and_splits : WellFormed knotWords pairStore (fun _ => 4) ∧
    (∃ (st' : Base) (m' : Mach), compact knotWords 20 pairStore roomyHeap (allGiven true) (fun _ => true) =
        some (true, st', m') ∧ pairStore.Orphan 7 ∧ 7 ∈ st'.freed ∧ 7 ∉ st'.retired) ∧
      ∃ (st' : Base) (m' : Mach), compact knotWords 20 pairStore roomyHeap (allGiven false) (fun _ => true) =
        some (true, st', m') ∧ st'.preds.map cellsOf = [[0]] ∧ ¬ ReadsAlike knotWords 0 pairStore.cells 0 st'.cells 0 := by
  refine ⟨pairStore_wellFormed, ?_, ?_⟩
  · have ran : (compact knotWords 20 pairStore roomyHeap (allGiven true) fun _ => true).map (fun r =>
        (r.1, r.2.1.freed, r.2.1.retired)) = some (true, [7], []) := by decide +kernel
    obtain ⟨⟨answer, st', m'⟩, done, is⟩ := Option.map_eq_some_iff.mp ran
    simp only [Prod.mk.injEq] at is
    obtain ⟨rfl, freed, retired⟩ := is
    refine ⟨st', m', done, ⟨⟨0, by decide, by decide, rfl⟩, List.not_mem_nil⟩, ?_, ?_⟩
    · rw [freed]
      exact List.mem_singleton.mpr rfl
    · rw [retired]
      exact List.not_mem_nil
  · have ran : (compact knotWords 20 pairStore roomyHeap (allGiven false) fun _ => true).map (fun r =>
        (r.1, r.2.1.preds.map cellsOf, r.2.1.cells.len, (List.range 5).map r.2.1.cells.cells)) =
        some (true, [[0]], 5, [.func 0, .ref 3, .ref 4, .ref 3, .ref 4]) := by decide +kernel
    obtain ⟨⟨answer, st', m'⟩, done, is⟩ := Option.map_eq_some_iff.mp ran
    simp only [List.range, List.range.loop, List.map_cons, List.map_nil, Prod.mk.injEq, List.cons.injEq, and_true] at is
    obtain ⟨rfl, cells, len, c0, c1, c2, c3, c4⟩ := is
    refine ⟨st', m', done, cells, ?_⟩
    have self : ∀ {v}, v < 5 → st'.cells.cells v = .ref v → Leads st'.cells.cells st'.cells.len v v :=
      fun lt free => .stop (by omega) (.inl free)
    have first : Leads st'.cells.cells st'.cells.len 1 3 := .step (by omega) c1 (by decide) (self (by decide) c3)
    have second : Leads st'.cells.cells st'.cells.len 2 4 := .step (by omega) c2 (by decide) (self (by decide) c4)
    have root : Leads st'.cells.cells st'.cells.len 0 0 := .stop (by omega) (.inr (by rw [c0]; rfl))
    have rooted : Rooted knotTables st'.cells.cells st'.cells.len 0 := by
      refine .intro root fun f k cell below => ?_
      obtain rfl := Cell.func.inj (c0.symm.trans cell)
      match k, below with
      | 0, _ => exact .intro first fun g _ held => by rw [c3] at held; cases held
      | 1, _ => exact .intro second fun g _ held => by rw [c4] at held; cases held
    refine @not_readsAlike _ _ _ _ _ _ 3 3 4 [0] [1] pairStore_block.rooted rooted rfl rfl ?_ ?_ (by decide)
    · simp only [tree, root.deref, c0]
      rw [show (0 + 1 + 0) = 1 from rfl, first.deref, c3]
      rfl
    · simp only [tree, root.deref, c0]
      rw [show (0 + 1 + 1) = 2 from rfl, second.deref, c4]
      rfl

end Cocolog.Compact
