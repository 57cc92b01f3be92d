import Cocolog.Store.Select

/-! The logical update view. Calls and walks of one predicate run while its clauses are
asserted, retracted and swept under them. Each keeps three numbers: the next position, the
end, and the first death it lived through. A log beside the store keeps what each call had
before it when it was made and what it tried since; no code reads it. -/

set_option linter.all false

namespace Cocolog.Store

open Cocolog.Lib

section

variable (headKey : Nat → Nat → Nat)

namespace Pred

/-- `coco_frame_next`: a dead clause is tried only where the frame lived through its
death. -/
def frameNext (p : Pred) (f : Frame) (grew : Bool) : Nat → Nat → Option Nat × Pred
  | 0, _ => (none, p)
  | turns + 1, from_ =>
    match p.nextAt headKey f.ixpos f.key from_ grew with
    | (none, q) => (none, q)
    | (some a, q) =>
      if a < f.cend ∧ q.deathAt a ≠ 0 ∧ (f.fera = 0 ∨ q.deathAt a < f.fera) then
        q.frameNext f grew turns (a + 1)
      else (some a, q)

/-- `coco_db_next`, and the two roads of `coco_select_clause`. -/
def nextFor (p : Pred) (f : Frame) (grew : Bool) (from_ : Nat) : Option Nat × Pred :=
  if p.ntomb ≠ 0 then p.frameNext headKey f grew (p.nclauses + 1) from_
  else p.nextAt headKey f.ixpos f.key from_ grew

/-- `coco_select_clause` and `coco_select_dead`, from the frame's next position to the
first head that matches. `hit` says which do, and `keep` that a traced call keeps its frame
on the last. It gives the positions tried and the frame, if it is still there. -/
def select (hit : Nat → Bool) (keep grew : Bool) :
    Nat → Frame → Pred → List Nat × Option Frame × Pred
  | 0, _, p => ([], none, p)
  | turns + 1, f, p =>
    let (a, p) := p.nextFor headKey f grew f.clauseIx
    match f.short a with
    | none => ([], none, p)
    | some a =>
      let f := { f with clauseIx := a + 1 }
      let (b, p) := p.nextFor headKey f grew (a + 1)
      if hit a = true then
        ([a], (if (f.short b).isNone ∧ keep = false then none else some f), p)
      else
        let (rest, r) := select hit keep grew turns f p
        (a :: rest, r)

/-- `coco_db_from` up to the match: the positions tried, the one that matched and the
frame, if there is more to come back to. -/
def dbFrom (hit : Nat → Bool) (grew : Bool) :
    Nat → Option Nat → Frame → Pred → List Nat × Option Nat × Option Frame × Pred
  | 0, _, _, p => ([], none, none, p)
  | turns + 1, ix, f, p =>
    match f.short ix with
    | none => ([], none, none, p)
    | some ix =>
      let (nx, p) := p.nextFor headKey f grew (ix + 1)
      let f := { f with clauseIx := ix + 1 }
      if hit ix = true then ([ix], some ix, (if (f.short nx).isNone then none else some f), p)
      else
        let (rest, r) := dbFrom hit grew turns nx f p
        (ix :: rest, r)

end Pred

namespace World

/-- The probe of a fresh call: on the argument `coco_pred_select` chose, or, where the
first will do, on that one, and then on the one swipl's index would ask if it answers 3.
The answer, the first candidate and the argument the call is then keyed on. -/
def candidates (key : Nat → Nat) (sel : Option Nat) (best : Nat) (grew : Bool) (w : World) :
    (Nat × Nat × Nat) × World :=
  match sel with
  | some pos =>
    let (answer, w) := w.probeAt headKey pos (key pos) grew
    ((answer.1, answer.2, pos), w)
  | none =>
    let (answer, w) := w.probeAt headKey 0 (key 0) grew
    if answer.1 = 3 then
      let (answer, w) := w.jit headKey key best answer.2 grew
      ((answer.1, answer.2, best), w)
    else ((answer.1, answer.2, 0), w)

/-- `coco_trace_kpos`: the argument alone. -/
def traceKpos (key : Nat → Nat) (sel : Option Nat) (best : Nat) (grew : Bool) (w : World) :
    Nat × World :=
  match sel with
  | some pos => (pos, w)
  | none =>
    let (answer, w) := w.candidates headKey key none best grew
    (answer.2.2, w)

/-- A frame of the world given back, changed or gone. -/
def putFrame (w : World) (n : Nat) : Option Frame → World
  | none => { w with frames := w.frames.eraseIdx n }
  | some f => { w with frames := w.frames.set n f }

/-- A frame pushed. -/
def push (w : World) (f : Frame) : World :=
  { frames := w.frames ++ [f], pred := { w.pred with framed := true } }

/-- `retract/1` takes its answer out where it still stands. -/
def taken (w : World) (retracts made listed : Bool) : Option Nat → World
  | none => w
  | some i => if retracts = true ∧ w.pred.dead i = false then w.retractAt i made listed else w

end World

/-- The key a record has at an argument. -/
def Rec.keyAt (pos : Nat) (r : Rec) : Nat := if pos = 0 then r.key else headKey r.clause pos

/-- The live clauses a key does not rule out, in order. -/
def snapshotOf (pos key : Nat) (l : List Rec) : List Nat :=
  ((l.filter Rec.live).filter fun r => admits key (r.keyAt headKey pos)).map Rec.clause

/-- A call or a walk as the log has it: the clauses it had before it, those it tried so
far, and whether it has come to its end. -/
structure CallLog where
  snapshot : List Nat
  tried : List Nat := []
  ended : Bool := false
deriving Repr, DecidableEq

namespace CallLog

/-- The entry of a call just made. -/
def made (snapshot : List Nat) : CallLog := { snapshot }

/-- The entry with more tried. -/
def noted (c : CallLog) (tried : List Nat) (ended : Bool) : CallLog :=
  { c with tried := c.tried ++ tried, ended := c.ended || ended }

end CallLog

/-- A predicate, the frames open on it, and the log of every call made. -/
structure View where
  world : World := {}
  calls : List CallLog := []

/-- An argument a call may be keyed on. -/
abbrev Pos := Fin (aixCount + 1)

/-- What may happen next. A call has a key at each argument; `sel` and `best` are the
arguments the heuristics chose. `hit` says which heads match, and the last flags whether
memory could be had. -/
inductive Move where
  | call (key : Nat → Nat) (sel : Option Pos) (best : Pos) (traced keep : Bool) (hit : Nat → Bool)
      (grew : Bool)
  | walk (retracts : Bool) (key : Nat → Nat) (sel : Option Pos) (best : Pos) (hit : Nat → Bool)
      (grew made listed : Bool)
  | retry (n : Nat) (retracts keep : Bool) (hit : Nat → Bool) (grew made listed : Bool)
  | assert (atEnd : Bool) (c : NewClause) (room grew : Bool)
  | retract (i : Nat) (made listed : Bool)
  | sweep
  | drop (n : Nat)

namespace View

/-- The log of call `n` grown by what was tried. -/
def note (v : View) (n : Nat) (tried : List Nat) (ended : Bool) : View :=
  { v with calls := v.calls.modify n fun c => c.noted tried ended }

/-- A call logged, with the clauses it has before it. -/
def enter (v : View) (snapshot : List Nat) : View :=
  { v with calls := v.calls ++ [CallLog.made snapshot] }

/-- Frame `n` of the world on to its next clause. A walk goes on from the position its
frame kept. -/
def retry (v : View) (n : Nat) (retracts keep : Bool) (hit : Nat → Bool)
    (grew made listed : Bool) : View :=
  match v.world.frames[n]? with
  | none => v
  | some f =>
    let turns := v.world.pred.nclauses + 1
    match f.kind with
    | .clause =>
      let (tried, f', p) := v.world.pred.select headKey hit keep grew turns f
      let w := ({ v.world with pred := p } : World).putFrame n f'
      ({ v with world := w } : View).note f.call (tried.map v.world.pred.clauses) f'.isNone
    | .db =>
      let (tried, found, f', p) := v.world.pred.dbFrom headKey hit grew turns (some f.clauseIx) f
      let w := (({ v.world with pred := p } : World).putFrame n f').taken retracts made listed found
      ({ v with world := w } : View).note f.call (tried.map v.world.pred.clauses) f'.isNone

/-- A call made: with no candidate, with one, tried without a frame, or with a frame and
its first selection. A traced call always has its frame. -/
def call (v : View) (key : Nat → Nat) (sel : Option Nat) (best : Nat) (traced keep : Bool)
    (hit : Nat → Bool) (grew : Bool) : View :=
  let n := v.calls.length
  let recs := v.world.pred.recs
  if v.world.pred.nclauses = 0 then (v.enter []).note n [] true
  else if traced = true then
    let (kpos, w) := v.world.traceKpos headKey key sel best grew
    let v := ({ v with world := w } : View).enter (snapshotOf headKey kpos (key kpos) recs)
    let w := w.push ⟨.clause, n, kpos, key kpos, 0, w.pred.nclauses % 2 ^ 32, 0⟩
    ({ v with world := w } : View).retry headKey (w.frames.length - 1) false keep hit grew true true
  else
    let ((det, ix, kpos), w) := v.world.candidates headKey key sel best grew
    let v := ({ v with world := w } : View).enter (snapshotOf headKey kpos (key kpos) recs)
    if det = 0 then v.note n [] true
    else if det = 1 then v.note n [w.pred.clauses ix] true
    else
      let w := w.push ⟨.clause, n, kpos, key kpos, (if det = 2 then ix else 0), w.pred.nclauses % 2 ^ 32, 0⟩
      ({ v with world := w } : View).retry headKey (w.frames.length - 1) false keep hit grew true true

/-- `coco_db_walk`: the dead swept where they may be, a frame where there is a second
candidate, and the walk from the first. -/
def walk (v : View) (retracts : Bool) (key : Nat → Nat) (sel : Option Nat) (best : Nat)
    (hit : Nat → Bool) (grew made listed : Bool) : View :=
  let n := v.calls.length
  let recs := v.world.pred.recs
  let w := v.world.trySweep.2
  let cend := w.pred.nclauses % 2 ^ 32
  let (kpos, w) := w.traceKpos headKey key sel best grew
  let v := ({ v with world := w } : View).enter (snapshotOf headKey kpos (key kpos) recs)
  let f : Frame := ⟨.db, n, kpos, key kpos, 0, cend, 0⟩
  let (a, p) := w.pred.nextFor headKey f grew 0
  match f.short a with
  | none => ({ v with world := { w with pred := p } } : View).note n [] true
  | some ix =>
    let (b, p) := p.nextFor headKey f grew (ix + 1)
    let w := { w with pred := p }
    if (f.short b).isSome then
      let w := w.push { f with clauseIx := ix }
      ({ v with world := w } : View).retry headKey (w.frames.length - 1) retracts false hit grew made
        listed
    else
      let found := if hit ix = true then some ix else none
      ({ v with world := w.taken retracts made listed found } : View).note n [w.pred.clauses ix] true

/-- One move. -/
def step (v : View) : Move → View
  | .call key sel best traced keep hit grew =>
    v.call headKey key (sel.map Fin.val) best traced keep hit grew
  | .walk retracts key sel best hit grew made listed =>
    v.walk headKey retracts key (sel.map Fin.val) best hit grew made listed
  | .retry n retracts keep hit grew made listed =>
    v.retry headKey n retracts keep hit grew made listed
  | .assert atEnd c room grew =>
    { v with world := (v.world.addClause headKey atEnd c room grew).2 }
  | .retract i made listed =>
    if i < v.world.pred.nclauses ∧ v.world.pred.dead i = false then
      { v with world := v.world.retractAt i made listed }
    else v
  | .sweep => { v with world := v.world.trySweep.2 }
  | .drop n => { v with world := v.world.putFrame n none }

end View

/-- Whether a frame tries a record: its key does not rule it out, and it was not dead when
the frame was made. -/
def Frame.wants (f : Frame) (r : Rec) : Bool :=
  admits f.key (r.keyAt headKey f.ixpos) && (r.live || (f.fera != 0 && decide (f.fera ≤ r.death)))

/-- What a frame has still to try. -/
def Frame.left (f : Frame) (l : List Rec) : List Nat :=
  (((l.take f.cend).drop f.clauseIx).filter (f.wants headKey)).map Rec.clause

end

variable {headKey : Nat → Nat → Nat}

theorem Frame.left_eq {f : Frame} {p : Pred} (inside : f.cend ≤ p.nclauses) :
    f.left headKey p.recs =
      (positions (fun i => f.wants headKey (p.recAt i)) f.clauseIx f.cend).map p.clauses := by
  rw [Frame.left, Pred.recs, entries_slice p.recAt inside, List.filter_map, List.map_map]
  rfl

namespace Pred

/-- The list as it was and the indexes good. -/
def Kept (headKey : Nat → Nat → Nat) (p q : Pred) : Prop := q.Ok headKey ∧ q.unlisted = p.unlisted

theorem Kept.trans {p q r : Pred} (first : Kept headKey p q) (second : Kept headKey q r) :
    Kept headKey p r := ⟨second.1, second.2.trans first.2⟩

theorem Kept.recs {p q : Pred} (kept : Kept headKey p q) :
    q.nclauses = p.nclauses ∧ q.recAt = p.recAt ∧ q.recs = p.recs := by
  obtain ⟨count, -, -, recAt, -⟩ := of_unlisted kept.2
  exact ⟨count, recAt, by rw [Pred.recs, recAt, count, Pred.recs]⟩

/-- The death a record of its own list has. -/
theorem wants_iff (p : Pred) (f : Frame) (i : Nat) :
    f.wants headKey (p.recAt i) = (p.lets headKey f.ixpos f.key true i &&
      (p.deathAt i == 0 || (f.fera != 0 && decide (f.fera ≤ p.deathAt i)))) := by
  simp only [lets, or_true, if_true]
  rfl

theorem frameNext_spec {p : Pred} (ok : p.Ok headKey) {f : Frame} (keyed : f.ixpos ≤ aixCount)
    (inside : f.cend ≤ p.nclauses) {turns from_ : Nat} (enough : p.nclauses ≤ from_ + turns) :
    f.short (p.frameNext headKey f true turns from_).1 =
        leastFrom (fun i => f.wants headKey (p.recAt i)) from_ f.cend ∧
      Kept headKey p (p.frameNext headKey f true turns from_).2 := by
  induction turns generalizing p from_ with
  | zero => exact ⟨(leastFrom_of_ge (by omega)).symm, ok, rfl⟩
  | succ turns ih =>
    obtain ⟨answer, asked⟩ := nextAt_spec ok keyed f.key from_ true
    rw [frameNext]
    generalize p.nextAt headKey f.ixpos f.key from_ true = s at answer asked
    obtain ⟨a, q⟩ := s
    replace asked : Asked headKey f.ixpos f.key true p q := asked
    have kept : Kept headKey p q := ⟨asked.ok, asked.list⟩
    cases a with
    | none =>
      refine ⟨?_, kept⟩
      have none_ := leastFrom_eq_none.mp answer.symm
      refine (leastFrom_eq_none.mpr ?_).symm
      intro i h1 h2
      simp [wants_iff, none_ i h1 (by omega)]
    | some a =>
      obtain ⟨h1, h2, let_, least⟩ := leastFrom_eq_some.mp answer.symm
      obtain ⟨count, recAt, -⟩ := kept.recs
      have death : q.deathAt a = p.deathAt a := congrArg Rec.death (congrFun recAt a)
      have before : ∀ j, from_ ≤ j → j < a → f.wants headKey (p.recAt j) = false := by
        intro j hj lt
        simp [wants_iff, least j hj lt]
      simp only
      split
      · rename_i gone
        rw [death] at gone
        obtain ⟨later, kept'⟩ := ih kept.1 (count ▸ inside) (show q.nclauses ≤ a + 1 + turns by omega)
        refine ⟨later.trans ?_, kept.trans kept'⟩
        rw [recAt, eq_comm]
        refine leastFrom_skip (by omega) ?_
        intro j hj lt
        rcases Nat.eq_or_lt_of_le (Nat.le_of_lt_succ lt) with rfl | earlier
        · rw [wants_iff, let_]
          rcases gone.2.2 with none_ | early
          · simp [gone.2.1, none_]
          · simp [gone.2.1, Nat.not_le.mpr early]
        · exact before j hj earlier
      · rename_i tries
        refine ⟨?_, kept⟩
        rw [death] at tries
        by_cases below : a < f.cend
        · have wanted : f.wants headKey (p.recAt a) = true := by
            rw [wants_iff, let_]
            by_cases live : p.deathAt a = 0
            · simp [live]
            · have lived : f.fera ≠ 0 ∧ f.fera ≤ p.deathAt a := by
                refine ⟨fun none_ => tries ⟨below, live, .inl none_⟩, ?_⟩
                exact Nat.le_of_not_lt fun early => tries ⟨below, live, .inr early⟩
              simp [live, lived.1, lived.2]
          rw [Frame.short, Option.filter_some_pos (by simpa using below), eq_comm,
            leastFrom_eq_some]
          exact ⟨h1, below, wanted, before⟩
        · rw [Frame.short, Option.filter_some_neg (by simpa using below), eq_comm,
            leastFrom_eq_none]
          intro j hj lt
          exact before j hj (by omega)

/-- The next clause a frame tries is the least it wants, short of its end. -/
theorem nextFor_spec {p : Pred} (ok : p.Ok headKey) {f : Frame} (keyed : f.ixpos ≤ aixCount)
    (inside : f.cend ≤ p.nclauses) (from_ : Nat) :
    f.short (p.nextFor headKey f true from_).1 =
        leastFrom (fun i => f.wants headKey (p.recAt i)) from_ f.cend ∧
      Kept headKey p (p.nextFor headKey f true from_).2 := by
  rw [nextFor]
  split
  · exact frameNext_spec ok keyed inside (by omega)
  · rename_i none_dead
    obtain ⟨answer, asked⟩ := nextAt_spec ok keyed f.key from_ true
    refine ⟨?_, asked.ok, asked.list⟩
    rw [Frame.short, answer, leastFrom_filter _ inside]
    refine leastFrom_congr ?_
    intro i _ hi
    have live := live_of_ntomb_zero ok (not_not.mp none_dead) _ (mem_recs (Nat.lt_of_lt_of_le hi inside))
    have zero : (p.deathAt i == 0) = true := live
    rw [wants_iff, zero, Bool.true_or, Bool.and_true]

/-- What the selection tried and what it left are what the frame had left. -/
theorem select_spec {p : Pred} (ok : p.Ok headKey) {f : Frame} (keyed : f.ixpos ≤ aixCount)
    (inside : f.cend ≤ p.nclauses) (hit : Nat → Bool) (keep : Bool) {turns : Nat}
    (enough : f.cend < f.clauseIx + turns) :
    let r := p.select headKey hit keep true turns f
    Kept headKey p r.2.2 ∧
      (∀ g, r.2.1 = some g → g = { f with clauseIx := g.clauseIx } ∧
        f.clauseIx < g.clauseIx ∧ g.clauseIx ≤ f.cend) ∧
      positions (fun i => f.wants headKey (p.recAt i)) f.clauseIx f.cend =
        r.1 ++ r.2.1.elim [] fun g =>
          positions (fun i => f.wants headKey (p.recAt i)) g.clauseIx f.cend := by
  induction turns generalizing p f with
  | zero =>
    exact ⟨⟨ok, rfl⟩, fun g eq => by simp [select] at eq, positions_of_ge (by omega)⟩
  | succ turns ih =>
    obtain ⟨first, kept⟩ := nextFor_spec ok keyed inside f.clauseIx
    simp only [select]
    generalize p.nextFor headKey f true f.clauseIx = s at first kept
    obtain ⟨a, q⟩ := s
    cases short : f.short a with
    | none =>
      rw [short] at first
      exact ⟨kept, fun g eq => by simp at eq, positions_eq_nil first.symm⟩
    | some a =>
      rw [short] at first
      have whole := positions_of_least first.symm
      obtain ⟨from_le, below, -⟩ := leastFrom_eq_some.mp first.symm
      obtain ⟨count, recAt, -⟩ := kept.recs
      obtain ⟨second, kept'⟩ :=
        nextFor_spec (f := { f with clauseIx := a + 1 }) kept.1 keyed (count ▸ inside) (a + 1)
      simp only
      generalize q.nextFor headKey { f with clauseIx := a + 1 } true (a + 1) = t at second kept'
      obtain ⟨b, q'⟩ := t
      rw [recAt] at second
      split
      · by_cases last : (({ f with clauseIx := a + 1 } : Frame).short b).isNone ∧ keep = false
        · rw [if_pos last]
          rw [Option.isNone_iff_eq_none.mp last.1] at second
          refine ⟨kept.trans kept', fun g eq => by simp at eq, whole.trans ?_⟩
          exact congrArg (a :: ·) (positions_eq_nil second.symm)
        · rw [if_neg last]
          refine ⟨kept.trans kept', ?_, whole⟩
          intro g eq
          rw [← Option.some.inj eq]
          exact ⟨rfl, Nat.lt_succ_of_le from_le, below⟩
      · obtain ⟨kept'', same, rest⟩ :=
          ih (f := { f with clauseIx := a + 1 }) (kept.trans kept').1 keyed
            ((kept.trans kept').recs.1 ▸ inside) (by simp only; omega)
        refine ⟨(kept.trans kept').trans kept'', ?_, ?_⟩
        · intro g eq
          obtain ⟨stays, later, short_⟩ := same g eq
          exact ⟨stays, Nat.lt_trans (Nat.lt_succ_of_le from_le) later, short_⟩
        · rw [(kept.trans kept').recs.2.1] at rest
          rw [whole]
          exact congrArg (a :: ·) rest

/-- A walk from the least clause it wants tries what it had left, up to the match. -/
theorem dbFrom_spec {p : Pred} (ok : p.Ok headKey) {f : Frame} (keyed : f.ixpos ≤ aixCount)
    (inside : f.cend ≤ p.nclauses) (hit : Nat → Bool) {turns from_ : Nat} {ix : Option Nat}
    (start : f.short ix = leastFrom (fun i => f.wants headKey (p.recAt i)) from_ f.cend)
    (enough : f.cend < from_ + turns) :
    let r := p.dbFrom headKey hit true turns ix f
    Kept headKey p r.2.2.2 ∧
      (∀ g, r.2.2.1 = some g → g = { f with clauseIx := g.clauseIx } ∧
        from_ < g.clauseIx ∧ g.clauseIx ≤ f.cend) ∧
      (∀ i, r.2.1 = some i → i < f.cend) ∧
      positions (fun i => f.wants headKey (p.recAt i)) from_ f.cend =
        r.1 ++ r.2.2.1.elim [] fun g =>
          positions (fun i => f.wants headKey (p.recAt i)) g.clauseIx f.cend := by
  induction turns generalizing p f from_ ix with
  | zero =>
    exact ⟨⟨ok, rfl⟩, fun g eq => by simp [dbFrom] at eq, fun i eq => by simp [dbFrom] at eq,
      positions_of_ge (by omega)⟩
  | succ turns ih =>
    simp only [dbFrom]
    cases short : f.short ix with
    | none =>
      rw [short] at start
      exact ⟨⟨ok, rfl⟩, fun g eq => by simp at eq, fun i eq => by simp at eq,
        positions_eq_nil start.symm⟩
    | some a =>
      rw [short] at start
      have whole := positions_of_least start.symm
      obtain ⟨from_le, below, -⟩ := leastFrom_eq_some.mp start.symm
      obtain ⟨second, kept⟩ := nextFor_spec ok keyed inside (a + 1)
      simp only
      generalize p.nextFor headKey f true (a + 1) = t at second kept
      obtain ⟨b, q⟩ := t
      obtain ⟨count, recAt, -⟩ := kept.recs
      have found : ∀ i, some a = some i → i < f.cend := by
        intro i eq
        rw [← Option.some.inj eq]
        exact below
      split
      · by_cases last : (({ f with clauseIx := a + 1 } : Frame).short b).isNone
        · rw [if_pos last]
          have none_ : f.short b = none := Option.isNone_iff_eq_none.mp last
          rw [none_] at second
          refine ⟨kept, fun g eq => by simp at eq, found, whole.trans ?_⟩
          exact congrArg (a :: ·) (positions_eq_nil second.symm)
        · rw [if_neg last]
          refine ⟨kept, ?_, found, whole⟩
          intro g eq
          rw [← Option.some.inj eq]
          exact ⟨rfl, Nat.lt_succ_of_le from_le, below⟩
      · rw [← recAt] at second
        have next : ({ f with clauseIx := a + 1 } : Frame).short b =
            leastFrom (fun i => ({ f with clauseIx := a + 1 } : Frame).wants headKey (q.recAt i))
              (a + 1) f.cend := second
        obtain ⟨kept', same, found, rest⟩ :=
          ih (f := { f with clauseIx := a + 1 }) kept.1 keyed (count ▸ inside) next
            (by simp only; omega)
        refine ⟨kept.trans kept', ?_, found, ?_⟩
        · intro g eq
          obtain ⟨stays, later, short_⟩ := same g eq
          exact ⟨stays, Nat.lt_trans (Nat.lt_succ_of_le from_le) later, short_⟩
        · rw [recAt] at rest
          rw [whole]
          exact congrArg (a :: ·) rest

end Pred

end Cocolog.Store
