import Cocolog.Store.Invariant

/-! Whole runs of edits on one predicate. The abstract side edits a list of records and
knows nothing of arrays, counts or indexes; each store operation is one of its edits, and
the arrays read entry by entry are the list. -/

set_option linter.all false

namespace Cocolog.Store

open Cocolog.Lib

/-- The operations on a predicate's clause list, with what memory could be had and what
the engines' frames are in between. -/
inductive Edit where
  | add (atEnd : Bool) (c : NewClause) (room grew : Bool)
  | insertAt (k : Nat) (c : NewClause) (room : Bool)
  | retractAt (i : Nat) (made listed : Bool)
  | trySweep
  | sweep
  | forget (origin : Nat) (mute : Int) (made listed : Bool)
  | killFrom (k : Nat) (made listed : Bool)
  | failedRead (cs : List (NewClause × Bool × Bool))
  | compile (i : Nat) (code : Code)
  | adopt (k origin : Nat)
  | reindex (grew : Bool)
  | aixGet (pos : Nat) (grew : Bool)
  | engines (frames : List Frame) (framed : Bool)

namespace World

variable (headKey : Nat → Nat → Nat)

/-- The clauses a fetch appends before it fails (`coco_pred_ensure`). -/
def fetch (w : World) (cs : List (NewClause × Bool × Bool)) : World :=
  cs.foldl (fun w c => (w.addClause headKey true c.1 c.2.1 c.2.2).2) w

/-- The first half of `coco_reload_relocate`: the live clauses from `k` on die where they
stand, one death for all, for the copies to be added after. -/
def killFrom (w : World) (k : Nat) (made listed : Bool) : World :=
  let (era, w) := w.tombOpen made listed
  if era ≠ 0 then { w with pred := killAll w.pred (fun _ i => decide (k ≤ i)) era } else w

/-- One edit. The positions are the ones the callers check: inside the list, and of a
clause not dead where it is taken out. -/
def edit (w : World) : Edit → World
  | .add atEnd c room grew => (w.addClause headKey atEnd c room grew).2
  | .insertAt k c room => if k ≤ w.pred.nclauses then (w.insertAt k c room).2 else w
  | .retractAt i made listed =>
    if i < w.pred.nclauses ∧ w.pred.dead i = false then w.retractAt i made listed else w
  | .trySweep => w.trySweep.2
  | .sweep => { w with pred := w.pred.sweep }
  | .forget origin mute made listed => w.forgetWhere origin mute made listed
  | .killFrom k made listed => w.killFrom k made listed
  | .failedRead cs =>
    let after := w.fetch headKey cs
    { after with pred := after.pred.cutBack w.pred.nclauses }
  | .compile i code =>
    { w with pred := { w.pred with codes := Function.update w.pred.codes i (some code) } }
  | .adopt k origin =>
    { w with pred := { w.pred with origins := Function.update w.pred.origins k origin } }
  | .reindex grew => { w with pred := (w.pred.reindex grew).2 }
  | .aixGet pos grew =>
    if 0 < pos then { w with pred := (w.pred.aixGet headKey pos grew).2 } else w
  | .engines frames framed => { frames, pred := { w.pred with framed } }

end World

/-- The dead gone, or kept for the frames open. -/
def Swept (l l' : List Rec) : Prop := l' = l ∨ l' = l.filter Rec.live

/-- The records of the clauses a fetch had room for. -/
def fetched (cs : List (NewClause × Bool × Bool)) : List Rec :=
  (cs.filter fun c => c.2.1).map fun c => c.1.asRec

/-- The same edit on a list of records: each record is moved, kept or dropped whole. -/
def RecStep : Edit → List Rec → List Rec → Prop
  | .add atEnd c room _, l, l' => ∃ l0, Swept l l0 ∧
      l' = if room = false then l0 else if atEnd = true then l0 ++ [c.asRec] else c.asRec :: l0
  | .insertAt k c room, l, l' =>
      l' = if room = true ∧ k ≤ l.length then l.insertIdx k c.asRec else l
  | .retractAt i _ _, l, l' =>
      (∃ era ≠ 0, l' = l.modify i fun r => if r.live then { r with death := era } else r) ∨
        l' = (l.eraseIdx i).filter Rec.live ∨
        (l' = l ∧ ∀ r, l[i]? = some r → r.live = false)
  | .trySweep, l, l' => Swept l l'
  | .sweep, l, l' => l' = l.filter Rec.live
  | .forget origin mute _ _, l, l' =>
      (∃ era ≠ 0, l' = l.map fun r =>
        if r.live && r.forgets origin mute then { r with death := era } else r) ∨
        l' = l.filter fun r => r.live && !r.forgets origin mute
  | .killFrom k _ _, l, l' => l' = l ∨
      ∃ era ≠ 0, l' = l.mapIdx fun i r =>
        if decide (k ≤ i) && r.live then { r with death := era } else r
  | .failedRead cs, l, l' => ∃ l0, Swept l l0 ∧ l' = (l0 ++ fetched cs).take l.length
  | .compile i code, l, l' => l' = l.modify i fun r => { r with code := some code }
  | .adopt k origin, l, l' => l' = l.modify k fun r => { r with origin }
  | .reindex _, l, l' | .aixGet _ _, l, l' | .engines _ _, l, l' => l' = l

/-- A run of the edits on the list of records. -/
inductive RecRun : List Edit → List Rec → List Rec → Prop where
  | nil (l : List Rec) : RecRun [] l l
  | cons {e : Edit} {rest : List Edit} {l l' l'' : List Rec} (step : RecStep e l l')
      (later : RecRun rest l' l'') : RecRun (e :: rest) l l''

variable {headKey : Nat → Nat → Nat}

namespace World

theorem framesOn_pred (w : World) (act : Act) :
    ∃ framed, (w.framesOn act).2.pred = { w.pred with framed } := by
  simp only [framesOn]
  split
  · exact ⟨w.pred.framed, rfl⟩
  · exact ⟨_, rfl⟩

theorem framesOn_recs (w : World) (act : Act) : (w.framesOn act).2.pred.recs = w.pred.recs := by
  obtain ⟨framed, eq⟩ := framesOn_pred w act
  rw [eq]
  rfl

theorem framesOn_ok {w : World} (ok : w.pred.Ok headKey) (act : Act) :
    (w.framesOn act).2.pred.Ok headKey := by
  obtain ⟨framed, eq⟩ := framesOn_pred w act
  rw [eq]
  exact ok.framed framed

theorem shifted_nclauses (p : Pred) (k : Nat) (c : NewClause) :
    ((p.shiftUp k p.nclauses).putRow k c).nclauses = p.nclauses :=
  (Pred.of_bare (Pred.shiftUp_bare p k p.nclauses)).1

/-- Opening a death changes no record, and one given has its array ready. -/
theorem tombOpen_spec {w : World} (ok : w.pred.Ok headKey) (made listed : Bool) :
    (w.tombOpen made listed).2.pred.Ok headKey ∧
      (w.tombOpen made listed).2.pred.recs = w.pred.recs ∧
      ((w.tombOpen made listed).1 ≠ 0 →
        ∃ tomb, (w.tombOpen made listed).2.pred.tomb = some tomb) := by
  obtain ⟨s, hs⟩ : ∃ s, s = w.framesOn (.death ((w.pred.tera + 1) % 2 ^ 32)) := ⟨_, rfl⟩
  have ok' : s.2.pred.Ok headKey := hs ▸ framesOn_ok ok _
  have recs' : s.2.pred.recs = w.pred.recs := hs ▸ framesOn_recs w _
  simp only [tombOpen, ← hs]
  split
  · exact ⟨ok', recs', fun h => absurd rfl h⟩
  · split
    · rename_i ready
      refine ⟨(ok'.tombReady made listed).tera _, ?_, fun _ => Pred.tombReady_some ready⟩
      exact (Pred.tombReady_recs s.2.pred made listed).trans recs'
    · refine ⟨ok'.tombReady made listed, ?_, fun h => absurd rfl h⟩
      exact (Pred.tombReady_recs s.2.pred made listed).trans recs'

theorem trySweep_eq {w : World} (some_dead : w.pred.ntomb ≠ 0) :
    w.trySweep = if (w.framesOn .any).1 ≠ 0 then (false, (w.framesOn .any).2)
      else (true, { (w.framesOn .any).2 with pred := (w.framesOn .any).2.pred.sweep }) := by
  rw [trySweep, if_neg some_dead]

theorem trySweep_spec {w : World} (ok : w.pred.Ok headKey) :
    w.trySweep.2.pred.Ok headKey ∧ Swept w.pred.recs w.trySweep.2.pred.recs := by
  have ok' := framesOn_ok ok .any
  have recs' := framesOn_recs w .any
  simp only [trySweep]
  split
  · exact ⟨ok, .inl rfl⟩
  · split
    · exact ⟨ok', .inl recs'⟩
    · refine ⟨ok'.sweep, .inr ?_⟩
      exact (Pred.sweep_recs ok').trans (by rw [recs'])

/-- An assertion, once the dead it could sweep are gone. -/
theorem addClause_swept {w v : World} (swept : v = if w.pred.ntomb ≠ 0 then w.trySweep.2 else w)
    (ok : v.pred.Ok headKey) (atEnd : Bool) (c : NewClause) (room grew : Bool) :
    (w.addClause headKey atEnd c room grew).2.pred.Ok headKey ∧
      (w.addClause headKey atEnd c room grew).2.pred.recs =
        if room = false then v.pred.recs
        else if atEnd = true then v.pred.recs ++ [c.asRec] else c.asRec :: v.pred.recs := by
  simp only [addClause, ← swept]
  cases room with
  | false => exact ⟨ok, rfl⟩
  | true =>
    simp only [Bool.true_eq_false, if_false]
    cases atEnd with
    | true =>
      refine ⟨ok.append c grew, ?_⟩
      simp only [if_true]
      rw [← Pred.append_recs]
      simp only [Pred.indexAppend]
      split
      · split <;> rfl
      · rfl
    | false =>
      have same : (((v.pred.shiftUp 0 v.pred.nclauses).putRow 0 c).unindex.withCount
            (((v.pred.shiftUp 0 v.pred.nclauses).putRow 0 c).unindex.nclauses + 1)
          ).setNprobe.bumpVer =
          (((v.pred.shiftUp 0 v.pred.nclauses).putRow 0 c).withCount
            (v.pred.nclauses + 1)).setNprobe.bumpVer.unindex := by
        have count : ((v.pred.shiftUp 0 v.pred.nclauses).putRow 0 c).unindex.nclauses =
            v.pred.nclauses := shifted_nclauses v.pred 0 c
        rw [count]
        rfl
      simp only [Bool.false_eq_true, if_false, same]
      refine ⟨framesOn_ok (ok.insert (Nat.zero_le _) c) _, ?_⟩
      rw [framesOn_recs]
      have inserted := Pred.insert_recs v.pred (Nat.zero_le _) c
      rw [List.insertIdx_zero] at inserted
      exact inserted

theorem addClause_spec {w : World} (ok : w.pred.Ok headKey) (atEnd : Bool) (c : NewClause)
    (room grew : Bool) :
    (w.addClause headKey atEnd c room grew).2.pred.Ok headKey ∧
      RecStep (.add atEnd c room grew) w.pred.recs
        (w.addClause headKey atEnd c room grew).2.pred.recs := by
  obtain ⟨v, hv⟩ : ∃ v, v = if w.pred.ntomb ≠ 0 then w.trySweep.2 else w := ⟨_, rfl⟩
  have swept : v.pred.Ok headKey ∧ Swept w.pred.recs v.pred.recs := by
    rw [hv]
    split
    · exact trySweep_spec ok
    · exact ⟨ok, .inl rfl⟩
  obtain ⟨ok', recs⟩ := addClause_swept hv swept.1 atEnd c room grew
  exact ⟨ok', v.pred.recs, swept.2, recs⟩

theorem insertAt_spec {w : World} (ok : w.pred.Ok headKey) {k : Nat} (le : k ≤ w.pred.nclauses)
    (c : NewClause) (room : Bool) :
    (w.insertAt k c room).2.pred.Ok headKey ∧
      RecStep (.insertAt k c room) w.pred.recs (w.insertAt k c room).2.pred.recs := by
  cases room with
  | false => exact ⟨ok, rfl⟩
  | true =>
    have same : (((w.pred.shiftUp k w.pred.nclauses).putRow k c).withCount
          (((w.pred.shiftUp k w.pred.nclauses).putRow k c).nclauses + 1)
        ).setNprobe.bumpVer.unindex =
        (((w.pred.shiftUp k w.pred.nclauses).putRow k c).withCount
          (w.pred.nclauses + 1)).setNprobe.bumpVer.unindex := by
      rw [shifted_nclauses w.pred k c]
    simp only [insertAt, Bool.true_eq_false, if_false, same, RecStep]
    refine ⟨framesOn_ok (ok.insert le c) _, ?_⟩
    rw [framesOn_recs, if_pos ⟨trivial, by simpa using le⟩]
    exact Pred.insert_recs w.pred le c

theorem filter_modify_dead (l : List Rec) {i era : Nat} (dies : era ≠ 0) :
    (l.modify i fun r => { r with death := era }).filter Rec.live =
      (l.eraseIdx i).filter Rec.live := by
  induction l generalizing i with
  | nil => simp
  | cons r rest ih =>
    cases i with
    | zero => simp [Rec.live, dies]
    | succ i => simp only [List.modify_succ_cons, List.eraseIdx_cons_succ, List.filter_cons, ih]

theorem tombOpen_recAt {w : World} (ok : w.pred.Ok headKey) {i : Nat} (below : i < w.pred.nclauses)
    (made listed : Bool) :
    i < (w.tombOpen made listed).2.pred.nclauses ∧
      (w.tombOpen made listed).2.pred.recAt i = w.pred.recAt i := by
  have recs := (tombOpen_spec ok made listed).2.1
  have count : (w.tombOpen made listed).2.pred.nclauses = w.pred.nclauses := by
    rw [← Pred.length_recs, recs, Pred.length_recs]
  refine ⟨count ▸ below, ?_⟩
  have entry := congrArg (fun l => l[i]?) recs
  simpa only [Pred.recs_getElem? below, Pred.recs_getElem? (count ▸ below),
    Option.some.injEq] using entry

/-- A retract under an open frame marks the clause and moves nothing. -/
theorem retractAt_died {w : World} (ok : w.pred.Ok headKey) {i : Nat} (below : i < w.pred.nclauses)
    (alive : (w.pred.recAt i).live = true) {made listed : Bool}
    (open_ : (w.tombOpen made listed).1 ≠ 0) :
    (w.retractAt i made listed).pred.Ok headKey ∧
      (w.retractAt i made listed).pred.recs =
        w.pred.recs.modify i fun r =>
          if r.live then { r with death := (w.tombOpen made listed).1 } else r := by
  obtain ⟨ok', recs', ready⟩ := tombOpen_spec ok made listed
  obtain ⟨below', here⟩ := tombOpen_recAt ok below made listed
  obtain ⟨tomb, htomb⟩ := ready open_
  simp only [retractAt, if_pos open_]
  refine ⟨(ok'.tombSet htomb below' (here ▸ alive) open_).dynamic true, ?_⟩
  have set_ := Pred.tombSet_recs htomb i (w.tombOpen made listed).1
  rw [recs'] at set_
  refine set_.trans ?_
  refine List.ext_getElem? ?_
  intro j
  rw [List.getElem?_modify, List.getElem?_modify]
  by_cases at_i : i = j
  · subst at_i
    simp [Pred.recs_getElem? below, alive]
  · simp [at_i]

/-- A retract with no death to give takes the clause out, and the dead with it. -/
theorem retractAt_out {w : World} (ok : w.pred.Ok headKey) {i : Nat} (below : i < w.pred.nclauses)
    (alive : (w.pred.recAt i).live = true) {made listed : Bool}
    (closed : (w.tombOpen made listed).1 = 0) :
    (w.retractAt i made listed).pred.Ok headKey ∧
      (w.retractAt i made listed).pred.recs = (w.pred.recs.eraseIdx i).filter Rec.live := by
  obtain ⟨ok', recs', -⟩ := tombOpen_spec ok made listed
  obtain ⟨below', here⟩ := tombOpen_recAt ok below made listed
  simp only [retractAt, if_neg (not_not.mpr closed)]
  split
  · rename_i swept
    cases htomb : (w.tombOpen made listed).2.pred.tomb with
    | none =>
      have zero : (w.tombOpen made listed).2.pred.recs.countP (fun r => !r.live) = 0 := by
        rw [List.countP_eq_zero]
        intro r hr
        obtain ⟨j, -, rfl⟩ := List.mem_map.mp hr
        simp [Rec.live, Pred.recAt, Pred.deathAt_none htomb]
      exact absurd (ok'.dead.trans zero) swept
    | some tomb =>
      have set_ok := ok'.tombSet htomb below' (here ▸ alive) (Nat.one_ne_zero)
      refine ⟨set_ok.sweep.dynamic true, ?_⟩
      refine (Pred.sweep_recs set_ok).trans ?_
      rw [Pred.tombSet_recs htomb, recs', filter_modify_dead _ Nat.one_ne_zero]
  · rename_i none_dead
    have zero : (w.tombOpen made listed).2.pred.ntomb = 0 := not_not.mp none_dead
    obtain ⟨out, out_ok⟩ := Pred.takeOut_spec ok' zero below'
    refine ⟨out_ok.dynamic true, ?_⟩
    refine out.trans ?_
    rw [recs', eq_comm, List.filter_eq_self]
    intro r hr
    refine Pred.live_of_ntomb_zero ok' zero r ?_
    rw [recs']
    exact List.mem_of_mem_eraseIdx hr

theorem retractAt_spec {w : World} (ok : w.pred.Ok headKey) {i : Nat} (below : i < w.pred.nclauses)
    (live : w.pred.dead i = false) (made listed : Bool) :
    (w.retractAt i made listed).pred.Ok headKey ∧
      RecStep (.retractAt i made listed) w.pred.recs (w.retractAt i made listed).pred.recs := by
  have alive : (w.pred.recAt i).live = true := by
    rw [Pred.dead_eq ok below] at live
    simpa using live
  by_cases open_ : (w.tombOpen made listed).1 = 0
  · obtain ⟨ok', recs⟩ := retractAt_out ok below alive open_
    exact ⟨ok', .inr (.inl recs)⟩
  · obtain ⟨ok', recs⟩ := retractAt_died ok below alive open_
    exact ⟨ok', .inl ⟨_, open_, recs⟩⟩

theorem tombOpen_nclauses {w : World} (ok : w.pred.Ok headKey) (made listed : Bool) :
    (w.tombOpen made listed).2.pred.nclauses = w.pred.nclauses := by
  rw [← Pred.length_recs, (tombOpen_spec ok made listed).2.1, Pred.length_recs]

theorem forgetWhere_spec {w : World} (ok : w.pred.Ok headKey) (origin : Nat) (mute : Int)
    (made listed : Bool) :
    (w.forgetWhere origin mute made listed).pred.Ok headKey ∧
      RecStep (.forget origin mute made listed) w.pred.recs
        (w.forgetWhere origin mute made listed).pred.recs := by
  have opened := tombOpen_spec ok made listed
  obtain ⟨s, hs⟩ : ∃ s, s = w.tombOpen made listed := ⟨_, rfl⟩
  rw [← hs] at opened
  obtain ⟨ok', recs', ready⟩ := opened
  simp only [forgetWhere, ← hs, RecStep]
  split
  · rename_i open_
    obtain ⟨tomb, htomb⟩ := ready open_
    have killed := Pred.killAll_spec ok' htomb (fun p i => p.forgetMatch i origin mute)
      (fun q i row => by
        have muted : q.muted i = s.2.pred.muted i := congrArg Rec.muted row
        have origins : q.origins i = s.2.pred.origins i := congrArg Rec.origin row
        simp only [Pred.forgetMatch, muted, origins]) open_
    refine ⟨killed.ok, .inl ⟨s.1, open_, ?_⟩⟩
    rw [killed.recs_eq, ← recs', Pred.recs, entries, entries, List.map_map]
    refine List.map_congr_left ?_
    intro i _
    have same : (s.2.pred.recAt i).forgets origin mute = s.2.pred.forgetMatch i origin mute := rfl
    simp only [Pred.killed, Function.comp, same, Bool.and_eq_true, and_comm]
  · obtain ⟨out, out_ok⟩ := Pred.forgetOut_spec ok' origin mute
    rw [recs'] at out
    split
    · rename_i all
      refine ⟨ok', .inr ?_⟩
      have rows := Pred.compact_recs s.2.pred (Pred.forget_reads s.2.pred origin mute)
        (fun r => r.live && !r.forgets origin mute)
        (fun r h => (Bool.and_eq_true_iff.mp h).1)
        (fun i hi => by
          rw [Pred.dead_eq ok' hi, Bool.not_or, Bool.not_not]
          rfl)
      have length := congrArg List.length rows
      rw [length_entries, all, recs', ← Pred.length_recs, recs'] at length
      rw [recs', eq_comm, List.filter_eq_self]
      exact List.length_filter_eq_length_iff.mp length.symm
    · exact ⟨out_ok, .inr out⟩

theorem killFrom_spec {w : World} (ok : w.pred.Ok headKey) (k : Nat) (made listed : Bool) :
    (w.killFrom k made listed).pred.Ok headKey ∧
      RecStep (.killFrom k made listed) w.pred.recs (w.killFrom k made listed).pred.recs := by
  have opened := tombOpen_spec ok made listed
  obtain ⟨s, hs⟩ : ∃ s, s = w.tombOpen made listed := ⟨_, rfl⟩
  rw [← hs] at opened
  obtain ⟨ok', recs', ready⟩ := opened
  simp only [killFrom, ← hs, RecStep]
  split
  · rename_i open_
    obtain ⟨tomb, htomb⟩ := ready open_
    have killed := Pred.killAll_spec ok' htomb (fun _ i => decide (k ≤ i))
      (fun _ _ _ => rfl) open_
    refine ⟨killed.ok, .inr ⟨s.1, open_, ?_⟩⟩
    rw [killed.recs_eq, ← recs']
    refine List.ext_getElem? ?_
    intro i
    rw [List.getElem?_mapIdx, Pred.recs, getElem?_entries, getElem?_entries]
    by_cases below : i < s.2.pred.nclauses
    · simp only [if_pos below, Option.map_some, Pred.killed, Bool.and_eq_true]
    · simp [below]
  · exact ⟨ok', .inl recs'⟩

theorem fetched_live {cs : List (NewClause × Bool × Bool)} : ∀ r ∈ fetched cs, r.live = true := by
  intro r hr
  obtain ⟨c, -, rfl⟩ := List.mem_map.mp hr
  rfl

/-- The appended clauses stand behind what was there. -/
theorem fetch_spec {w : World} (ok : w.pred.Ok headKey) (cs : List (NewClause × Bool × Bool)) :
    (w.fetch headKey cs).pred.Ok headKey ∧ ∃ l0, Swept w.pred.recs l0 ∧
      (w.fetch headKey cs).pred.recs = l0 ++ fetched cs := by
  induction cs using List.reverseRecOn with
  | nil => exact ⟨ok, w.pred.recs, .inl rfl, by simp [fetch, fetched]⟩
  | append_singleton cs c ih =>
    obtain ⟨ok', l0, swept, recs⟩ := ih
    have step := addClause_spec ok' true c.1 c.2.1 c.2.2
    have unfold_ : w.fetch headKey (cs ++ [c]) =
        ((w.fetch headKey cs).addClause headKey true c.1 c.2.1 c.2.2).2 := by
      simp [fetch, List.foldl_append]
    rw [unfold_]
    refine ⟨step.1, ?_⟩
    obtain ⟨l1, again, added⟩ := step.2
    have front : ∃ l2, Swept w.pred.recs l2 ∧ l1 = l2 ++ fetched cs := by
      rcases again with same | gone
      · exact ⟨l0, swept, same.trans recs⟩
      · refine ⟨l0.filter Rec.live, ?_, ?_⟩
        · rcases swept with rfl | rfl
          · exact .inr rfl
          · exact .inr (by simp)
        · rw [gone, recs, List.filter_append]
          congr 1
          exact List.filter_eq_self.mpr fetched_live
    obtain ⟨l2, swept2, rfl⟩ := front
    refine ⟨l2, swept2, ?_⟩
    rw [added]
    cases room : c.2.1 with
    | false => simp [fetched, List.filter_append, room]
    | true => simp [fetched, List.filter_append, room]

theorem swept_length_le {l l' : List Rec} (swept : Swept l l') : l'.length ≤ l.length := by
  rcases swept with rfl | rfl
  · exact Nat.le_refl _
  · exact List.length_filter_le _ _

theorem swept_trans {l l' l'' : List Rec} (first : Swept l l') (second : Swept l' l'') :
    Swept l l'' := by
  rcases first with rfl | rfl
  · exact second
  · rcases second with rfl | rfl
    · exact .inr rfl
    · refine .inr ?_
      rw [List.filter_filter]
      simp

theorem failedRead_spec {w : World} (ok : w.pred.Ok headKey)
    (cs : List (NewClause × Bool × Bool)) :
    ((w.fetch headKey cs).pred.cutBack w.pred.nclauses).Ok headKey ∧
      RecStep (.failedRead cs) w.pred.recs
        ((w.fetch headKey cs).pred.cutBack w.pred.nclauses).recs := by
  obtain ⟨ok', l0, swept, recs⟩ := fetch_spec ok cs
  have short := swept_length_le swept
  rw [Pred.length_recs] at short
  by_cases longer : w.pred.nclauses ≤ (w.fetch headKey cs).pred.nclauses
  · refine ⟨ok'.cutBack longer ?_, l0, swept, ?_⟩
    · intro r hr
      rw [recs, List.drop_append, List.drop_eq_nil_of_le short, List.nil_append] at hr
      exact fetched_live r (List.mem_of_mem_drop hr)
    · rw [Pred.cutBack_recs longer, recs, Pred.length_recs]
  · have kept : (w.fetch headKey cs).pred.cutBack w.pred.nclauses = (w.fetch headKey cs).pred := by
      rw [Pred.cutBack, if_pos (by omega)]
    rw [kept]
    refine ⟨ok', l0, swept, ?_⟩
    rw [recs, eq_comm, List.take_of_length_le]
    rw [← recs, Pred.length_recs, Pred.length_recs]
    omega

/-- One edit keeps the invariant and is one edit of the records. -/
theorem edit_spec {w : World} (ok : w.pred.Ok headKey) (e : Edit) :
    (w.edit headKey e).pred.Ok headKey ∧ RecStep e w.pred.recs (w.edit headKey e).pred.recs := by
  cases e with
  | add atEnd c room grew => exact addClause_spec ok atEnd c room grew
  | insertAt k c room =>
    simp only [edit]
    split
    · rename_i le
      exact insertAt_spec ok le c room
    · rename_i past
      refine ⟨ok, ?_⟩
      simp [RecStep, past]
  | retractAt i made listed =>
    simp only [edit]
    split
    · rename_i h
      exact retractAt_spec ok h.1 h.2 made listed
    · rename_i h
      refine ⟨ok, .inr (.inr ⟨rfl, ?_⟩)⟩
      intro r hr
      have below : i < w.pred.nclauses := by
        by_contra past
        rw [List.getElem?_eq_none (by simpa using Nat.le_of_not_lt past)] at hr
        cases hr
      rw [Pred.recs_getElem? below] at hr
      have dead : w.pred.dead i = true := by
        by_contra live
        exact h ⟨below, by simpa using live⟩
      rw [Pred.dead_eq ok below] at dead
      rw [← Option.some.inj hr]
      simpa using dead
  | trySweep => exact trySweep_spec ok
  | sweep => exact ⟨ok.sweep, Pred.sweep_recs ok⟩
  | forget origin mute made listed => exact forgetWhere_spec ok origin mute made listed
  | killFrom k made listed => exact killFrom_spec ok k made listed
  | failedRead cs => exact failedRead_spec ok cs
  | compile i code =>
    have recs : (w.edit headKey (.compile i code)).pred.recs =
        w.pred.recs.modify i fun r => { r with code := some code } := by
      refine entries_modify (fun _ => ?_) (fun j _ other => ?_)
      · simp [edit, Pred.recAt, Pred.rowAt, Pred.deathAt]
      · simp [edit, Pred.recAt, Pred.rowAt, Pred.deathAt, other]
    refine ⟨⟨?_, ok.probe, ok.first, ok.others⟩, recs⟩
    rw [recs]
    refine ok.dead.trans (Eq.symm ?_)
    apply countP_modify_same
    intro r
    rfl
  | adopt k origin =>
    have recs : (w.edit headKey (.adopt k origin)).pred.recs =
        w.pred.recs.modify k fun r => { r with origin } := by
      refine entries_modify (fun _ => ?_) (fun j _ other => ?_)
      · simp [edit, Pred.recAt, Pred.rowAt, Pred.deathAt]
      · simp [edit, Pred.recAt, Pred.rowAt, Pred.deathAt, other]
    refine ⟨⟨?_, ok.probe, ok.first, ok.others⟩, recs⟩
    rw [recs]
    refine ok.dead.trans (Eq.symm ?_)
    apply countP_modify_same
    intro r
    rfl
  | reindex grew => exact ⟨ok.reindex grew, Pred.reindex_recs w.pred grew⟩
  | aixGet pos grew =>
    simp only [edit]
    split
    · rename_i positive
      exact ⟨ok.aixGet positive grew, Pred.aixGet_recs w.pred pos grew⟩
    · exact ⟨ok, rfl⟩
  | engines frames framed => exact ⟨ok.framed framed, rfl⟩

theorem edits_ok (edits : List Edit) {w : World} (ok : w.pred.Ok headKey) :
    (run (edit headKey) w edits).pred.Ok headKey :=
  run_invariant (fun w e h => (edit_spec (w := w) h e).1) w edits ok

theorem edits_recs (edits : List Edit) {w : World} (ok : w.pred.Ok headKey) :
    RecRun edits w.pred.recs (run (edit headKey) w edits).pred.recs := by
  induction edits generalizing w with
  | nil => exact .nil _
  | cons e rest ih =>
    obtain ⟨ok', step⟩ := edit_spec ok e
    exact .cons step (ih ok')

end World

/-- Every chain of the table lists the positions of its key, in ascending order, and a
key with no slot has no position. -/
def Table.ListsKeys (t : Table) (keys : Nat → Nat) (n : Nat) : Prop :=
  Table.Lists t.chain t.varhead (positions (ofKey keys 0) 0 n) ∧
    ∀ key, key ≠ 0 →
      if (t.slots (t.slotOf key)).key = key then
        Table.Lists t.chain (some (t.slots (t.slotOf key)).head) (positions (ofKey keys key) 0 n)
      else positions (ofKey keys key) 0 n = []

theorem Table.Ok.listsKeys {t : Table} {keys : Nat → Nat} {n : Nat} (ok : t.Ok keys n) :
    t.ListsKeys keys n := by
  refine ⟨?_, ?_⟩
  · rw [ok.varhead]
    exact ok.lists_from 0 (Nat.le_add_left n 0)
  · intro key positive
    split
    · rename_i held
      have head := ok.head _ (ok.slotOf_lt key) (by rw [held]; exact positive)
      rw [held] at head
      rw [← head]
      exact ok.lists_from key (Nat.le_add_left n 0)
    · rename_i other
      have empty := (ok.slotOf_key key).resolve_right other
      refine positions_eq_nil (leastFrom_eq_none.mpr ?_)
      intro i _ hi
      simpa [ofKey] using ok.absent positive empty i hi

/-- In every reachable store the six arrays are one list of records edited as records, the
dead are counted, the probe's count is the clause count exactly when nothing is dead and
the count fits 32 bits, and an index marked built lists each key's positions in order. -/
theorem predicate_representation (headKey : Nat → Nat → Nat) (edits : List Edit) :
    let p := (run (World.edit headKey) {} edits).pred
    RecRun edits [] p.recs ∧
      p.ntomb = p.recs.countP (fun r => !r.live) ∧
      (p.nprobe = p.nclauses ↔ (∀ r ∈ p.recs, r.live = true) ∧ p.nclauses ≤ 4294967295) ∧
      (p.indexed = true → p.table.ListsKeys p.keys p.nclauses) ∧
      ∀ j < aixCount, (p.aix j).indexed = true →
        (p.aix j).table.ListsKeys (p.aix j).keys p.nclauses ∧
          ∀ i < p.nclauses, (p.aix j).keys i = headKey (p.clauses i) (j + 1) := by
  intro p
  have ok : p.Ok headKey := World.edits_ok edits Pred.empty_ok
  have alive : p.ntomb = 0 ↔ ∀ r ∈ p.recs, r.live = true := by
    rw [ok.dead, List.countP_eq_zero]
    simp
  have recs : RecRun edits [] p.recs :=
    World.edits_recs (w := {}) edits (@Pred.empty_ok headKey)
  refine ⟨recs, ok.dead, ?_, ?_, ?_⟩
  · rw [← alive, ok.probe]
    split
    · rename_i both
      exact ⟨fun _ => both, fun _ => rfl⟩
    · rename_i either
      refine ⟨fun empty => ?_, fun both => absurd both either⟩
      have short : p.ntomb ≤ p.nclauses := by
        rw [ok.dead, ← Pred.length_recs]
        exact List.countP_le_length
      exact absurd ⟨by omega, by omega⟩ either
  · intro on
    exact (ok.first on).listsKeys
  · intro j hj on
    obtain ⟨table, heads⟩ := ok.others j hj on
    exact ⟨table.listsKeys, heads⟩

/-- A clause asserted at the end, again and again. -/
theorem run_assertz (n : Nat) (c : NewClause) (headKey : Nat → Nat → Nat) :
    (run (World.edit headKey) {} (List.replicate n (.add true c true true))).pred.recs =
      List.replicate n c.asRec := by
  have general : ∀ w : World, w.pred.Ok headKey → (∀ r ∈ w.pred.recs, r.live = true) →
      (run (World.edit headKey) w (List.replicate n (.add true c true true))).pred.recs =
        w.pred.recs ++ List.replicate n c.asRec := by
    induction n with
    | zero =>
      intro w _ _
      simp
    | succ n ih =>
      intro w ok live
      obtain ⟨ok', l0, swept, added⟩ := World.edit_spec ok (.add true c true true)
      have same : l0 = w.pred.recs := by
        rcases swept with eq | eq
        · exact eq
        · rw [eq, List.filter_eq_self]
          exact live
      simp only [Bool.true_eq_false, if_false, if_true, same] at added
      have live' : ∀ r ∈ (w.edit headKey (.add true c true true)).pred.recs, r.live = true := by
        intro r hr
        rw [added, List.mem_append, List.mem_singleton] at hr
        rcases hr with old | rfl
        · exact live r old
        · rfl
      rw [List.replicate_succ, run_cons, ih _ ok' live', added, List.append_assoc,
        List.replicate_succ, List.singleton_append]
  have started := general {} Pred.empty_ok (by simp [Pred.recs, entries])
  simpa [Pred.recs, entries] using started

/-- Past 32 bits of clauses the probe's count is 0 with nothing dead. -/
theorem nprobe_not_nclauses :
    ¬ ∀ (headKey : Nat → Nat → Nat) (edits : List Edit),
      let p := (run (World.edit headKey) {} edits).pred
      p.nprobe = p.nclauses ↔ ∀ r ∈ p.recs, r.live = true := by
  intro claimed
  have recs := run_assertz (2 ^ 32) ⟨0, 0, 0, 0⟩ (fun _ _ => 0)
  have at_run := claimed (fun _ _ => 0) (List.replicate (2 ^ 32) (.add true ⟨0, 0, 0, 0⟩ true true))
  have ok := World.edits_ok (w := {})
    (List.replicate (2 ^ 32) (.add true ⟨0, 0, 0, 0⟩ true true)) (@Pred.empty_ok fun _ _ => 0)
  generalize (run (World.edit fun _ _ => 0) {}
    (List.replicate (2 ^ 32) (.add true ⟨0, 0, 0, 0⟩ true true))).pred = p at *
  have count : p.nclauses = 2 ^ 32 := by
    rw [← Pred.length_recs, recs, List.length_replicate]
  have live : ∀ r ∈ p.recs, r.live = true := by
    intro r hr
    rw [recs] at hr
    rw [List.eq_of_mem_replicate hr]
    rfl
  have same := at_run.mpr live
  rw [ok.probe, count] at same
  simp at same

end Cocolog.Store
