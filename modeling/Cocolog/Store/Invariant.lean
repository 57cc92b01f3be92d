import Cocolog.Lib.Runs
import Cocolog.Store.Records

/-! What every edit of a predicate keeps: the dead counted, the probe's count in step
with the other two, and each index that is marked built in agreement with the clause
list. The edits are the store's own operations, with the frames open on the predicate
changing in any way between them. -/

set_option linter.all false

namespace Cocolog.Store

open Cocolog.Lib

section

variable (headKey : Nat → Nat → Nat)

/-- The representation invariant of one predicate. -/
structure Pred.Ok (p : Pred) : Prop where
  dead : p.ntomb = p.recs.countP fun r => !r.live
  probe : p.nprobe = if p.ntomb = 0 ∧ p.nclauses ≤ 4294967295 then p.nclauses else 0
  first : p.indexed = true → p.table.Ok p.keys p.nclauses
  others : ∀ j < aixCount, (p.aix j).indexed = true →
    (p.aix j).table.Ok (p.aix j).keys p.nclauses ∧
      ∀ i < p.nclauses, (p.aix j).keys i = headKey (p.clauses i) (j + 1)

end

variable {headKey : Nat → Nat → Nat}

namespace Pred

theorem empty_ok : Pred.Ok headKey {} where
  dead := rfl
  probe := rfl
  first := by
    intro h
    cases h
  others := by
    intro j _ h
    cases h

/-- With every index dropped only the counts are left to check. -/
theorem unindex_ok {p : Pred} (dead : p.ntomb = p.recs.countP fun r => !r.live)
    (probe : p.nprobe = if p.ntomb = 0 ∧ p.nclauses ≤ 4294967295 then p.nclauses else 0) :
    p.unindex.Ok headKey where
  dead := dead
  probe := probe
  first := by
    intro h
    cases h
  others := by
    intro j _ h
    cases h

theorem Ok.framed {p : Pred} (ok : p.Ok headKey) (framed : Bool) :
    ({ p with framed } : Pred).Ok headKey :=
  ⟨ok.dead, ok.probe, ok.first, ok.others⟩

theorem Ok.dynamic {p : Pred} (ok : p.Ok headKey) (dynamic : Bool) :
    ({ p with dynamic } : Pred).Ok headKey :=
  ⟨ok.dead, ok.probe, ok.first, ok.others⟩

theorem Ok.tera {p : Pred} (ok : p.Ok headKey) (tera : Nat) :
    ({ p with tera } : Pred).Ok headKey :=
  ⟨ok.dead, ok.probe, ok.first, ok.others⟩

theorem live_of_ntomb_zero {p : Pred} (ok : p.Ok headKey) (none_dead : p.ntomb = 0) :
    ∀ r ∈ p.recs, r.live = true := by
  have zero := ok.dead
  rw [none_dead] at zero
  intro r hr
  simpa using List.countP_eq_zero.mp zero.symm r hr

theorem mem_recs {p : Pred} {i : Nat} (below : i < p.nclauses) : p.recAt i ∈ p.recs :=
  List.mem_map.mpr ⟨i, List.mem_range.mpr below, rfl⟩

theorem recs_getElem? {p : Pred} {i : Nat} (below : i < p.nclauses) :
    p.recs[i]? = some (p.recAt i) := by
  rw [recs, getElem?_entries, if_pos below]

/-- `coco_pred_dead` is the record's own death. -/
theorem dead_eq {p : Pred} (ok : p.Ok headKey) {i : Nat} (below : i < p.nclauses) :
    p.dead i = !(p.recAt i).live := by
  by_cases zero : p.ntomb = 0
  · have live := live_of_ntomb_zero ok zero _ (mem_recs below)
    simp [dead, zero, live]
  · simp [dead, Rec.live, recAt, bne, beq_false_of_ne zero]

/- The dead. -/

/-- Getting ready to keep the dead makes an array of none dead, at most. -/
theorem tombReady_eq (p : Pred) (made listed : Bool) :
    ∃ tomb tlisted, (p.tombReady made listed).2 = { p with tomb, tlisted } ∧
      ({ p with tomb, tlisted } : Pred).recAt = p.recAt := by
  simp only [tombReady]
  split
  · exact ⟨p.tomb, p.tlisted, rfl, rfl⟩
  · have same : ∀ tlisted, ({ p with tomb := some (p.tomb.getD fun _ => 0), tlisted } : Pred).recAt =
        p.recAt := by
      intro tlisted
      funext i
      cases h : p.tomb <;> simp [recAt, rowAt, deathAt, h]
    split
    · exact ⟨_, _, rfl, same _⟩
    · exact ⟨_, _, rfl, same _⟩

theorem tombReady_recs (p : Pred) (made listed : Bool) :
    (p.tombReady made listed).2.recs = p.recs := by
  obtain ⟨tomb, tlisted, eq, same⟩ := tombReady_eq p made listed
  rw [eq, recs, same]
  rfl

theorem Ok.tombReady {p : Pred} (ok : p.Ok headKey) (made listed : Bool) :
    (p.tombReady made listed).2.Ok headKey := by
  have recs := tombReady_recs p made listed
  obtain ⟨tomb, tlisted, eq, -⟩ := tombReady_eq p made listed
  rw [eq] at recs ⊢
  refine ⟨?_, ok.probe, ok.first, ok.others⟩
  rw [recs]
  exact ok.dead

theorem tombReady_some {p : Pred} {made listed : Bool}
    (ready : (p.tombReady made listed).1 = true) :
    ∃ tomb, (p.tombReady made listed).2.tomb = some tomb := by
  simp only [Pred.tombReady] at ready ⊢
  split at ready
  · cases ready
  · rename_i not_made
    rw [if_neg not_made]
    split at ready
    · cases ready
    · rename_i not_listed
      rw [if_neg not_listed]
      exact ⟨_, rfl⟩

theorem tombSet_recAt {p : Pred} {tomb : Nat → Nat} (some_ : p.tomb = some tomb) (i era j : Nat) :
    (p.tombSet i era).recAt j =
      if j = i then { p.recAt i with death := era } else p.recAt j := by
  by_cases at_i : j = i
  · subst at_i
    simp [tombSet, recAt, rowAt, deathAt, some_, setNprobe, bumpVer]
  · simp [tombSet, recAt, rowAt, deathAt, some_, setNprobe, bumpVer, at_i]

theorem tombSet_recs {p : Pred} {tomb : Nat → Nat} (some_ : p.tomb = some tomb) (i era : Nat) :
    (p.tombSet i era).recs = p.recs.modify i fun r => { r with death := era } := by
  refine entries_modify (fun _ => ?_) (fun j _ other => ?_)
  · rw [tombSet_recAt some_, if_pos rfl]
  · rw [tombSet_recAt some_, if_neg other]

/-- A death moves no clause, so the indexes stay good. -/
theorem Ok.tombSet {p : Pred} (ok : p.Ok headKey) {tomb : Nat → Nat} (some_ : p.tomb = some tomb)
    {i era : Nat} (below : i < p.nclauses) (live : (p.recAt i).live = true) (dies : era ≠ 0) :
    (p.tombSet i era).Ok headKey := by
  refine ⟨?_, rfl, ok.first, ok.others⟩
  rw [tombSet_recs some_]
  have more := countP_modify (fun r : Rec => { r with death := era }) (fun r => !r.live)
    (recs_getElem? below) (by simp [live]) (by simp [Rec.live, dies])
  rw [more, ← ok.dead]
  rfl

/-- The clauses a compaction keeps, when it keeps none of the dead. -/
theorem compact_recs (p : Pred) {drop : Pred → Nat → Bool} (reads : p.ReadsRow drop)
    (keep : Rec → Bool) (alive : ∀ r, keep r = true → r.live = true)
    (test : ∀ i < p.nclauses, (!drop p i) = keep (p.recAt i)) :
    entries (p.compact drop).1.rowAt (p.compact drop).2 = p.recs.filter keep := by
  have same : (List.range p.nclauses).filter (fun i => !drop p i) =
      (List.range p.nclauses).filter fun i => keep (p.recAt i) :=
    List.filter_congr (fun i hi => test i (List.mem_range.mp hi))
  rw [(compact_spec p reads).rows, same, recs, ← map_filter_range]
  refine List.map_congr_left ?_
  intro i hi
  have kept := alive _ (List.mem_filter.mp hi).2
  have zero : p.deathAt i = 0 := by simpa [Rec.live, recAt] using kept
  simp [recAt, rowAt, zero]

theorem recs_of_tomb_none {p : Pred} (none_ : p.tomb = none) :
    p.recs = entries p.rowAt p.nclauses := by
  refine entries_congr ?_
  intro i _
  simp [recAt, rowAt, deathAt_none none_]

theorem countP_filter_live (l : List Rec) (keep : Rec → Bool)
    (alive : ∀ r, keep r = true → r.live = true) :
    (l.filter keep).countP (fun r => !r.live) = 0 := by
  rw [List.countP_eq_zero]
  intro r hr
  simp [alive r (List.mem_filter.mp hr).2]

theorem sweep_reads (p : Pred) : p.ReadsRow fun q i => q.deathAt i != 0 := by
  intro q i _ tomb _
  simp [deathAt, tomb]

theorem sweep_recs {p : Pred} (ok : p.Ok headKey) : p.sweep.recs = p.recs.filter Rec.live := by
  by_cases zero : p.ntomb = 0
  · rw [sweep, if_pos zero, eq_comm, List.filter_eq_self]
    exact live_of_ntomb_zero ok zero
  · have kept := compact_recs p (sweep_reads p) Rec.live (fun _ h => h) (fun i _ => by
      simp [Rec.live, recAt, bne])
    rw [← kept, sweep, if_neg zero, recs_of_tomb_none rfl]
    rfl

theorem sweep_tera (p : Pred) : p.sweep.tera ≤ p.tera := by
  unfold sweep
  split
  · exact Nat.le_refl _
  · exact Nat.zero_le _

theorem Ok.sweep {p : Pred} (ok : p.Ok headKey) : p.sweep.Ok headKey := by
  have swept := sweep_recs ok
  by_cases zero : p.ntomb = 0
  · rw [Pred.sweep, if_pos zero]
    exact ok
  · rw [Pred.sweep, if_neg zero] at swept ⊢
    refine unindex_ok ?_ rfl
    have none_dead := countP_filter_live p.recs Rec.live (fun _ h => h)
    rw [← swept] at none_dead
    exact none_dead.symm

/- New clauses. -/

theorem append_recs (p : Pred) (c : NewClause) :
    ((p.putRow p.nclauses c).withCount (p.nclauses + 1)).recs = p.recs ++ [c.asRec] := by
  have same : ∀ i < p.nclauses, (p.putRow p.nclauses c).recAt i = p.recAt i := by
    intro i hi
    rw [putRow_recAt, if_neg (by omega)]
  have last : (p.putRow p.nclauses c).recAt p.nclauses = c.asRec := by
    rw [putRow_recAt, if_pos rfl]
  rw [← last]
  exact entries_append same

theorem insert_recs (p : Pred) {k : Nat} (le : k ≤ p.nclauses) (c : NewClause) :
    (((p.shiftUp k p.nclauses).putRow k c).withCount (p.nclauses + 1)).recs =
      p.recs.insertIdx k c.asRec := by
  have here : ((p.shiftUp k p.nclauses).putRow k c).recAt k = c.asRec := by
    rw [putRow_recAt, if_pos rfl]
  rw [← here]
  refine entries_insert le ?_ ?_
  · intro i hi
    rw [withCount_recAt, putRow_recAt, if_neg (by omega), shiftUp_recAt, if_neg (by omega)]
  · intro i h1 h2
    rw [withCount_recAt, putRow_recAt, if_neg (by omega), shiftUp_recAt, if_pos (by omega),
      Nat.add_sub_cancel]

theorem of_bare {p q : Pred} (same : q.bare = p.bare) :
    q.nclauses = p.nclauses ∧ q.ntomb = p.ntomb ∧ q.tera = p.tera ∧ q.framed = p.framed := by
  have h := same
  simp only [bare, Pred.mk.injEq] at h
  exact ⟨h.2.2.2.1, by tauto, by tauto, by tauto⟩

/-- A clause put in at any position, dead ones about or not. -/
theorem Ok.insert {p : Pred} (ok : p.Ok headKey) {k : Nat} (le : k ≤ p.nclauses) (c : NewClause) :
    (((p.shiftUp k p.nclauses).putRow k c).withCount
      (p.nclauses + 1)).setNprobe.bumpVer.unindex.Ok headKey := by
  refine unindex_ok ?_ rfl
  rw [bumpVer_recs, setNprobe_recs, insert_recs p le c,
    (List.perm_insertIdx c.asRec p.recs (by simpa using le)).countP_eq]
  have count : (p.shiftUp k p.nclauses).ntomb = p.ntomb := (of_bare (shiftUp_bare p k _)).2.1
  show (p.shiftUp k p.nclauses).ntomb = _
  rw [count, ok.dead]
  simp [NewClause.asRec, Rec.live]

theorem table_append {t : Table} {keys : Nat → Nat} {n : Nat} (key : Nat) (ok : t.Ok keys n)
    (half : (n + 1) * 2 < t.nslots) :
    (t.add key n).Ok (Function.update keys n key) (n + 1) := by
  have before : t.Ok (Function.update keys n key) n :=
    ok.congr (fun i hi => Function.update_of_ne (by omega) ..)
  have added := before.add_ok (by omega)
  rwa [Function.update_self] at added

theorem aixAppend_ok {q : Pred} {n clause j : Nat} {grew : Bool} (count : q.nclauses = n + 1)
    (last : q.clauses n = clause)
    (was : (q.aix j).indexed = true → (q.aix j).table.Ok (q.aix j).keys n ∧
      ∀ i < n, (q.aix j).keys i = headKey (q.clauses i) (j + 1))
    (on : (q.aixAppend headKey clause grew j).indexed = true) :
    (q.aixAppend headKey clause grew j).table.Ok (q.aixAppend headKey clause grew j).keys
        q.nclauses ∧
      ∀ i < q.nclauses, (q.aixAppend headKey clause grew j).keys i =
        headKey (q.clauses i) (j + 1) := by
  simp only [aixAppend, count, Nat.add_sub_cancel] at on ⊢
  split at on
  · rename_i off
    rw [off] at on
    cases on
  · rename_i built
    rw [if_neg built]
    split at on
    · rename_i fits
      rw [if_pos fits]
      obtain ⟨table, heads⟩ := was (by simpa using built)
      refine ⟨table_append _ table fits.1, ?_⟩
      intro i hi
      show Function.update (q.aix j).keys n (headKey clause (j + 1)) i = _
      by_cases at_end : i = n
      · rw [at_end, Function.update_self, last]
      · rw [Function.update_of_ne at_end]
        exact heads i (by omega)
    · cases on

/-- An `assertz` keeps the indexes it keeps in agreement with the longer list. -/
theorem Ok.append {p : Pred} (ok : p.Ok headKey) (c : NewClause) (grew : Bool) :
    (((p.putRow p.nclauses c).withCount (p.nclauses + 1)).setNprobe.bumpVer.indexAppend headKey
      c.clause c.key grew).Ok headKey := by
  obtain ⟨q, hq⟩ : ∃ q, q =
      ((p.putRow p.nclauses c).withCount (p.nclauses + 1)).setNprobe.bumpVer := ⟨_, rfl⟩
  have count : q.nclauses = p.nclauses + 1 := by rw [hq]; rfl
  have keys : q.keys = Function.update p.keys p.nclauses c.key := by rw [hq]; rfl
  have clauses : q.clauses = Function.update p.clauses p.nclauses c.clause := by rw [hq]; rfl
  have aix : q.aix = p.aix := by rw [hq]; rfl
  have slots : q.table = p.table := by rw [hq]; rfl
  have dead : q.ntomb = q.recs.countP fun r => !r.live := by
    have recs : q.recs = p.recs ++ [c.asRec] := by rw [hq]; exact append_recs p c
    have ntomb : q.ntomb = p.ntomb := by rw [hq]; rfl
    rw [recs, ntomb, ok.dead]
    simp [NewClause.asRec, Rec.live]
  have probe : q.nprobe =
      if q.ntomb = 0 ∧ q.nclauses ≤ 4294967295 then q.nclauses else 0 := by rw [hq]; rfl
  have others : ∀ j < aixCount, _ := fun j hj =>
    @aixAppend_ok headKey q p.nclauses c.clause j grew count
      (by rw [clauses, Function.update_self]) (fun built => by
        rw [aix] at built ⊢
        obtain ⟨table, heads⟩ := ok.others j hj built
        refine ⟨table, fun i hi => ?_⟩
        rw [clauses, Function.update_of_ne (by omega)]
        exact heads i hi)
  rw [← hq, indexAppend]
  split
  · rename_i on
    have table := ok.first (by rw [← on, hq]; rfl)
    split
    · rename_i fits
      refine ⟨dead, probe, ?_, ?_⟩
      · intro _
        rw [count, slots] at fits
        have appended := table_append c.key table fits
        show (q.table.add c.key (q.nclauses - 1)).Ok q.keys q.nclauses
        rw [slots, keys, count, Nat.add_sub_cancel]
        exact appended
      · intro j hj
        simp only [if_pos hj]
        exact others j hj
    · refine ⟨dead, probe, ?_, ?_⟩
      · intro on
        cases on
      · intro j hj
        simp only [if_pos hj]
        exact others j hj
  · rename_i off
    refine ⟨dead, probe, ?_, ?_⟩
    · intro on
      exact absurd on off
    · intro j hj
      simp only [if_pos hj]
      exact others j hj

/- Clauses taken out. -/

theorem cutBack_recs {p : Pred} {keep : Nat} (le : keep ≤ p.nclauses) :
    (p.cutBack keep).recs = p.recs.take keep := by
  rw [cutBack]
  split
  · rename_i all
    have same : keep = p.nclauses := Nat.le_antisymm le all
    rw [same, ← length_recs p, List.take_length]
  · exact entries_take le (fun _ _ => rfl)

/-- A read that failed leaves the clauses before it, when those after were live. -/
theorem Ok.cutBack {p : Pred} (ok : p.Ok headKey) {keep : Nat} (le : keep ≤ p.nclauses)
    (live : ∀ r ∈ p.recs.drop keep, r.live = true) : (p.cutBack keep).Ok headKey := by
  have recs := cutBack_recs le
  rw [Pred.cutBack] at recs ⊢
  split at recs
  · rename_i all
    rw [if_pos all]
    exact ok
  · rename_i some_
    rw [if_neg some_]
    refine unindex_ok ?_ rfl
    have none_dead : (p.recs.drop keep).countP (fun r => !r.live) = 0 := by
      rw [List.countP_eq_zero]
      intro r hr
      simp [live r hr]
    have whole := ok.dead
    rw [← List.take_append_drop keep p.recs, List.countP_append, none_dead, ← recs] at whole
    exact whole

/-- The clause at `i` taken out in place, where none is dead. -/
def takeOut (p : Pred) (i : Nat) : Pred :=
  let q := ({ p with codes := Function.update p.codes i none } : Pred).shiftDown i
  (q.withCount (q.nclauses - 1)).setNprobe.bumpVer.unindex

theorem takeOut_spec {p : Pred} (ok : p.Ok headKey) (none_dead : p.ntomb = 0) {i : Nat}
    (below : i < p.nclauses) :
    (p.takeOut i).recs = p.recs.eraseIdx i ∧ (p.takeOut i).Ok headKey := by
  obtain ⟨p', hp'⟩ : ∃ p' : Pred, p' = { p with codes := Function.update p.codes i none } :=
    ⟨_, rfl⟩
  obtain ⟨bare, tomb, rows⟩ := shiftDown_spec p' i
  obtain ⟨count, ntomb, -, -⟩ := of_bare bare
  have count' : p'.nclauses = p.nclauses := by rw [hp']
  have row' : ∀ j, j ≠ i → p'.rowAt j = p.rowAt j := by
    intro j hj
    rw [hp']
    simp [rowAt, hj]
  have alive : ∀ j < p.nclauses, p.deathAt j = 0 := by
    intro j hj
    simpa [Rec.live, recAt] using live_of_ntomb_zero ok none_dead _ (mem_recs hj)
  have death : ∀ j < p.nclauses, (p'.shiftDown i).deathAt j = 0 := by
    intro j hj
    have same : (p'.shiftDown i).deathAt j = p.deathAt j := by
      rw [deathAt, tomb, hp']
      rfl
    rw [same, alive j hj]
  have recAt_eq : ∀ j < p.nclauses, p.recAt j = p.rowAt j := by
    intro j hj
    simp [recAt, rowAt, alive j hj]
  have new_eq : ∀ j < p.nclauses, (p'.shiftDown i).recAt j = (p'.shiftDown i).rowAt j := by
    intro j hj
    simp [recAt, rowAt, death j hj]
  have recs : (p.takeOut i).recs = p.recs.eraseIdx i := by
    have same : (p.takeOut i).recs = entries (p'.shiftDown i).recAt (p.nclauses - 1) := by
      rw [takeOut, ← hp', unindex_recs, bumpVer_recs, setNprobe_recs, recs, withCount_recAt,
        withCount_nclauses, count, count']
    rw [same]
    refine entries_erase below ?_ ?_
    · intro j hj
      rw [new_eq j (by omega), recAt_eq j (by omega), rows, if_neg (by omega), row' j (by omega)]
    · intro j h1 h2
      rw [new_eq j (by omega), recAt_eq _ h2, rows, if_pos (by omega), row' _ (by omega)]
  refine ⟨recs, ?_⟩
  have zero : (p.recs.eraseIdx i).countP (fun r => !r.live) = 0 := by
    rw [List.countP_eq_zero]
    intro r hr
    simp [live_of_ntomb_zero ok none_dead r (List.mem_of_mem_eraseIdx hr)]
  rw [← recs] at zero
  have ntomb' : p'.ntomb = 0 := by rw [hp']; exact none_dead
  rw [takeOut, ← hp'] at zero ⊢
  refine unindex_ok ?_ rfl
  exact (ntomb.trans ntomb').trans zero.symm

/-- The dead and the clauses a test takes, all out at once. -/
def forgetOut (p : Pred) (origin : Nat) (mute : Int) : Pred :=
  let (q, kept) := p.compact fun q i => q.dead i || q.forgetMatch i origin mute
  let q := (q.withCount kept).bumpVer
  let q := if q.tomb.isSome then { q with tomb := none, ntomb := 0, tprobe := 0, tera := 0 } else q
  q.setNprobe.unindex

end Pred

/-- `coco_forget_match` of a record. -/
def Rec.forgets (origin : Nat) (mute : Int) (r : Rec) : Bool :=
  if mute = 2 then r.muted != 0
  else if mute = 3 then r.muted == 0
  else if mute = 4 then true
  else r.origin == origin && r.muted == mute

namespace Pred

theorem forget_reads (p : Pred) (origin : Nat) (mute : Int) :
    p.ReadsRow fun q i => q.dead i || q.forgetMatch i origin mute := by
  intro q i bare tomb row
  have ntomb := (of_bare bare).2.1
  have muted : q.muted i = p.muted i := congrArg Rec.muted row
  have origins : q.origins i = p.origins i := congrArg Rec.origin row
  simp only [dead, deathAt, forgetMatch, tomb, ntomb, muted, origins]

theorem forgetOut_spec {p : Pred} (ok : p.Ok headKey) (origin : Nat) (mute : Int) :
    (p.forgetOut origin mute).recs = p.recs.filter (fun r => r.live && !r.forgets origin mute) ∧
      (p.forgetOut origin mute).Ok headKey := by
  have kept := compact_recs p (forget_reads p origin mute)
    (fun r => r.live && !r.forgets origin mute)
    (fun r h => (Bool.and_eq_true_iff.mp h).1)
    (fun i hi => by
      rw [dead_eq ok hi, Bool.not_or, Bool.not_not]
      rfl)
  have spec := compact_spec p (forget_reads p origin mute)
  obtain ⟨s, hs⟩ : ∃ s, s = p.compact fun q i => q.dead i || q.forgetMatch i origin mute :=
    ⟨_, rfl⟩
  rw [← hs] at kept spec
  have out : p.forgetOut origin mute =
      (if s.1.tomb.isSome then
        { (s.1.withCount s.2).bumpVer with tomb := none, ntomb := 0, tprobe := 0, tera := 0 }
        else (s.1.withCount s.2).bumpVer).setNprobe.unindex := by
    rw [forgetOut, ← hs]
    rfl
  have fields : (p.forgetOut origin mute).tomb = none ∧ (p.forgetOut origin mute).ntomb = 0 ∧
      (p.forgetOut origin mute).nclauses = s.2 ∧ (p.forgetOut origin mute).rowAt = s.1.rowAt := by
    rw [out]
    by_cases some_ : s.1.tomb.isSome = true
    · rw [if_pos some_]
      exact ⟨rfl, rfl, rfl, rfl⟩
    · rw [if_neg some_]
      have none_ : s.1.tomb = none := by simpa using some_
      refine ⟨none_, ?_, rfl, rfl⟩
      have zero : p.recs.countP (fun r => !r.live) = 0 := by
        rw [List.countP_eq_zero]
        intro r hr
        obtain ⟨i, -, rfl⟩ := List.mem_map.mp hr
        simp [Rec.live, recAt, deathAt_none (spec.tomb.symm.trans none_)]
      exact (of_bare spec.bare).2.1.trans (ok.dead.trans zero)
  obtain ⟨tomb, ntomb, count, rows⟩ := fields
  have recs : (p.forgetOut origin mute).recs =
      p.recs.filter (fun r => r.live && !r.forgets origin mute) := by
    rw [recs_of_tomb_none tomb, rows, count, kept]
  refine ⟨recs, ?_⟩
  have none_dead := countP_filter_live p.recs (fun r => r.live && !r.forgets origin mute)
    (fun r h => (Bool.and_eq_true_iff.mp h).1)
  rw [← recs, ← ntomb] at none_dead
  rw [out] at none_dead ⊢
  exact unindex_ok none_dead.symm rfl

/- Deaths of many at once. -/

/-- The record after a death that may or may not be its own. -/
def killed (p : Pred) (takes : Pred → Nat → Bool) (era i : Nat) : Rec :=
  if takes p i = true ∧ (p.recAt i).live = true then { p.recAt i with death := era } else p.recAt i

/-- What the killing loop has done after the first `m` positions. -/
structure Killed (headKey : Nat → Nat → Nat) (p : Pred) (takes : Pred → Nat → Bool) (era m : Nat)
    (q : Pred) : Prop where
  ok : q.Ok headKey
  count : q.nclauses = p.nclauses
  ready : ∃ tomb, q.tomb = some tomb
  rows : q.rowAt = p.rowAt
  recs : ∀ i, q.recAt i = if i < m then p.killed takes era i else p.recAt i

theorem Killed.step {p q : Pred} {takes : Pred → Nat → Bool} {era m : Nat}
    (h : Killed headKey p takes era m q)
    (reads : ∀ q i, q.rowAt i = p.rowAt i → takes q i = takes p i) (dies : era ≠ 0)
    (below : m < p.nclauses) :
    Killed headKey p takes era (m + 1)
      (if takes q m = true ∧ q.deathAt m = 0 then q.tombSet m era else q) := by
  have test : takes q m = takes p m := reads q m (congrFun h.rows m)
  have here : q.recAt m = p.recAt m := by rw [h.recs m, if_neg (by omega)]
  have death : q.deathAt m = (p.recAt m).death := congrArg Rec.death here
  have elsewhere : ∀ i, i ≠ m → q.recAt i =
      if i < m + 1 then p.killed takes era i else p.recAt i := by
    intro i other
    rw [h.recs i]
    by_cases before : i < m
    · rw [if_pos before, if_pos (by omega)]
    · rw [if_neg before, if_neg (by omega)]
  obtain ⟨tomb, htomb⟩ := h.ready
  by_cases dying : takes q m = true ∧ q.deathAt m = 0
  · rw [if_pos dying]
    have live : (q.recAt m).live = true := by simp [Rec.live, recAt, dying.2]
    refine ⟨h.ok.tombSet htomb (h.count ▸ below) live dies, h.count,
      ⟨Function.update tomb m era, ?_⟩, h.rows, ?_⟩
    · simp [tombSet, htomb, setNprobe, bumpVer]
    · intro i
      rw [tombSet_recAt htomb]
      by_cases at_m : i = m
      · subst at_m
        rw [if_pos rfl, if_pos (by omega), killed, if_pos ⟨test ▸ dying.1, here ▸ live⟩, here]
      · rw [if_neg at_m]
        exact elsewhere i at_m
  · rw [if_neg dying]
    refine ⟨h.ok, h.count, h.ready, h.rows, ?_⟩
    intro i
    by_cases at_m : i = m
    · subst at_m
      rw [if_pos (by omega), here, killed, if_neg]
      rintro ⟨taken, live⟩
      refine dying ⟨by rw [test]; exact taken, ?_⟩
      rw [death]
      simpa [Rec.live] using live
    · exact elsewhere i at_m

theorem killAll_spec {p : Pred} (ok : p.Ok headKey) {tomb : Nat → Nat} (some_ : p.tomb = some tomb)
    (takes : Pred → Nat → Bool)
    (reads : ∀ q i, q.rowAt i = p.rowAt i → takes q i = takes p i) {era : Nat} (dies : era ≠ 0) :
    Killed headKey p takes era p.nclauses (World.killAll p takes era) := by
  have loop : ∀ m ≤ p.nclauses, Killed headKey p takes era m ((List.range m).foldl
      (fun p i => if takes p i = true ∧ p.deathAt i = 0 then p.tombSet i era else p) p) := by
    intro m
    induction m with
    | zero =>
      intro _
      exact ⟨ok, rfl, ⟨tomb, some_⟩, rfl, fun i => by rw [if_neg (Nat.not_lt_zero i)]; rfl⟩
    | succ m ih =>
      intro le
      rw [List.range_succ, List.foldl_append]
      exact (ih (by omega)).step reads dies (by omega)
  exact loop p.nclauses (Nat.le_refl _)

theorem Killed.recs_eq {p q : Pred} {takes : Pred → Nat → Bool} {era : Nat}
    (h : Killed headKey p takes era p.nclauses q) :
    q.recs = entries (p.killed takes era) p.nclauses := by
  rw [Pred.recs, h.count]
  refine entries_congr ?_
  intro i hi
  rw [h.recs i, if_pos hi]

/- Indexes built. -/

theorem reindex_fold (p : Pred) (n : Nat) :
    ∃ kmax, (List.range n).foldl (fun p i => p.chainAdd (p.keys i) i) p =
      { p with table := p.table.addAll p.keys n, kmax } := by
  induction n with
  | zero => exact ⟨p.kmax, rfl⟩
  | succ n ih =>
    obtain ⟨kmax, eq⟩ := ih
    rw [List.range_succ, List.foldl_append, eq, Table.addAll_succ]
    exact ⟨_, rfl⟩

theorem reindex_eq (p : Pred) (grew : Bool) :
    (p.reindex grew = (false, p)) ∨
      ∃ kmax, p.reindex grew = (true, { p with
        table := (p.table.clear (Table.wanted (p.nclauses * 2))).addAll p.keys p.nclauses
        kmax, indexed := true }) := by
  cases grew with
  | false => exact .inl rfl
  | true =>
    obtain ⟨kmax, eq⟩ := reindex_fold
      { p with table := p.table.clear (Table.wanted (p.nclauses * 2)), kmax := 0 } p.nclauses
    refine .inr ⟨kmax, ?_⟩
    simp only [reindex, Bool.true_eq_false, if_false]
    rw [eq]

theorem reindex_recs (p : Pred) (grew : Bool) : (p.reindex grew).2.recs = p.recs := by
  rcases reindex_eq p grew with eq | ⟨kmax, eq⟩
  · rw [eq]
  · rw [eq]
    rfl

theorem Ok.reindex {p : Pred} (ok : p.Ok headKey) (grew : Bool) :
    (p.reindex grew).2.Ok headKey := by
  rcases reindex_eq p grew with eq | ⟨kmax, eq⟩
  · rw [eq]
    exact ok
  · rw [eq]
    exact ⟨ok.dead, ok.probe, fun _ => Table.rebuild_ok _ _ (Nat.le_refl _), ok.others⟩

theorem aixGet_recs (p : Pred) (pos : Nat) (grew : Bool) :
    (p.aixGet headKey pos grew).2.recs = p.recs := by
  simp only [aixGet]
  split
  · rfl
  · split <;> rfl

theorem Ok.aixGet {p : Pred} (ok : p.Ok headKey) {pos : Nat} (positive : 0 < pos) (grew : Bool) :
    (p.aixGet headKey pos grew).2.Ok headKey := by
  simp only [Pred.aixGet]
  split
  · exact ok
  · split
    · exact ok
    · refine ⟨ok.dead, ok.probe, ok.first, ?_⟩
      intro j hj built
      by_cases here : j = pos - 1
      · subst here
        simp only [Function.update_self]
        refine ⟨Table.rebuild_ok _ _ (by omega), ?_⟩
        intro i hi
        rw [if_pos hi, Nat.sub_add_cancel positive]
      · simp only [Function.update_of_ne here] at built ⊢
        exact ok.others j hj built

end Pred

end Cocolog.Store
