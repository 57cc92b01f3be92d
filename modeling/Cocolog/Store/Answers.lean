import Cocolog.Store.Select
import Cocolog.Store.Keys

/-! Indexing and the terms behind it: a predicate whose clauses were copied into the store
from the heap, its keys with them, and a call that asks for candidates at one argument. A
clause passed over has a head that cannot be made one with the call. -/

set_option linter.all false

namespace Cocolog.Store

open Cocolog.Lib Cocolog.Term

/-- The store's cells and one predicate over them. -/
structure KB where
  cells : Mem := fun i => .ref i
  len : Nat := 0
  world : World := {}

/-- The edits that bring no clause. -/
def Edit.bringsNone : Edit → Bool
  | .add .. | .insertAt .. | .failedRead _ => false
  | _ => true

/-- What happens to the predicate: a clause asserted from the heap at either end or put in
at a position, any edit that brings none, and the probes of calls in between. -/
inductive KBOp where
  | assert (heap : Heap) (clause fuel : Nat) (atEnd : Bool) (origin : Nat) (muted : Int)
      (room grew : Bool)
  | insert (heap : Heap) (clause fuel k origin : Nat) (muted : Int) (room : Bool)
  | edit (e : Edit)
  | probe (pos key : Nat) (grew : Bool)

namespace KB

variable (tb : Tables) (neck : Nat)

/-- The key the store reads for a clause's head at an argument. -/
def headKey (kb : KB) (clause j : Nat) : Nat :=
  storeArgKey tb neck kb.cells kb.len clause j

/-- The clause copied into the store, with the key of the heap's own head
(`coco_assert_from`); `none` for a clause refused. -/
def store (kb : KB) (heap : Heap) (clause fuel origin : Nat) (muted : Int) :
    Option (NewClause × KB) :=
  (put tb heap fuel clause ⟨kb.cells, kb.len, []⟩).map fun r =>
    ({ clause := r.1, key := heap.argKey tb (heap.clauseHead tb neck clause), origin, muted },
      { kb with cells := r.2.cells, len := r.2.len })

/-- One operation. -/
def step (kb : KB) : KBOp → KB
  | .assert heap clause fuel atEnd origin muted room grew =>
    match kb.store tb neck heap clause fuel origin muted with
    | none => kb
    | some (c, kb) =>
      { kb with world := (kb.world.addClause (kb.headKey tb neck) atEnd c room grew).2 }
  | .insert heap clause fuel k origin muted room =>
    match kb.store tb neck heap clause fuel origin muted with
    | none => kb
    | some (c, kb) =>
      if k ≤ kb.world.pred.nclauses then { kb with world := (kb.world.insertAt k c room).2 } else kb
  | .edit e =>
    if e.bringsNone = true then { kb with world := kb.world.edit (kb.headKey tb neck) e } else kb
  | .probe pos key grew =>
    if pos ≤ aixCount then
      { kb with world := (kb.world.probeAt (kb.headKey tb neck) pos key grew).2 }
    else kb

/-- The store from empty, after the operations. -/
def after (ops : List KBOp) : KB := run (step tb neck) {} ops

/-- The record's clause is in the store for good: whatever is written after it, its head's
keys are read as they were, the first the one kept with it. -/
def Stored (kb : KB) (r : Rec) : Prop :=
  0 < kb.len ∧ ∃ keys : Nat → Nat, r.key = keys 0 ∧
    ∀ m turns, 1 ≤ turns → (∀ i < kb.len, m i = kb.cells i) →
      ∀ j, storeArgKey tb neck m turns r.clause j = keys j

/-- The predicate is sound and all of its clauses are stored. -/
structure Sound (kb : KB) : Prop where
  ok : kb.world.pred.Ok (kb.headKey tb neck)
  stored : ∀ r ∈ kb.world.pred.recs, kb.Stored tb neck r

end KB

variable {tb : Tables} {neck : Nat}

/-- The invariant reads the heads of the predicate's own clauses alone. -/
theorem Pred.Ok.congr {headKey headKey' : Nat → Nat → Nat} {p : Pred} (ok : p.Ok headKey)
    (same : ∀ i < p.nclauses, ∀ j, headKey' (p.clauses i) j = headKey (p.clauses i) j) :
    p.Ok headKey' := by
  refine ⟨ok.dead, ok.probe, ok.first, ?_⟩
  intro j hj built
  obtain ⟨table, heads⟩ := ok.others j hj built
  refine ⟨table, ?_⟩
  intro i hi
  rw [heads i hi, same i hi]

/-- No edit makes a record up: each is one that was there, or the clause it brings. -/
theorem recStep_clause {e : Edit} {l l' : List Rec} (step : RecStep e l l')
    (none_ : e.bringsNone = true) :
    ∀ r' ∈ l', ∃ r ∈ l, r'.clause = r.clause ∧ r'.key = r.key := by
  have modified : ∀ (i : Nat) (f : Rec → Rec),
      (∀ r, (f r).clause = r.clause ∧ (f r).key = r.key) → ∀ r' ∈ l.modify i f,
        ∃ r ∈ l, r'.clause = r.clause ∧ r'.key = r.key := by
    intro i f same r' hr'
    obtain ⟨j, hj⟩ := List.mem_iff_getElem?.mp hr'
    rw [List.getElem?_modify] at hj
    obtain ⟨r, hr, eq⟩ := Option.map_eq_some_iff.mp hj
    refine ⟨r, List.mem_of_getElem? hr, ?_⟩
    split at eq
    · rw [← eq]
      exact same r
    · rw [← eq]
      exact ⟨rfl, rfl⟩
  have kept : ∀ {keep : Rec → Bool} {l₀ : List Rec}, (∀ r ∈ l₀, r ∈ l) → ∀ r' ∈ l₀.filter keep,
      ∃ r ∈ l, r'.clause = r.clause ∧ r'.key = r.key :=
    fun sub r' hr' => ⟨r', sub r' (List.mem_filter.mp hr').1, rfl, rfl⟩
  have same : ∀ r' ∈ l, ∃ r ∈ l, r'.clause = r.clause ∧ r'.key = r.key :=
    fun r' hr' => ⟨r', hr', rfl, rfl⟩
  cases e with
  | add | insertAt | failedRead => cases none_
  | retractAt i made listed =>
    rcases step with ⟨era, -, rfl⟩ | rfl | ⟨rfl, -⟩
    · refine modified i _ ?_
      intro r
      split <;> exact ⟨rfl, rfl⟩
    · exact kept (fun r hr => List.mem_of_mem_eraseIdx hr)
    · exact same
  | trySweep =>
    rcases step with rfl | rfl
    · exact same
    · exact kept (fun r hr => hr)
  | sweep =>
    obtain rfl := step
    exact kept (fun r hr => hr)
  | forget origin mute made listed =>
    rcases step with ⟨era, -, rfl⟩ | rfl
    · intro r' hr'
      obtain ⟨r, hr, rfl⟩ := List.mem_map.mp hr'
      refine ⟨r, hr, ?_⟩
      split <;> exact ⟨rfl, rfl⟩
    · exact kept (fun r hr => hr)
  | killFrom k made listed =>
    rcases step with rfl | ⟨era, -, rfl⟩
    · exact same
    · intro r' hr'
      obtain ⟨i, hi, rfl⟩ := List.mem_mapIdx.mp hr'
      refine ⟨l[i], List.getElem_mem hi, ?_⟩
      split <;> exact ⟨rfl, rfl⟩
  | compile i code =>
    obtain rfl := step
    exact modified i _ (fun r => ⟨rfl, rfl⟩)
  | adopt k origin =>
    obtain rfl := step
    exact modified k _ (fun r => ⟨rfl, rfl⟩)
  | reindex | aixGet | engines =>
    obtain rfl := step
    exact same

namespace KB

/-- A clause put into the store: what was there is there, and the new record is stored. -/
theorem store_spec {kb kb' : KB} {heap : Heap} {clause fuel origin : Nat} {muted : Int}
    {c : NewClause} (done : kb.store tb neck heap clause fuel origin muted = some (c, kb')) :
    kb'.world = kb.world ∧ kb.len ≤ kb'.len ∧ (∀ i < kb.len, kb'.cells i = kb.cells i) ∧
      kb'.Stored tb neck c.asRec := by
  obtain ⟨⟨r, s⟩, put, eq⟩ := Option.map_eq_some_iff.mp done
  obtain ⟨rfl, rfl⟩ := Prod.mk.inj eq
  have spec := put_spec (fun x v hv => by simp at hv) put
  have root : kb.len ≤ r ∧ r < s.len := by
    rcases spec.root with here | ⟨x, old⟩
    · exact here
    · simp at old
  refine ⟨rfl, spec.grows, spec.keeps, by simp only; omega, heap.headKey tb neck clause, ?_, ?_⟩
  · exact argKey_eq_headKey tb neck heap clause
  · intro m turns enough agree j
    refine (spec.copy m ⟨fun i _ hi => agree i hi, ?_⟩).storeArgKey_eq enough neck j
    intro x v hv
    obtain ⟨bound, self⟩ := spec.selves x v hv
    rw [agree v bound]
    exact self

/-- What is stored stays stored as the store grows. -/
theorem Stored.grow {kb kb' : KB} {r : Rec} (stored : kb.Stored tb neck r)
    (grows : kb.len ≤ kb'.len) (keeps : ∀ i < kb.len, kb'.cells i = kb.cells i) :
    kb'.Stored tb neck r := by
  obtain ⟨some_, keys, first, read⟩ := stored
  refine ⟨by omega, keys, first, ?_⟩
  intro m turns enough agree
  refine read m turns enough ?_
  intro i hi
  rw [agree i (by omega), keeps i hi]

theorem Stored.congr {kb : KB} {r r' : Rec} (stored : kb.Stored tb neck r)
    (clause : r'.clause = r.clause) (key : r'.key = r.key) : kb.Stored tb neck r' := by
  obtain ⟨some_, keys, first, read⟩ := stored
  exact ⟨some_, keys, by rw [key, first], by rw [clause]; exact read⟩

/-- The keys a stored record has are read the same in two stores that agree. -/
theorem Stored.headKey_eq {kb kb' : KB} {r : Rec} (stored : kb.Stored tb neck r)
    (grows : kb.len ≤ kb'.len) (keeps : ∀ i < kb.len, kb'.cells i = kb.cells i) (j : Nat) :
    kb'.headKey tb neck r.clause j = kb.headKey tb neck r.clause j := by
  obtain ⟨some_, keys, -, read⟩ := stored
  rw [headKey, headKey, read kb'.cells kb'.len (by omega) keeps,
    read kb.cells kb.len (by omega) (fun _ _ => rfl)]

theorem Stored.key_eq {kb : KB} {r : Rec} (stored : kb.Stored tb neck r) :
    r.key = kb.headKey tb neck r.clause 0 := by
  obtain ⟨some_, keys, first, read⟩ := stored
  rw [first, headKey, read kb.cells kb.len (by omega) (fun _ _ => rfl)]

theorem empty_sound : Sound tb neck {} :=
  ⟨Pred.empty_ok, fun r hr => by simp [Pred.recs, entries] at hr⟩

/-- A clause stored first leaves the predicate as sound as it was. -/
theorem Sound.stored_first {kb kb' : KB} {heap : Heap} {clause fuel origin : Nat} {muted : Int}
    {c : NewClause} (sound : kb.Sound tb neck)
    (done : kb.store tb neck heap clause fuel origin muted = some (c, kb')) :
    kb'.Sound tb neck ∧ kb'.Stored tb neck c.asRec := by
  obtain ⟨same, grows, keeps, stored⟩ := store_spec done
  refine ⟨⟨?_, ?_⟩, stored⟩
  · rw [same]
    refine sound.ok.congr ?_
    intro i hi j
    exact (sound.stored _ (Pred.mem_recs hi)).headKey_eq grows keeps j
  · rw [same]
    intro r hr
    exact (sound.stored r hr).grow grows keeps

/-- Soundness after a change of the predicate alone. -/
theorem Sound.of_recs {kb : KB} {w : World} (ok : w.pred.Ok (kb.headKey tb neck))
    (stored : ∀ r ∈ w.pred.recs, kb.Stored tb neck r) : Sound tb neck { kb with world := w } :=
  ⟨ok, stored⟩

theorem mem_of_swept {l l' : List Rec} (swept : Swept l l') {r : Rec} (hr : r ∈ l') : r ∈ l := by
  rcases swept with rfl | rfl
  · exact hr
  · exact (List.mem_filter.mp hr).1

theorem step_sound {kb : KB} (sound : kb.Sound tb neck) (op : KBOp) :
    (kb.step tb neck op).Sound tb neck := by
  cases op with
  | assert heap clause fuel atEnd origin muted room grew =>
    rw [step]
    split
    · exact sound
    · rename_i c kb' done
      obtain ⟨sound', stored⟩ := sound.stored_first done
      obtain ⟨ok, l0, swept, recs⟩ := World.addClause_spec sound'.ok atEnd c room grew
      refine Sound.of_recs ok ?_
      intro r hr
      rw [recs] at hr
      have cases_ : r ∈ l0 ∨ r = c.asRec := by
        split at hr
        · exact .inl hr
        · split at hr
          · simpa using hr
          · exact (List.mem_cons.mp hr).symm
      rcases cases_ with old | rfl
      · exact sound'.stored r (mem_of_swept swept old)
      · exact stored
  | insert heap clause fuel k origin muted room =>
    rw [step]
    split
    · exact sound
    · rename_i c kb' done
      obtain ⟨sound', stored⟩ := sound.stored_first done
      split
      · rename_i le
        obtain ⟨ok, recs⟩ := World.insertAt_spec sound'.ok le c room
        refine Sound.of_recs ok ?_
        intro r hr
        rw [recs] at hr
        split at hr
        · rename_i inside
          rcases (List.mem_insertIdx inside.2).mp hr with rfl | old
          · exact stored
          · exact sound'.stored r old
        · exact sound'.stored r hr
      · exact sound'
  | edit e =>
    rw [step]
    split
    · rename_i none_
      obtain ⟨ok, recs⟩ := World.edit_spec sound.ok e
      refine Sound.of_recs ok ?_
      intro r' hr'
      obtain ⟨r, hr, clause, key⟩ := recStep_clause recs none_ r' hr'
      exact (sound.stored r hr).congr clause key
    · exact sound
  | probe pos key grew =>
    rw [step]
    split
    · rename_i inside
      have probed := World.probeAt_spec sound.ok inside key grew
      refine Sound.of_recs probed.ok ?_
      intro r hr
      exact sound.stored r (mem_of_swept probed.swept hr)
    · exact sound

theorem after_sound (ops : List KBOp) : (after tb neck ops).Sound tb neck :=
  run_invariant (fun kb op sound => @step_sound tb neck kb sound op) {} ops empty_sound

/-- The key kept with a clause is the one read from its head. -/
theorem Sound.keys_eq {kb : KB} (sound : kb.Sound tb neck) {i : Nat}
    (hi : i < kb.world.pred.nclauses) :
    kb.world.pred.keys i = kb.headKey tb neck (kb.world.pred.clauses i) 0 :=
  (sound.stored _ (Pred.mem_recs hi)).key_eq

/-- Where a clause's head stands in the store. -/
def head (tb : Tables) (neck : Nat) (kb : KB) (clause : Nat) : Nat :=
  deref kb.cells kb.len (storeHead tb neck kb.cells kb.len clause)

end KB

/-- An argument a call may be keyed on: the first one, of any call, or one past it that the
call has and a table may be kept for (`coco_pred_select`, `coco_pred_jit`). -/
def Heap.Chosen (tb : Tables) (heap : Heap) (call pos : Nat) : Prop :=
  pos = 0 ∨ pos ≤ aixCount ∧ ∃ f, heap.cells (heap.deref call) = .func f ∧ pos < tb.arity f

theorem Heap.Chosen.inside {heap : Heap} {call pos : Nat} (chosen : heap.Chosen tb call pos) :
    pos ≤ aixCount := by
  rcases chosen with rfl | ⟨inside, -⟩
  · exact Nat.zero_le _
  · exact inside

/-- A call with a key is a compound with that argument, and the key is the argument's. -/
theorem Heap.Chosen.keyed {heap : Heap} {call pos : Nat} (chosen : heap.Chosen tb call pos)
    (some_ : heap.callArgKey tb call pos ≠ 0) :
    (∃ f, heap.cells (heap.deref call) = .func f ∧ pos < tb.arity f) ∧
      heap.callArgKey tb call pos = cellKey (heap.cells (heap.deref (heap.deref call + (pos + 1)))) := by
  rcases chosen with rfl | ⟨-, f, held, below⟩
  · rw [Heap.callArgKey, if_pos rfl, Heap.argKey] at some_ ⊢
    cases cell : heap.cells (heap.deref call) with
    | func f =>
      rw [cell] at some_
      by_cases none_ : tb.arity f = 0
      · simp [none_] at some_
      · exact ⟨⟨f, rfl, by omega⟩, by simp only [if_neg none_]; rfl⟩
    | _ =>
      rw [cell] at some_
      exact absurd rfl some_
  · refine ⟨⟨f, held, below⟩, ?_⟩
    rw [Heap.callArgKey] at some_ ⊢
    split
    · rename_i zero
      subst zero
      simp only [Heap.argKey, held, if_neg (Nat.pos_iff_ne_zero.mp below)]
      rfl
    · rfl

namespace KB

/-- A head with a key at an argument is a compound with that argument. -/
theorem headKey_some {kb : KB} {clause j : Nat} (some_ : kb.headKey tb neck clause j ≠ 0) :
    (∃ f, kb.cells (kb.head tb neck clause) = .func f ∧ j < tb.arity f) ∧
      kb.headKey tb neck clause j =
        cellKey (kb.cells (deref kb.cells kb.len (kb.head tb neck clause + (j + 1)))) := by
  have at_ : deref kb.cells kb.len (storeHead tb neck kb.cells kb.len clause) = kb.head tb neck clause := rfl
  simp only [KB.headKey, storeArgKey, at_] at some_ ⊢
  cases cell : kb.cells (kb.head tb neck clause) with
  | func f =>
    simp only [cell] at some_
    by_cases past : tb.arity f ≤ j
    · simp [past] at some_
    · exact ⟨⟨f, rfl, by omega⟩, by simp only [if_neg past]⟩
  | _ =>
    simp only [cell] at some_
    exact absurd rfl some_

/-- A clause whose key is refused cannot be the call at that argument, nor at all. -/
theorem not_unifiable_of_refused {kb : KB} {heap : Heap} {call pos clause : Nat}
    (chosen : heap.Chosen tb call pos)
    (refused : admits (heap.callArgKey tb call pos) (kb.headKey tb neck clause pos) = false) :
    ¬ Unifiable tb heap.cells (heap.deref call + (pos + 1)) kb.cells
        (kb.head tb neck clause + (pos + 1)) ∧
      ¬ Unifiable tb heap.cells call kb.cells (kb.head tb neck clause) := by
  have apart : heap.callArgKey tb call pos ≠ 0 ∧ kb.headKey tb neck clause pos ≠ 0 ∧
      kb.headKey tb neck clause pos ≠ heap.callArgKey tb call pos := by
    simpa [admits, and_assoc] using refused
  obtain ⟨some_, some', different⟩ := apart
  obtain ⟨⟨f, held, -⟩, key⟩ := chosen.keyed some_
  obtain ⟨⟨f', held', below'⟩, key'⟩ := headKey_some some'
  have args : ¬ Unifiable tb heap.cells (heap.deref call + (pos + 1)) kb.cells
      (kb.head tb neck clause + (pos + 1)) := by
    rw [unifiable_deref heap.len kb.len]
    rw [key] at some_ different
    rw [key'] at some' different
    exact not_unifiable_of_keys some_ some' (Ne.symm different)
  refine ⟨args, ?_⟩
  rw [unifiable_deref heap.len 0]
  intro one
  -- the same functor, or no term is both
  by_cases same : f = f'
  · subst same
    exact args (one.arg held held' below')
  · have root : shape tb (heap.cells (heap.deref call)) = some (.func f, tb.arity f) := by
      rw [held]
      rfl
    have root' : shape tb (kb.cells (kb.head tb neck clause)) = some (.func f', tb.arity f') := by
      rw [held']
      rfl
    exact not_unifiable_of_roots root root' (by simpa using same) one

open Classical in
/-- Whether the call and the head of the clause at `i` can be made one. -/
noncomputable def unifies (tb : Tables) (neck : Nat) (kb : KB) (heap : Heap) (call i : Nat) : Bool :=
  decide (Unifiable tb heap.cells call kb.cells (kb.head tb neck (kb.world.pred.clauses i)))

/-- What selection promises a call keyed on argument `pos`: each ask gives the least
position let through, a clause passed over cannot be the call at that argument, the clauses
tried have the solutions of all the live ones in their order, and a probe's answer counts
the live clauses let through. -/
structure Selects (tb : Tables) (neck : Nat) (kb : KB) (heap : Heap) (call pos : Nat) : Prop where
  keys : ∀ i < kb.world.pred.nclauses,
    kb.world.pred.keyAt (kb.headKey tb neck) pos i =
      kb.headKey tb neck (kb.world.pred.clauses i) pos
  nextClause : ∀ key from_ grew, (kb.world.pred.nextClause key from_ grew).1 =
    leastFrom (fun i => admits key (kb.world.pred.keys i)) from_ kb.world.pred.nclauses
  nextAt : ∀ key from_ grew, (kb.world.pred.nextAt (kb.headKey tb neck) pos key from_ grew).1 =
    leastFrom (kb.world.pred.lets (kb.headKey tb neck) pos key grew) from_ kb.world.pred.nclauses
  passes : ∀ i < kb.world.pred.nclauses, ∀ grew,
    kb.world.pred.lets (kb.headKey tb neck) pos (heap.callArgKey tb call pos) grew i = false →
      ¬ Unifiable tb heap.cells (heap.deref call + (pos + 1)) kb.cells
        (kb.head tb neck (kb.world.pred.clauses i) + (pos + 1)) ∧
      kb.unifies tb neck heap call i = false
  solutions : ∀ grew,
    (kb.world.pred.tries (kb.headKey tb neck) pos (heap.callArgKey tb call pos) grew
        kb.world.pred.nclauses 0).filter (kb.unifies tb neck heap call) =
      (positions (fun i => !kb.world.pred.dead i) 0 kb.world.pred.nclauses).filter
        (kb.unifies tb neck heap call)
  probe : ∀ grew,
    let r := kb.world.probeAt (kb.headKey tb neck) pos (heap.callArgKey tb call pos) grew
    Pred.Answers
      (r.2.pred.offers (kb.headKey tb neck) pos (heap.callArgKey tb call pos) grew)
      r.2.pred.nclauses r.1.1 r.1.2
  jit : ∀ grew ix w,
    kb.world.probeAt (kb.headKey tb neck) 0 (heap.callArgKey tb call 0) grew = ((3, ix), w) →
    let r := w.jit (kb.headKey tb neck) (heap.callArgKey tb call) pos ix grew
    Pred.Answers
      (r.2.pred.offers (kb.headKey tb neck) pos (heap.callArgKey tb call pos) grew)
      r.2.pred.nclauses r.1.1 r.1.2

theorem Sound.keyAt_eq {kb : KB} (sound : kb.Sound tb neck) (pos : Nat) {i : Nat}
    (hi : i < kb.world.pred.nclauses) :
    kb.world.pred.keyAt (kb.headKey tb neck) pos i =
      kb.headKey tb neck (kb.world.pred.clauses i) pos := by
  rw [Pred.keyAt]
  split
  · rename_i first
    rw [first]
    exact sound.keys_eq hi
  · rfl

/-- Whatever happened to the predicate, indexing its clauses changes no answer. -/
theorem indexing_keeps_answers (tb : Tables) (neck : Nat) (ops : List KBOp) (heap : Heap)
    (call pos : Nat) (chosen : heap.Chosen tb call pos) :
    (after tb neck ops).Selects tb neck heap call pos := by
  have sound := @after_sound tb neck ops
  generalize after tb neck ops = kb at sound
  have inside := chosen.inside
  have refused : ∀ i < kb.world.pred.nclauses,
      admits (heap.callArgKey tb call pos)
        (kb.world.pred.keyAt (kb.headKey tb neck) pos i) = false →
      ¬ Unifiable tb heap.cells (heap.deref call + (pos + 1)) kb.cells
          (kb.head tb neck (kb.world.pred.clauses i) + (pos + 1)) ∧
        kb.unifies tb neck heap call i = false := by
    intro i hi skips
    rw [sound.keyAt_eq pos hi] at skips
    obtain ⟨at_arg, whole⟩ := not_unifiable_of_refused chosen skips
    exact ⟨at_arg, by simpa [unifies] using whole⟩
  refine
    { keys := fun i hi => sound.keyAt_eq pos hi
      nextClause := fun key from_ grew => (Pred.nextClause_spec sound.ok key from_ grew).1
      nextAt := fun key from_ grew => (Pred.nextAt_spec sound.ok inside key from_ grew).1
      passes := ?_, solutions := ?_
      probe := fun grew => (World.probeAt_spec sound.ok inside _ grew).answers, jit := ?_ }
  · intro i hi grew skips
    rw [Pred.lets] at skips
    split at skips
    · exact refused i hi skips
    · cases skips
  · intro grew
    rw [filter_positions]
    exact Pred.tries_wanted sound.ok inside _ grew _ (fun i hi skips => (refused i hi skips).2)
      (Nat.le_add_left _ 0)
  · intro grew ix w answered
    have probed := World.probeAt_spec sound.ok (Nat.zero_le aixCount) (heap.callArgKey tb call 0) grew
    rw [answered] at probed
    exact World.jit_answers probed.ok (heap.callArgKey tb call) inside grew probed.answers

/-- A heap of the given cells. -/
def heapOf (cells : List Cell) : Heap := ⟨fun i => cells.getD i (.ref i), cells.length⟩

/-- `p/2` and `f/1`, by their functors. -/
def pf : Tables := { functors := fun f => if f = 0 then ⟨10, 2⟩ else ⟨11, 1⟩ }

/-- `p(a, f(n))`, or `p(_, f(n))`. -/
def fact (first : Cell) (n : Int) : Heap :=
  heapOf [.func 0, first, .ref 3, .func 1, .int n]

/-- The store with the clause `p(a, f(1))`. -/
def oneFact : List KBOp := [.assert (fact (.atom 5) 1) 0 9 true 0 0 true true]

theorem indexing_keeps_answers_fact :
    (fact (.ref 1) 2).Chosen pf 0 1 ∧ (after pf 99 oneFact).Selects pf 99 (fact (.ref 1) 2) 0 1 := by
  have chosen : (fact (.ref 1) 2).Chosen pf 0 1 := .inr ⟨by decide, 0, rfl, by decide⟩
  exact ⟨chosen, indexing_keeps_answers pf 99 oneFact (fact (.ref 1) 2) 0 1 chosen⟩

/-- Selection passes over fewer clauses than cannot unify at the argument: a key is one
cell, and `f(2)` and `f(1)` share it. -/
theorem not_unifiable_not_passed_over :
    ¬ ∀ (tb : Tables) (neck : Nat) (ops : List KBOp) (heap : Heap) (call pos : Nat),
      heap.Chosen tb call pos →
      let kb := after tb neck ops
      ∀ i < kb.world.pred.nclauses, ∀ grew,
        kb.world.pred.lets (kb.headKey tb neck) pos (heap.callArgKey tb call pos) grew i = false ↔
          ¬ Unifiable tb heap.cells (heap.deref call + (pos + 1)) kb.cells
            (kb.head tb neck (kb.world.pred.clauses i) + (pos + 1)) := by
  intro claimed
  have chosen : (fact (.ref 1) 2).Chosen pf 0 1 := .inr ⟨by decide, 0, rfl, by decide⟩
  have at_fact := (claimed pf 99 oneFact (fact (.ref 1) 2) 0 1 chosen 0 (by decide) true).mpr
  have let_through : (after pf 99 oneFact).world.pred.lets ((after pf 99 oneFact).headKey pf 99) 1
      ((fact (.ref 1) 2).callArgKey pf 0 1) true 0 = true := by decide
  rw [let_through] at at_fact
  refine absurd (at_fact ?_) (by decide)
  -- `f(2)` on the heap at 3 against `f(1)` in the store at 4
  intro one
  have compounds := (unifiable_deref 5 7 _ _).mp one
  have args := (unifiable_deref 5 7 _ _).mp
    (compounds.arg (f := 1) (k := 0) (by decide) (by decide) (by decide))
  have two : shape pf ((fact (.ref 1) 2).cells 4) = some (.int 2, 0) := by decide
  have one_ : shape pf ((after pf 99 oneFact).cells 6) = some (.int 1, 0) := by decide
  exact not_unifiable_of_roots two one_ (by decide) args

end KB

end Cocolog.Store
