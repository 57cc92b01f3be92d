import Cocolog.Store.View

/-! A machine frozen and thawed, as far as its open calls go. The image names a frame's
predicate and gives its next clause and its end by their ordinals among the live clauses,
in two sections; the thaw reads them back over a store that holds no dead clause. -/

set_option linter.all false

namespace Cocolog.Store

open Cocolog.Lib

/-- `coco_choice_kind`. -/
inductive ChoiceKind where
  | clause | goal | catch_ | dead | catchRetry | spent | clocked | db | walk
deriving Repr, DecidableEq

namespace ChoiceKind

/-- The kind as the image writes it. -/
def number : ChoiceKind → Nat
  | clause => 0 | goal => 1 | catch_ => 2 | dead => 3 | catchRetry => 4
  | spent => 5 | clocked => 6 | db => 7 | walk => 8

def ofNumber : Nat → Option ChoiceKind
  | 0 => some clause | 1 => some goal | 2 => some catch_ | 3 => some dead | 4 => some catchRetry
  | 5 => some spent | 6 => some clocked | 7 => some db | 8 => some walk | _ => none

/-- The kinds whose frame walks a predicate's clauses and is frozen with its name. -/
def opens (k : ChoiceKind) : Bool := k == clause || k == db

theorem ofNumber_number (k : ChoiceKind) : ofNumber k.number = some k := by
  cases k <;> rfl

end ChoiceKind

/-- `coco_choice`. -/
structure Choice where
  kind : ChoiceKind
  goals : Nat := 0
  trailMark : Nat := 0
  heapMark : Nat := 0
  call : Nat := 0
  clauseIx : Nat := 0
  barrier : Nat := 0
  pred : Nat := 0
  ixpos : Nat := 0
  cend : Nat := 0
  fera : Nat := 0
deriving Repr, DecidableEq

/-- A predicate under its name and arity. -/
structure NamedPred where
  name : Nat := 0
  arity : Nat := 0
  pred : Pred := {}

/-- The atom table: each atom's bytes, and which entry, if any, is the atom `'[]'`. -/
structure Atoms where
  names : List (List Nat)
  tnil : Option Nat := none

namespace Atoms

/-- `coco_atom_name`, up to the first zero byte as `strlen` has it. -/
def cstring (a : Atoms) (id : Nat) : List Nat := (a.names.getD id []).takeWhile fun b => b != 0

/-- `coco_intern`: the entry of these bytes that is not the atom `'[]'`, or a new one. -/
def intern (a : Atoms) (bytes : List Nat) : Nat :=
  ((List.range a.names.length).find? fun i =>
    a.names.getD i [] == bytes && a.tnil != some i).getD a.names.length

end Atoms

namespace Pred

/-- `coco_pred_live_before`. -/
def liveBefore (p : Pred) (ix : Nat) : Nat :=
  if p.ntomb = 0 then ix
  else (List.range (min ix p.nclauses)).countP fun i => p.deathAt i == 0

end Pred

/-- `coco_pred_intern`: the predicate's index, or the next one. -/
def predIntern (st : List NamedPred) (name arity : Nat) : Nat :=
  st.findIdx fun np => np.name == name && np.arity == arity

/-- What the image is made of: numbers, and names as their bytes. -/
inductive Tok where
  | num (n : Nat)
  | name (bytes : List Nat)
deriving Repr, DecidableEq

/-- The two sections about choice points, `C` and, where the image has it, `L`. -/
structure Image where
  choices : List Tok
  ends : Option (List Tok)

section

variable (a : Atoms) (st : List NamedPred)

/-- One frame of section `C` of `coco_freeze_image`. -/
def freezeChoice (c : Choice) : List Tok :=
  let np := st.getD c.pred {}
  [.num c.kind.number, .num c.goals, .num c.trailMark, .num c.heapMark, .num c.call,
    .num (if c.kind.opens = true then np.pred.liveBefore c.clauseIx else c.clauseIx),
    .num c.barrier, .num (if c.kind.opens = true then np.arity else 0),
    .name (if c.kind.opens = true then a.cstring np.name else [])]

/-- One frame of section `L`. -/
def freezeEnd (c : Choice) : Tok :=
  .num (if c.kind.opens = false then 0
    else if c.cend = noEnd then noEnd else (st.getD c.pred {}).pred.liveBefore c.cend)

/-- `coco_freeze_image`. -/
def freeze (cs : List Choice) : Image :=
  { choices := .num cs.length :: cs.flatMap (freezeChoice a st)
    ends := some (.num cs.length :: cs.map (freezeEnd st)) }

/-- `coco_choice_restore`: every member it does not name is zero, and the end of a call is
not settled yet. -/
def choiceRestore (kind : ChoiceKind) (goals trailMark heapMark call clauseIx barrier : Nat)
    (name : List Nat) (arity : Nat) : Choice :=
  { kind, goals, trailMark, heapMark, call, clauseIx, barrier
    pred := if kind.opens = true then predIntern st (a.intern name) arity else 0
    cend := if kind.opens = true then noEnd else 0 }

/-- The loop over section `C` of `coco_thaw`. -/
def thawChoices : Nat → List Tok → Option (List Choice × List Tok)
  | 0, toks => some ([], toks)
  | n + 1, .num k :: .num goals :: .num tmark :: .num hmark :: .num call :: .num cix ::
      .num barrier :: .num arity :: .name bytes :: rest =>
    (ChoiceKind.ofNumber k).bind fun kind =>
      (thawChoices n rest).map fun r =>
        (choiceRestore a st kind goals tmark hmark call cix barrier bytes arity :: r.1, r.2)
  | _ + 1, _ => none

/-- The loop over section `L`. -/
def thawEnds : List Choice → Nat → List Tok → Option (List Choice)
  | cs, 0, _ => some cs
  | [], n + 1, .num _ :: rest => thawEnds [] n rest
  | c :: cs, n + 1, .num v :: rest =>
    (thawEnds cs n rest).map fun cs =>
      (if c.kind.opens = true ∧ v < noEnd then { c with cend := v } else c) :: cs
  | _, _ + 1, _ => none

/-- `coco_thaw`, from the choice points on. -/
def thaw (image : Image) : Option (List Choice) :=
  match image.choices with
  | .num n :: toks =>
    (thawChoices a st n toks).bind fun r =>
      match image.ends with
      | none => some r.1
      | some (.num n :: toks) => thawEnds r.1 n toks
      | some _ => none
  | _ => none

/-- The frame a choice point comes back as. -/
def resumed (st' : List NamedPred) (c : Choice) : Choice :=
  let np := st.getD c.pred {}
  if c.kind.opens = true then
    { c with
      clauseIx := np.pred.liveBefore c.clauseIx
      pred := predIntern st' (a.intern (a.cstring np.name)) np.arity, ixpos := 0, fera := 0
      cend := if c.cend = noEnd then noEnd
        else if np.pred.liveBefore c.cend < noEnd then np.pred.liveBefore c.cend else noEnd }
  else { c with pred := 0, ixpos := 0, cend := 0, fera := 0 }

end

theorem thawChoices_freeze (a : Atoms) (st st' : List NamedPred) (cs : List Choice)
    (rest : List Tok) :
    thawChoices a st' cs.length (cs.flatMap (freezeChoice a st) ++ rest) =
      some (cs.map fun c =>
        { resumed a st st' c with cend := if c.kind.opens = true then noEnd else 0 }, rest) := by
  induction cs with
  | nil => rfl
  | cons c cs ih =>
    rw [List.flatMap_cons, List.append_assoc, List.length_cons]
    simp only [freezeChoice, List.cons_append, List.nil_append, thawChoices,
      ChoiceKind.ofNumber_number, Option.bind_some, ih, Option.map_some, List.map_cons]
    cases opens : c.kind.opens with
    | true => simp [choiceRestore, resumed, opens]
    | false => simp [choiceRestore, resumed, opens]

theorem thawEnds_freeze (a : Atoms) (st st' : List NamedPred) (cs : List Choice) (rest : List Tok) :
    thawEnds (cs.map fun c =>
        { resumed a st st' c with cend := if c.kind.opens = true then noEnd else 0 })
      cs.length (cs.map (freezeEnd st) ++ rest) = some (cs.map (resumed a st st')) := by
  induction cs with
  | nil => rfl
  | cons c cs ih =>
    rw [List.map_cons, List.map_cons, List.cons_append, List.length_cons, freezeEnd, thawEnds, ih,
      Option.map_some, List.map_cons]
    refine congrArg some (congrArg (· :: _) ?_)
    cases opens : c.kind.opens with
    | true =>
      by_cases unsettled : c.cend = noEnd
      · simp [resumed, opens, unsettled]
      · simp only [resumed, opens, if_true, unsettled, if_false, Bool.true_eq_false, true_and]
        split <;> rfl
    | false => simp [resumed, opens]

/-- An image read back is its frames, each by its ordinals. -/
theorem thaw_freeze (a : Atoms) (st st' : List NamedPred) (cs : List Choice) :
    thaw a st' (freeze a st cs) = some (cs.map (resumed a st st')) := by
  have choices := thawChoices_freeze a st st' cs []
  have ends := thawEnds_freeze a st st' cs []
  rw [List.append_nil] at choices ends
  simp only [thaw, freeze, choices, Option.bind_some]
  exact ends

/- What the ordinals stand for. -/

variable {headKey : Nat → Nat → Nat}

theorem Pred.liveBefore_eq {p : Pred} (ok : p.Ok headKey) {ix : Nat} (le : ix ≤ p.nclauses) :
    p.liveBefore ix = ((p.recs.take ix).filter Rec.live).length := by
  unfold liveBefore
  split
  · rename_i none_dead
    rw [List.filter_eq_self.mpr, List.length_take, Pred.length_recs, Nat.min_eq_left le]
    intro r hr
    exact live_of_ntomb_zero ok none_dead r (List.mem_of_mem_take hr)
  · have slice : p.recs.take ix = (List.range' 0 (ix - 0)).map p.recAt := by
      rw [← entries_slice p.recAt le 0, List.drop_zero]
      rfl
    rw [slice, Nat.min_eq_left le, ← List.countP_eq_length_filter, List.countP_map,
      List.range_eq_range']
    rfl

/-- The live clauses of a stretch are a stretch of the live clauses. -/
theorem filter_window {α : Type*} (live : α → Bool) (l : List α) (lo hi : Nat) :
    ((l.filter live).take ((l.take hi).filter live).length).drop ((l.take lo).filter live).length =
      ((l.take hi).drop lo).filter live := by
  have front : (l.filter live).take ((l.take hi).filter live).length = (l.take hi).filter live := by
    conv_lhs => arg 2; rw [← List.take_append_drop hi l, List.filter_append]
    rw [List.take_left]
  rw [front]
  by_cases le : lo ≤ hi
  · have inner : (l.take hi).take lo = l.take lo := by
      rw [List.take_take, Nat.min_eq_left le]
    conv_lhs => arg 2; rw [← List.take_append_drop lo (l.take hi), List.filter_append, inner]
    rw [List.drop_left]
  · have none_ : (l.take hi).drop lo = [] := by
      refine List.drop_eq_nil_of_le ?_
      rw [List.length_take]
      omega
    rw [none_, List.filter_nil]
    refine List.drop_eq_nil_of_le ?_
    refine List.Sublist.length_le (List.Sublist.filter live ?_)
    exact List.take_sublist_take_left (by omega)

/- The tries of a frame, retry after retry. -/

namespace Pred

/-- Every position a frame tries over a store nothing edits, retried until it is gone.
`hit n` says which heads match when `n` retries are left. -/
def tryAll (headKey : Nat → Nat → Nat) (hit : Nat → Nat → Bool) : Nat → Frame → Pred → List Nat
  | 0, _, _ => []
  | n + 1, f, p =>
    match f.kind with
    | .clause =>
      let (tried, f', p) := p.select headKey (hit n) false true (p.nclauses + 1) f
      tried ++ f'.elim [] fun f => tryAll headKey hit n f p
    | .db =>
      let (tried, _, f', p) := p.dbFrom headKey (hit n) true (p.nclauses + 1) (some f.clauseIx) f
      tried ++ f'.elim [] fun f => tryAll headKey hit n f p

/-- A walk taken up at the position its frame kept tries that one whatever it is, and then
what it wants. -/
theorem dbFrom_any {p : Pred} (ok : p.Ok headKey) {f : Frame} (keyed : f.ixpos ≤ aixCount)
    (inside : f.cend ≤ p.nclauses) (hit : Nat → Bool) (below : f.clauseIx < f.cend) :
    let r := p.dbFrom headKey hit true (p.nclauses + 1) (some f.clauseIx) f
    Kept headKey p r.2.2.2 ∧
      (∀ g, r.2.2.1 = some g → g = { f with clauseIx := g.clauseIx } ∧
        f.clauseIx < g.clauseIx ∧ g.clauseIx ≤ f.cend) ∧
      positions (fun i => i == f.clauseIx || f.wants headKey (p.recAt i)) f.clauseIx f.cend =
        r.1 ++ r.2.2.1.elim [] fun g =>
          positions (fun i => f.wants headKey (p.recAt i)) g.clauseIx f.cend := by
  have whole : positions (fun i => i == f.clauseIx || f.wants headKey (p.recAt i)) f.clauseIx f.cend =
      f.clauseIx :: positions (fun i => f.wants headKey (p.recAt i)) (f.clauseIx + 1) f.cend := by
    rw [positions_cons below]
    simp only [beq_self_eq_true, Bool.true_or, if_true]
    refine congrArg (f.clauseIx :: ·) (positions_congr ?_)
    intro i hi _
    have apart : (i == f.clauseIx) = false := beq_false_of_ne (by omega)
    rw [apart, Bool.false_or]
  obtain ⟨next, kept⟩ := nextFor_spec ok keyed inside (f.clauseIx + 1)
  have short : f.short (some f.clauseIx) = some f.clauseIx := by
    rw [Frame.short, Option.filter_some_pos (by simpa using below)]
  simp only [dbFrom, short]
  generalize p.nextFor headKey f true (f.clauseIx + 1) = t at next kept
  obtain ⟨b, q⟩ := t
  obtain ⟨count, recAt, -⟩ := kept.recs
  rw [whole]
  dsimp only at next ⊢
  split
  · by_cases last : (({ f with clauseIx := f.clauseIx + 1 } : Frame).short b).isNone
    · rw [if_pos last]
      have none_ : f.short b = none := Option.isNone_iff_eq_none.mp last
      rw [none_] at next
      refine ⟨kept, fun g eq => by simp at eq, ?_⟩
      exact congrArg (f.clauseIx :: ·) (positions_eq_nil next.symm)
    · rw [if_neg last]
      refine ⟨kept, ?_, rfl⟩
      intro g eq
      rw [← Option.some.inj eq]
      exact ⟨rfl, Nat.lt_succ_self _, below⟩
  · rw [← recAt] at next
    have next' : ({ f with clauseIx := f.clauseIx + 1 } : Frame).short b =
        leastFrom (fun i =>
          ({ f with clauseIx := f.clauseIx + 1 } : Frame).wants headKey (q.recAt i))
          (f.clauseIx + 1) f.cend := next
    have count' : q.nclauses = p.nclauses := count
    obtain ⟨kept', same, -, rest⟩ := dbFrom_spec (f := { f with clauseIx := f.clauseIx + 1 }) kept.1
      keyed (count ▸ inside) hit next' (show f.cend < f.clauseIx + 1 + p.nclauses by omega)
    refine ⟨kept.trans kept', ?_, ?_⟩
    · intro g eq
      obtain ⟨stays, later, short_⟩ := same g eq
      exact ⟨stays, Nat.lt_trans (Nat.lt_succ_self _) later, short_⟩
    · rw [recAt] at rest
      exact congrArg (f.clauseIx :: ·) rest

/-- Two tests agree past a point: what was tried before it and what is tried after it are
one stretch. -/
theorem positions_join {c d : Nat → Bool} {lo mid hi : Nat} (h1 : lo ≤ mid) (h2 : mid ≤ hi) :
    positions c lo mid ++ positions d mid hi =
      positions (fun i => if i < mid then c i else d i) lo hi := by
  rw [positions_split h1 h2]
  congr 1
  · refine positions_congr ?_
    intro i _ hi
    rw [if_pos hi]
  · refine positions_congr ?_
    intro i hi _
    rw [if_neg (by omega)]

/-- A frame tries, once each and in order, positions from its next to its end, among them
every one it wants; a call's frame tries no other. -/
theorem tryAll_spec (hit : Nat → Nat → Bool) {n : Nat} {p : Pred} (ok : p.Ok headKey) {f : Frame}
    (keyed : f.ixpos ≤ aixCount) (inside : f.cend ≤ p.nclauses) (enough : f.cend < f.clauseIx + n) :
    ∃ d : Nat → Bool, (∀ i, f.wants headKey (p.recAt i) = true → d i = true) ∧
      (f.kind = .clause → d = fun i => f.wants headKey (p.recAt i)) ∧
      tryAll headKey hit n f p = positions d f.clauseIx f.cend := by
  induction n generalizing p f with
  | zero => exact ⟨_, fun _ h => h, fun _ => rfl, (positions_of_ge (by omega)).symm⟩
  | succ n ih =>
    rw [tryAll]
    cases kind : f.kind with
    | clause =>
      refine ⟨fun i => f.wants headKey (p.recAt i), fun _ h => h, fun _ => rfl, ?_⟩
      obtain ⟨kept, same, split_⟩ := select_spec ok keyed inside (hit n) false
        (show f.cend < f.clauseIx + (p.nclauses + 1) by omega)
      generalize p.select headKey (hit n) false true (p.nclauses + 1) f = r at kept same split_
      obtain ⟨tried, f', q⟩ := r
      rw [split_]
      refine congrArg (tried ++ ·) ?_
      cases f' with
      | none => rfl
      | some g =>
        obtain ⟨stays, later, -⟩ := same g rfl
        obtain ⟨count, recAt, -⟩ := kept.recs
        obtain ⟨c, hc⟩ : ∃ c, c = g.clauseIx := ⟨_, rfl⟩
        rw [← hc] at stays later
        subst stays
        obtain ⟨d, -, exact_, all⟩ := ih (f := { f with clauseIx := c }) kept.1 keyed
          (count ▸ inside) (by simp only; omega)
        rw [exact_ kind, recAt] at all
        exact all
    | db =>
      by_cases below : f.clauseIx < f.cend
      · obtain ⟨kept, same, split_⟩ := dbFrom_any ok keyed inside (hit n) below
        generalize p.dbFrom headKey (hit n) true (p.nclauses + 1) (some f.clauseIx) f = r at kept same split_
        obtain ⟨tried, found, f', q⟩ := r
        cases f' with
        | none =>
          refine ⟨fun i => i == f.clauseIx || f.wants headKey (p.recAt i), ?_,
            (fun clause => by cases clause), split_.symm⟩
          intro i wanted
          simp [wanted]
        | some g =>
          obtain ⟨stays, later, short_⟩ := same g rfl
          obtain ⟨count, recAt, -⟩ := kept.recs
          obtain ⟨c, hc⟩ : ∃ c, c = g.clauseIx := ⟨_, rfl⟩
          rw [← hc] at stays later short_
          subst stays
          obtain ⟨d, wants, -, all⟩ := ih (f := { f with clauseIx := c }) kept.1 keyed
            (count ▸ inside) (by simp only; omega)
          rw [recAt] at wants
          have before : tried = positions (fun i =>
              i == f.clauseIx || f.wants headKey (p.recAt i)) f.clauseIx c := by
            have parts := positions_split (c := fun i =>
              i == f.clauseIx || f.wants headKey (p.recAt i)) (Nat.le_of_lt later) short_
            have after : positions (fun i => i == f.clauseIx || f.wants headKey (p.recAt i)) c f.cend =
                positions (fun i => f.wants headKey (p.recAt i)) c f.cend := by
              refine positions_congr ?_
              intro i hi _
              have apart : (i == f.clauseIx) = false := beq_false_of_ne (by omega)
              rw [apart, Bool.false_or]
            rw [after] at parts
            exact List.append_cancel_right (split_.symm.trans parts)
          refine ⟨fun i => if i < c then i == f.clauseIx || f.wants headKey (p.recAt i) else d i, ?_,
            (fun clause => by cases clause), ?_⟩
          · intro i wanted
            show (if i < c then _ else _) = true
            split
            · simp [wanted]
            · exact wants i wanted
          · rw [← positions_join (Nat.le_of_lt later) short_, ← before]
            exact congrArg (tried ++ ·) all
      · refine ⟨_, fun _ h => h, (fun clause => by cases clause), ?_⟩
        have short : f.short (some f.clauseIx) = none := by
          rw [Frame.short, Option.filter_some_neg (by simpa using below)]
        simp only [dbFrom, short]
        exact (positions_of_ge (by omega)).symm

end Pred

/-- The choice point as a frame on its predicate, `key` the call's key at its argument. -/
def Choice.frame (c : Choice) (key : Nat) : Frame :=
  { kind := if c.kind = .db then .db else .clause, call := 0, ixpos := c.ixpos, key
    clauseIx := c.clauseIx, cend := c.cend, fera := c.fera }

/-- The live clauses from the frame's next position to its end. -/
def Choice.window (c : Choice) (p : Pred) : List Rec :=
  ((p.recs.take c.cend).drop c.clauseIx).filter Rec.live

variable {α : Type*}

/-- A store that holds exactly the live clauses of another's predicate, in order. `read`
and `read'` give the clause each has at an offset. -/
structure Reloads (read read' : Nat → α) (p p' : Pred) : Prop where
  none_dead : p'.ntomb = 0
  same : p'.recs.map (fun r => (read' r.clause, r.key)) =
    (p.recs.filter Rec.live).map fun r => (read r.clause, r.key)

/-- A frame open on a predicate that comes back under its name. -/
structure Reopens (headKey headKey' : Nat → Nat → Nat) (read read' : Nat → α) (a : Atoms)
    (st st' : List NamedPred) (c : Choice) (np np' : NamedPred) : Prop where
  opens : c.kind.opens = true
  held : st.getD c.pred {} = np
  ok : np.pred.Ok headKey
  inside : c.clauseIx ≤ np.pred.nclauses ∧ c.cend ≤ np.pred.nclauses
  fits : np.pred.nclauses < noEnd
  name : a.intern (a.cstring np.name) = np.name
  found : st'[predIntern st' np.name np.arity]? = some np'
  ok' : np'.pred.Ok headKey'
  reloads : Reloads read read' np.pred np'.pred

namespace Reopens

variable {headKey' : Nat → Nat → Nat} {read read' : Nat → α} {a : Atoms} {st st' : List NamedPred}
  {c : Choice} {np np' : NamedPred}

/-- The end and the next clause of the frame that comes back. -/
theorem bounds (open_ : Reopens headKey headKey' read read' a st st' c np np') :
    (resumed a st st' c).clauseIx = np.pred.liveBefore c.clauseIx ∧
      (resumed a st st' c).cend = np.pred.liveBefore c.cend ∧
      np.pred.liveBefore c.cend ≤ np'.pred.nclauses ∧
      st'[(resumed a st st' c).pred]? = some np' := by
  obtain ⟨le, le'⟩ := open_.inside
  have length : np'.pred.nclauses = (np.pred.recs.filter Rec.live).length := by
    have same := congrArg List.length open_.reloads.same
    rwa [List.length_map, List.length_map, Pred.length_recs] at same
  have short : np.pred.liveBefore c.cend ≤ np'.pred.nclauses := by
    rw [Pred.liveBefore_eq open_.ok le', length]
    exact ((List.take_sublist c.cend np.pred.recs).filter Rec.live).length_le
  have shorter : np'.pred.nclauses ≤ np.pred.nclauses := by
    rw [length, ← Pred.length_recs np.pred]
    exact List.length_filter_le _ _
  have fits := open_.fits
  simp only [resumed, open_.opens, if_true, open_.held]
  refine ⟨trivial, ?_, short, by rw [open_.name]; exact open_.found⟩
  rw [if_neg (by omega), if_pos (by omega)]

/-- The clauses of the frame that comes back are the live ones the frame had before it. -/
theorem stretch (open_ : Reopens headKey headKey' read read' a st st' c np np') :
    ((List.range' (np.pred.liveBefore c.clauseIx)
        (np.pred.liveBefore c.cend - np.pred.liveBefore c.clauseIx)).map np'.pred.recAt).map
        (fun r => (read' r.clause, r.key)) =
      (c.window np.pred).map fun r => (read r.clause, r.key) := by
  obtain ⟨le, le'⟩ := open_.inside
  rw [← entries_slice np'.pred.recAt open_.bounds.2.2.1, List.map_drop, List.map_take]
  have same := open_.reloads.same
  rw [Pred.recs] at same
  rw [same, ← List.map_take, ← List.map_drop, Pred.liveBefore_eq open_.ok le,
    Pred.liveBefore_eq open_.ok le', filter_window]
  rfl

/-- With nothing dead a frame that comes back wants what the first argument's key does not
rule out. -/
theorem wants_back (open_ : Reopens headKey headKey' read read' a st st' c np np') {key i : Nat}
    (below : i < np'.pred.nclauses) (admitted : admits key (np'.pred.recAt i).key = true) :
    ((resumed a st st' c).frame key).wants headKey' (np'.pred.recAt i) = true := by
  have live := Pred.live_of_ntomb_zero open_.ok' open_.reloads.none_dead _ (Pred.mem_recs below)
  have first : ((resumed a st st' c).frame key).ixpos = 0 := by
    simp [Choice.frame, resumed, open_.opens]
  simp only [Frame.wants, live, Bool.true_or, Bool.and_true, first, Rec.keyAt, if_true]
  exact admitted

/-- A frame that comes back wants nothing else. -/
theorem wants_only (open_ : Reopens headKey headKey' read read' a st st' c np np') {key i : Nat}
    (wanted : ((resumed a st st' c).frame key).wants headKey' (np'.pred.recAt i) = true) :
    admits key (np'.pred.recAt i).key = true := by
  have first : ((resumed a st st' c).frame key).ixpos = 0 := by
    simp [Choice.frame, resumed, open_.opens]
  rw [Frame.wants, Bool.and_eq_true, first] at wanted
  exact wanted.1

/-- The tries of the frame that comes back, as positions. -/
theorem tries_positions (open_ : Reopens headKey headKey' read read' a st st' c np np')
    (hit : Nat → Nat → Bool) (key : Nat) :
    ∃ d : Nat → Bool,
      (∀ i, i < np'.pred.nclauses → admits key (np'.pred.recAt i).key = true → d i = true) ∧
      (c.kind = .clause → ∀ i, d i = true → admits key (np'.pred.recAt i).key = true) ∧
      Pred.tryAll headKey' hit (np'.pred.nclauses + 1) ((resumed a st st' c).frame key) np'.pred =
        positions d (np.pred.liveBefore c.clauseIx) (np.pred.liveBefore c.cend) := by
  obtain ⟨next, end_, short, -⟩ := open_.bounds
  have keyed : ((resumed a st st' c).frame key).ixpos ≤ aixCount := by
    simp [Choice.frame, resumed, open_.opens]
  have inside : ((resumed a st st' c).frame key).cend ≤ np'.pred.nclauses := by
    show (resumed a st st' c).cend ≤ _
    omega
  obtain ⟨d, wants, only, all⟩ := Pred.tryAll_spec hit open_.ok' keyed inside
    (show _ < _ + (np'.pred.nclauses + 1) by omega)
  refine ⟨d, ?_, ?_, ?_⟩
  · intro i below admitted
    exact wants i (open_.wants_back below admitted)
  · intro clause i tried
    have kind : ((resumed a st st' c).frame key).kind = .clause := by
      simp [Choice.frame, resumed, clause, ChoiceKind.opens]
    rw [only kind] at tried
    exact open_.wants_only tried
  · rw [all, ← next, ← end_]
    rfl

end Reopens

/-- What is tried and passes a test, where everything that passes it is tried. -/
theorem filter_tried {β : Type*} (v : Nat → β) (w : β → Bool) {d : Nat → Bool} {lo hi : Nat}
    (tried : ∀ i, i < hi → w (v i) = true → d i = true) :
    ((positions d lo hi).map v).filter w = ((List.range' lo (hi - lo)).map v).filter w := by
  rw [List.filter_map, List.filter_map, positions, List.filter_filter]
  refine congrArg (List.map v) (List.filter_congr ?_)
  intro i mem
  rw [List.mem_range'_1] at mem
  cases passes : w (v i) with
  | false => simp [passes]
  | true => simp [passes, tried i (by omega) passes]

/-- The clause a record holds, and its key. -/
def Rec.seen (read : Nat → α) (r : Rec) : α × Nat := (read r.clause, r.key)

/-- The clauses a choice point tries over a store nothing edits, each with its key. -/
def Choice.tries (headKey : Nat → Nat → Nat) (read : Nat → α) (hit : Nat → Nat → Bool) (key : Nat)
    (c : Choice) (p : Pred) : List (α × Nat) :=
  (Pred.tryAll headKey hit (p.nclauses + 1) (c.frame key) p).map fun i => (p.recAt i).seen read

/-- A frozen call thawed over the live clauses. It tries, in order and once each, clauses
the frame had between its next position and its end that were live at the freeze; among
them every one the first argument's key admits, and for a call no other. So where a clause
that can match is passed over by neither frame's key, both try the same that can match. -/
theorem frozen_call_resumes {headKey headKey' : Nat → Nat → Nat} {read read' : Nat → α} {a : Atoms}
    {st st' : List NamedPred} {cs : List Choice} {i : Nat} {c : Choice} {np np' : NamedPred}
    (at_ : cs[i]? = some c) (open_ : Reopens headKey headKey' read read' a st st' c np np')
    (hit : Nat → Nat → Bool) (key0 : Nat) :
    ∃ cs' c', thaw a st' (freeze a st cs) = some cs' ∧ cs'[i]? = some c' ∧
      st'[c'.pred]? = some np' ∧
      let tried := c'.tries headKey' read' hit key0 np'.pred
      let left := c.window np.pred
      tried.Sublist (left.map (Rec.seen read)) ∧
      tried.filter (fun x => admits key0 x.2) =
        (left.map (Rec.seen read)).filter (fun x => admits key0 x.2) ∧
      (c.kind = .clause → ∀ x ∈ tried, admits key0 x.2 = true) ∧
      ∀ (key : Nat) (can : α → Bool),
        (∀ r ∈ left, can (read r.clause) = true →
          admits key0 r.key = true ∧ (c.frame key).wants headKey r = true) →
        (tried.map Prod.fst).filter can =
          ((left.filter fun r => (c.frame key).wants headKey r).map fun r => read r.clause).filter
            can := by
  refine ⟨cs.map (resumed a st st'), resumed a st st' c, thaw_freeze a st st' cs, ?_,
    open_.bounds.2.2.2, ?_⟩
  · rw [List.getElem?_map, at_, Option.map_some]
  intro tried left
  obtain ⟨d, admitted, only, all⟩ := open_.tries_positions hit key0
  have short := open_.bounds.2.2.1
  have shape : tried = (positions d (np.pred.liveBefore c.clauseIx)
      (np.pred.liveBefore c.cend)).map fun i => (np'.pred.recAt i).seen read' := by
    show Choice.tries headKey' read' hit key0 (resumed a st st' c) np'.pred = _
    rw [Choice.tries, all]
  have whole : (List.range' (np.pred.liveBefore c.clauseIx)
      (np.pred.liveBefore c.cend - np.pred.liveBefore c.clauseIx)).map
        (fun i => (np'.pred.recAt i).seen read') = left.map (Rec.seen read) := by
    have stretch := open_.stretch
    rw [List.map_map] at stretch
    exact stretch
  have sub : tried.Sublist (left.map (Rec.seen read)) := by
    rw [shape, ← whole]
    exact List.Sublist.map _ List.filter_sublist
  -- a test that only admitted clauses pass
  have agree : ∀ w : α × Nat → Bool, (∀ x, w x = true → admits key0 x.2 = true) →
      tried.filter w = (left.map (Rec.seen read)).filter w := by
    intro w narrow
    rw [shape, ← whole]
    refine filter_tried _ w ?_
    intro i below passes
    exact admitted i (by omega) (narrow _ passes)
  refine ⟨sub, agree _ (fun _ h => h), ?_, ?_⟩
  · intro clause x mem
    rw [shape, List.mem_map] at mem
    obtain ⟨i, mem, rfl⟩ := mem
    exact only clause i (mem_positions.mp mem).2.2
  · intro key can matches_
    have narrow : ∀ x ∈ left.map (Rec.seen read), can x.1 = (can x.1 && admits key0 x.2) := by
      intro x mem
      obtain ⟨r, held, rfl⟩ := List.mem_map.mp mem
      cases match_ : can (read r.clause) with
      | false => simp [Rec.seen, match_]
      | true => simp [Rec.seen, match_, (matches_ r held match_).1]
    have tried_can : tried.filter (fun x => can x.1) =
        (left.map (Rec.seen read)).filter fun x => can x.1 := by
      rw [List.filter_congr (fun x mem => narrow x (sub.subset mem)), List.filter_congr narrow]
      refine agree _ ?_
      intro x both
      rw [Bool.and_eq_true] at both
      exact both.2
    have left_can : (left.filter fun r => (c.frame key).wants headKey r).filter
        (fun r => can (read r.clause)) = left.filter fun r => can (read r.clause) := by
      rw [List.filter_filter]
      refine List.filter_congr ?_
      intro r mem
      cases match_ : can (read r.clause) with
      | false => rw [Bool.false_and]
      | true => rw [Bool.true_and, (matches_ r mem match_).2]
    calc (tried.map Prod.fst).filter can
        = (tried.filter fun x => can x.1).map Prod.fst := List.filter_map
      _ = ((left.map (Rec.seen read)).filter fun x => can x.1).map Prod.fst := by rw [tried_can]
      _ = (left.filter fun r => can (read r.clause)).map fun r => read r.clause := by
        rw [List.filter_map, List.map_map]
        rfl
      _ = _ := by
        rw [← left_can, List.filter_map]
        rfl

/-- `p/1` with clauses of keys 1, 2, 0 and 2, a call open at the second, and that one
retracted under it; and the store it is thawed over. -/
def openCall : World :=
  run (World.edit fun _ _ => 0) {}
    [.add true ⟨10, 1, 0, 0⟩ true true, .add true ⟨11, 2, 0, 0⟩ true true,
      .add true ⟨12, 0, 0, 0⟩ true true, .add true ⟨13, 2, 0, 0⟩ true true,
      .engines [⟨.clause, 0, 0, 2, 1, 4, 0⟩] true, .retractAt 1 true true]

def openChoice : Choice := { kind := .clause, clauseIx := 1, cend := 4, fera := 1 }

def reloaded : World :=
  run (World.edit fun _ _ => 0) {}
    [.add true ⟨20, 1, 0, 0⟩ true true, .add true ⟨22, 0, 0, 0⟩ true true,
      .add true ⟨23, 2, 0, 0⟩ true true]

theorem frozen_call_resumes_openCall :
    ∃ cs' c', thaw ⟨[[112]], none⟩ [⟨0, 1, reloaded.pred⟩]
        (freeze ⟨[[112]], none⟩ [⟨0, 1, openCall.pred⟩] [openChoice]) = some cs' ∧ cs'[0]? = some c' ∧
      c'.tries (fun _ _ => 0) (· - 20) (fun _ _ => true) 2 reloaded.pred = [(2, 0), (3, 2)] ∧
      (c'.tries (fun _ _ => 0) (· - 20) (fun _ _ => true) 2 reloaded.pred).Sublist
        ((openChoice.window openCall.pred).map (Rec.seen (· - 10))) := by
  have open_ : Reopens (fun _ _ => 0) (fun _ _ => 0) (· - 10) (· - 20) ⟨[[112]], none⟩
      [⟨0, 1, openCall.pred⟩] [⟨0, 1, reloaded.pred⟩]
      openChoice ⟨0, 1, openCall.pred⟩ ⟨0, 1, reloaded.pred⟩ := {
    opens := rfl
    held := rfl
    ok := World.edits_ok _ Pred.empty_ok
    inside := by decide
    fits := by decide
    name := by decide
    found := rfl
    ok' := World.edits_ok _ Pred.empty_ok
    reloads := ⟨by decide, by decide⟩ }
  obtain ⟨cs', c', image, at_, -, sub, -, -, -⟩ := frozen_call_resumes
    (show [openChoice][0]? = some openChoice from rfl) open_ (fun _ _ => true) 2
  refine ⟨cs', c', image, at_, ?_, sub⟩
  rw [thaw_freeze, Option.some.injEq] at image
  subst image
  rw [List.map_cons, List.getElem?_cons_zero, Option.some.injEq] at at_
  subst at_
  decide

/-- The argument a call was keyed on is not in the image: thawed, it tries a clause that
argument had ruled out. -/
theorem thawed_call_tries_more :
    ¬ ∀ (headKey headKey' : Nat → Nat → Nat) (read read' : Nat → Nat) (a : Atoms)
      (st st' : List NamedPred) (cs : List Choice) (i : Nat) (c : Choice) (np np' : NamedPred)
      (hit : Nat → Nat → Bool) (key0 key : Nat), cs[i]? = some c →
      Reopens headKey headKey' read read' a st st' c np np' →
      ∃ cs' c', thaw a st' (freeze a st cs) = some cs' ∧ cs'[i]? = some c' ∧
        (c'.tries headKey' read' hit key0 np'.pred).map Prod.fst =
          ((c.window np.pred).filter fun r => (c.frame key).wants headKey r).map
            fun r => read r.clause := by
  intro claimed
  -- `p/2` with second arguments of keys 7, 8 and 7, called with the second argument bound
  let second : Nat → Nat → Nat := fun clause _ => if clause = 11 then 8 else 7
  let p := (run (World.edit second) {}
    [.add true ⟨10, 0, 0, 0⟩ true true, .add true ⟨11, 0, 0, 0⟩ true true,
      .add true ⟨12, 0, 0, 0⟩ true true]).pred
  let c : Choice := { kind := .clause, clauseIx := 1, ixpos := 1, cend := 3 }
  have open_ : Reopens second second id id ⟨[[112]], none⟩ [⟨0, 2, p⟩] [⟨0, 2, p⟩] c ⟨0, 2, p⟩
      ⟨0, 2, p⟩ := {
    opens := rfl
    held := rfl
    ok := World.edits_ok _ Pred.empty_ok
    inside := by decide
    fits := by decide
    name := by decide
    found := rfl
    ok' := World.edits_ok _ Pred.empty_ok
    reloads := ⟨by decide, by decide⟩ }
  obtain ⟨cs', c', image, at_, same⟩ := claimed second second id id _ _ _ [c] 0 c _ _
    (fun _ _ => true) 0 7 rfl open_
  rw [thaw_freeze, Option.some.injEq] at image
  subst image
  rw [List.map_cons, List.getElem?_cons_zero, Option.some.injEq] at at_
  subst at_
  exact absurd same (by decide)

end Cocolog.Store
