import Cocolog.Store.Index
import Mathlib.Data.List.Basic

/-! A predicate's clause list as the store keeps it: six arrays side by side, their
counts, the first argument's index and the other arguments', and the choice frames open
on the predicate, which an insertion moves on and a death stamps. Arrays are functions
of a position; what they hold from the clause count on is whatever was last written
there. Memory that would not grow is an input of the operation that asked for it. -/

set_option linter.all false

namespace Cocolog.Store

open Cocolog.Lib

/-- A compiled program, by the number the code table knows it as. -/
abbrev Code := Nat

/-- `coco_argix`: another argument's index, with the keys it was built from. -/
structure ArgIx where
  keys : Nat → Nat := fun _ => 0
  table : Table := {}
  indexed : Bool := false

/-- `coco_pred`, the members its clause list, its indexes and its dead use. `tomb` is
`none` where the source has no array. The array of other arguments' indexes is zeroed
when it is made, so one not made yet is one of indexes not built. -/
structure Pred where
  arity : Nat := 0
  nprobe : Nat := 0
  clauses : Nat → Nat := fun _ => 0
  nclauses : Nat := 0
  origins : Nat → Nat := fun _ => 0
  muted : Nat → Int := fun _ => 0
  codes : Nat → Option Code := fun _ => none
  dynamic : Bool := false
  keys : Nat → Nat := fun _ => 0
  table : Table := {}
  kmax : Nat := 0
  indexed : Bool := false
  aix : Nat → ArgIx := fun _ => {}
  tomb : Option (Nat → Nat) := none
  ntomb : Nat := 0
  tera : Nat := 0
  tprobe : Nat := 0
  tlisted : Bool := false
  framed : Bool := false
  tver : Nat := 0

/-- What an assertion brings: the stored clause, its head's key, where it came from and
whether the store was muted. -/
structure NewClause where
  clause : Nat
  key : Nat
  origin : Nat
  muted : Int
deriving Repr, DecidableEq

/-- The frames that count as open on a predicate: a call's, and a walk's of `retract/1`
or `clause/2`. -/
inductive FrameKind where
  | clause
  | db
deriving Repr, DecidableEq

/-- `coco_choice`, as far as a predicate's clause list knows it. `key` is the call's key
at `ixpos`, read again at every retry from the call's own argument; `call` is the number
of the call the frame belongs to, which no code reads. -/
structure Frame where
  kind : FrameKind
  call : Nat
  ixpos : Nat
  key : Nat
  clauseIx : Nat
  cend : Nat
  fera : Nat
deriving Repr, DecidableEq

/-- A predicate with the frames open on it, over every engine of the chain. -/
structure World where
  pred : Pred := {}
  frames : List Frame := []

/-- The number of arguments past the first that may have an index. -/
def aixCount : Nat := 7

/-- `coco_index_floor`: below it the keys are scanned. -/
def indexFloor : Nat := 8

/-- A frame's end that has not been settled since a thaw. -/
def noEnd : Nat := 4294967295

namespace Pred

/-- Entry `i` of the death array, zero where there is no array. -/
def deathAt (p : Pred) (i : Nat) : Nat :=
  match p.tomb with
  | none => 0
  | some tomb => tomb i

/-- `coco_pred_nprobe`. -/
def setNprobe (p : Pred) : Pred :=
  { p with nprobe := if p.ntomb = 0 ∧ p.nclauses ≤ 4294967295 then p.nclauses else 0 }

/-- `coco_pred_unindex`. -/
def unindex (p : Pred) : Pred :=
  { p with indexed := false, aix := fun j => { p.aix j with indexed := false } }

/-- The clause count written, the arrays as they are. -/
def withCount (p : Pred) (n : Nat) : Pred := { p with nclauses := n }

/-- `tver` moved on, in 32 bits. -/
def bumpVer (p : Pred) : Pred := { p with tver := (p.tver + 1) % 2 ^ 32 }

/-- One turn of the loops that move a clause: the five arrays that always move. -/
def copyRow (p : Pred) (dst src : Nat) : Pred :=
  { p with
    clauses := Function.update p.clauses dst (p.clauses src)
    keys := Function.update p.keys dst (p.keys src)
    origins := Function.update p.origins dst (p.origins src)
    muted := Function.update p.muted dst (p.muted src)
    codes := Function.update p.codes dst (p.codes src) }

/-- The death array moved with them, where there is one. -/
def copyTomb (p : Pred) (dst src : Nat) : Pred :=
  { p with tomb := p.tomb.map fun tomb => Function.update tomb dst (tomb src) }

/-- A new clause written at a position of every array, its program not made yet and,
where there are dead, itself alive. -/
def putRow (p : Pred) (i : Nat) (c : NewClause) : Pred :=
  { p with
    clauses := Function.update p.clauses i c.clause
    keys := Function.update p.keys i c.key
    origins := Function.update p.origins i c.origin
    muted := Function.update p.muted i c.muted
    codes := Function.update p.codes i none
    tomb := p.tomb.map fun tomb => Function.update tomb i 0 }

/-- `while (i > k)`: the clauses from `k` up to `i` moved up one, from the top. -/
def shiftUp (p : Pred) (k : Nat) : Nat → Pred
  | 0 => p
  | i + 1 => if k < i + 1 then ((p.copyRow (i + 1) i).copyTomb (i + 1) i).shiftUp k i else p

/-- `for (j = i; j + 1 < nclauses; j++)`: the clauses after `i` moved down one. -/
def shiftDown (p : Pred) (i : Nat) : Pred :=
  (List.range' i (p.nclauses - 1 - i)).foldl (fun p j => p.copyRow j (j + 1)) p

/-- One turn of a compaction: the clause at `i` dropped, or moved down to the end of what
is kept. -/
def keepStep (drop : Pred → Nat → Bool) (s : Pred × Nat) (i : Nat) : Pred × Nat :=
  if drop s.1 i = true then s
  else ((if s.2 ≠ i then s.1.copyRow s.2 i else s.1), s.2 + 1)

/-- The compacting loop over the whole list: the arrays moved and how many were kept. -/
def compact (p : Pred) (drop : Pred → Nat → Bool) : Pred × Nat :=
  (List.range p.nclauses).foldl (keepStep drop) (p, 0)

/-- `coco_pred_dead`. -/
def dead (p : Pred) (i : Nat) : Bool := p.ntomb != 0 && p.deathAt i != 0

/-- `coco_pred_live`. -/
def live (p : Pred) : Nat := p.nclauses - p.ntomb

/-- `coco_tomb_ready`: the death array made the first time, the predicate listed.
`made` and `listed` say whether memory for each could be had. -/
def tombReady (p : Pred) (made listed : Bool) : Bool × Pred :=
  if p.tomb.isNone ∧ made = false then (false, p)
  else
    let p := { p with tomb := some (p.tomb.getD fun _ => 0) }
    if p.tlisted = false ∧ listed = false then (false, p)
    else (true, { p with tlisted := true })

/-- `coco_tomb_set`. -/
def tombSet (p : Pred) (i era : Nat) : Pred :=
  ({ p with
    tomb := p.tomb.map fun tomb => Function.update tomb i era
    ntomb := p.ntomb + 1 } : Pred).setNprobe.bumpVer

/-- `coco_pred_sweep`. -/
def sweep (p : Pred) : Pred :=
  if p.ntomb = 0 then p
  else
    let (q, kept) := p.compact fun q i => q.deathAt i != 0
    let q := ({ q with nclauses := kept, ntomb := 0 } : Pred).setNprobe
    ({ q with tomb := none, tprobe := 0, tera := 0 } : Pred).bumpVer.unindex

/-- `coco_chain_add` with its count of the longest chain. -/
def chainAdd (p : Pred) (key at_ : Nat) : Pred :=
  let sl := p.table.slots (p.table.slotOf key)
  { p with
    table := p.table.add key at_
    kmax :=
      if key = 0 then p.kmax
      else if sl.key = 0 then (if p.kmax = 0 then 1 else p.kmax)
      else if p.kmax < sl.count + 1 then sl.count + 1 else p.kmax }

/-- `coco_pred_reindex`: the first argument's table built again from the keys. It
answers false, nothing changed, where the slots could not be had. -/
def reindex (p : Pred) (grew : Bool) : Bool × Pred :=
  if grew = false then (false, p)
  else
    let p := { p with table := p.table.clear (Table.wanted (p.nclauses * 2)), kmax := 0 }
    let p := (List.range p.nclauses).foldl (fun p i => p.chainAdd (p.keys i) i) p
    (true, { p with indexed := true })

/-- `coco_aix_get`: argument `pos`'s index, built from the clauses' heads where it is
not. `headKey` is what `coco_store_arg_key` reads for a clause and an argument. -/
def aixGet (headKey : Nat → Nat → Nat) (p : Pred) (pos : Nat) (grew : Bool) :
    Option ArgIx × Pred :=
  let x := p.aix (pos - 1)
  if x.indexed = true then (some x, p)
  else if grew = false then (none, p)
  else
    let keys := fun i => if i < p.nclauses then headKey (p.clauses i) pos else x.keys i
    let table := (x.table.clear (Table.wanted ((p.nclauses + 1) * 2))).addAll keys p.nclauses
    let x := { x with keys, table, indexed := true }
    (some x, { p with aix := Function.update p.aix (pos - 1) x })

/-- An `assertz` on one other argument's index that is built: the new clause joins it
while the table stays under half full and its arrays grow, and the index goes else. -/
def aixAppend (headKey : Nat → Nat → Nat) (p : Pred) (clause : Nat) (grew : Bool) (j : Nat) :
    ArgIx :=
  let x := p.aix j
  let at_ := p.nclauses - 1
  if x.indexed = false then x
  else if p.nclauses * 2 < x.table.nslots ∧ grew = true then
    let key := headKey clause (j + 1)
    { x with keys := Function.update x.keys at_ key, table := x.table.add key at_ }
  else { x with indexed := false }

/-- What an `assertz` does to the indexes, the clause already counted. -/
def indexAppend (headKey : Nat → Nat → Nat) (p : Pred) (clause key : Nat) (grew : Bool) : Pred :=
  let p :=
    if p.indexed = true then
      if p.nclauses * 2 < p.table.nslots then p.chainAdd key (p.nclauses - 1)
      else { p with indexed := false }
    else p
  { p with
    aix := fun j => if j < aixCount then p.aixAppend headKey clause grew j else p.aix j }

/-- `coco_pred_cut_back`. -/
def cutBack (p : Pred) (keep : Nat) : Pred :=
  if p.nclauses ≤ keep then p
  else (p.withCount keep).bumpVer.setNprobe.unindex

/-- `coco_forget_match`: the clauses a forgetting takes. 2 is every muted one, 3 every
other, 4 every one; else those of the origin with that mute. -/
def forgetMatch (p : Pred) (i origin : Nat) (mute : Int) : Bool :=
  if mute = 2 then p.muted i != 0
  else if mute = 3 then p.muted i == 0
  else if mute = 4 then true
  else p.origins i == origin && p.muted i == mute

end Pred

/-- What `coco_frames_on` is asked: whether any frame is open; a death for each to live
through; a clause put in for each past it to move on; which would still meet a position. -/
inductive Act where
  | any
  | death (era : Nat)
  | moved (at_ : Nat)
  | sees (at_ : Nat)
deriving Repr, DecidableEq

namespace Frame

/-- The first death a frame lives through is kept. -/
def livesThrough (era : Nat) (f : Frame) : Frame :=
  if f.fera = 0 then { f with fera := era } else f

/-- A frame at or past the new clause moves on with the clauses it was going to try. -/
def movedOn (at_ : Nat) (f : Frame) : Frame :=
  if at_ ≤ f.clauseIx then
    { f with clauseIx := f.clauseIx + 1, cend := if f.cend ≠ noEnd then f.cend + 1 else f.cend }
  else f

/-- The frame has a clause before `at_` still to try and one after it. -/
def sees (at_ : Nat) (f : Frame) : Bool :=
  decide (f.clauseIx < at_) && (f.cend != noEnd) && decide (at_ < f.cend)

/-- A position short of the frame's end. -/
def short (f : Frame) (a : Option Nat) : Option Nat := a.filter fun a => decide (a < f.cend)

end Frame

namespace World

/-- `coco_frames_on`: its answer, and the frames and the `framed` mark after it. -/
def framesOn (w : World) (act : Act) : Nat × World :=
  if w.pred.framed = false then (0, w)
  else
    let n := match act with
      | .any => min 1 w.frames.length
      | .death _ | .moved _ => w.frames.length
      | .sees at_ => w.frames.countP (Frame.sees at_)
    let frames := match act with
      | .death era => w.frames.map (Frame.livesThrough era)
      | .moved at_ => w.frames.map (Frame.movedOn at_)
      | .any | .sees _ => w.frames
    (n, { w with frames, pred := { w.pred with framed := !w.frames.isEmpty } })

/-- `coco_tomb_open`: the death's number where a frame is open and there is room for the
dead, 0 where the clause is to be taken out. -/
def tombOpen (w : World) (made listed : Bool) : Nat × World :=
  let era := (w.pred.tera + 1) % 2 ^ 32
  let (n, w) := w.framesOn (.death era)
  if n = 0 then (0, w)
  else
    let (ready, p) := w.pred.tombReady made listed
    if ready = true then (era, { w with pred := { p with tera := era } })
    else (0, { w with pred := p })

/-- `coco_tomb_try_sweep`: the dead taken out where no frame is open. -/
def trySweep (w : World) : Bool × World :=
  if w.pred.ntomb = 0 then (true, w)
  else
    let (n, w) := w.framesOn .any
    if n ≠ 0 then (false, w) else (true, { w with pred := w.pred.sweep })

/-- `coco_pred_add_clause`, an `assertz` or an `asserta`. It answers false where the
arrays would not grow. -/
def addClause (headKey : Nat → Nat → Nat) (w : World) (atEnd : Bool) (c : NewClause)
    (room grew : Bool) : Bool × World :=
  let w := if w.pred.ntomb ≠ 0 then w.trySweep.2 else w
  if room = false then (false, w)
  else
    let p := w.pred
    if atEnd = true then
      let p := p.putRow p.nclauses c
      let p := (p.withCount (p.nclauses + 1)).setNprobe.bumpVer
      (true, { w with pred := p.indexAppend headKey c.clause c.key grew })
    else
      let p := ((p.shiftUp 0 p.nclauses).putRow 0 c).unindex
      let p := (p.withCount (p.nclauses + 1)).setNprobe.bumpVer
      (true, ({ w with pred := p } : World).framesOn (.moved 0) |>.2)

/-- `coco_pred_insert_at`. -/
def insertAt (w : World) (k : Nat) (c : NewClause) (room : Bool) : Bool × World :=
  if room = false then (false, w)
  else
    let p := (w.pred.shiftUp k w.pred.nclauses).putRow k c
    let p := (p.withCount (p.nclauses + 1)).setNprobe.bumpVer.unindex
    (true, ({ w with pred := p } : World).framesOn (.moved k) |>.2)

/-- `coco_retract_at`: a death under an open call, a sweep that takes the clause with the
dead of before, or the clause taken out of the arrays. -/
def retractAt (w : World) (i : Nat) (made listed : Bool) : World :=
  let (era, w) := w.tombOpen made listed
  if era ≠ 0 then { w with pred := { w.pred.tombSet i era with dynamic := true } }
  else if w.pred.ntomb ≠ 0 then
    { w with pred := { (w.pred.tombSet i 1).sweep with dynamic := true } }
  else
    let p := { w.pred with codes := Function.update w.pred.codes i none }
    let p := p.shiftDown i
    let p := (p.withCount (p.nclauses - 1)).setNprobe.bumpVer.unindex
    { w with pred := { p with dynamic := true } }

/-- The live clauses a test takes, each given the same death. -/
def killAll (p : Pred) (takes : Pred → Nat → Bool) (era : Nat) : Pred :=
  (List.range p.nclauses).foldl
    (fun p i => if takes p i = true ∧ p.deathAt i = 0 then p.tombSet i era else p) p

/-- `coco_pred_forget_where`, the clauses one file or one mute put there. -/
def forgetWhere (w : World) (origin : Nat) (mute : Int) (made listed : Bool) : World :=
  let (era, w) := w.tombOpen made listed
  if era ≠ 0 then
    { w with pred := killAll w.pred (fun p i => p.forgetMatch i origin mute) era }
  else
    let (q, kept) := w.pred.compact fun q i => q.dead i || q.forgetMatch i origin mute
    if kept = w.pred.nclauses then w
    else
      let q := (q.withCount kept).bumpVer
      let q := if q.tomb.isSome then { q with tomb := none, ntomb := 0, tprobe := 0, tera := 0 }
        else q
      { w with pred := q.setNprobe.unindex }

end World

end Cocolog.Store
