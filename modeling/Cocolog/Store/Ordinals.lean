import Cocolog.Store.Freeze

/-! The clauses of a predicate by their ordinals among the live ones. Where the last one asked for
was is kept with the version it was good for, and the scan goes on from there. The version is
a 32-bit count of the changes, so it comes round. -/

set_option linter.all false

namespace Cocolog.Store

open Cocolog.Lib

/-- The members `lver`, `lord` and `lpos`: the `lord`th live clause at `lpos`. -/
structure Cache where
  lver : Nat := 0
  lord : Nat := 0
  lpos : Nat := 0
deriving Repr, DecidableEq

namespace Pred

/-- The loop of `coco_pred_live_at`, with the number of positions left. -/
def seekLive (p : Pred) (n : Nat) : Nat → Nat → Nat → Option Nat
  | 0, _, _ => none
  | left + 1, i, k =>
    if p.deathAt i = 0 then if k = n then some i else p.seekLive n left (i + 1) (k + 1)
    else p.seekLive n left (i + 1) k

/-- Where the loop begins. -/
def resumeAt (p : Pred) (c : Cache) (n : Nat) : Nat × Nat :=
  if c.lver = p.tver ∧ c.lord ≤ n ∧ c.lpos < p.nclauses then (c.lpos, c.lord) else (0, 0)

/-- `coco_pred_live_at`: its answer, none where there is no such clause, and what it keeps. -/
def liveAt (p : Pred) (c : Cache) (n : Nat) : Option Nat × Cache :=
  if p.ntomb = 0 then (if n < p.nclauses then some n else none, c)
  else
    let (i, k) := p.resumeAt c n
    match p.seekLive n (p.nclauses - i) i k with
    | some i => (some i, ⟨p.tver, n, i⟩)
    | none => (none, c)

/-- The positions of the clauses that are not dead. -/
def living (p : Pred) : List Nat := (List.range p.nclauses).filter fun i => !p.dead i

/-- Which clauses live. -/
def lives (p : Pred) : List Bool := p.recs.map Rec.live

end Pred

namespace World

/-- The moves of the version in a sweep tried. -/
def sweepMoves (w : World) : Nat :=
  if w.pred.ntomb = 0 then 0 else if (w.framesOn .any).1 ≠ 0 then 0 else 1

/-- In an assertion. -/
def addMoves (w : World) (room : Bool) : Nat := w.sweepMoves + room.toNat

/-- In a fetch. -/
def fetchMoves (headKey : Nat → Nat → Nat) (w : World) : List (NewClause × Bool × Bool) → Nat
  | [] => 0
  | c :: cs => w.addMoves c.2.1 + fetchMoves headKey (w.addClause headKey true c.1 c.2.1 c.2.2).2 cs

/-- Where clauses may die together or go together: one move for each death, or one for all that go. -/
def takenMoves (p q : Pred) : Nat := if q.nclauses = p.nclauses then q.ntomb - p.ntomb else 1

/-- The moves of the version in an edit, counted without end. -/
def moves (headKey : Nat → Nat → Nat) (w : World) (e : Edit) : Nat :=
  match e with
  | .add _ _ room _ => w.addMoves room
  | .insertAt k _ room => if k ≤ w.pred.nclauses then room.toNat else 0
  | .retractAt i made listed =>
    if i < w.pred.nclauses ∧ w.pred.dead i = false then
      if (w.tombOpen made listed).1 = 0 ∧ (w.tombOpen made listed).2.pred.ntomb ≠ 0 then 2 else 1
    else 0
  | .trySweep => w.sweepMoves
  | .sweep => if w.pred.ntomb = 0 then 0 else 1
  | .forget .. | .killFrom .. => takenMoves w.pred (w.edit headKey e).pred
  | .failedRead cs =>
    w.fetchMoves headKey cs + if (w.fetch headKey cs).pred.nclauses ≤ w.pred.nclauses then 0 else 1
  | .compile .. | .adopt .. | .reindex _ | .aixGet .. | .engines .. => 0

end World

/-- The version moved on by `k`, and not at all only where the same clauses live. -/
structure Moved (p q : Pred) (k : Nat) : Prop where
  ver : q.tver % 2 ^ 32 = (p.tver + k) % 2 ^ 32
  small : p.tver < 2 ^ 32 → q.tver < 2 ^ 32
  same : k = 0 → q.lives = p.lives

variable {headKey : Nat → Nat → Nat} {p q r : Pred} {w : World}

namespace Moved

theorem still (ver : q.tver = p.tver) (lives : q.lives = p.lives) : Moved p q 0 :=
  ⟨by rw [ver, Nat.add_zero], fun small => ver ▸ small, fun _ => lives⟩

theorem once (ver : q.tver = (p.tver + 1) % 2 ^ 32) : Moved p q 1 :=
  ⟨by rw [ver, Nat.mod_mod], fun _ => ver ▸ Nat.mod_lt _ (Nat.two_pow_pos 32), fun none_ => absurd none_ Nat.one_ne_zero⟩

theorem trans {k l : Nat} (first : Moved p q k) (second : Moved q r l) : Moved p r (k + l) := by
  obtain ⟨ver, small, same⟩ := first
  obtain ⟨ver', small', same'⟩ := second
  refine ⟨by omega, small' ∘ small, fun none_ => ?_⟩
  rw [same' (by omega), same (by omega)]

end Moved

namespace Pred

theorem tver_of_bare (same : q.bare = p.bare) : q.tver = p.tver := by
  show q.bare.tver = p.bare.tver
  rw [same]

theorem sweep_moves (some_ : p.ntomb ≠ 0) : Moved p p.sweep 1 := by
  have ver := tver_of_bare (compact_spec p (sweep_reads p)).bare
  refine .once ?_
  rw [sweep, if_neg some_, ← ver]
  rfl

theorem lives_modify (l : List Rec) (i : Nat) {f : Rec → Rec} (same : ∀ r, (f r).live = r.live) :
    (l.modify i f).map Rec.live = l.map Rec.live := by
  induction l generalizing i with
  | nil => rw [List.modify_nil]
  | cons r rest ih =>
    cases i with
    | zero => rw [List.modify_zero_cons, List.map_cons, List.map_cons, same]
    | succ i => rw [List.modify_succ_cons, List.map_cons, List.map_cons, ih]

/-- Deaths of many: the version moves once for each. -/
theorem kills_moves (takes : Pred → Nat → Bool) (era : Nat) (positions : List Nat) (p : Pred) :
    ∃ d q, positions.foldl (fun p i => if takes p i = true ∧ p.deathAt i = 0 then p.tombSet i era else p) p = q ∧
      Moved p q d ∧ q.ntomb = p.ntomb + d ∧ q.nclauses = p.nclauses := by
  induction positions generalizing p with
  | nil => exact ⟨0, p, rfl, .still rfl rfl, rfl, rfl⟩
  | cons i rest ih =>
    rw [List.foldl_cons]
    split
    · obtain ⟨d, q, is, moved, dead, count⟩ := ih (p.tombSet i era)
      have dead' : (p.tombSet i era).ntomb = p.ntomb + 1 := rfl
      exact ⟨1 + d, q, is, Moved.trans (.once rfl) moved, by omega, count⟩
    · exact ih p

end Pred

namespace World

theorem framesOn_moves (w : World) (act : Act) : Moved w.pred (w.framesOn act).2.pred 0 := by
  obtain ⟨framed, is⟩ := framesOn_pred w act
  rw [is]
  exact .still rfl rfl

theorem trySweep_moves (w : World) : Moved w.pred w.trySweep.2.pred w.sweepMoves := by
  rw [sweepMoves]
  split
  · rename_i none_
    rw [trySweep, if_pos none_]
    exact .still rfl rfl
  · rename_i some_
    rw [trySweep_eq some_]
    split
    · exact framesOn_moves w .any
    · obtain ⟨framed, is⟩ := framesOn_pred w .any
      have swept : Moved (w.framesOn .any).2.pred (w.framesOn .any).2.pred.sweep 1 :=
        Pred.sweep_moves (by rw [is]; exact some_)
      have both := (framesOn_moves w .any).trans swept
      rwa [Nat.zero_add] at both

theorem swept_moves (w : World) : Moved w.pred (if w.pred.ntomb ≠ 0 then w.trySweep.2 else w).pred w.sweepMoves := by
  split
  · exact trySweep_moves w
  · rename_i none_
    rw [sweepMoves, if_pos (not_not.mp none_)]
    exact .still rfl rfl

theorem indexAppend_tver (p : Pred) (clause key : Nat) (grew : Bool) : (p.indexAppend headKey clause key grew).tver = p.tver := by
  rw [Pred.indexAppend]
  split
  · split <;> rfl
  · rfl

theorem addClause_moves (w : World) (atEnd : Bool) (c : NewClause) (room grew : Bool) :
    Moved w.pred (w.addClause headKey atEnd c room grew).2.pred (w.addMoves room) := by
  have swept := swept_moves w
  rw [addClause, addMoves]
  generalize (if w.pred.ntomb ≠ 0 then w.trySweep.2 else w) = v at swept
  cases room with
  | false => exact swept
  | true =>
    refine swept.trans ?_
    cases atEnd with
    | true => exact .once (indexAppend_tver _ c.clause c.key grew)
    | false =>
      have ver := Pred.tver_of_bare (Pred.shiftUp_bare v.pred 0 v.pred.nclauses)
      refine Moved.trans (k := 1) (l := 0) (.once ?_) (framesOn_moves _ (.moved 0))
      rw [← ver]
      rfl

theorem fetch_moves (w : World) (cs : List (NewClause × Bool × Bool)) :
    Moved w.pred (w.fetch headKey cs).pred (w.fetchMoves headKey cs) := by
  induction cs generalizing w with
  | nil => exact .still rfl rfl
  | cons c cs ih => exact (addClause_moves w true c.1 c.2.1 c.2.2).trans (ih _)

theorem cutBack_moves (p : Pred) (keep : Nat) : Moved p (p.cutBack keep) (if p.nclauses ≤ keep then 0 else 1) := by
  rw [Pred.cutBack]
  split
  · exact .still rfl rfl
  · exact .once rfl

theorem insertAt_moves (w : World) (k : Nat) (c : NewClause) (room : Bool) :
    Moved w.pred (w.insertAt k c room).2.pred room.toNat := by
  rw [insertAt]
  cases room with
  | false => exact .still rfl rfl
  | true =>
    have ver := Pred.tver_of_bare (Pred.shiftUp_bare w.pred k w.pred.nclauses)
    refine Moved.trans (k := 1) (l := 0) (.once ?_) (framesOn_moves _ (.moved k))
    rw [← ver]
    rfl

/-- Opening a death changes no count and no version. -/
theorem tombOpen_still (w : World) (made listed : Bool) :
    Moved w.pred (w.tombOpen made listed).2.pred 0 ∧ (w.tombOpen made listed).2.pred.ntomb = w.pred.ntomb ∧
      (w.tombOpen made listed).2.pred.nclauses = w.pred.nclauses := by
  obtain ⟨framed, is⟩ := framesOn_pred w (.death ((w.pred.tera + 1) % 2 ^ 32))
  have moved := framesOn_moves w (.death ((w.pred.tera + 1) % 2 ^ 32))
  rw [tombOpen]
  generalize w.framesOn (.death ((w.pred.tera + 1) % 2 ^ 32)) = s at is moved
  obtain ⟨n, v⟩ := s
  dsimp only at is moved ⊢
  have same : v.pred.ntomb = w.pred.ntomb ∧ v.pred.nclauses = w.pred.nclauses := by rw [is]; exact ⟨rfl, rfl⟩
  split
  · exact ⟨moved, same⟩
  · obtain ⟨tomb, tlisted, ready, recAt⟩ := Pred.tombReady_eq v.pred made listed
    have recs : ({ v.pred with tomb, tlisted } : Pred).lives = v.pred.lives := by rw [Pred.lives, Pred.recs, recAt]; rfl
    have both := moved.trans (.still (p := v.pred) (q := { v.pred with tomb, tlisted }) rfl recs)
    generalize v.pred.tombReady made listed = r at ready
    obtain ⟨ok, p⟩ := r
    dsimp only at ready ⊢
    rw [ready]
    split
    · exact ⟨⟨both.ver, both.small, both.same⟩, same⟩
    · exact ⟨both, same⟩

theorem retractAt_moves (w : World) (i : Nat) (made listed : Bool) :
    Moved w.pred (w.retractAt i made listed).pred
      (if (w.tombOpen made listed).1 = 0 ∧ (w.tombOpen made listed).2.pred.ntomb ≠ 0 then 2 else 1) := by
  have still := (tombOpen_still w made listed).1
  rw [retractAt]
  generalize w.tombOpen made listed = s at still
  obtain ⟨era, v⟩ := s
  dsimp only at still ⊢
  by_cases closed : era = 0
  · rw [if_neg (not_not.mpr closed)]
    by_cases none_ : v.pred.ntomb = 0
    · rw [if_neg (not_not.mpr none_), if_neg (fun both => both.2 none_)]
      have ver := Pred.tver_of_bare (Pred.shiftDown_spec ({ v.pred with codes := Function.update v.pred.codes i none } : Pred) i).1
      refine still.trans (l := 1) (.once ?_)
      exact congrArg (fun v => (v + 1) % 2 ^ 32) ver
    · rw [if_pos none_, if_pos ⟨closed, none_⟩]
      have died : Moved v.pred (v.pred.tombSet i 1) 1 := .once rfl
      have swept : Moved (v.pred.tombSet i 1) (v.pred.tombSet i 1).sweep 1 := Pred.sweep_moves (Nat.succ_ne_zero _)
      obtain ⟨ver, small, same⟩ := still.trans (died.trans swept)
      exact ⟨ver, small, same⟩
  · rw [if_pos closed, if_neg (fun both => closed both.1)]
    obtain ⟨ver, small, same⟩ := still.trans (.once rfl : Moved v.pred (v.pred.tombSet i era) 1)
    exact ⟨ver, small, same⟩

/-- Deaths together, counted by what the predicate then has. -/
theorem killAll_moves {v : World} (opened : Moved w.pred v.pred 0 ∧ v.pred.ntomb = w.pred.ntomb ∧ v.pred.nclauses = w.pred.nclauses)
    (takes : Pred → Nat → Bool) (era : Nat) :
    Moved w.pred (killAll v.pred takes era) (takenMoves w.pred (killAll v.pred takes era)) := by
  obtain ⟨still, dead, count⟩ := opened
  obtain ⟨d, q, is, moved, dead', count'⟩ := Pred.kills_moves takes era (List.range v.pred.nclauses) v.pred
  have both := still.trans moved
  rw [Nat.zero_add] at both
  rw [killAll, is, takenMoves, if_pos (by omega), show q.ntomb - w.pred.ntomb = d by omega]
  exact both

theorem takenMoves_still {v : World} (dead : v.pred.ntomb = w.pred.ntomb) (count : v.pred.nclauses = w.pred.nclauses) :
    takenMoves w.pred v.pred = 0 := by
  rw [takenMoves, if_pos count, dead, Nat.sub_self]

theorem forgetWhere_moves (w : World) (origin : Nat) (mute : Int) (made listed : Bool) :
    Moved w.pred (w.forgetWhere origin mute made listed).pred
      (takenMoves w.pred (w.forgetWhere origin mute made listed).pred) := by
  have opened := tombOpen_still w made listed
  rw [forgetWhere]
  generalize w.tombOpen made listed = s at opened
  obtain ⟨era, v⟩ := s
  dsimp only at opened ⊢
  split
  · exact killAll_moves opened _ era
  · split
    · rw [takenMoves_still opened.2.1 opened.2.2]
      exact opened.1
    · rename_i fewer
      have ver := Pred.tver_of_bare (Pred.compact_spec v.pred (Pred.forget_reads v.pred origin mute)).bare
      generalize v.pred.compact (fun q i => q.dead i || q.forgetMatch i origin mute) = c at fewer ver
      obtain ⟨q, kept⟩ := c
      dsimp only at fewer ver ⊢
      have shape : ∀ q' : Pred, q'.nclauses = kept → q'.tver = (q.tver + 1) % 2 ^ 32 → Moved w.pred q' (takenMoves w.pred q') := by
        intro q' count moves
        rw [takenMoves, count, if_neg (by rw [← opened.2.2]; exact fewer), ← Nat.zero_add 1]
        exact opened.1.trans (.once (by rw [moves, ver]))
      split <;> exact shape _ rfl rfl

theorem killFrom_moves (w : World) (k : Nat) (made listed : Bool) :
    Moved w.pred (w.killFrom k made listed).pred (takenMoves w.pred (w.killFrom k made listed).pred) := by
  have opened := tombOpen_still w made listed
  rw [killFrom]
  generalize w.tombOpen made listed = s at opened
  obtain ⟨era, v⟩ := s
  dsimp only at opened ⊢
  split
  · exact killAll_moves opened _ era
  · rw [takenMoves_still opened.2.1 opened.2.2]
    exact opened.1

/-- Every edit that changes which clauses live, or where they are, moves the version on. -/
theorem edit_moves (ok : w.pred.Ok headKey) (e : Edit) : Moved w.pred (w.edit headKey e).pred (w.moves headKey e) := by
  have recs := (edit_spec ok e).2
  cases e with
  | add atEnd c room grew => exact addClause_moves w atEnd c room grew
  | insertAt k c room =>
    rw [edit, moves]
    split
    · exact insertAt_moves w k c room
    · exact .still rfl rfl
  | retractAt i made listed =>
    rw [edit, moves]
    split
    · exact retractAt_moves w i made listed
    · exact .still rfl rfl
  | trySweep => exact trySweep_moves w
  | sweep =>
    rw [moves, edit]
    split
    · rename_i none_
      rw [Pred.sweep, if_pos none_]
      exact .still rfl rfl
    · rename_i some_
      exact Pred.sweep_moves some_
  | forget origin mute made listed => exact forgetWhere_moves w origin mute made listed
  | killFrom k made listed => exact killFrom_moves w k made listed
  | failedRead cs => exact (fetch_moves w cs).trans (cutBack_moves _ _)
  | compile i code => exact .still rfl ((congrArg (List.map Rec.live) recs).trans (Pred.lives_modify _ _ fun _ => rfl))
  | adopt k origin => exact .still rfl ((congrArg (List.map Rec.live) recs).trans (Pred.lives_modify _ _ fun _ => rfl))
  | reindex grew =>
    refine .still ?_ (congrArg (List.map Rec.live) recs)
    rcases Pred.reindex_eq w.pred grew with is | ⟨kmax, is⟩
    · rw [edit, is]
    · rw [edit, is]
  | aixGet pos grew =>
    refine .still ?_ (congrArg (List.map Rec.live) recs)
    rw [edit]
    split
    · rw [Pred.aixGet]
      split
      · rfl
      · split <;> rfl
    · rfl
  | engines frames framed => exact .still rfl rfl

end World

namespace Pred

/-- How many live before a position. -/
def before (p : Pred) (i : Nat) : Nat := (p.lives.take i).count true

theorem lives_getElem? {i : Nat} (below : i < p.nclauses) : p.lives[i]? = some (p.recAt i).live := by
  rw [lives, List.getElem?_map, recs_getElem? below, Option.map_some]

theorem before_succ {i : Nat} (below : i < p.nclauses) :
    p.before (i + 1) = p.before i + if p.deathAt i = 0 then 1 else 0 := by
  rw [before, before, List.take_add_one, lives_getElem? below, List.count_append]
  by_cases live : p.deathAt i = 0
  · rw [if_pos live]
    simp [Rec.live, recAt, live]
  · rw [if_neg live]
    simp [Rec.live, recAt, live]

/-- The scan from a position that has `k` live ones before it. -/
theorem seekLive_eq (n left i k : Nat) (le : k ≤ n) :
    p.seekLive n left i k = ((List.range' i left).filter fun i => p.deathAt i == 0)[n - k]? := by
  induction left generalizing i k with
  | zero => rfl
  | succ left ih =>
    rw [seekLive, List.range'_succ, List.filter_cons]
    by_cases live : p.deathAt i = 0
    · rw [if_pos live, if_pos (beq_iff_eq.mpr live)]
      by_cases here : k = n
      · rw [if_pos here, here, Nat.sub_self, List.getElem?_cons_zero]
      · rw [if_neg here, ih (i + 1) (k + 1) (by omega), show n - k = n - (k + 1) + 1 by omega, List.getElem?_cons_succ]
    · rw [if_neg live, if_neg (fun h => live (beq_iff_eq.mp h)), ih (i + 1) k le]

theorem length_before {i : Nat} (le : i ≤ p.nclauses) :
    ((List.range' 0 i).filter fun i => p.deathAt i == 0).length = p.before i := by
  induction i with
  | zero => rfl
  | succ i ih =>
    rw [List.range'_concat, List.filter_append, List.length_append, ih (by omega), before_succ (by omega), Nat.zero_add, Nat.one_mul,
      List.filter_singleton]
    by_cases live : p.deathAt i = 0
    · rw [if_pos live, live]
      rfl
    · rw [if_neg live, beq_false_of_ne live]
      rfl

theorem living_eq (some_ : p.ntomb ≠ 0) : p.living = (List.range' 0 p.nclauses).filter fun i => p.deathAt i == 0 := by
  rw [living, List.range_eq_range']
  refine List.filter_congr fun i _ => ?_
  rw [dead, bne_iff_ne.mpr some_, Bool.true_and, bne, Bool.not_not]

/-- A scan from where the kept answer says is a scan from the front. -/
theorem seekLive_living (some_ : p.ntomb ≠ 0) {i k n : Nat} (within : i ≤ p.nclauses) (kept : k = p.before i) (le : k ≤ n) :
    p.seekLive n (p.nclauses - i) i k = p.living[n]? := by
  rw [seekLive_eq n _ i k le, living_eq some_]
  have joined : List.range' 0 i ++ List.range' (0 + i) (p.nclauses - i) = List.range' 0 (i + (p.nclauses - i)) :=
    List.range'_append_1
  rw [Nat.zero_add, Nat.add_sub_cancel' within] at joined
  rw [← joined, List.filter_append, List.getElem?_append_right (by rw [length_before within, ← kept]; exact le), length_before within, ← kept]

theorem living_whole (none_ : p.ntomb = 0) : p.living = List.range p.nclauses := by
  refine List.filter_eq_self.mpr fun i _ => ?_
  rw [dead, none_]
  rfl

theorem mem_living {i : Nat} : i ∈ p.living ↔ i < p.nclauses ∧ p.dead i = false := by
  rw [living, List.mem_filter, List.mem_range, Bool.not_eq_true']

theorem liveBefore_before (some_ : p.ntomb ≠ 0) {i : Nat} (le : i ≤ p.nclauses) : p.liveBefore i = p.before i := by
  rw [liveBefore, if_neg some_, Nat.min_eq_left le, List.range_eq_range', List.countP_eq_length_filter, length_before le]

/-- A live clause is found by the number of those before it. -/
theorem living_liveBefore {i : Nat} (below : i < p.nclauses) (alive : p.dead i = false) : p.living[p.liveBefore i]? = some i := by
  by_cases none_ : p.ntomb = 0
  · rw [living_whole none_, liveBefore, if_pos none_, List.getElem?_range below]
  · have live : p.deathAt i = 0 := by
      rw [dead, bne_iff_ne.mpr none_, Bool.true_and] at alive
      exact bne_eq_false_iff_eq.mp alive
    rw [liveBefore_before none_ (Nat.le_of_lt below), ← seekLive_living none_ (Nat.le_of_lt below) rfl (Nat.le_refl _),
      show p.nclauses - i = p.nclauses - i - 1 + 1 by omega, seekLive, if_pos live, if_pos rfl]

theorem liveBefore_eq_of {i n : Nat} (here : p.living[n]? = some i) : i < p.nclauses ∧ p.dead i = false ∧ p.liveBefore i = n := by
  obtain ⟨below, alive⟩ := mem_living.mp (List.mem_of_getElem? here)
  have once : p.living.Nodup := List.nodup_range.filter _
  have there := living_liveBefore below alive
  have lt : p.liveBefore i < p.living.length := (List.getElem?_eq_some_iff.mp there).1
  exact ⟨below, alive, (List.getElem?_inj lt once).mp (there.trans here.symm)⟩

end Pred

/-- A predicate with what it keeps of the last answer, and how often the version has moved since: `old` no
code reads. -/
structure Watched where
  world : World := {}
  cache : Cache := {}
  old : Nat := 0

/-- The edits, and the two questions. -/
inductive Ask where
  | edit (e : Edit)
  | liveAt (n : Nat)
  | liveBefore (i : Nat)

namespace Watched

/-- What `coco_pred_live_at` answers. -/
def liveAt (s : Watched) (n : Nat) : Option Nat := (s.world.pred.liveAt s.cache n).1

/-- One edit or question. An answer is kept where there are dead clauses and the clause was found. -/
def step (headKey : Nat → Nat → Nat) (s : Watched) : Ask → Watched
  | .edit e => ⟨s.world.edit headKey e, s.cache, s.old + s.world.moves headKey e⟩
  | .liveAt n =>
    { s with
      cache := (s.world.pred.liveAt s.cache n).2
      old := if s.world.pred.ntomb ≠ 0 ∧ (s.liveAt n).isSome then 0 else s.old }
  | .liveBefore _ => s

/-- A kept answer is not taken up when the version has come round to it, the moves since being a multiple
of 2^32. -/
def Current (s : Watched) : Ask → Prop
  | .liveAt n => s.world.pred.ntomb ≠ 0 ∧ s.cache.lord ≤ n ∧ s.cache.lpos < s.world.pred.nclauses ∧ s.old % 2 ^ 32 = 0 → s.old = 0
  | _ => True

instance (s : Watched) : (ask : Ask) → Decidable (s.Current ask)
  | .liveAt _ => inferInstanceAs (Decidable (_ → _))
  | .edit _ | .liveBefore _ => .isTrue trivial

/-- The questions answered as by a scan from the front, each undoing the other. -/
def Right (s : Watched) : Ask → Prop
  | .edit _ => True
  | .liveAt n =>
    s.liveAt n = s.world.pred.living[n]? ∧
      ∀ i, s.liveAt n = some i → i < s.world.pred.nclauses ∧ s.world.pred.dead i = false ∧ s.world.pred.liveBefore i = n
  | .liveBefore i =>
    i < s.world.pred.nclauses → s.world.pred.dead i = false → s.world.pred.living[s.world.pred.liveBefore i]? = some i

/-- The answer kept was right when it was, and the version has moved since as counted. -/
structure Kept (headKey : Nat → Nat → Nat) (s : Watched) : Prop where
  ok : s.world.pred.Ok headKey
  small : s.world.pred.tver < 2 ^ 32
  ver : s.world.pred.tver = (s.cache.lver + s.old) % 2 ^ 32
  lver : s.cache.lver < 2 ^ 32
  still : s.old = 0 → s.cache.lord = s.world.pred.before s.cache.lpos

variable {s : Watched}

theorem kept_new : Kept headKey {} :=
  ⟨Pred.empty_ok, by decide, rfl, by decide, fun _ => rfl⟩

/-- A question while the version has not come round. -/
theorem Kept.liveAt (kept : Kept headKey s) {n : Nat} (current : s.Current (.liveAt n)) : s.liveAt n = s.world.pred.living[n]? := by
  rw [Watched.liveAt, Pred.liveAt]
  by_cases none_ : s.world.pred.ntomb = 0
  · rw [if_pos none_, Pred.living_whole none_]
    by_cases below : n < s.world.pred.nclauses
    · rw [if_pos below, List.getElem?_range below]
    · rw [if_neg below, List.getElem?_eq_none (by rw [List.length_range]; omega)]
  · rw [if_neg none_]
    have begins : ∃ i k, s.world.pred.resumeAt s.cache n = (i, k) ∧ i ≤ s.world.pred.nclauses ∧ k = s.world.pred.before i ∧ k ≤ n := by
      rw [Pred.resumeAt]
      split
      · rename_i going
        obtain ⟨same, le, within⟩ := going
        have still : s.old = 0 := by
          have ver := kept.ver
          have lver := kept.lver
          exact current ⟨none_, le, within, by omega⟩
        exact ⟨_, _, rfl, Nat.le_of_lt within, kept.still still, le⟩
      · exact ⟨0, 0, rfl, Nat.zero_le _, rfl, Nat.zero_le n⟩
    obtain ⟨i, k, is, within, here, le⟩ := begins
    rw [is]
    dsimp only
    rw [Pred.seekLive_living none_ within here le]
    cases s.world.pred.living[n]? <;> rfl

theorem Kept.right (kept : Kept headKey s) (ask : Ask) (current : s.Current ask) : s.Right ask := by
  cases ask with
  | edit e => trivial
  | liveAt n =>
    have answer := kept.liveAt current
    exact ⟨answer, fun i is => Pred.liveBefore_eq_of (answer ▸ is)⟩
  | liveBefore i => exact Pred.living_liveBefore

theorem Kept.step (kept : Kept headKey s) (ask : Ask) (current : s.Current ask) : Kept headKey (s.step headKey ask) := by
  cases ask with
  | edit e =>
    obtain ⟨ver, small, same⟩ := World.edit_moves kept.ok e
    have ver' := kept.ver
    have small' := small kept.small
    refine ⟨(World.edit_spec kept.ok e).1, small', ?_, kept.lver, fun none_ => ?_⟩
    · show (s.world.edit headKey e).pred.tver = (s.cache.lver + (s.old + s.world.moves headKey e)) % 2 ^ 32
      omega
    · have none_ : s.old + s.world.moves headKey e = 0 := none_
      have lives : (s.world.edit headKey e).pred.lives = s.world.pred.lives := same (by omega)
      show s.cache.lord = Pred.before (s.world.edit headKey e).pred s.cache.lpos
      rw [Pred.before, lives]
      exact kept.still (by omega)
  | liveAt n =>
    have right := (kept.right (.liveAt n) current).2
    rw [Watched.step]
    by_cases kept' : s.world.pred.ntomb ≠ 0 ∧ (s.liveAt n).isSome
    · obtain ⟨some_, found⟩ := kept'
      obtain ⟨i, is⟩ := Option.isSome_iff_exists.mp found
      have cache : (s.world.pred.liveAt s.cache n).2 = ⟨s.world.pred.tver, n, i⟩ := by
        rw [Watched.liveAt, Pred.liveAt, if_neg some_] at is
        rw [Pred.liveAt, if_neg some_]
        dsimp only at is ⊢
        split at is
        · rename_i j there
          cases is
          rfl
        · cases is
      obtain ⟨below, -, at_⟩ := right i is
      rw [if_pos ⟨some_, found⟩, cache]
      refine ⟨kept.ok, kept.small, (Nat.mod_eq_of_lt kept.small).symm, kept.small, fun _ => ?_⟩
      rw [Pred.liveBefore_before some_ (Nat.le_of_lt below)] at at_
      exact at_.symm
    · have cache : (s.world.pred.liveAt s.cache n).2 = s.cache := by
        rw [Watched.liveAt, Pred.liveAt] at kept'
        rw [Pred.liveAt]
        by_cases none_ : s.world.pred.ntomb = 0
        · rw [if_pos none_]
        · rw [if_neg none_] at kept' ⊢
          dsimp only at kept' ⊢
          split
          · rename_i i is
            rw [is] at kept'
            exact absurd ⟨none_, rfl⟩ kept'
          · rfl
      rw [if_neg kept', cache]
      exact kept
  | liveBefore i => exact kept

end Watched

open Watched

/-- Every question of a run is answered as by a scan from the front, where no kept answer is taken up after
the version has come round. -/
theorem live_ordinals (headKey : Nat → Nat → Nat) (asks : List Ask) (current : Along (step headKey) Current {} asks) :
    Along (step headKey) Right {} asks := by
  have along : ∀ (asks : List Ask) s, Kept headKey s → Along (step headKey) Current s asks → Along (step headKey) Right s asks := by
    intro asks
    induction asks with
    | nil => exact fun _ _ _ => trivial
    | cons ask rest ih =>
      intro s kept current
      exact ⟨kept.right ask current.1, ih _ (kept.step ask current.1) current.2⟩
  exact along asks {} kept_new current

/-- An answer kept, and taken up while it is good. -/
theorem live_ordinals_kept :
    Along (step fun _ _ => 0) Right {} [.edit (.add true ⟨0, 0, 0, 0⟩ true true), .edit (.add true ⟨0, 0, 0, 0⟩ true true),
      .edit (.engines [⟨.clause, 0, 0, 0, 0, 2, 0⟩] true), .edit (.retractAt 0 true true), .liveAt 0, .liveAt 1] :=
  live_ordinals (fun _ _ => 0) _ (by decide)

section Round

/-- A clause, as a record. -/
def plain : NewClause := ⟨0, 0, 0, 0⟩

/-- An answer kept under an open call, and the predicate then changed with no call open. -/
def kept : List Ask :=
  [.edit (.add true plain true true), .edit (.add true plain true true), .edit (.engines [⟨.clause, 0, 0, 0, 0, 2, 0⟩] true),
    .edit (.retractAt 0 true true), .liveAt 0, .edit (.engines [] false), .edit (.add true plain true true),
    .edit (.add true plain true true)]

/-- The last clause retracted and asserted again. -/
def again : List Ask := [.edit (.engines [] false), .edit (.retractAt 2 true true), .edit (.add true plain true true)]

/-- The last clause dies under an open call. -/
def dies : List Ask := [.edit (.engines [⟨.clause, 0, 0, 0, 0, 3, 0⟩] true), .edit (.retractAt 2 true true)]

/-- Three clauses alive, and the kept answer that the first live one is the second. -/
structure Counting (s : Watched) (t : Nat) : Prop where
  ok : s.world.pred.Ok fun _ _ => 0
  recs : s.world.pred.recs = [plain.asRec, plain.asRec, plain.asRec]
  tera : s.world.pred.tera = 0
  cache : s.cache = ⟨3, 0, 1⟩
  ver : s.world.pred.tver = t % 2 ^ 32

theorem tombOpen_quiet (quiet : w.pred.framed = false) (made listed : Bool) : w.tombOpen made listed = (0, w) := by
  rw [World.tombOpen, World.framesOn, if_pos quiet]
  rfl

theorem retractAt_tera (quiet : w.pred.framed = false) (none_ : w.pred.ntomb = 0) (i : Nat) (made listed : Bool) :
    (w.retractAt i made listed).pred.tera = w.pred.tera := by
  have bare := (Pred.shiftDown_spec ({ w.pred with codes := Function.update w.pred.codes i none } : Pred) i).1
  rw [World.retractAt, tombOpen_quiet quiet]
  dsimp only
  rw [if_neg (not_not.mpr rfl), if_neg (not_not.mpr none_)]
  exact (Pred.of_bare bare).2.2.1

theorem addClause_tera (none_ : w.pred.ntomb = 0) (c : NewClause) (grew : Bool) :
    (w.addClause headKey true c true grew).2.pred.tera = w.pred.tera := by
  rw [World.addClause, if_neg (not_not.mpr none_)]
  dsimp only [Bool.true_eq_false, if_false, if_true]
  rw [if_neg Bool.true_eq_false_eq_False, if_pos rfl, Pred.indexAppend]
  split
  · split <;> rfl
  · rfl

/-- One turn of retracting and asserting moves the version twice and leaves the predicate as it was. -/
theorem Counting.turn {s : Watched} {t : Nat} (h : Counting s t) : Counting (run (step fun _ _ => 0) s again) (t + 2) := by
  obtain ⟨w, hw⟩ : ∃ w : World, w = s.world.edit (fun _ _ => 0) (.engines [] false) := ⟨_, rfl⟩
  have ok : w.pred.Ok fun _ _ => 0 := hw ▸ h.ok.framed false
  have recs : w.pred.recs = [plain.asRec, plain.asRec, plain.asRec] := hw ▸ h.recs
  have tera : w.pred.tera = 0 := hw ▸ h.tera
  have ver : w.pred.tver = t % 2 ^ 32 := hw ▸ h.ver
  have quiet : w.pred.framed = false := hw ▸ rfl
  have none_ : w.pred.ntomb = 0 := by rw [ok.dead, recs]; rfl
  have count : w.pred.nclauses = 3 := by rw [← Pred.length_recs, recs]; rfl
  have alive : (w.pred.recAt 2).live = true := by
    have here := Pred.recs_getElem? (p := w.pred) (i := 2) (by omega)
    rw [recs] at here
    exact Option.some.inj here ▸ rfl
  have here : w.pred.dead 2 = false := by rw [Pred.dead, none_]; rfl
  have within : 2 < w.pred.nclauses ∧ w.pred.dead 2 = false := ⟨by omega, here⟩
  -- the clause is taken out
  obtain ⟨v, hv⟩ : ∃ v : World, v = w.retractAt 2 true true := ⟨_, rfl⟩
  have out := @World.retractAt_out _ _ ok 2 within.1 alive true true (by rw [tombOpen_quiet quiet])
  have moved := World.retractAt_moves w 2 true true
  have tera' : v.pred.tera = 0 := hv ▸ (retractAt_tera quiet none_ 2 true true).trans tera
  rw [tombOpen_quiet quiet, if_neg (fun both => both.2 none_)] at moved
  rw [recs, ← hv] at out
  rw [← hv] at moved
  have recs' : v.pred.recs = [plain.asRec, plain.asRec] := out.2
  have none' : v.pred.ntomb = 0 := by rw [out.1.dead, recs']; rfl
  -- and asserted
  obtain ⟨u, hu⟩ : ∃ u : World, u = (v.addClause (fun _ _ => 0) true plain true true).2 := ⟨_, rfl⟩
  obtain ⟨ok', l, swept, added⟩ := World.addClause_spec out.1 true plain true true
  have moved' := @World.addClause_moves (fun _ _ => 0) v true plain true true
  have tera'' : u.pred.tera = 0 := hu ▸ (addClause_tera none' plain true).trans tera'
  rw [World.addMoves, World.sweepMoves, if_pos none'] at moved'
  rw [← hu] at ok' added moved'
  have same : l = [plain.asRec, plain.asRec] := by
    rcases swept with is | is
    · rw [is, recs']
    · rw [is, recs']
      rfl
  have ends_ : run (step fun _ _ => 0) s again = ⟨u, s.cache, s.old + (s.world.moves (fun _ _ => 0) (.engines [] false)) +
      w.moves (fun _ _ => 0) (.retractAt 2 true true) + v.moves (fun _ _ => 0) (.add true plain true true)⟩ := by
    have first : w.edit (fun _ _ => 0) (.retractAt 2 true true) = v := by rw [World.edit, if_pos within, hv]
    rw [again, run_cons, run_cons, run_cons, run_nil, Watched.step, Watched.step, Watched.step, ← hw]
    dsimp only
    rw [first, hu]
    rfl
  rw [ends_]
  refine ⟨ok', ?_, tera'', h.cache, ?_⟩
  · rw [added, same]
    rfl
  · have first := moved.ver
    have second := moved'.ver
    have small := moved'.small (moved.small (by omega))
    show u.pred.tver = (t + 2) % 2 ^ 32
    rw [show 0 + true.toNat = 1 from rfl] at second
    omega

theorem Counting.turns {s : Watched} {t : Nat} (h : Counting s t) (n : Nat) :
    Counting (run (step fun _ _ => 0) s (List.replicate n again).flatten) (t + 2 * n) := by
  induction n generalizing s t with
  | zero => exact h
  | succ n ih =>
    rw [List.replicate_succ, List.flatten_cons, run_append, show t + 2 * (n + 1) = t + 2 + 2 * n by omega]
    exact ih h.turn

theorem ok_run (asks : List Ask) : (run (step headKey) {} asks).world.pred.Ok headKey := by
  refine @run_invariant _ _ _ (fun s : Watched => s.world.pred.Ok headKey) (fun s ask ok => ?_) {} asks Pred.empty_ok
  cases ask with
  | edit e => exact (World.edit_spec ok e).1
  | liveAt n => exact ok
  | liveBefore i => exact ok

theorem counting_kept : Counting (run (step fun _ _ => 0) {} kept) 6 :=
  ⟨ok_run kept, by decide, by decide, by decide, by decide⟩

theorem tombReady_granted (p : Pred) : (p.tombReady true true).1 = true := by
  rw [Pred.tombReady, if_neg (fun both => Bool.noConfusion both.2)]
  dsimp only
  rw [if_neg (fun both => Bool.noConfusion both.2)]

theorem tombOpen_first {f : Frame} (frames : w.frames = [f]) (framed : w.pred.framed = true) (tera : w.pred.tera = 0) :
    (w.tombOpen true true).1 = 1 := by
  rw [World.tombOpen, World.framesOn, if_neg (by rw [framed]; decide), tera, frames]
  dsimp only
  rw [if_neg (show [f].length ≠ 0 from Nat.one_ne_zero)]
  exact congrArg Prod.fst (if_pos (tombReady_granted _))

/-- Once the version has come round, the kept answer is taken for a good one. -/
theorem Counting.wrong {s : Watched} {t : Nat} (h : Counting s t) (round : (t + 1) % 2 ^ 32 = 3) :
    ¬ (run (step fun _ _ => 0) s dies).Right (.liveAt 0) := by
  obtain ⟨w, hw⟩ : ∃ w : World, w = s.world.edit (fun _ _ => 0) (.engines [⟨.clause, 0, 0, 0, 0, 3, 0⟩] true) := ⟨_, rfl⟩
  have ok : w.pred.Ok fun _ _ => 0 := hw ▸ h.ok.framed true
  have recs : w.pred.recs = [plain.asRec, plain.asRec, plain.asRec] := hw ▸ h.recs
  have ver : w.pred.tver = t % 2 ^ 32 := hw ▸ h.ver
  have era : (w.tombOpen true true).1 = 1 := by
    rw [hw]
    exact tombOpen_first rfl rfl h.tera
  have none_ : w.pred.ntomb = 0 := by rw [ok.dead, recs]; rfl
  have count : w.pred.nclauses = 3 := by rw [← Pred.length_recs, recs]; rfl
  have alive : (w.pred.recAt 2).live = true := by
    have here := Pred.recs_getElem? (p := w.pred) (i := 2) (by omega)
    rw [recs] at here
    exact Option.some.inj here ▸ rfl
  have within : 2 < w.pred.nclauses ∧ w.pred.dead 2 = false := ⟨by omega, by rw [Pred.dead, none_]; rfl⟩
  obtain ⟨v, hv⟩ : ∃ v : World, v = w.retractAt 2 true true := ⟨_, rfl⟩
  have died := @World.retractAt_died _ _ ok 2 within.1 alive true true (by rw [era]; decide)
  have moved := World.retractAt_moves w 2 true true
  rw [era, if_neg (fun both => Nat.one_ne_zero both.1), ← hv] at moved
  rw [era, recs, ← hv] at died
  have recs' : v.pred.recs = [plain.asRec, plain.asRec, { plain.asRec with death := 1 }] := died.2
  have count' : v.pred.nclauses = 3 := by rw [← Pred.length_recs, recs']; rfl
  have some_ : v.pred.ntomb ≠ 0 := by rw [died.1.dead, recs']; decide
  have tver : v.pred.tver = 3 := by
    have := moved.ver
    have := moved.small (by omega)
    omega
  have live : v.pred.deathAt 1 = 0 := by
    have here := Pred.recs_getElem? (p := v.pred) (i := 1) (by omega)
    rw [recs'] at here
    exact (congrArg Rec.death (Option.some.inj here)).symm
  have ends_ : (run (step fun _ _ => 0) s dies).world = v ∧ (run (step fun _ _ => 0) s dies).cache = ⟨3, 0, 1⟩ := by
    rw [dies, run_cons, run_cons, run_nil, Watched.step, Watched.step, ← hw]
    exact ⟨by rw [World.edit, if_pos within, hv], h.cache⟩
  have answer : (run (step fun _ _ => 0) s dies).liveAt 0 = some 1 := by
    rw [Watched.liveAt, ends_.1, ends_.2, Pred.liveAt, if_neg some_, Pred.resumeAt, tver, count']
    dsimp only
    rw [if_pos ⟨rfl, Nat.le_refl 0, by decide⟩]
    dsimp only
    rw [show 3 - 1 = 1 + 1 from rfl, Pred.seekLive, if_pos live, if_pos rfl]
  intro right
  have before := (right.2 1 answer).2.2
  rw [ends_.1, Pred.liveBefore_before some_ (by omega), Pred.before, Pred.lives, recs'] at before
  cases before

theorem along_last {S E : Type*} {step : S → E → S} {cond : S → E → Prop} {s : S} {events : List E} {e : E}
    (along : Along step cond s (events ++ [e])) : cond (run step s events) e := by
  induction events generalizing s with
  | nil => exact along.1
  | cons first rest ih => exact ih along.2

/-- After 2^32 changes an answer kept before them is taken up. -/
theorem live_at_comes_round : ¬ ∀ (headKey : Nat → Nat → Nat) (asks : List Ask), Along (step headKey) Right {} asks := by
  intro claimed
  have along := claimed (fun _ _ => 0) (kept ++ (List.replicate (2 ^ 31 - 2) again).flatten ++ dies ++ [Ask.liveAt 0])
  have right := along_last along
  rw [run_append, run_append] at right
  exact (counting_kept.turns (2 ^ 31 - 2)).wrong (by decide) right

end Round

end Cocolog.Store
