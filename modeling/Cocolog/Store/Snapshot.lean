import Cocolog.Store.View
import Mathlib.Data.List.Forall2

/-! Every open call still has before it what it had when it was made, less what it tried.
The store's moves keep what each frame has left; the log's moves take from it. -/

set_option linter.all false

namespace Cocolog.Store

open Cocolog.Lib

variable {headKey : Nat → Nat → Nat}

/-- What the frames need of the store: no death past the last, no frame past the end, and
the mark that some frame may be open wherever one is. -/
structure World.Viewed (headKey : Nat → Nat → Nat) (w : World) : Prop where
  ok : w.pred.Ok headKey
  deaths : ∀ r ∈ w.pred.recs, r.death ≤ w.pred.tera
  framed : w.frames ≠ [] → w.pred.framed = true
  frames : ∀ f ∈ w.frames, f.ixpos ≤ aixCount ∧ f.cend ≤ w.pred.nclauses ∧ f.fera ≤ w.pred.tera

/-- The calls with a frame open and what each has left. -/
def World.pending (headKey : Nat → Nat → Nat) (w : World) : List (Nat × List Nat) :=
  w.frames.map fun f => (f.call, f.left headKey w.pred.recs)

/-- The store moved and no open call lost or gained a clause. -/
def World.Keeps (headKey : Nat → Nat → Nat) (w w' : World) : Prop :=
  w'.Viewed headKey ∧ w'.pending headKey = w.pending headKey

namespace World

theorem Keeps.trans {w v u : World} (first : w.Keeps headKey v) (second : v.Keeps headKey u) :
    w.Keeps headKey u := ⟨second.1, second.2.trans first.2⟩

/-- With no frame open a sound store without dead clauses is all there is to keep. -/
theorem keeps_of_closed {w w' : World} (closed : w.frames = []) (closed' : w'.frames = [])
    (ok : w'.pred.Ok headKey) (live : ∀ r ∈ w'.pred.recs, r.live = true) : w.Keeps headKey w' := by
  refine ⟨⟨ok, ?_, by simp [closed'], by simp [closed']⟩, by simp [pending, closed, closed']⟩
  intro r hr
  have zero : r.death = 0 := by simpa [Rec.live] using live r hr
  omega

/-- A change the clause list does not see. -/
theorem Viewed.keeps_list {w : World} (viewed : w.Viewed headKey) {q : Pred} (ok : q.Ok headKey)
    (recs : q.recs = w.pred.recs) (tera : q.tera = w.pred.tera)
    (framed : w.frames ≠ [] → q.framed = true) : w.Keeps headKey { w with pred := q } := by
  have count : q.nclauses = w.pred.nclauses := by rw [← Pred.length_recs, recs, Pred.length_recs]
  refine ⟨⟨ok, ?_, framed, ?_⟩, by simp only [pending, recs]⟩
  · rw [recs, tera]
    exact viewed.deaths
  · rw [count, tera]
    exact viewed.frames

theorem Viewed.keeps_kept {w : World} (viewed : w.Viewed headKey) {q : Pred}
    (kept : Pred.Kept headKey w.pred q) : w.Keeps headKey { w with pred := q } := by
  have tera : q.unlisted.tera = w.pred.unlisted.tera := by rw [kept.2]
  have framed : q.unlisted.framed = w.pred.unlisted.framed := by rw [kept.2]
  exact viewed.keeps_list kept.1 kept.recs.2.2 tera
    (fun open_ => framed.trans (viewed.framed open_))

/-- Asking whether any frame is open tells the truth. -/
theorem Viewed.framesOn_any {w : World} (viewed : w.Viewed headKey) :
    (w.framesOn .any).1 = 0 ↔ w.frames = [] := by
  rw [framesOn_any_fst]
  cases frames : w.frames with
  | nil => simp
  | cons f rest =>
    have framed := viewed.framed (by simp [frames])
    simp [framed]

theorem Viewed.keeps_any {w : World} (viewed : w.Viewed headKey) :
    w.Keeps headKey (w.framesOn .any).2 := by
  rcases framesOn_any_framed w with eq | eq
  · rw [eq]
    exact ⟨viewed, rfl⟩
  · rw [eq]
    refine viewed.keeps_list (viewed.ok.framed _) rfl rfl ?_
    intro open_
    simpa using open_

theorem Viewed.keeps_probed {w w' : World} (viewed : w.Viewed headKey) {pos key : Nat} {grew : Bool}
    {answer : Nat × Nat} (probed : Probed headKey pos key grew w answer w') : w.Keeps headKey w' := by
  rcases probed.list with ⟨tprobe, framed, list⟩ | ⟨quiet, none_dead⟩
  · have tera : w'.pred.unlisted.tera = w.pred.tera := by rw [list]; rfl
    have recAt : w'.pred.unlisted.recAt = w.pred.recAt := by rw [list]; rfl
    have count : w'.pred.unlisted.nclauses = w.pred.nclauses := by rw [list]; rfl
    have recs : w'.pred.recs = w.pred.recs := by
      show entries w'.pred.unlisted.recAt w'.pred.unlisted.nclauses = _
      rw [recAt, count]
      rfl
    have kept := viewed.keeps_list probed.ok recs tera
      (fun open_ => probed.framed open_ (viewed.framed open_))
    have same : ({ w with pred := w'.pred } : World) = w' := by
      rw [← probed.frames]
    rw [← same]
    exact kept
  · have closed := viewed.framesOn_any.mp quiet
    exact keeps_of_closed closed (probed.frames.trans closed) probed.ok
      (Pred.live_of_ntomb_zero probed.ok none_dead)

theorem Viewed.keeps_trySweep {w : World} (viewed : w.Viewed headKey) :
    w.Keeps headKey w.trySweep.2 := by
  by_cases none_dead : w.pred.ntomb = 0
  · rw [trySweep, if_pos none_dead]
    exact ⟨viewed, rfl⟩
  · rw [trySweep_eq none_dead]
    split
    · exact viewed.keeps_any
    · rename_i quiet
      have closed := viewed.framesOn_any.mp (not_not.mp quiet)
      have ok := framesOn_ok viewed.ok .any
      refine keeps_of_closed closed ?_ ok.sweep ?_
      · rcases framesOn_any_framed w with eq | eq <;> rw [eq] <;> exact closed
      · intro r hr
        have swept : r ∈ (w.framesOn .any).2.pred.sweep.recs := hr
        rw [Pred.sweep_recs ok] at swept
        exact (List.mem_filter.mp swept).2

/-- A clause added at the end is past every frame. -/
theorem Viewed.keeps_append {w w' : World} (viewed : w.Viewed headKey) {r : Rec}
    (ok : w'.pred.Ok headKey) (live : r.live = true) (recs : w'.pred.recs = w.pred.recs ++ [r])
    (frames : w'.frames = w.frames) (tera : w'.pred.tera = w.pred.tera)
    (framed : w'.pred.framed = w.pred.framed) : w.Keeps headKey w' := by
  have count : w'.pred.nclauses = w.pred.nclauses + 1 := by
    rw [← Pred.length_recs, recs, List.length_append, Pred.length_recs]
    rfl
  refine ⟨⟨ok, ?_, ?_, ?_⟩, ?_⟩
  · intro x hx
    rw [recs, List.mem_append, List.mem_singleton] at hx
    rw [tera]
    rcases hx with old | rfl
    · exact viewed.deaths x old
    · have zero : x.death = 0 := by simpa [Rec.live] using live
      omega
  · rw [frames, framed]
    exact viewed.framed
  · intro f hf
    rw [frames] at hf
    obtain ⟨keyed, inside, lived⟩ := viewed.frames f hf
    exact ⟨keyed, by omega, by omega⟩
  · rw [pending, pending, frames, recs]
    refine List.map_congr_left ?_
    intro f hf
    have inside := (viewed.frames f hf).2.1
    rw [Frame.left, Frame.left, List.take_append_of_le_length (by rw [Pred.length_recs]; exact inside)]

/-- A clause put first moves every frame on with the clauses it had left. -/
theorem Viewed.keeps_cons {w w' : World} (viewed : w.Viewed headKey) {r : Rec}
    (ok : w'.pred.Ok headKey) (live : r.live = true) (recs : w'.pred.recs = r :: w.pred.recs)
    (frames : w'.frames = w.frames.map (Frame.movedOn 0)) (tera : w'.pred.tera = w.pred.tera)
    (framed : w.frames ≠ [] → w'.pred.framed = true) (fits : w.pred.nclauses + 1 < 2 ^ 32) :
    w.Keeps headKey w' := by
  have count : w'.pred.nclauses = w.pred.nclauses + 1 := by
    rw [← Pred.length_recs, recs, List.length_cons, Pred.length_recs]
  have moved : ∀ f ∈ w.frames, Frame.movedOn 0 f =
      { f with clauseIx := f.clauseIx + 1, cend := f.cend + 1 } := by
    intro f hf
    have inside := (viewed.frames f hf).2.1
    have bounded : f.cend ≠ noEnd := by
      rw [noEnd]
      omega
    rw [Frame.movedOn, if_pos (Nat.zero_le _), if_pos bounded]
  refine ⟨⟨ok, ?_, ?_, ?_⟩, ?_⟩
  · intro x hx
    rw [recs, List.mem_cons] at hx
    rw [tera]
    rcases hx with rfl | old
    · have zero : x.death = 0 := by simpa [Rec.live] using live
      omega
    · exact viewed.deaths x old
  · intro open_
    refine framed ?_
    rintro none_
    rw [frames, none_] at open_
    exact open_ rfl
  · intro g hg
    rw [frames] at hg
    obtain ⟨f, hf, rfl⟩ := List.mem_map.mp hg
    rw [moved f hf]
    obtain ⟨keyed, inside, lived⟩ := viewed.frames f hf
    exact ⟨keyed, by simp only; omega, by simp only; omega⟩
  · rw [pending, pending, frames, recs, List.map_map]
    refine List.map_congr_left ?_
    intro f hf
    simp only [Function.comp, moved f hf]
    rfl

theorem framesOn_moved {w : World} (framed : w.frames ≠ [] → w.pred.framed = true) (at_ : Nat) :
    (w.framesOn (.moved at_)).2.frames = w.frames.map (Frame.movedOn at_) ∧
      (w.framesOn (.moved at_)).2.pred.tera = w.pred.tera ∧
      (w.frames ≠ [] → (w.framesOn (.moved at_)).2.pred.framed = true) := by
  by_cases mark : w.pred.framed = false
  · have closed : w.frames = [] := by
      by_contra open_
      rw [framed open_] at mark
      cases mark
    simp [framesOn, mark, closed]
  · simp only [framesOn, if_neg mark]
    exact ⟨trivial, trivial, fun open_ => by simpa using open_⟩

theorem addClause_frames {w v : World} (swept : v = if w.pred.ntomb ≠ 0 then w.trySweep.2 else w)
    (viewed : v.Viewed headKey) (atEnd : Bool) (c : NewClause) (grew : Bool) :
    let w' := (w.addClause headKey atEnd c true grew).2
    w'.pred.tera = v.pred.tera ∧ w'.frames = (if atEnd = true then v.frames
      else v.frames.map (Frame.movedOn 0)) ∧
      if atEnd = true then w'.pred.framed = v.pred.framed
      else v.frames ≠ [] → w'.pred.framed = true := by
  simp only [addClause, ← swept, Bool.true_eq_false, if_false]
  cases atEnd with
  | true =>
    simp only [if_true, Pred.indexAppend]
    refine ⟨?_, ?_⟩
    · split
      · split <;> rfl
      · rfl
    · refine ⟨trivial, ?_⟩
      split
      · split <;> rfl
      · rfl
  | false =>
    simp only [Bool.false_eq_true, if_false]
    have bare := Pred.shiftUp_bare v.pred 0 v.pred.nclauses
    have tera : (v.pred.shiftUp 0 v.pred.nclauses).bare.tera = v.pred.bare.tera := by rw [bare]
    have framed : (v.pred.shiftUp 0 v.pred.nclauses).bare.framed = v.pred.bare.framed := by rw [bare]
    generalize hq : (((v.pred.shiftUp 0 v.pred.nclauses).putRow 0 c).unindex.withCount
      (((v.pred.shiftUp 0 v.pred.nclauses).putRow 0 c).unindex.nclauses + 1)).setNprobe.bumpVer = q
    have tera_q : q.tera = v.pred.tera := by
      rw [← hq]
      exact tera
    have framed_q : q.framed = v.pred.framed := by
      rw [← hq]
      exact framed
    obtain ⟨frames', tera', framed'⟩ := framesOn_moved (w := ⟨q, v.frames⟩)
      (fun open_ => framed_q.trans (viewed.framed open_)) 0
    exact ⟨tera'.trans tera_q, frames', framed'⟩

theorem Viewed.keeps_addClause {w : World} (viewed : w.Viewed headKey) (atEnd : Bool) (c : NewClause)
    (room grew : Bool) (fits : w.pred.nclauses + 1 < 2 ^ 32) :
    w.Keeps headKey (w.addClause headKey atEnd c room grew).2 := by
  obtain ⟨v, hv⟩ : ∃ v, v = if w.pred.ntomb ≠ 0 then w.trySweep.2 else w := ⟨_, rfl⟩
  have swept : w.Keeps headKey v ∧ Swept w.pred.recs v.pred.recs := by
    rw [hv]
    split
    · exact ⟨viewed.keeps_trySweep, (trySweep_spec viewed.ok).2⟩
    · exact ⟨⟨viewed, rfl⟩, .inl rfl⟩
  obtain ⟨keeps, list⟩ := swept
  refine keeps.trans ?_
  obtain ⟨ok, recs⟩ := addClause_swept hv keeps.1.ok atEnd c room grew
  cases room with
  | false =>
    have same : (w.addClause headKey atEnd c false grew).2 = v := by
      simp only [addClause, ← hv, if_true]
    rw [same]
    exact ⟨keeps.1, rfl⟩
  | true =>
    obtain ⟨tera, frames, framed⟩ := addClause_frames hv keeps.1 atEnd c grew
    have short := swept_length_le list
    rw [Pred.length_recs, Pred.length_recs] at short
    simp only [Bool.true_eq_false, if_false] at recs
    cases atEnd with
    | true => exact keeps.1.keeps_append ok rfl recs frames tera framed
    | false => exact keeps.1.keeps_cons ok rfl recs frames tera framed (by omega)

theorem retractAt_frames (w : World) (i : Nat) (made listed : Bool) :
    (w.retractAt i made listed).frames = (w.tombOpen made listed).2.frames := by
  simp only [retractAt]
  split
  · rfl
  · split <;> rfl

/-- A death under an open frame: every frame lives through it, and it is the newest. -/
theorem tombOpen_open {w : World} (viewed : w.Viewed headKey) (open_ : w.frames ≠ [])
    (fits : w.pred.tera + 1 < 2 ^ 32) :
    (w.tombOpen true true).1 = w.pred.tera + 1 ∧
      (w.tombOpen true true).2.frames = w.frames.map (Frame.livesThrough (w.pred.tera + 1)) ∧
      (w.tombOpen true true).2.pred.tera = w.pred.tera + 1 ∧
      (w.tombOpen true true).2.pred.framed = true := by
  have era : (w.pred.tera + 1) % 2 ^ 32 = w.pred.tera + 1 := Nat.mod_eq_of_lt fits
  have some_ : w.frames.length ≠ 0 := by simpa using open_
  simp only [tombOpen, framesOn, viewed.framed open_, Bool.true_eq_false, if_false, if_neg some_,
    Pred.tombReady, and_false, if_true, era]
  simpa using open_

theorem tombOpen_closed {w : World} (closed : w.frames = []) (made listed : Bool) :
    (w.tombOpen made listed).1 = 0 ∧ (w.tombOpen made listed).2.frames = [] := by
  simp only [tombOpen, framesOn]
  by_cases mark : w.pred.framed = false
  · simp [mark, closed]
  · simp [mark, closed]

/-- What a frame wants of a record survives the next death. -/
theorem wants_livesThrough (f : Frame) {tera : Nat} {r : Rec}
    (death : r.death ≤ tera) :
    (f.livesThrough (tera + 1)).wants headKey r = f.wants headKey r := by
  unfold Frame.livesThrough
  split
  · rename_i none_
    have late : ¬ tera + 1 ≤ r.death := by omega
    simp [Frame.wants, none_, late]
  · rfl

theorem wants_dying {f : Frame} {tera : Nat} (lived : f.fera ≤ tera) {r : Rec}
    (live : r.live = true) :
    (f.livesThrough (tera + 1)).wants headKey { r with death := tera + 1 } =
      f.wants headKey r := by
  unfold Frame.livesThrough
  split
  · simp [Frame.wants, live, Rec.keyAt]
  · rename_i some_
    have late : f.fera ≤ tera + 1 := by omega
    simp [Frame.wants, live, Rec.keyAt, some_, late]

theorem filter_map_congr {test test' : Rec → Bool} {l l' : List Rec}
    (same : List.Forall₂ (fun r r' => test' r' = test r ∧ r'.clause = r.clause) l l') :
    (l'.filter test').map Rec.clause = (l.filter test).map Rec.clause := by
  induction same with
  | nil => rfl
  | @cons r r' l l' here rest ih =>
    rw [List.filter_cons, List.filter_cons, here.1]
    split
    · rw [List.map_cons, List.map_cons, here.2, ih]
    · exact ih

/-- Records changed where they stand, none of them to another clause or out of the frame's
sight, leave it what it had. -/
theorem left_congr {f f' : Frame} (next : f'.clauseIx = f.clauseIx) (end_ : f'.cend = f.cend)
    {l l' : List Rec} (same : List.Forall₂ (fun r r' =>
      f'.wants headKey r' = f.wants headKey r ∧ r'.clause = r.clause) l l') :
    f'.left headKey l' = f.left headKey l := by
  rw [Frame.left, Frame.left, next, end_]
  exact filter_map_congr (List.forall₂_drop _ (List.forall₂_take _ same))

theorem forall₂_modify {rel : Rec → Rec → Prop} {l : List Rec} (i : Nat) {change : Rec → Rec}
    (same : ∀ r ∈ l, rel r r) (changed : ∀ r ∈ l, rel r (change r)) :
    List.Forall₂ rel l (l.modify i change) := by
  induction l generalizing i with
  | nil => simp
  | cons r rest ih =>
    have all : List.Forall₂ rel rest rest := List.forall₂_same.mpr fun x hx => same x (by simp [hx])
    cases i with
    | zero => exact .cons (changed r (by simp)) all
    | succ i =>
      exact .cons (same r (by simp))
        (ih i (fun x hx => same x (by simp [hx])) (fun x hx => changed x (by simp [hx])))

theorem Viewed.keeps_retractAt {w : World} (viewed : w.Viewed headKey) {i : Nat}
    (below : i < w.pred.nclauses) (live : w.pred.dead i = false)
    (fits : w.pred.tera + 1 < 2 ^ 32) : w.Keeps headKey (w.retractAt i true true) := by
  have alive : (w.pred.recAt i).live = true := by
    rw [Pred.dead_eq viewed.ok below] at live
    simpa using live
  have frames := retractAt_frames w i true true
  by_cases closed : w.frames = []
  · obtain ⟨era, none_⟩ := tombOpen_closed closed true true
    obtain ⟨ok, recs⟩ := retractAt_out viewed.ok below alive era
    refine keeps_of_closed closed (frames.trans none_) ok ?_
    intro r hr
    rw [recs] at hr
    exact (List.mem_filter.mp hr).2
  · obtain ⟨era, lived, tera, framed⟩ := tombOpen_open viewed closed fits
    have died : (w.tombOpen true true).1 ≠ 0 := by omega
    obtain ⟨ok, recs⟩ := retractAt_died viewed.ok below alive died
    rw [era] at recs
    rw [lived] at frames
    have kept : (w.retractAt i true true).pred.tera = w.pred.tera + 1 ∧
        (w.retractAt i true true).pred.framed = true := by
      simp only [retractAt, if_pos died]
      exact ⟨tera, framed⟩
    have count : (w.retractAt i true true).pred.nclauses = w.pred.nclauses := by
      rw [← Pred.length_recs, recs, List.length_modify, Pred.length_recs]
    refine ⟨⟨ok, ?_, fun _ => kept.2, ?_⟩, ?_⟩
    · intro r hr
      rw [recs] at hr
      rw [kept.1]
      obtain ⟨j, hj⟩ := List.mem_iff_getElem?.mp hr
      rw [List.getElem?_modify] at hj
      obtain ⟨old, hold, eq⟩ := Option.map_eq_some_iff.mp hj
      have before := viewed.deaths old (List.mem_of_getElem? hold)
      rw [← eq]
      split
      · split
        · exact Nat.le_refl _
        · omega
      · omega
    · intro g hg
      rw [frames] at hg
      obtain ⟨f, hf, rfl⟩ := List.mem_map.mp hg
      obtain ⟨keyed, inside, old⟩ := viewed.frames f hf
      rw [count, kept.1]
      unfold Frame.livesThrough
      split
      · exact ⟨keyed, inside, Nat.le_refl _⟩
      · exact ⟨keyed, inside, by omega⟩
    · rw [pending, pending, frames, recs, List.map_map]
      refine List.map_congr_left ?_
      intro f hf
      have old := (viewed.frames f hf).2.2
      have number : ∀ f : Frame, (f.livesThrough (w.pred.tera + 1)).call = f.call ∧
          (f.livesThrough (w.pred.tera + 1)).clauseIx = f.clauseIx ∧
          (f.livesThrough (w.pred.tera + 1)).cend = f.cend := by
        intro f
        unfold Frame.livesThrough
        split <;> exact ⟨rfl, rfl, rfl⟩
      refine Prod.ext (number f).1 (left_congr (number f).2.1 (number f).2.2 ?_)
      refine forall₂_modify i ?_ ?_
      · intro r hr
        exact ⟨wants_livesThrough f (viewed.deaths r hr), rfl⟩
      · intro r hr
        split
        · rename_i live
          exact ⟨wants_dying old live, rfl⟩
        · exact ⟨wants_livesThrough f (viewed.deaths r hr), rfl⟩

end World

end Cocolog.Store
