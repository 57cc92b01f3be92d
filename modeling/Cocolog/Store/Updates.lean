import Cocolog.Store.Snapshot

/-! Whole runs under the logical update view: calls, walks, retries, assertions, retracts
and sweeps in any order. What every call tried is the front of what it had before it, and
all of it where the call came to its end. -/

set_option linter.all false

namespace Cocolog.Store

open Cocolog.Lib

variable {headKey : Nat → Nat → Nat}

/-- The log agrees with the frames: each open call has one frame, and what it tried
followed by what the frame has left is what the call had before it. -/
structure Logged (pending : List (Nat × List Nat)) (calls : List CallLog) : Prop where
  once : (pending.map Prod.fst).Nodup
  here : ∀ x ∈ pending, ∃ c, calls[x.1]? = some c ∧ c.ended = false ∧ c.tried ++ x.2 = c.snapshot
  all : ∀ c ∈ calls, c.tried <+: c.snapshot ∧ (c.ended = true → c.tried = c.snapshot)

namespace Logged

variable {pending : List (Nat × List Nat)} {calls : List CallLog}

/-- A call has one frame. -/
theorem same_index (logged : Logged pending calls) {i j : Nat} {x y : Nat × List Nat}
    (hi : pending[i]? = some x) (hj : pending[j]? = some y) (same : x.1 = y.1) : i = j := by
  have below : i < (pending.map Prod.fst).length := by
    rw [List.length_map]
    exact (List.getElem?_eq_some_iff.mp hi).1
  refine (List.getElem?_inj below logged.once).mp ?_
  rw [List.getElem?_map, List.getElem?_map, hi, hj, Option.map_some, Option.map_some, same]

theorem drop (logged : Logged pending calls) (n : Nat) : Logged (pending.eraseIdx n) calls := by
  refine ⟨?_, fun x hx => logged.here x (List.mem_of_mem_eraseIdx hx), logged.all⟩
  exact ((List.eraseIdx_sublist pending n).map Prod.fst).nodup logged.once

/-- A new call with a frame has everything left. -/
theorem enter (logged : Logged pending calls) (snapshot : List Nat) :
    Logged (pending ++ [(calls.length, snapshot)]) (calls ++ [CallLog.made snapshot]) := by
  have old : ∀ x ∈ pending, x.1 < calls.length := by
    intro x hx
    obtain ⟨c, held, -⟩ := logged.here x hx
    exact (List.getElem?_eq_some_iff.mp held).1
  refine ⟨?_, ?_, ?_⟩
  · rw [List.map_append, List.nodup_append]
    refine ⟨logged.once, by simp, ?_⟩
    intro a ha b hb same
    obtain ⟨x, hx, rfl⟩ := List.mem_map.mp ha
    have newest : b = calls.length := by simpa using hb
    have earlier := old x hx
    omega
  · intro x hx
    rcases List.mem_append.mp hx with before | new
    · obtain ⟨c, held, rest⟩ := logged.here x before
      exact ⟨c, by rw [List.getElem?_append_left (old x before)]; exact held, rest⟩
    · obtain rfl := List.mem_singleton.mp new
      exact ⟨CallLog.made snapshot, by simp, rfl, rfl⟩
  · intro c hc
    rcases List.mem_append.mp hc with before | new
    · exact logged.all c before
    · obtain rfl := List.mem_singleton.mp new
      exact ⟨List.nil_prefix, fun ended => by cases ended⟩

/-- A call that ends as it is made, without a frame. -/
theorem enter_done (logged : Logged pending calls) (snapshot : List Nat) :
    Logged pending
      ((calls ++ [CallLog.made snapshot]).modify calls.length fun c => c.noted snapshot true) := by
  have at_end : ∀ (l : List CallLog) (a : CallLog) (f : CallLog → CallLog),
      (l ++ [a]).modify l.length f = l ++ [f a] := by
    intro l a f
    induction l with
    | nil => rfl
    | cons b l ih => simp [ih]
  rw [at_end]
  refine ⟨logged.once, ?_, ?_⟩
  · intro x hx
    obtain ⟨c, held, rest⟩ := logged.here x hx
    have below := (List.getElem?_eq_some_iff.mp held).1
    exact ⟨c, by rw [List.getElem?_append_left below]; exact held, rest⟩
  · intro c hc
    rcases List.mem_append.mp hc with before | new
    · exact logged.all c before
    · obtain rfl := List.mem_singleton.mp new
      exact ⟨List.prefix_rfl, fun _ => rfl⟩

/-- The entry of a call changes, and no other's. -/
theorem noted_all (logged : Logged pending calls) {k : Nat} {tried rest : List Nat}
    (member : (k, tried ++ rest) ∈ pending) (ended : Bool) (done : ended = true → rest = []) :
    ∀ c ∈ calls.modify k fun c => c.noted tried ended,
      c.tried <+: c.snapshot ∧ (c.ended = true → c.tried = c.snapshot) := by
  obtain ⟨c₀, held, running, whole⟩ := logged.here _ member
  intro c hc
  obtain ⟨j, hj⟩ := List.mem_iff_getElem?.mp hc
  rw [List.getElem?_modify] at hj
  obtain ⟨old, hold, eq⟩ := Option.map_eq_some_iff.mp hj
  split at eq
  · rename_i same
    subst same
    obtain rfl : c₀ = old := Option.some.inj (held.symm.trans hold)
    subst eq
    refine ⟨⟨rest, ?_⟩, ?_⟩
    · show c₀.tried ++ tried ++ rest = c₀.snapshot
      rw [List.append_assoc]
      exact whole
    · intro now
      simp only [CallLog.noted, running, Bool.false_or] at now ⊢
      rw [← whole, done now, List.append_nil]
  · subst eq
    exact logged.all old (List.mem_of_getElem? hold)

theorem noted_other {k k' : Nat} (other : k ≠ k') (tried : List Nat) (ended : Bool) :
    (calls.modify k fun c => c.noted tried ended)[k']? = calls[k']? := by
  rw [List.getElem?_modify]
  simp [other]

theorem advance (logged : Logged pending calls) {n k : Nat} {tried rest : List Nat}
    (at_ : pending[n]? = some (k, tried ++ rest)) :
    Logged (pending.set n (k, rest)) (calls.modify k fun c => c.noted tried false) := by
  have below := (List.getElem?_eq_some_iff.mp at_).1
  have names : (pending.set n (k, rest)).map Prod.fst = pending.map Prod.fst := by
    refine List.ext_getElem? ?_
    intro j
    rw [List.getElem?_map, List.getElem?_map, List.getElem?_set]
    split
    · rename_i same
      subst same
      rw [at_]
      rfl
    · rfl
  refine ⟨names ▸ logged.once, ?_, logged.noted_all (List.mem_of_getElem? at_) false (by simp)⟩
  intro x hx
  obtain ⟨j, hj⟩ := List.mem_iff_getElem?.mp hx
  rw [List.getElem?_set] at hj
  split at hj
  · rename_i same
    subst same
    obtain rfl := Option.some.inj hj
    obtain ⟨c, held, running, whole⟩ := logged.here _ (List.mem_of_getElem? at_)
    refine ⟨c.noted tried false, by rw [List.getElem?_modify, held]; simp, ?_, ?_⟩
    · simp [CallLog.noted, running]
    · simp only [CallLog.noted, List.append_assoc]
      exact whole
  · rename_i apart
    obtain ⟨c, held, rest'⟩ := logged.here x (List.mem_of_getElem? hj)
    refine ⟨c, ?_, rest'⟩
    have other : k ≠ x.1 := fun same => apart (logged.same_index at_ hj same)
    rw [noted_other other]
    exact held

theorem finish (logged : Logged pending calls) {n k : Nat} {tried : List Nat}
    (at_ : pending[n]? = some (k, tried)) :
    Logged (pending.eraseIdx n) (calls.modify k fun c => c.noted tried true) := by
  have whole : pending[n]? = some (k, tried ++ []) := by rw [List.append_nil]; exact at_
  refine ⟨(logged.drop n).once, ?_,
    logged.noted_all (List.mem_of_getElem? whole) true (fun _ => rfl)⟩
  intro x hx
  obtain ⟨c, held, rest⟩ := logged.here x (List.mem_of_mem_eraseIdx hx)
  refine ⟨c, ?_, rest⟩
  have other : k ≠ x.1 := by
    intro same
    obtain ⟨j, apart, hj⟩ := List.mem_eraseIdx_iff_getElem?.mp hx
    exact apart (logged.same_index hj at_ same.symm)
  rw [noted_other other]
  exact held

end Logged

/-- The store and the log together. -/
structure View.Good (headKey : Nat → Nat → Nat) (v : View) : Prop where
  viewed : v.world.Viewed headKey
  logged : Logged (v.world.pending headKey) v.calls

namespace View

theorem Good.keeps {v : View} (good : v.Good headKey) {w : World} (keeps : v.world.Keeps headKey w) :
    Good headKey { v with world := w } :=
  ⟨keeps.1, by rw [keeps.2]; exact good.logged⟩

theorem putFrame_viewed {w : World} (viewed : w.Viewed headKey) (n : Nat) {f' : Option Frame}
    (bounds : ∀ g, f' = some g →
      g.ixpos ≤ aixCount ∧ g.cend ≤ w.pred.nclauses ∧ g.fera ≤ w.pred.tera) :
    (w.putFrame n f').Viewed headKey := by
  cases f' with
  | none =>
    refine ⟨viewed.ok, viewed.deaths, ?_, ?_⟩
    · intro open_
      refine viewed.framed ?_
      rintro none_
      exact open_ (by simp [World.putFrame, none_])
    · intro g hg
      exact viewed.frames g (List.mem_of_mem_eraseIdx hg)
  | some g =>
    refine ⟨viewed.ok, viewed.deaths, ?_, ?_⟩
    · intro open_
      refine viewed.framed ?_
      rintro none_
      exact open_ (by simp [World.putFrame, none_])
    · intro x hx
      rcases List.mem_or_eq_of_mem_set hx with old | rfl
      · exact viewed.frames x old
      · exact bounds x rfl

theorem putFrame_pending (w : World) (n : Nat) (f' : Option Frame) :
    (w.putFrame n f').pending headKey = match f' with
      | none => (w.pending headKey).eraseIdx n
      | some g => (w.pending headKey).set n (g.call, g.left headKey w.pred.recs) := by
  cases f' with
  | none => simp only [World.putFrame, World.pending, List.eraseIdx_map]
  | some g => simp only [World.putFrame, World.pending, List.map_set]

/-- A frame moved on, with what it tried in the log. -/
theorem Good.moved {v : View} (good : v.Good headKey) {n : Nat} {f : Frame}
    (at_ : v.world.frames[n]? = some f) {f' : Option Frame} {tried : List Nat}
    (same : ∀ g, f' = some g → g = { f with clauseIx := g.clauseIx })
    (left : f.left headKey v.world.pred.recs =
      tried ++ f'.elim [] fun g => g.left headKey v.world.pred.recs) :
    (({ v with world := v.world.putFrame n f' } : View).note f.call tried f'.isNone).Good headKey := by
  have bounds := good.viewed.frames f (List.mem_of_getElem? at_)
  have pending : (v.world.pending headKey)[n]? =
      some (f.call, f.left headKey v.world.pred.recs) := by
    rw [World.pending, List.getElem?_map, at_]
    rfl
  refine ⟨putFrame_viewed good.viewed n ?_, ?_⟩
  · intro g eq
    rw [same g eq]
    exact bounds
  · show Logged ((v.world.putFrame n f').pending headKey) _
    rw [putFrame_pending]
    cases f' with
    | none =>
      rw [left, Option.elim_none, List.append_nil] at pending
      exact good.logged.finish pending
    | some g =>
      rw [left, Option.elim_some] at pending
      have number : g.call = f.call := by rw [same g rfl]
      show Logged ((v.world.pending headKey).set n (g.call, _)) _
      rw [number]
      exact good.logged.advance pending

/-- A retract of a clause just found, where it still stands. -/
theorem Good.taken {v : View} (good : v.Good headKey) {retracts : Bool} {found : Option Nat}
    (below : ∀ i, found = some i → i < v.world.pred.nclauses)
    (fits : v.world.pred.tera + 1 < 2 ^ 32) :
    Good headKey { v with world := v.world.taken retracts true true found } := by
  cases found with
  | none => exact good
  | some i =>
    rw [World.taken]
    split
    · rename_i stands
      exact good.keeps (good.viewed.keeps_retractAt (below i rfl) stands.2 fits)
    · exact good

/-- The positions a frame tried and those it has left, as clauses. -/
theorem left_split {p : Pred} {f : Frame} (inside : f.cend ≤ p.nclauses) {tried : List Nat}
    {f' : Option Frame} (same : ∀ g, f' = some g → g = { f with clauseIx := g.clauseIx })
    (split_ : positions (fun i => f.wants headKey (p.recAt i)) f.clauseIx f.cend =
      tried ++ f'.elim [] fun g =>
        positions (fun i => f.wants headKey (p.recAt i)) g.clauseIx f.cend) :
    f.left headKey p.recs =
      tried.map p.clauses ++ f'.elim [] fun g => g.left headKey p.recs := by
  rw [Frame.left_eq inside, split_, List.map_append]
  cases f' with
  | none => rfl
  | some g =>
    have stays := same g rfl
    rw [Option.elim_some, Option.elim_some, Frame.left_eq (f := g) (by rw [stays]; exact inside)]
    rw [stays]
    rfl

/-- The walk's condition: the clause at the position it kept is past its end, or one it is
to try. -/
def Resumable (headKey : Nat → Nat → Nat) (p : Pred) (f : Frame) : Prop :=
  f.kind = .db → f.clauseIx < f.cend → f.wants headKey (p.recAt f.clauseIx) = true

theorem Good.retry {v : View} (good : v.Good headKey) {n : Nat} (retracts keep : Bool)
    (hit : Nat → Bool) (fits : v.world.pred.tera + 1 < 2 ^ 32)
    (resumable : ∀ f, v.world.frames[n]? = some f → Resumable headKey v.world.pred f) :
    (v.retry headKey n retracts keep hit true true true).Good headKey := by
  rw [View.retry]
  cases at_ : v.world.frames[n]? with
  | none => exact good
  | some f =>
    obtain ⟨keyed, inside, -⟩ := good.viewed.frames f (List.mem_of_getElem? at_)
    simp only
    cases kind : f.kind with
    | clause =>
      simp only
      obtain ⟨kept, same, split_⟩ :=
        Pred.select_spec good.viewed.ok keyed inside hit keep
          (show f.cend < f.clauseIx + (v.world.pred.nclauses + 1) by omega)
      generalize v.world.pred.select headKey hit keep true (v.world.pred.nclauses + 1) f = r at *
      obtain ⟨tried, f', p⟩ := r
      replace same : ∀ g, f' = some g → g = { f with clauseIx := g.clauseIx } :=
        fun g eq => (same g eq).1
      have left := left_split inside same split_
      have now := good.keeps (good.viewed.keeps_kept kept)
      have recs : p.recs = v.world.pred.recs := kept.recs.2.2
      exact now.moved at_ same (by rw [recs]; exact left)
    | db =>
      simp only
      have start : f.short (some f.clauseIx) =
          leastFrom (fun i => f.wants headKey (v.world.pred.recAt i)) f.clauseIx f.cend := by
        by_cases below : f.clauseIx < f.cend
        · rw [Frame.short, Option.filter_some_pos (by simpa using below)]
          exact (leastFrom_of_accepted below (resumable f at_ kind below)).symm
        · rw [Frame.short, Option.filter_some_neg (by simpa using below)]
          exact (leastFrom_of_ge (by omega)).symm
      obtain ⟨kept, same, found, split_⟩ := Pred.dbFrom_spec good.viewed.ok keyed inside hit start
        (show f.cend < f.clauseIx + (v.world.pred.nclauses + 1) by omega)
      generalize v.world.pred.dbFrom headKey hit true (v.world.pred.nclauses + 1)
        (some f.clauseIx) f = r at *
      obtain ⟨tried, hit', f', p⟩ := r
      replace same : ∀ g, f' = some g → g = { f with clauseIx := g.clauseIx } :=
        fun g eq => (same g eq).1
      have left := left_split inside same split_
      have now := good.keeps (good.viewed.keeps_kept kept)
      obtain ⟨count, -, recs⟩ := kept.recs
      have moved := now.moved at_ same (by rw [recs]; exact left)
      have tera : p.unlisted.tera = v.world.pred.unlisted.tera := by rw [kept.2]
      have pred : ∀ w : World, (w.putFrame n f').pred = w.pred := by
        intro w
        cases f' <;> rfl
      refine moved.taken ?_ ?_
      · intro i hi
        have below := found i hi
        show i < (World.putFrame _ n f').pred.nclauses
        rw [pred]
        show i < p.nclauses
        rw [count]
        exact Nat.lt_of_lt_of_le below inside
      · show (World.putFrame _ n f').pred.tera + 1 < 2 ^ 32
        rw [pred]
        show p.tera + 1 < 2 ^ 32
        rw [show p.tera = v.world.pred.tera from tera]
        exact fits

end View

namespace World

/-- What a probe of a fresh call leaves, whichever argument it ends on. -/
structure Chosen (headKey : Nat → Nat → Nat) (key : Nat → Nat) (w : World)
    (r : (Nat × Nat × Nat) × World) : Prop where
  keeps : w.Keeps headKey r.2
  frames : r.2.frames = w.frames
  keyed : r.1.2.2 ≤ aixCount
  swept : Swept w.pred.recs r.2.pred.recs
  open_ : w.frames ≠ [] → r.2.pred.recs = w.pred.recs
  tera : r.2.pred.tera ≤ w.pred.tera
  answers : Pred.Answers (r.2.pred.offers headKey r.1.2.2 (key r.1.2.2) true) r.2.pred.nclauses
    r.1.1 r.1.2.1

theorem Probed.open_recs {w w' : World} (viewed : w.Viewed headKey) {pos key : Nat} {grew : Bool}
    {answer : Nat × Nat} (probed : Probed headKey pos key grew w answer w') (open_ : w.frames ≠ []) :
    w'.pred.recs = w.pred.recs := by
  rcases probed.list with ⟨tprobe, framed, list⟩ | ⟨quiet, -⟩
  · have recAt : w'.pred.unlisted.recAt = w.pred.recAt := by rw [list]; rfl
    have count : w'.pred.unlisted.nclauses = w.pred.nclauses := by rw [list]; rfl
    show entries w'.pred.unlisted.recAt w'.pred.unlisted.nclauses = _
    rw [recAt, count]
    rfl
  · exact absurd (viewed.framesOn_any.mp quiet) open_

theorem Viewed.chosen_probe {w : World} (viewed : w.Viewed headKey) (key : Nat → Nat) {pos : Nat}
    (inside : pos ≤ aixCount) :
    Chosen headKey key w
      (((w.probeAt headKey pos (key pos) true).1.1, (w.probeAt headKey pos (key pos) true).1.2, pos),
        (w.probeAt headKey pos (key pos) true).2) := by
  have probed := probeAt_spec viewed.ok inside (key pos) true
  exact ⟨viewed.keeps_probed probed, probed.frames, inside, probed.swept, probed.open_recs viewed,
    probed.tera, probed.answers⟩

/-- A choice made after a move that changed no clause. -/
theorem Chosen.after {w v : World} {key : Nat → Nat} {r : (Nat × Nat × Nat) × World}
    (keeps : w.Keeps headKey v) (frames : v.frames = w.frames) (swept : Swept w.pred.recs v.pred.recs)
    (same : w.frames ≠ [] → v.pred.recs = w.pred.recs) (tera : v.pred.tera ≤ w.pred.tera)
    (chosen : Chosen headKey key v r) : Chosen headKey key w r :=
  ⟨keeps.trans chosen.keeps, chosen.frames.trans frames, chosen.keyed, swept_trans swept chosen.swept,
    fun open_ => (chosen.open_ (frames ▸ open_)).trans (same open_), chosen.tera.trans tera,
    chosen.answers⟩

theorem Viewed.chosen_kept {w : World} (viewed : w.Viewed headKey) {key : Nat → Nat} {q : Pred}
    (kept : Pred.Kept headKey w.pred q) {r : (Nat × Nat × Nat) × World}
    (chosen : Chosen headKey key { w with pred := q } r) : Chosen headKey key w r := by
  have recs := kept.recs.2.2
  have tera : q.unlisted.tera = w.pred.unlisted.tera := by rw [kept.2]
  exact Chosen.after (viewed.keeps_kept kept) rfl (.inl recs) (fun _ => recs) (Nat.le_of_eq tera) chosen

/-- The index of another argument asked, after the first one's answered 3. -/
theorem Viewed.chosen_jit {w : World} (viewed : w.Viewed headKey) (key : Nat → Nat) {best ix : Nat}
    (inside : best ≤ aixCount)
    (more : Pred.Answers (w.pred.offers headKey 0 (key 0) true) w.pred.nclauses 3 ix) :
    Chosen headKey key w
      (((w.jit headKey key best ix true).1.1, (w.jit headKey key best ix true).1.2, best),
        (w.jit headKey key best ix true).2) := by
  have answers := jit_answers viewed.ok key inside true more
  obtain ⟨frames, asked⟩ := assess_asked viewed.ok key 0 (key 0) true
  have same : w.assess headKey key true = { w with pred := (w.assess headKey key true).pred } := by
    rw [← frames]
  have kept : Pred.Kept headKey w.pred (w.assess headKey key true).pred := ⟨asked.ok, asked.list⟩
  have keeps := viewed.keeps_kept kept
  refine viewed.chosen_kept kept ?_
  rw [← same] at keeps ⊢
  simp only [jit] at answers ⊢
  split at answers
  · rename_i first
    rw [if_pos first]
    exact ⟨⟨keeps.1, rfl⟩, rfl, inside, .inl rfl, fun _ => rfl, Nat.le_refl _, answers⟩
  · rename_i other
    rw [if_neg other]
    exact keeps.1.chosen_probe key inside

theorem Viewed.chosen {w : World} (viewed : w.Viewed headKey) (key : Nat → Nat) {sel : Option Nat}
    {best : Nat} (inside : ∀ pos, sel = some pos → pos ≤ aixCount) (inside' : best ≤ aixCount) :
    Chosen headKey key w (w.candidates headKey key sel best true) := by
  cases sel with
  | some pos => exact viewed.chosen_probe key (inside pos rfl)
  | none =>
    have first := viewed.chosen_probe key (Nat.zero_le aixCount)
    simp only [candidates]
    split
    · rename_i three
      have answers := first.answers
      simp only [three] at answers
      have second := first.keeps.1.chosen_jit key inside' answers
      exact Chosen.after first.keeps first.frames first.swept first.open_ first.tera second
    · exact first

end World

/-- The live clauses a key lets through, read from the arrays. -/
theorem snapshot_eq {p : Pred} (ok : p.Ok headKey) (pos key : Nat) :
    snapshotOf headKey pos key p.recs =
      (positions (p.offers headKey pos key true) 0 p.nclauses).map p.clauses := by
  have slice : p.recs = (List.range' 0 p.nclauses).map p.recAt := by
    rw [Pred.recs, entries, List.range_eq_range']
  rw [snapshotOf, List.filter_filter, slice, List.filter_map, List.map_map, positions, Nat.sub_zero]
  refine congrArg (List.map p.clauses) (List.filter_congr ?_)
  intro i hi
  have below : i < p.nclauses := by
    have range := List.mem_range'_1.mp hi
    omega
  simp only [Function.comp, Pred.offers, Pred.lets, or_true, if_true, Pred.dead_eq ok below,
    Bool.not_not]
  rfl

theorem snapshot_swept {l l' : List Rec} (swept : Swept l l') (pos key : Nat) :
    snapshotOf headKey pos key l' = snapshotOf headKey pos key l := by
  rcases swept with rfl | rfl
  · rfl
  · rw [snapshotOf, snapshotOf, List.filter_filter, List.filter_filter, List.filter_filter]
    refine congrArg (List.map Rec.clause) (List.filter_congr ?_)
    intro r _
    cases r.live <;> simp

namespace View

/-- A frame just made wants the live clauses its key lets through. -/
theorem wants_new {p : Pred} (ok : p.Ok headKey) {f : Frame} (new : f.fera = 0) {i : Nat}
    (below : i < p.nclauses) :
    f.wants headKey (p.recAt i) = p.offers headKey f.ixpos f.key true i := by
  rw [Pred.wants_iff, new, Pred.offers, Pred.dead_eq ok below, Bool.not_not]
  simp [Rec.live, Pred.recAt]

/-- A frame just made that starts at or before the first it may try has the whole snapshot
left. -/
theorem left_new {p : Pred} (ok : p.Ok headKey) {f : Frame} (new : f.fera = 0)
    (whole : f.cend = p.nclauses)
    (start : ∀ i < f.clauseIx, p.offers headKey f.ixpos f.key true i = false) :
    f.left headKey p.recs = snapshotOf headKey f.ixpos f.key p.recs := by
  rw [Frame.left_eq (Nat.le_of_eq whole), snapshot_eq ok, whole]
  refine congrArg (List.map p.clauses) ?_
  rw [positions_congr (d := p.offers headKey f.ixpos f.key true)
    (fun i _ hi => wants_new ok new hi)]
  by_cases past : f.clauseIx ≤ p.nclauses
  · have before : positions (p.offers headKey f.ixpos f.key true) 0 f.clauseIx = [] :=
      positions_eq_nil (leastFrom_eq_none.mpr fun i _ hi => start i hi)
    rw [positions_split (Nat.zero_le _) past, before, List.nil_append]
  · rw [positions_of_ge (by omega), positions_eq_nil]
    exact leastFrom_eq_none.mpr fun i _ hi => start i (by omega)

/-- A call logged with a frame of its own. -/
theorem Good.pushed {v : View} (good : v.Good headKey) {f : Frame} (number : f.call = v.calls.length)
    (keyed : f.ixpos ≤ aixCount) (new : f.fera = 0) (whole : f.cend = v.world.pred.nclauses)
    (start : ∀ i < f.clauseIx, v.world.pred.offers headKey f.ixpos f.key true i = false) :
    Good headKey { v.enter (snapshotOf headKey f.ixpos f.key v.world.pred.recs) with
      world := v.world.push f } := by
  have left := left_new good.viewed.ok new whole start
  refine ⟨⟨good.viewed.ok.framed true, good.viewed.deaths, fun _ => rfl, ?_⟩, ?_⟩
  · intro g hg
    rcases List.mem_append.mp hg with old | newest
    · exact good.viewed.frames g old
    · obtain rfl := List.mem_singleton.mp newest
      exact ⟨keyed, Nat.le_of_eq whole, by omega⟩
  · have pending : (v.world.push f).pending headKey = v.world.pending headKey ++
        [(v.calls.length, snapshotOf headKey f.ixpos f.key v.world.pred.recs)] := by
      rw [World.pending, World.push, List.map_append, List.map_singleton, ← number, ← left]
      rfl
    show Logged ((v.world.push f).pending headKey) _
    rw [pending]
    exact good.logged.enter _

/-- A call that ends as it is made. -/
theorem Good.done {v : View} (good : v.Good headKey) {snapshot tried : List Nat}
    (all : tried = snapshot) : ((v.enter snapshot).note v.calls.length tried true).Good headKey := by
  subst all
  exact ⟨good.viewed, good.logged.enter_done _⟩

theorem push_last (w : World) (f : Frame) :
    (w.push f).frames[(w.push f).frames.length - 1]? = some f := by
  simp [World.push]

theorem snapshot_fits {w w' : World} (swept : Swept w.pred.recs w'.pred.recs)
    (fits : w.pred.nclauses < 2 ^ 32) : w'.pred.nclauses % 2 ^ 32 = w'.pred.nclauses := by
  have short := World.swept_length_le swept
  rw [Pred.length_recs, Pred.length_recs] at short
  exact Nat.mod_eq_of_lt (by omega)

/-- The first candidate of an answer, and nothing before it. -/
theorem answers_start {c : Nat → Bool} {n det ix : Nat} (answers : Pred.Answers c n det ix) :
    ∀ i < (if det = 2 then ix else 0), c i = false := by
  intro i hi
  split at hi
  · rename_i two
    subst two
    rcases answers with ⟨none_, -⟩ | ⟨one, -⟩ | ⟨-, b, rest, eq⟩
    · cases none_
    · cases one
    · have least : leastFrom c 0 n = some ix := by rw [← head_positions, eq]; rfl
      exact (leastFrom_eq_some.mp least).2.2.2 i (Nat.zero_le i) hi
  · omega

theorem traceKpos_chosen {w : World} (viewed : w.Viewed headKey) (key : Nat → Nat)
    {sel : Option Nat} {best : Nat} (inside : ∀ pos, sel = some pos → pos ≤ aixCount)
    (inside' : best ≤ aixCount) :
    let r := w.traceKpos headKey key sel best true
    w.Keeps headKey r.2 ∧ r.2.frames = w.frames ∧ r.1 ≤ aixCount ∧
      Swept w.pred.recs r.2.pred.recs ∧ (w.frames ≠ [] → r.2.pred.recs = w.pred.recs) ∧
      r.2.pred.tera ≤ w.pred.tera := by
  cases sel with
  | some pos => exact ⟨⟨viewed, rfl⟩, rfl, inside pos rfl, .inl rfl, fun _ => rfl, Nat.le_refl _⟩
  | none =>
    have chosen : World.Chosen headKey key w (w.candidates headKey key none best true) :=
      viewed.chosen key (fun pos eq => by cases eq) inside'
    exact ⟨chosen.keeps, chosen.frames, chosen.keyed, chosen.swept, chosen.open_, chosen.tera⟩

/-- A call with a frame, and its first selection. -/
theorem Good.framed {v : View} (good : v.Good headKey) {w : World} (keeps : v.world.Keeps headKey w)
    (swept : Swept v.world.pred.recs w.pred.recs) {f : Frame} (number : f.call = v.calls.length)
    (keyed : f.ixpos ≤ aixCount) (new : f.fera = 0) (whole : f.cend = w.pred.nclauses)
    (start : ∀ i < f.clauseIx, w.pred.offers headKey f.ixpos f.key true i = false)
    (resumable : Resumable headKey w.pred f) (retracts keep : Bool) (hit : Nat → Bool)
    (deaths : w.pred.tera + 1 < 2 ^ 32) :
    (View.retry headKey
      { ({ v with world := w } : View).enter
          (snapshotOf headKey f.ixpos f.key v.world.pred.recs) with world := w.push f }
      ((w.push f).frames.length - 1) retracts keep hit true true true).Good headKey := by
  have pushed := (good.keeps keeps).pushed number keyed new whole start
  simp only [snapshot_swept swept] at pushed
  refine pushed.retry retracts keep hit deaths ?_
  intro g at_
  have last := push_last w f
  obtain rfl : f = g := Option.some.inj (last.symm.trans at_)
  exact resumable

theorem Good.call {v : View} (good : v.Good headKey) (key : Nat → Nat) {sel : Option Nat}
    {best : Nat} (inside : ∀ pos, sel = some pos → pos ≤ aixCount) (inside' : best ≤ aixCount)
    (traced keep : Bool) (hit : Nat → Bool) (fits : v.world.pred.nclauses < 2 ^ 32)
    (deaths : v.world.pred.tera + 1 < 2 ^ 32) :
    (v.call headKey key sel best traced keep hit true).Good headKey := by
  simp only [View.call]
  split
  · exact good.done rfl
  split
  · obtain ⟨keeps, -, keyed, swept, -, tera⟩ := traceKpos_chosen good.viewed key inside inside'
    generalize v.world.traceKpos headKey key sel best true = r at keeps keyed swept tera
    obtain ⟨kpos, w⟩ := r
    exact good.framed (f := ⟨.clause, v.calls.length, kpos, key kpos, 0, w.pred.nclauses % 2 ^ 32, 0⟩)
      keeps swept rfl keyed rfl (snapshot_fits swept fits)
      (fun i hi => absurd hi (Nat.not_lt_zero i)) (fun db => by cases db) false keep hit
      (Nat.lt_of_le_of_lt (Nat.succ_le_succ tera) deaths)
  · obtain ⟨keeps, -, keyed, swept, -, tera, answers⟩ := good.viewed.chosen key inside inside'
    generalize v.world.candidates headKey key sel best true = r at keeps keyed swept tera answers
    obtain ⟨⟨det, ix, kpos⟩, w⟩ := r
    have now := good.keeps keeps
    have snapshot := snapshot_eq keeps.1.ok kpos (key kpos)
    rw [snapshot_swept swept] at snapshot
    dsimp only at answers ⊢
    split
    · rename_i zero
      refine now.done ?_
      rcases answers with ⟨-, none_⟩ | ⟨one, -⟩ | ⟨more, -⟩
      · rw [snapshot, none_]
        rfl
      · omega
      · omega
    split
    · rename_i one
      refine now.done ?_
      rcases answers with ⟨zero, -⟩ | ⟨-, single⟩ | ⟨more, -⟩
      · omega
      · rw [snapshot, single]
        rfl
      · omega
    · exact good.framed (f := ⟨.clause, v.calls.length, kpos, key kpos, (if det = 2 then ix else 0),
          w.pred.nclauses % 2 ^ 32, 0⟩)
        keeps swept rfl keyed rfl (snapshot_fits swept fits) (answers_start answers)
        (fun db => by cases db) false keep hit (Nat.lt_of_le_of_lt (Nat.succ_le_succ tera) deaths)

theorem trySweep_facts {w : World} (viewed : w.Viewed headKey) :
    w.trySweep.2.frames = w.frames ∧ w.trySweep.2.pred.tera ≤ w.pred.tera ∧
      (w.frames = [] → ∀ r ∈ w.trySweep.2.pred.recs, r.live = true) := by
  by_cases none_dead : w.pred.ntomb = 0
  · rw [World.trySweep, if_pos none_dead]
    exact ⟨rfl, Nat.le_refl _, fun _ => Pred.live_of_ntomb_zero viewed.ok none_dead⟩
  · have frames : (w.framesOn .any).2.frames = w.frames := by
      rcases World.framesOn_any_framed w with eq | eq <;> rw [eq]
    have tera : (w.framesOn .any).2.pred.tera = w.pred.tera := by
      obtain ⟨framed, eq⟩ := World.framesOn_pred w .any
      rw [eq]
    rw [World.trySweep_eq none_dead]
    split
    · rename_i some_
      exact ⟨frames, Nat.le_of_eq tera, fun closed => absurd (viewed.framesOn_any.mpr closed) some_⟩
    · have ok := World.framesOn_ok viewed.ok .any
      refine ⟨frames, (Pred.sweep_tera _).trans (Nat.le_of_eq tera), ?_⟩
      intro _ r hr
      have swept : r ∈ (w.framesOn .any).2.pred.sweep.recs := hr
      rw [Pred.sweep_recs ok] at swept
      exact (List.mem_filter.mp swept).2

theorem swept_live {l l' : List Rec} (swept : Swept l l') (live : ∀ r ∈ l, r.live = true) :
    l' = l := by
  rcases swept with rfl | rfl
  · rfl
  · exact List.filter_eq_self.mpr live

theorem Good.walk {v : View} (good : v.Good headKey) (retracts : Bool) (key : Nat → Nat)
    {sel : Option Nat} {best : Nat} (inside : ∀ pos, sel = some pos → pos ≤ aixCount)
    (inside' : best ≤ aixCount) (hit : Nat → Bool) (fits : v.world.pred.nclauses < 2 ^ 32)
    (deaths : v.world.pred.tera + 1 < 2 ^ 32) :
    (v.walk headKey retracts key sel best hit true true true).Good headKey := by
  simp only [View.walk]
  have keeps₁ := good.viewed.keeps_trySweep
  have swept₁ := (World.trySweep_spec good.viewed.ok).2
  obtain ⟨frames₁, tera₁, live₁⟩ := trySweep_facts good.viewed
  generalize v.world.trySweep.2 = w₁ at keeps₁ swept₁ frames₁ tera₁ live₁
  obtain ⟨keeps₂, frames₂, keyed, swept₂, open₂, tera₂⟩ :=
    traceKpos_chosen keeps₁.1 key inside inside'
  generalize w₁.traceKpos headKey key sel best true = r at keeps₂ frames₂ keyed swept₂ open₂ tera₂
  obtain ⟨kpos, w₂⟩ := r
  dsimp only at keeps₂ frames₂ keyed swept₂ open₂ tera₂ ⊢
  -- the choice of an argument sweeps nothing: what could go is gone
  have recs₂ : w₂.pred.recs = w₁.pred.recs := by
    by_cases closed : w₁.frames = []
    · exact swept_live swept₂ (live₁ (frames₁ ▸ closed))
    · exact open₂ closed
  have whole : w₁.pred.nclauses % 2 ^ 32 = w₂.pred.nclauses := by
    rw [snapshot_fits swept₁ fits, ← Pred.length_recs w₁.pred, ← recs₂, Pred.length_recs]
  rw [whole]
  have keeps := keeps₁.trans keeps₂
  have swept := World.swept_trans swept₁ swept₂
  have tera := tera₂.trans tera₁
  have now := good.keeps keeps
  have snapshot := snapshot_eq keeps.1.ok kpos (key kpos)
  rw [snapshot_swept swept] at snapshot
  obtain ⟨f, hf⟩ : ∃ f : Frame,
    f = ⟨.db, v.calls.length, kpos, key kpos, 0, w₂.pred.nclauses, 0⟩ := ⟨_, rfl⟩
  rw [← hf]
  have cend : f.cend = w₂.pred.nclauses := by rw [hf]
  have offers : ∀ i < w₂.pred.nclauses, f.wants headKey (w₂.pred.recAt i) =
      w₂.pred.offers headKey kpos (key kpos) true i := by
    intro i hi
    rw [wants_new keeps.1.ok (by rw [hf]) hi, hf]
  obtain ⟨first, kept⟩ := Pred.nextFor_spec keeps.1.ok (f := f) (by rw [hf]; exact keyed)
    (Nat.le_of_eq cend) 0
  rw [cend, leastFrom_congr (fun i _ hi => offers i hi)] at first
  generalize w₂.pred.nextFor headKey f true 0 = s at first kept
  obtain ⟨a, p⟩ := s
  dsimp only at first kept ⊢
  cases short : f.short a with
  | none =>
    rw [short] at first
    refine (now.keeps (keeps.1.keeps_kept kept)).done ?_
    rw [snapshot, positions_eq_nil first.symm]
    rfl
  | some ix =>
    rw [short] at first
    obtain ⟨-, below, offered, before⟩ := leastFrom_eq_some.mp first.symm
    obtain ⟨count, recAt, -⟩ := kept.recs
    obtain ⟨second, kept'⟩ := Pred.nextFor_spec kept.1 (f := f) (by rw [hf]; exact keyed)
      (by rw [cend, count]) (ix + 1)
    rw [cend, recAt, leastFrom_congr (fun i _ hi => offers i hi)] at second
    dsimp only
    generalize p.nextFor headKey f true (ix + 1) = t at second kept'
    obtain ⟨b, p'⟩ := t
    have both := kept.trans kept'
    obtain ⟨count', recAt', recs'⟩ := both.recs
    have keeps' := keeps.trans (keeps.1.keeps_kept both)
    have tera' : p'.unlisted.tera = w₂.pred.unlisted.tera := by rw [both.2]
    have fits' : p'.tera + 1 < 2 ^ 32 := by
      have same : p'.tera = w₂.pred.tera := tera'
      omega
    dsimp only at second ⊢
    split
    · refine good.framed (f := ⟨.db, v.calls.length, kpos, key kpos, ix, w₂.pred.nclauses, 0⟩) keeps'
        (World.swept_trans swept (.inl recs')) rfl keyed rfl count'.symm ?_ ?_ retracts false hit fits'
      · intro i hi
        have lt : i < w₂.pred.nclauses := Nat.lt_trans hi below
        have wants : f.wants headKey (p'.recAt i) = p'.offers headKey f.ixpos f.key true i :=
          wants_new both.1 (by rw [hf]) (count' ▸ lt)
        rw [recAt', offers i lt, before i (Nat.zero_le i) hi, hf] at wants
        exact wants.symm
      · intro _ _
        have wants : f.wants headKey (p'.recAt ix) = true := by
          rw [recAt', offers ix below, offered]
        rw [hf] at wants
        exact wants
    · rename_i single
      rw [Option.not_isSome_iff_eq_none.mp single] at second
      have clauses : p'.clauses = w₂.pred.clauses := (Pred.of_unlisted both.2).2.2.1
      have all : [p'.clauses ix] = snapshotOf headKey kpos (key kpos) v.world.pred.recs := by
        rw [snapshot, positions_of_least first.symm, positions_eq_nil second.symm, clauses]
        rfl
      refine ((good.keeps keeps').done all).taken ?_ fits'
      intro i hi
      show i < p'.nclauses
      rw [count']
      split at hi
      · rw [← Option.some.inj hi]
        exact below
      · cases hi

/-- Memory could be had and no count leaves 32 bits. -/
def Roomy (v : View) : Move → Prop
  | .call _ _ _ _ _ _ grew =>
    grew = true ∧ v.world.pred.nclauses < 2 ^ 32 ∧ v.world.pred.tera + 1 < 2 ^ 32
  | .walk _ _ _ _ _ grew made listed =>
    (grew = true ∧ made = true ∧ listed = true) ∧ v.world.pred.nclauses < 2 ^ 32 ∧
      v.world.pred.tera + 1 < 2 ^ 32
  | .retry _ _ _ _ grew made listed =>
    (grew = true ∧ made = true ∧ listed = true) ∧ v.world.pred.tera + 1 < 2 ^ 32
  | .assert .. => v.world.pred.nclauses + 1 < 2 ^ 32
  | .retract _ made listed => (made = true ∧ listed = true) ∧ v.world.pred.tera + 1 < 2 ^ 32
  | .sweep | .drop _ => True

instance (v : View) : (m : Move) → Decidable (v.Roomy m)
  | .call .. => inferInstanceAs (Decidable (_ ∧ _ ∧ _))
  | .walk .. => inferInstanceAs (Decidable (_ ∧ _ ∧ _))
  | .retry .. => inferInstanceAs (Decidable (_ ∧ _))
  | .assert .. => inferInstanceAs (Decidable (_ < _))
  | .retract .. => inferInstanceAs (Decidable (_ ∧ _))
  | .sweep | .drop _ => inferInstanceAs (Decidable True)

/-- A walk taken up again stands at its end, or at a clause it is to try. -/
def Resumes (headKey : Nat → Nat → Nat) (v : View) : Move → Prop
  | .retry n .. => ∀ f, v.world.frames[n]? = some f → Resumable headKey v.world.pred f
  | _ => True

theorem step_good {v : View} {m : Move} (roomy : v.Roomy m) (resumes : v.Resumes headKey m)
    (good : v.Good headKey) : (v.step headKey m).Good headKey := by
  have bound : ∀ (sel : Option Pos) (pos : Nat), sel.map Fin.val = some pos → pos ≤ aixCount := by
    intro sel pos eq
    obtain ⟨x, -, rfl⟩ := Option.map_eq_some_iff.mp eq
    exact Nat.le_of_lt_succ x.isLt
  cases m with
  | call key sel best traced keep hit grew =>
    obtain ⟨rfl, clauses, deaths⟩ := roomy
    exact good.call key (bound sel) (Nat.le_of_lt_succ best.isLt) traced keep hit clauses deaths
  | walk retracts key sel best hit grew made listed =>
    obtain ⟨⟨rfl, rfl, rfl⟩, clauses, deaths⟩ := roomy
    exact good.walk retracts key (bound sel) (Nat.le_of_lt_succ best.isLt) hit clauses deaths
  | retry n retracts keep hit grew made listed =>
    obtain ⟨⟨rfl, rfl, rfl⟩, deaths⟩ := roomy
    exact good.retry retracts keep hit deaths resumes
  | assert atEnd c room grew => exact good.keeps (good.viewed.keeps_addClause atEnd c room grew roomy)
  | retract i made listed =>
    obtain ⟨⟨rfl, rfl⟩, deaths⟩ := roomy
    rw [View.step]
    split
    · rename_i stands
      exact good.keeps (good.viewed.keeps_retractAt stands.1 stands.2 deaths)
    · exact good
  | sweep => exact good.keeps good.viewed.keeps_trySweep
  | drop n =>
    have viewed : (v.world.putFrame n none).Viewed headKey :=
      putFrame_viewed good.viewed n (fun g eq => by cases eq)
    refine ⟨viewed, ?_⟩
    show Logged ((v.world.putFrame n none).pending headKey) v.calls
    rw [putFrame_pending]
    exact good.logged.drop n

theorem empty_good : Good headKey {} := by
  refine ⟨⟨Pred.empty_ok, ?_, fun open_ => absurd rfl open_, ?_⟩, ⟨?_, ?_, ?_⟩⟩ <;>
    simp [Pred.recs, entries, World.pending]

/-- In every run whose walks are taken up where they may be, the clauses every call tried
are the first of those live when it was made, in their order, all of them where it ended,
and an open one has the others left. -/
theorem logical_update_view (headKey : Nat → Nat → Nat) (moves : List Move)
    (meets : Along (step headKey) (fun v m => v.Roomy m ∧ v.Resumes headKey m) {} moves) :
    let v := run (step headKey) {} moves
    (∀ c ∈ v.calls, c.tried <+: c.snapshot ∧ (c.ended = true → c.tried = c.snapshot)) ∧
      ∀ f ∈ v.world.frames, ∃ c, v.calls[f.call]? = some c ∧ c.ended = false ∧
        c.tried ++ f.left headKey v.world.pred.recs = c.snapshot := by
  intro v
  have good : v.Good headKey :=
    run_along (fun v m cond good => step_good cond.1 cond.2 good) {} moves meets empty_good
  refine ⟨good.logged.all, ?_⟩
  intro f hf
  exact good.logged.here (f.call, _) (List.mem_map.mpr ⟨f, hf, rfl⟩)

/-- `p(a)`, `p(b)` and `p(c)`, a call of `p(X)` left open, `p(b)` retracted, and a walk of
`clause(p(Y), true)` left open after its first answer. -/
def openWalk : List Move :=
  [.assert true ⟨10, 1, 0, 0⟩ true true, .assert true ⟨11, 2, 0, 0⟩ true true,
    .assert true ⟨12, 3, 0, 0⟩ true true,
    .call (fun _ => 0) none 0 false false (fun _ => true) true, .retract 1 true true,
    .walk false (fun _ => 0) none 0 (fun _ => true) true true true]

theorem logical_update_view_openWalk :
    Along (step fun _ _ => 0) (fun v m => v.Roomy m ∧ v.Resumes (fun _ _ => 0) m) {} openWalk ∧
      (run (step fun _ _ => 0) {} openWalk).calls = [⟨[10, 11, 12], [10], false⟩, ⟨[10, 12], [10], false⟩] ∧
      ∀ c ∈ (run (step fun _ _ => 0) {} openWalk).calls, c.tried <+: c.snapshot := by
  have meets : Along (step fun _ _ => 0) (fun v m => v.Roomy m ∧ v.Resumes (fun _ _ => 0) m) {}
      openWalk := by
    refine ⟨⟨by decide, trivial⟩, ⟨by decide, trivial⟩, ⟨by decide, trivial⟩, ⟨by decide, trivial⟩,
      ⟨by decide, trivial⟩, ⟨by decide, trivial⟩, trivial⟩
  refine ⟨meets, by decide, ?_⟩
  intro c hc
  exact ((logical_update_view (fun _ _ => 0) openWalk meets).1 c hc).1

/-- Taken up again, the walk tries the clause that was dead when it began. -/
theorem walk_tries_the_dead :
    ¬ ∀ (headKey : Nat → Nat → Nat) (moves : List Move),
      Along (step headKey) (fun v m => v.Roomy m) {} moves →
        ∀ c ∈ (run (step headKey) {} moves).calls, c.tried <+: c.snapshot := by
  intro claimed
  have calls : (run (step fun _ _ => 0) {}
      (openWalk ++ [.retry 1 false false (fun _ => true) true true true])).calls =
      [⟨[10, 11, 12], [10], false⟩, ⟨[10, 12], [10, 11], false⟩] := by decide
  have tried := claimed (fun _ _ => 0)
    (openWalk ++ [.retry 1 false false (fun _ => true) true true true]) (by decide)
    ⟨[10, 12], [10, 11], false⟩ (by rw [calls]; decide)
  exact absurd tried (by decide)

end View

end Cocolog.Store
