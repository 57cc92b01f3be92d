import Cocolog.Green.Status

/-! Whole runs of the ledger: what the turns of the scheduler and the ends of runs keep, and
that a call which suspended is told its own status, once, before its task goes on. -/

set_option linter.all false

namespace Cocolog.Green

open Lib

variable {M : Type*}

namespace World

section Scheduler

variable {s s' : World M} {w i : Nat} {pending pending' : Nat → Option Suspension} {argument : Nat → Nat}

theorem Links.stays (links : s.Links pending argument) (acts : s.Acts s' i) (alive : (s.threads i).state ≠ .done)
    (j : Nat) (done : (s.threads j).state = .done) :
    (s'.threads j).state = .done ∧ (s'.threads j).status = (s.threads j).status :=
  (acts.others j fun same => alive (same ▸ done)).settled done (links.ended j done).2

/-- A task that ends tells those that await it. -/
theorem Acts.finish (s : World M) (i : Nat) (status : Text M) : s.Acts (s.finish i status) i where
  others j other := by
    have thread := finish_threads s i status j
    rw [if_neg other] at thread
    split at thread
    · rename_i waits
      refine @Passes.heard _ _ _ _ i status ⟨waits.2.2, by rw [thread], by rw [thread], ⟨?_, by rw [thread]⟩,
        by rw [thread], by rw [thread]⟩ ?_
      · rw [waits.2.1]
        exact nofun
      · rw [finish_threads, if_pos rfl]
        exact ⟨rfl, rfl⟩
    · exact .same thread
  nests _ _ _ := Iff.rfl
  nthreads := Nat.le_refl _
  main done := by
    show (s.mainDone || decide (i = 0)) = true
    rw [done]
    rfl

theorem Links.finish (links : s.Links pending argument) (alive : (s.threads i).state ≠ .done) (inside : i < s.nthreads)
    (status : Text M) : (s.finish i status).Links pending argument := by
  have self : (s.finish i status).threads i = { s.threads i with status := some status, state := .done, block := .none } := by
    rw [finish_threads, if_pos rfl]
  have done : ((s.finish i status).threads i).state = .done := by rw [self]
  refine links.acts (.finish s i status) alive (fun _ _ => rfl) (fun _ _ => rfl) (fun going => absurd done going)
    (fun _ going => absurd done going) (fun _ => ⟨by rw [self]; exact nofun, inside⟩) (fun main _ => ?_)
    fun _ _ => inside
  show (s.mainDone || decide (i = 0)) = true
  rw [main, decide_eq_true rfl, Bool.or_true]

/-- The main task can still be ended when the deadlock is found. -/
theorem Links.main_alive (links : s.Links pending argument) {op : Bool} (dead : s.dead op = true) :
    (s.threads 0).state ≠ .done ∧ 0 < s.nthreads := by
  simp only [World.dead, Bool.and_eq_true, Bool.not_eq_true', decide_eq_true_eq] at dead
  obtain ⟨⟨⟨⟨going, _⟩, some_⟩, _⟩, _⟩ := dead
  refine ⟨fun done => ?_, Nat.pos_of_ne_zero some_⟩
  rw [links.main done] at going
  cases going

theorem Links.deadlock (links : s.Links pending argument) (op : Bool) : (s.deadlock op).Links pending argument := by
  unfold World.deadlock
  split
  · rename_i dead
    obtain ⟨alive, inside⟩ := links.main_alive dead
    exact (links.finish alive inside _).frame rfl (fun _ _ => Iff.rfl) rfl id
  · exact links

theorem deadlock_stays (links : s.Links pending argument) (op : Bool) (j : Nat) (done : (s.threads j).state = .done) :
    ((s.deadlock op).threads j).state = .done ∧ ((s.deadlock op).threads j).status = (s.threads j).status := by
  unfold World.deadlock
  split
  · rename_i dead
    exact links.stays (.finish s 0 _) (links.main_alive dead).1 j done
  · exact ⟨done, rfl⟩

/-- The entries of the stacks that are nested waits, or about to be. -/
theorem nestedIn_setStack {k : Stack M}
    (top : ∀ j wait, k.top = some (j, .entering wait) ↔ (s.stackOf w).top = some (j, .entering wait))
    (below : k.below = (s.stackOf w).below) (j : Nat) (wait : Wait) :
    (s.setStack w k).NestedIn j wait ↔ s.NestedIn j wait := by
  refine exists_congr fun v => ?_
  by_cases same : v = w
  · subst same
    rw [stackOf_self, top, below]
  · rw [stackOf_other same]

/-- A run that is not entering a nested wait starts or ends. -/
theorem nestedIn_setTop {p : Option (Nat × Phase M)} (before : ∀ j wait, (s.stackOf w).top ≠ some (j, .entering wait))
    (after : ∀ j wait, p ≠ some (j, .entering wait)) (j : Nat) (wait : Wait) :
    (s.setTop w p).NestedIn j wait ↔ s.NestedIn j wait :=
  nestedIn_setStack (k := { s.stackOf w with top := p }) (fun j wait => iff_of_false (after j wait) (before j wait)) rfl j wait

/-- A task is in one nested wait at most. -/
theorem RunInv.nests_once (inv : s.RunInv) {wait wait' : Wait} (here : s.NestedIn i wait) (there : s.NestedIn i wait') :
    wait = wait' := by
  have once : ∀ v, (s.stackOf v).top = some (i, .entering wait) → (i, wait') ∉ (s.stackOf v).below := fun v top =>
    (inv.top_only top).2 _
  have once' : ∀ v, (s.stackOf v).top = some (i, .entering wait') → (i, wait) ∉ (s.stackOf v).below := fun v top =>
    (inv.top_only top).2 _
  obtain ⟨v, at_⟩ := here
  obtain ⟨v', at_'⟩ := there
  have mine : i ∈ (s.stackOf v).progress := at_.elim mem_progress_top mem_progress_below
  have mine' : i ∈ (s.stackOf v').progress := at_'.elim mem_progress_top mem_progress_below
  have same : v = v' := (inv.pinned v i mine).1.symm.trans (inv.pinned v' i mine').1
  subst same
  rcases at_ with top | below <;> rcases at_' with top' | below'
  · cases Option.some.inj (top.symm.trans top')
    rfl
  · exact absurd below' (once v top)
  · exact absurd below (once' v top')
  · have nodup : ((s.stackOf v).below.map (·.1)).Nodup := (List.nodup_append.mp (inv.once v)).2.1
    exact congrArg Prod.snd (List.inj_on_of_nodup_map nodup below below' rfl)

/-- The call of a task that waits in a nested engine. -/
theorem Links.nested (links : s.Links pending argument) (inv : s.RunInv) {wait : Wait} (nests : s.NestedIn i wait)
    (alive : (s.threads i).state ≠ .done) :
    ∃ call, pending i = some call ∧ call.nested = true ∧ call.kind.wait = wait ∧ argument i = call.cell ∧
      s.Hears i call := by
  cases open_ : pending i with
  | none => exact absurd nests ((links.idle i alive open_).away wait)
  | some call =>
    obtain ⟨inside, away, cell, hears⟩ := links.linked i call alive open_
    cases nested : call.nested with
    | false => exact absurd nests (away nested wait)
    | true =>
      rw [nested, if_pos rfl] at cell
      exact ⟨call, rfl, nested, inv.nests_once (inside nested) nests, cell, hears⟩

/-- The call of a task that was woken outside every nested engine. -/
theorem Links.woken (links : s.Links pending argument) {text : Text M} (holds : (s.threads i).resumeText = some text)
    (alive : (s.threads i).state ≠ .done) (away : ∀ wait, ¬s.NestedIn i wait) :
    ∃ call, pending i = some call ∧ (s.threads i).resumeCell = call.cell ∧ s.Suits call.kind text := by
  cases open_ : pending i with
  | none => exact absurd ((links.idle i alive open_).text.symm.trans holds) nofun
  | some call =>
    obtain ⟨inside, _, cell, hears⟩ := links.linked i call alive open_
    obtain ⟨kind, own, nested⟩ := call
    cases nested with
    | true => exact absurd (inside rfl) (away _)
    | false =>
      refine ⟨_, rfl, cell, ?_⟩
      cases kind with
      | await id =>
        rcases hears.2 with ⟨none_, _⟩ | ⟨_, text', holds', suits⟩
        · exact absurd (none_.symm.trans holds) nofun
        · cases holds.symm.trans holds'
          exact suits
      | send => exact hears.2.2 text holds
      | recv => exact hears.2.2 text holds

/-- Task `i` goes on with its call closed. -/
theorem Links.goesOn (links : s.Links pending argument) (acts : s.Acts s' i) (alive : (s.threads i).state ≠ .done)
    (inside : i < s.nthreads) (alive' : (s'.threads i).state ≠ .done) (clean : (s'.threads i).Clean)
    (away : ∀ wait, ¬s'.NestedIn i wait) (shut : pending' i = none) (others : ∀ j, j ≠ i → pending' j = pending j) :
    s'.Links pending' argument :=
  links.acts acts alive others (fun _ _ => rfl)
    (fun _ _ => ⟨clean.1, clean.2.2, by rw [clean.2.1]; exact nofun, away⟩)
    (fun _ _ open_ => absurd (shut.symm.trans open_) nofun) (fun done => absurd done alive')
    (fun same done => absurd (same ▸ done) alive') fun _ _ => Nat.lt_of_lt_of_le inside acts.nthreads

theorem nestedIn_waits {wait : Wait} (top : (s.stackOf w).top = some (i, .entering wait)) (j : Nat) (wait' : Wait) :
    (s.waits w i wait).NestedIn j wait' ↔ s.NestedIn j wait' := by
  refine exists_congr fun v => ?_
  by_cases same : v = w
  · subst same
    have here : (s.waits v i wait).stackOf v =
        { s.stackOf v with top := none, below := (i, wait) :: (s.stackOf v).below } := stackOf_self
    rw [here, top]
    simp only [List.mem_cons, Option.some.injEq, Prod.mk.injEq, Phase.entering.injEq, reduceCtorEq, false_or]
    rw [eq_comm (a := i), eq_comm (a := wait)]
  · have there : (s.waits w i wait).stackOf v = s.stackOf v := stackOf_other same
    rw [there]

theorem Links.waits (links : s.Links pending argument) (inv : s.RunInv) {wait : Wait}
    (top : (s.stackOf w).top = some (i, .entering wait)) :
    (s.waits w i wait).Links pending argument ∧ s.Acts (s.waits w i wait) i := by
  have self : (s.waits w i wait).threads i = { s.threads i with state := .nested } := threads_self _
  have acts : s.Acts (s.waits w i wait) i :=
    ⟨fun j other => .same (threads_other other _), fun j _ => nestedIn_waits top j, Nat.le_refl _, id⟩
  have mine := mem_progress_top top
  exact ⟨links.restates acts (inv.pinned w i mine).2 (inv.alive w i mine) (by rw [self]; exact nofun) (by rw [self])
    (by rw [self]) (by rw [self]) (by rw [self]) (by rw [self]) (nestedIn_waits top i), acts⟩

/-- A run that is back, its task outside every call, ends or is put off. -/
theorem Links.readied (links : s.Links pending argument) (inv : s.RunInv) {rc : Rc M}
    (top : (s.stackOf w).top = some (i, .back rc)) (call : (s.threads i).call = none)
    (text : (s.threads i).resumeText = none) (block : (s.threads i).block ≠ .await) :
    ((s.setTop w none).setThread i { s.threads i with state := .ready, block := .none }).Links pending argument ∧
      s.Acts ((s.setTop w none).setThread i { s.threads i with state := .ready, block := .none }) i := by
  have mine := mem_progress_top top
  have nests := nestedIn_setTop (s := s) (w := w) (p := none) (fun j wait => by rw [top]; exact nofun) fun _ _ => nofun
  have self : ((s.setTop w none).setThread i { s.threads i with state := .ready, block := .none }).threads i =
      { s.threads i with state := .ready, block := .none } := threads_self _
  have acts : s.Acts ((s.setTop w none).setThread i { s.threads i with state := .ready, block := .none }) i :=
    ⟨fun j other => .same (threads_other other _), fun j _ => nests j, Nat.le_refl _, id⟩
  have away : ∀ wait, ¬s.NestedIn i wait := fun wait => inv.away top wait nofun
  refine ⟨links.goesOn acts (inv.alive w i mine) (inv.pinned w i mine).2 ?_ ?_ (fun wait nested => ?_)
    (links.free (inv.alive w i mine) call text block away) fun _ _ => rfl, acts⟩
  · rw [self]
    exact nofun
  · rw [self]
    exact ⟨call, rfl, text⟩
  · exact away wait ((nests i wait).mp nested)

/-- The end of a run, under the lock. -/
theorem Links.lands (links : s.Links pending argument) (kept : s.Kept) {rc : Rc M}
    (top : (s.stackOf w).top = some (i, .back rc)) (op : Bool) :
    ((s.setTop w none).lands i rc op).Links pending argument ∧
    (∀ j, (s.threads j).state = .done → (((s.setTop w none).lands i rc op).threads j).state = .done ∧
      (((s.setTop w none).lands i rc op).threads j).status = (s.threads j).status) ∧
    ∀ v, (((s.setTop w none).lands i rc op).stackOf v) = (s.setTop w none).stackOf v := by
  have mine := mem_progress_top top
  have alive := kept.runs.alive w i mine
  have inside := (kept.runs.pinned w i mine).2
  have bare : rc ≠ .zero → (s.threads i).Clean := by
    intro other
    refine kept.places.top w i _ top ?_
    cases rc with
    | zero => exact absurd rfl other
    | _ => trivial
  have nests := nestedIn_setTop (s := s) (w := w) (p := none) (fun j wait => by rw [top]; simp) fun _ _ is => by cases is
  have dropped : (s.setTop w none).Links pending argument := links.frame rfl nests rfl id
  have ends (status : Text M) := And.intro (dropped.finish alive inside status)
    (And.intro (dropped.stays (.finish (s.setTop w none) i status) alive) fun v => (rfl :
      (((s.setTop w none).finish i status).stackOf v) = (s.setTop w none).stackOf v))
  have readied (call : (s.threads i).call = none) (text : (s.threads i).resumeText = none)
      (block : (s.threads i).block ≠ .await) := by
    obtain ⟨links', acts⟩ := links.readied kept.runs top call text block
    exact And.intro links' (And.intro (links.stays acts alive) fun v => (rfl :
      ((((s.setTop w none).setThread i { s.threads i with state := .ready, block := .none }).stackOf v) =
        (s.setTop w none).stackOf v)))
  unfold World.lands
  simp only
  split
  · have clean := bare (by simp)
    exact readied clean.1 clean.2.2 (by rw [clean.2.1]; simp)
  · exact ends _
  · exact ends _
  · split
    · exact ⟨dropped, fun _ done => ⟨done, rfl⟩, fun _ => rfl⟩
    rename_i unwoken
    have text : (s.threads i).resumeText = none := by simpa [setTop, setStack] using unwoken
    split
    · exact ends _
    · rename_i block
      have block : (s.threads i).block = .yield := block
      exact readied (kept.books.uncalled text (by simp [block])) text (by rw [block]; simp)
    · have self : ((s.setTop w none).setThread i { s.threads i with state := .blocked }).threads i =
          { s.threads i with state := .blocked } := threads_self _
      have acts : (s.setTop w none).Acts ((s.setTop w none).setThread i { s.threads i with state := .blocked }) i :=
        ⟨fun j other => .same (threads_other other _), fun _ _ _ => Iff.rfl, Nat.le_refl _, id⟩
      have blocked : ((s.setTop w none).setThread i { s.threads i with state := .blocked }).Links pending argument := by
        refine dropped.restates acts inside alive ?_ ?_ ?_ ?_ ?_ ?_ fun _ => Iff.rfl
        · rw [self]
          simp
        all_goals rw [self]; rfl
      refine ⟨blocked.deadlock op, fun j done => ?_, fun v => ?_⟩
      · obtain ⟨done', status⟩ := dropped.stays acts alive j done
        exact (deadlock_stays blocked op j done').imp_right fun same => same.trans status
      · unfold World.deadlock
        split <;> rfl

theorem enter_woken {text : Text M} (holds : (s.threads i).resumeText = some text) : ∃ status, s.enter w i =
    ((s.answer (s.threads i).call status).setThread i { s.threads i with resumeText := none, call := none }).setTop w
      (some (i, .running)) := by
  simp only [World.enter, holds]
  exact ⟨_, rfl⟩

theorem enter_fresh (none_ : (s.threads i).resumeText = none) : s.enter w i = s.setTop w (some (i, .running)) := by
  simp only [World.enter, none_]

/-- A woken task is entered, and its call is closed. -/
theorem Links.enter (links : s.Links pending argument) (top : (s.stackOf w).top = none)
    (gone : ∀ v, i ∉ (s.stackOf v).progress) (inside : i < s.nthreads) (alive : (s.threads i).state ≠ .done)
    (block : (s.threads i).block = .none) {text : Text M} (holds : (s.threads i).resumeText = some text)
    (shut : pending' i = none) (others : ∀ j, j ≠ i → pending' j = pending j) :
    (s.enter w i).Links pending' argument ∧ s.Acts (s.enter w i) i := by
  obtain ⟨status, same⟩ := enter_woken (w := w) holds
  rw [same]
  have stack : ((s.answer (s.threads i).call status).setThread i
      { s.threads i with resumeText := none, call := none }).stackOf = s.stackOf := answer_stackOf _ _ _
  have nests : ∀ j wait, (((s.answer (s.threads i).call status).setThread i
      { s.threads i with resumeText := none, call := none }).setTop w (some (i, .running))).NestedIn j wait ↔
      s.NestedIn j wait := by
    intro j wait
    refine (nestedIn_setTop (fun j wait => ?_) (fun _ _ => by exact nofun) j wait).trans (exists_congr fun v => by rw [stack])
    rw [stack, top]
    exact nofun
  have self : (((s.answer (s.threads i).call status).setThread i
      { s.threads i with resumeText := none, call := none }).setTop w (some (i, .running))).threads i =
      { s.threads i with resumeText := none, call := none } := threads_self _
  have acts : s.Acts (((s.answer (s.threads i).call status).setThread i
      { s.threads i with resumeText := none, call := none }).setTop w (some (i, .running))) i := by
    refine ⟨fun j other => .same (answer_other s _ _ _ other), fun j _ => nests j, ?_, ?_⟩
    all_goals
      unfold World.answer
      split
    · exact Nat.le_refl _
    · exact Nat.le_refl _
    · exact id
    · exact id
  refine ⟨links.goesOn acts alive inside ?_ ?_ (fun wait nested => ?_) shut others, acts⟩
  · rw [self]
    exact alive
  · rw [self]
    exact ⟨rfl, block, rfl⟩
  · exact not_nestedIn gone wait ((nests i wait).mp nested)

/-- A nested wait ends, its task in no call any more. -/
theorem Links.resumed (links : s.Links pending argument) (runs : s.RunInv) {wait : Wait} {rest : List (Nat × Wait)}
    (top : (s.stackOf w).top = none) (below : (s.stackOf w).below = (i, wait) :: rest) (call : Option (Call M))
    (status : Option (Text M)) {t : Thread M} (block : t.block = .none) (text : t.resumeText = none)
    (runs' : ((s.answer call status).resumed w i t rest).RunInv) (shut : pending' i = none)
    (others : ∀ j, j ≠ i → pending' j = pending j) :
    ((s.answer call status).resumed w i t rest).Links pending' argument ∧
      s.Acts ((s.answer call status).resumed w i t rest) i := by
  have mine : i ∈ (s.stackOf w).progress := mem_progress_below (below ▸ List.mem_cons_self)
  have self : ((s.answer call status).resumed w i t rest).threads i = { t with state := .ready, call := none } :=
    threads_self _
  have here : ((s.answer call status).resumed w i t rest).stackOf w =
      { s.stackOf w with top := some (i, .running), below := rest } := by
    refine stackOf_self.trans ?_
    rw [answer_stackOf]
  have there : ∀ v, v ≠ w → ((s.answer call status).resumed w i t rest).stackOf v = s.stackOf v := fun v other =>
    (stackOf_other other).trans (congrFun (answer_stackOf _ _ _) v)
  have nthreads : ((s.answer call status).resumed w i t rest).nthreads = s.nthreads := by
    unfold World.answer
    split <;> rfl
  have acts : s.Acts ((s.answer call status).resumed w i t rest) i := by
    refine ⟨fun j other => .same (answer_other s _ _ _ other), fun j other wait' => exists_congr fun v => ?_,
      nthreads.ge, ?_⟩
    · by_cases same : v = w
      · subst same
        rw [here, top, below]
        simp only [List.mem_cons, Prod.mk.injEq, Option.some.injEq, reduceCtorEq, other, false_and, and_false, false_or]
      · rw [there v same]
    · unfold World.answer
      split <;> exact id
  refine ⟨links.goesOn acts (runs.alive w i mine) (runs.pinned w i mine).2 ?_ ?_ (fun wait' => ?_) shut others, acts⟩
  · rw [self]
    exact nofun
  · rw [self]
    exact ⟨rfl, block, text⟩
  · have running : (((s.answer call status).resumed w i t rest).stackOf w).top = some (i, .running) := by rw [here]
    exact runs'.away running wait' nofun

end Scheduler

end World

namespace Tracked

open World

/-- The call open for each task. -/
abbrev calls (t : Tracked M) (i : Nat) : Option Suspension := (t.ledger.pending i).map (·.2)

/-- What every step keeps. -/
structure Tracks (t : Tracked M) : Prop where
  kept : t.world.Kept
  links : t.world.Links t.calls t.argument
  even : t.ledger.Even
  own : ∀ n call cell text, (n, call, some (cell, text)) ∈ t.ledger.closed →
    cell = call.cell ∧ t.world.Suits call.kind text
  told : ∀ n call, (n, call, none) ∈ t.ledger.closed → call.nested = true

section Tracks

variable {t : Tracked M} {s' : World M} {w i : Nat}

theorem start_tracks (n : Nat) : (Tracked.start n : Tracked M).Tracks where
  kept := start_kept n
  links := by
    refine ⟨fun i _ _ => ⟨rfl, rfl, nofun, fun wait nested => ?_⟩, fun _ _ _ open_ => absurd open_ nofun, nofun, nofun,
      fun _ _ open_ => absurd open_ nofun⟩
    obtain ⟨v, top | below⟩ := nested
    · exact absurd top nofun
    · exact absurd below List.not_mem_nil
  even := .empty
  own := nofun
  told := nofun

/-- A running task has no call open. -/
theorem Tracks.stopped (tracks : t.Tracks) (top : (t.world.stackOf w).top = some (i, .running)) : t.calls i = none := by
  have clean := tracks.kept.places.top w i _ top trivial
  exact tracks.links.free (tracks.kept.runs.alive w i (mem_progress_top top)) clean.1 clean.2.2
    (by rw [clean.2.1]; exact nofun) fun wait => tracks.kept.runs.away top wait nofun

theorem Tracks.ownStatus (tracks : t.Tracks) : t.OwnStatus where
  even := tracks.even
  own := tracks.own
  told := tracks.told
  stopped _ _ top := Option.map_eq_none_iff.mp (tracks.stopped top)

/-- No call is opened or closed. -/
theorem Tracks.unmoved (tracks : t.Tracks) (kept : s'.Kept) (links : s'.Links t.calls t.argument)
    (stays : ∀ j, (t.world.threads j).state = .done →
      (s'.threads j).state = .done ∧ (s'.threads j).status = (t.world.threads j).status) :
    ({ t with world := s' } : Tracked M).Tracks :=
  ⟨kept, links, tracks.even, fun n call cell text mem => (tracks.own n call cell text mem).imp_right (·.settled stays),
    tracks.told⟩

theorem calls_suspends (call : Suspension) : (t.suspends i call).calls i = some call ∧
    ∀ j, j ≠ i → (t.suspends i call).calls j = t.calls j :=
  ⟨congrArg (Option.map _) (Ledger.opens_self call), fun _ other => congrArg (Option.map _) (Ledger.opens_other other call)⟩

theorem calls_tells (cell : Nat) (text : Option (Text M)) : (t.tells i cell text).calls i = none ∧
    ∀ j, j ≠ i → (t.tells i cell text).calls j = t.calls j :=
  ⟨congrArg (Option.map _) (Ledger.closes_self _), fun _ other => congrArg (Option.map _) (Ledger.closes_other other _)⟩

theorem Tracks.suspends (tracks : t.Tracks) {call : Suspension} (free : t.calls i = none) (kept : s'.Kept)
    (links : s'.Links (t.suspends i call).calls (t.suspends i call).argument)
    (stays : ∀ j, (t.world.threads j).state = .done →
      (s'.threads j).state = .done ∧ (s'.threads j).status = (t.world.threads j).status) :
    ({ t.suspends i call with world := s' } : Tracked M).Tracks :=
  ⟨kept, links, tracks.even.opens (Option.map_eq_none_iff.mp free) call,
    fun n call cell text mem => (tracks.own n call cell text mem).imp_right (·.settled stays), tracks.told⟩

/-- The open call of task `i` is closed, in its own cell or by the deadlock error. -/
theorem Tracks.tells (tracks : t.Tracks) {call : Suspension} (open_ : t.calls i = some call) {cell : Nat}
    {text : Option (Text M)} (mine : cell = call.cell) (suits : ∀ told ∈ text, t.world.Suits call.kind told)
    (nested : text = none → call.nested = true) (kept : s'.Kept)
    (links : s'.Links (t.tells i cell text).calls t.argument)
    (stays : ∀ j, (t.world.threads j).state = .done →
      (s'.threads j).state = .done ∧ (s'.threads j).status = (t.world.threads j).status) :
    ({ t.tells i cell text with world := s' } : Tracked M).Tracks := by
  obtain ⟨⟨n, _⟩, at_, rfl⟩ := Option.map_eq_some_iff.mp open_
  have closed : (t.tells i cell text).ledger.closed = (n, _, text.map fun text => (cell, text)) :: t.ledger.closed :=
    congrArg Ledger.closed (Ledger.closes_open at_ _)
  refine ⟨kept, links, tracks.even.closes (by rw [at_]; exact nofun) _, fun m call' cell' text' mem => ?_,
    fun m call' mem => ?_⟩
  · rcases List.mem_cons.mp (closed ▸ mem) with new | old
    · obtain ⟨told, holds, same⟩ := Option.map_eq_some_iff.mp (congrArg (·.2.2) new).symm
      cases same
      cases congrArg (·.2.1) new
      exact ⟨mine, (suits _ holds).settled stays⟩
    · exact (tracks.own m call' cell' text' old).imp_right (·.settled stays)
  · rcases List.mem_cons.mp (closed ▸ mem) with new | old
    · have none_ := Option.map_eq_none_iff.mp (congrArg (·.2.2) new).symm
      cases congrArg (·.2.1) new
      exact nested none_
    · exact tracks.told m call' old

/-- The worker's step of `w` ends in the world `s'`. -/
theorem records_idle {d : Do M} (stepped : t.world.step (w, d) = s') (top : (t.world.stackOf w).top = none)
    (top' : (s'.stackOf w).top = none) : t.records w d = t := by
  simp only [records, stepped, top, top']

theorem records_enters {d : Do M} (stepped : t.world.step (w, d) = s') (top : (t.world.stackOf w).top = none)
    (top' : (s'.stackOf w).top = some (i, .running))
    (below : (s'.stackOf w).below.length = (t.world.stackOf w).below.length) :
    t.records w d = match (t.world.threads i).resumeText with
      | some text => t.tells i (t.world.threads i).resumeCell (some text)
      | none => t := by
  cases holds : (t.world.threads i).resumeText <;> simp only [records, stepped, top, top', below, if_true, holds]

theorem records_resumes {d : Do M} (stepped : t.world.step (w, d) = s') (top : (t.world.stackOf w).top = none)
    (top' : (s'.stackOf w).top = some (i, .running)) {wait : Wait} {rest : List (Nat × Wait)}
    (below : (t.world.stackOf w).below = (i, wait) :: rest) (below' : (s'.stackOf w).below = rest) :
    t.records w d = match wait with
      | .await id =>
        if (t.world.threads id).state = .done then t.tells i (t.argument i) (t.world.threads id).status
        else t.tells i (t.argument i) none
      | .resume => t.tells i (t.argument i) (t.world.threads i).resumeText := by
  have other : ¬rest.length = (((i, wait) :: rest : List (Nat × Wait))).length := by simp
  simp only [records, stepped, top, top', below, below', if_neg other]
  cases wait <;> rfl

/-- What a turn has to show: the ledger follows the world. -/
def Follows (t : Tracked M) (w : Nat) (d : Do M) (s' : World M) : Prop :=
  t.world.step (w, d) = s' → ({ t.records w d with world := s' } : Tracked M).Tracks

theorem Tracks.enter (tracks : t.Tracks) {d : Do M} {k : Stack M} (top : (t.world.stackOf w).top = none)
    (turned : k.top = none ∧ k.below = (t.world.stackOf w).below)
    (new : i ∉ (t.world.stackOf w).progress) (inside : i < t.world.nthreads) (ready : t.world.isReady i = true)
    (worker : (t.world.threads i).worker = w) (kept' : ((t.world.setStack w k).enter w i).Kept) :
    t.Follows w d ((t.world.setStack w k).enter w i) := by
  intro stepped
  have gone : ∀ v, i ∉ (t.world.stackOf v).progress := fun v there =>
    new (worker.symm.trans (tracks.kept.runs.pinned v i there).1 ▸ there)
  have alive := not_done_of_ready ready
  obtain ⟨loose, outside⟩ := tracks.kept.loose (by simpa [isReady] using ready) gone
  have away := not_nestedIn gone
  have links : (t.world.setStack w k).Links t.calls t.argument := by
    refine tracks.links.frame rfl (nestedIn_setStack (fun j wait => ?_) turned.2) rfl id
    rw [turned.1, top]
  have top_ : ((t.world.setStack w k).stackOf w).top = none := by
    rw [stackOf_self]
    exact turned.1
  have gone_ : ∀ v, i ∉ ((t.world.setStack w k).stackOf v).progress := by
    intro v
    by_cases same : v = w
    · subst same
      rw [stackOf_self, Stack.progress, turned.1, turned.2, ← top]
      exact gone v
    · rw [stackOf_other same]
      exact gone v
  cases holds : (t.world.threads i).resumeText with
  | none =>
    have fresh := enter_fresh (s := t.world.setStack w k) (w := w) holds
    have records : t.records w d = t := by
      refine (records_enters (i := i) stepped top ?_ ?_).trans (by rw [holds])
      · rw [fresh, setTop, stackOf_self]
      · rw [fresh, setTop, stackOf_self, stackOf_self]
        exact congrArg List.length turned.2
    rw [records]
    rw [fresh] at kept' ⊢
    refine tracks.unmoved kept' (links.frame rfl (nestedIn_setTop (fun _ _ => ?_) fun _ _ is => by cases is) rfl id)
      fun _ done => ⟨done, rfl⟩
    rw [top_]
    simp
  | some text =>
    obtain ⟨status, woken⟩ := enter_woken (s := t.world.setStack w k) (w := w) holds
    have stack : (((t.world.setStack w k).answer ((t.world.setStack w k).threads i).call status).setThread i
        { (t.world.setStack w k).threads i with resumeText := none, call := none }).stackOf =
        (t.world.setStack w k).stackOf := answer_stackOf _ _ _
    have records : t.records w d = t.tells i (t.world.threads i).resumeCell (some text) := by
      refine (records_enters (i := i) stepped top ?_ ?_).trans (by rw [holds])
      · rw [woken, setTop, stackOf_self]
      · rw [woken, setTop, stackOf_self, stack, stackOf_self]
        exact congrArg List.length turned.2
    rw [records]
    obtain ⟨call, open_, cell, suits⟩ := tracks.links.woken holds alive away
    obtain ⟨links', acts⟩ := links.enter (s := t.world.setStack w k) top_ gone_ inside alive loose holds
      (calls_tells (t := t) _ _).1 (calls_tells (t := t) (i := i) (t.world.threads i).resumeCell (some text)).2
    exact tracks.tells open_ cell (fun told mem => by cases Option.mem_some_iff.mp mem; exact suits) (by simp) kept' links'
      (links.stays acts alive)

/-- A nested wait is over: its call is closed with `told`, in the cell on its frame. -/
theorem Tracks.resumed (tracks : t.Tracks) {d : Do M} {wait : Wait} {rest : List (Nat × Wait)}
    (top : (t.world.stackOf w).top = none) (below : (t.world.stackOf w).below = (i, wait) :: rest)
    (call : Option (Call M)) (status : Option (Text M)) {th : Thread M} (block : th.block = .none)
    (text : th.resumeText = none) (kept' : ((t.world.answer call status).resumed w i th rest).Kept)
    (told : Option (Text M))
    (records : (match wait with
      | .await id =>
        if (t.world.threads id).state = .done then t.tells i (t.argument i) (t.world.threads id).status
        else t.tells i (t.argument i) none
      | .resume => t.tells i (t.argument i) (t.world.threads i).resumeText) = t.tells i (t.argument i) told)
    (suits : ∀ held : Suspension, held.kind.wait = wait → t.world.Hears i held →
      ∀ text ∈ told, t.world.Suits held.kind text) :
    t.Follows w d ((t.world.answer call status).resumed w i th rest) := by
  intro stepped
  have mine : i ∈ (t.world.stackOf w).progress := mem_progress_below (below ▸ List.mem_cons_self)
  have alive := tracks.kept.runs.alive w i mine
  have here : (((t.world.answer call status).resumed w i th rest).stackOf w) =
      { t.world.stackOf w with top := some (i, .running), below := rest } := by
    refine stackOf_self.trans ?_
    rw [answer_stackOf]
  rw [(records_resumes stepped top (by rw [here]) below (by rw [here])).trans records]
  obtain ⟨held, open_, nested, waits, cell, hears⟩ := tracks.links.nested tracks.kept.runs
    (⟨w, .inr (below ▸ List.mem_cons_self)⟩ : t.world.NestedIn i wait) alive
  obtain ⟨links', acts⟩ := tracks.links.resumed tracks.kept.runs top below call status block text kept'.runs
    (calls_tells (t := t) _ told).1 (calls_tells (t := t) (i := i) (t.argument i) told).2
  exact tracks.tells open_ cell (suits held waits hears) (fun _ => nested) kept' links' (tracks.links.stays acts alive)

theorem Tracks.runPicked (tracks : t.Tracks) {d : Do M} (top : (t.world.stackOf w).top = none)
    (new : i ∉ (t.world.stackOf w).progress) (picked : t.world.pick w = some i)
    (kept' : (t.world.runPicked w i).Kept) : t.Follows w d (t.world.runPicked w i) := by
  obtain ⟨inside, ready, worker⟩ := pick_spec picked
  exact tracks.enter (k := { t.world.stackOf w with cursor := i + 1 }) top ⟨top, rfl⟩ new inside ready worker kept'

theorem Tracks.idles (tracks : t.Tracks) {d : Do M} (top : (t.world.stackOf w).top = none)
    (top' : (s'.stackOf w).top = none) (kept' : s'.Kept) (links : s'.Links t.calls t.argument)
    (stays : ∀ j, (t.world.threads j).state = .done →
      (s'.threads j).state = .done ∧ (s'.threads j).status = (t.world.threads j).status) : t.Follows w d s' := by
  intro stepped
  rw [records_idle stepped top top']
  exact tracks.unmoved kept' links stays

theorem Tracks.stays_put (tracks : t.Tracks) {d : Do M} (top : (t.world.stackOf w).top = none) :
    t.Follows w d t.world :=
  tracks.idles top top tracks.kept tracks.links fun _ done => ⟨done, rfl⟩

/-- An await gets no text; a channel call that finds none would be given up. -/
theorem Tracks.runReady (tracks : t.Tracks) {d : Do M} {id : Nat} {rest : List (Nat × Wait)}
    (top : (t.world.stackOf w).top = none) (below : (t.world.stackOf w).below = (i, .await id) :: rest)
    (calm : ∀ p ∈ (t.world.stackOf w).below, t.world.isReady p.1 = false)
    (going : (t.world.threads id).state ≠ .done) (kept' : (t.world.runReady w i rest).Kept) :
    t.Follows w d (t.world.runReady w i rest) := by
  have clean := tracks.kept.places.below w i id (below ▸ List.mem_cons_self)
  unfold World.runReady at kept' ⊢
  split at kept'
  · rename_i j picked
    exact tracks.runPicked top (not_below top calm (pick_spec picked).2.1) picked kept'
  · rename_i unpicked
    split at kept'
    · rename_i some_
      rw [if_pos some_]
      exact tracks.stays_put top
    · rename_i idle
      rw [if_neg idle]
      exact tracks.resumed top below _ _ clean.2.1 clean.2.2 kept' none (if_neg going) fun _ _ _ _ => nofun

theorem Tracks.loopTurn (tracks : t.Tracks) {op : Bool} (top : (t.world.stackOf w).top = none)
    (below : (t.world.stackOf w).below = []) (kept' : (t.world.loopTurn w op).Kept) :
    t.Follows w (.turn op) (t.world.loopTurn w op) := by
  unfold World.loopTurn at kept' ⊢
  split at kept'
  · rename_i j picked
    exact tracks.runPicked top (by simp [Stack.progress, top, below]) picked kept'
  · rename_i unpicked
    have stack : (t.world.deadlock op).stackOf = t.world.stackOf := by
      unfold World.deadlock
      split <;> rfl
    have links := tracks.links.deadlock op
    simp only at kept' ⊢
    split at kept'
    · rename_i over_
      rw [if_pos over_]
      refine tracks.idles top ?_ kept' (links.frame rfl (nestedIn_setStack (fun _ _ => Iff.rfl) rfl) rfl id)
        (deadlock_stays tracks.links op)
      rw [stackOf_self, stack]
      exact top
    · rename_i more
      rw [if_neg more]
      exact tracks.idles top (by rw [stack]; exact top) kept' links (deadlock_stays tracks.links op)

theorem Kind.wait_await {kind : Kind} {id : Nat} (waits : kind.wait = .await id) : kind = .await id := by
  cases kind with
  | await id' =>
    cases waits
    rfl
  | send => cases waits
  | recv => cases waits

theorem Tracks.turn (tracks : t.Tracks) (here : w < t.world.nworkers) (top : (t.world.stackOf w).top = none) (op : Bool)
    (orderly : t.world.Orderly (w, .turn op)) : t.Follows w (.turn op) (t.world.turn w op) := by
  have kept' := tracks.kept.turn here top op orderly
  unfold World.turn at kept' ⊢
  split at kept'
  · rename_i below
    split at kept'
    · rename_i left
      rw [if_pos left]
      exact tracks.stays_put top
    · rename_i stays
      rw [if_neg stays]
      exact tracks.loopTurn top below kept'
  · rename_i i id rest below
    have clean := tracks.kept.places.below w i id (below ▸ List.mem_cons_self)
    unfold World.awaitTurn at kept' ⊢
    split at kept'
    · rename_i done
      rw [if_pos done]
      refine tracks.resumed top below none none clean.2.1 clean.2.2 kept' _ (if_pos done) fun held waits _ text holds => ?_
      rw [Kind.wait_await waits]
      exact ⟨done, holds⟩
    · rename_i going
      rw [if_neg going]
      have calm : ∀ p ∈ (t.world.stackOf w).below, t.world.isReady p.1 = false :=
        orderly.1.1 (by simp [top]) (by simp [looks, below, going])
      split at kept'
      · rename_i target
        rw [if_pos target]
        simp only [Bool.and_eq_true, decide_eq_true_eq] at target
        have inside : id < t.world.nthreads := tracks.kept.runs.awaits w id (by simp [Stack.awaits, top, below, Wait.ids])
        have same : t.world.setStack w (t.world.stackOf w) = t.world := by simp [setStack]
        rw [← same] at kept' ⊢
        rw [same] at kept'
        exact tracks.enter top ⟨top, rfl⟩ (not_below top calm target.1) inside target.1 target.2 (same.symm ▸ kept')
      · rename_i other
        rw [if_neg other]
        exact tracks.runReady top below calm going kept'
  · rename_i i rest below
    unfold World.resumeTurn at kept' ⊢
    split at kept'
    · rename_i text holds
      refine tracks.resumed top below _ _ rfl rfl kept' (t.world.threads i).resumeText rfl fun held waits hears text' holds' => ?_
      obtain ⟨kind, cell, nested⟩ := held
      cases kind with
      | await id => cases waits
      | send => exact hears.2.2 text' holds'
      | recv => exact hears.2.2 text' holds'
    · rename_i none_
      have stays := orderly.2.1
      simp only [givesUp, top, below, none_, Option.isNone_none, Bool.true_and] at stays
      have calm : ∀ p ∈ (t.world.stackOf w).below, t.world.isReady p.1 = false :=
        orderly.1.1 (by simp [top]) (by simp [looks, below, none_])
      unfold World.runReady at kept' ⊢
      split at kept'
      · rename_i j picked
        exact tracks.runPicked top (not_below top calm (pick_spec picked).2.1) picked kept'
      · rename_i unpicked
        have some_ : t.world.anyReady = true := by simpa [unpicked] using stays
        rw [if_pos some_]
        exact tracks.stays_put top

theorem records_goes {d : Do M} (stepped : t.world.step (w, d) = s') (top : (t.world.stackOf w).top = some (i, .running))
    (top' : (s'.stackOf w).top = some (i, .running)) : t.records w d = t := by
  simp only [records, stepped, top, top']

theorem records_pauses {d : Do M} {rc : Rc M} (stepped : t.world.step (w, d) = s')
    (top : (t.world.stackOf w).top = some (i, .running)) (top' : (s'.stackOf w).top = some (i, .back rc))
    (none_ : blocking d = none) : t.records w d = t := by
  simp only [records, stepped, top, top', none_]

theorem records_blocks {d : Do M} {call : Suspension} (stepped : t.world.step (w, d) = s')
    (top : (t.world.stackOf w).top = some (i, .running))
    (top' : (s'.stackOf w).top = some (i, if call.nested then .entering call.kind.wait else .back .zero))
    (some_ : blocking d = some call) : t.records w d = t.suspends i call := by
  cases nested : call.nested <;> simp [records, stepped, top, top', some_, nested]

theorem Tracks.calls (tracks : t.Tracks) (top : (t.world.stackOf w).top = some (i, .running)) (d : Do M)
    (room : t.world.Room d) (records : t.world.Records w d) : t.Follows w d (t.world.calls w i d) := by
  intro stepped
  have mine := mem_progress_top top
  have alive := tracks.kept.runs.alive w i mine
  have inside := (tracks.kept.runs.pinned w i mine).2
  have clean := tracks.kept.places.top w i _ top trivial
  have kept' := tracks.kept.calls top d room
  have acts := Acts.calls tracks.kept.books top clean inside d
  have free := tracks.stopped top
  have main : i = 0 → ((t.world.calls w i d).threads 0).state = .done → ((t.world.threads i).state ≠ .done →
      ((t.world.calls w i d).threads i).state ≠ .done) → (t.world.calls w i d).mainDone = true :=
    fun same done lives => absurd (same ▸ done) (lives alive)
  cases own_calls tracks.kept.books top clean inside alive d records with
  | goes top' thread =>
    rw [records_goes stepped top top']
    have clean' : ((t.world.calls w i d).threads i).Clean := thread ▸ clean
    exact tracks.unmoved kept' (tracks.links.goesOn acts alive inside (thread ▸ alive) clean'
      (fun wait => kept'.runs.away top' wait nofun) free fun _ _ => rfl) (tracks.links.stays acts alive)
  | pauses none_ top' call text block state =>
    rw [records_pauses stepped top top' none_]
    refine tracks.unmoved kept' (tracks.links.acts acts alive (fun _ _ => rfl) (fun _ _ => rfl)
      (fun _ _ => ⟨call, text, block, fun wait => kept'.runs.away top' wait nofun⟩)
      (fun _ _ open_ => absurd (free.symm.trans open_) nofun) (fun done => absurd (state ▸ done) alive)
      (fun same done => main same done fun _ => state ▸ alive) fun _ _ => Nat.lt_of_lt_of_le inside acts.nthreads)
      (tracks.links.stays acts alive)
  | @blocks call some_ top' cell hears lives =>
    rw [records_blocks stepped top top' some_]
    obtain ⟨mine, others⟩ := calls_suspends (t := t) (i := i) call
    refine tracks.suspends free kept' (tracks.links.acts acts alive others (fun j other => ?_)
      (fun _ none_ => absurd (mine.symm.trans none_) nofun) (fun held _ open_ => ?_) (fun done => absurd done lives)
      (fun same done => main same done fun _ => lives) fun _ _ => Nat.lt_of_lt_of_le inside acts.nthreads)
      (tracks.links.stays acts alive)
    · show (if call.nested then Function.update t.argument i call.cell else t.argument) j = t.argument j
      split
      · exact Function.update_of_ne other ..
      · rfl
    · cases Option.some.inj (mine.symm.trans open_)
      refine ⟨fun nested => ⟨w, .inl ?_⟩, fun free_ wait => ?_, ?_, hears⟩
      · rw [top', nested, if_pos rfl]
      · have back : ((t.world.calls w i d).stackOf w).top = some (i, .back .zero) := by rw [top', free_]; rfl
        exact kept'.runs.away back wait nofun
      · show (if call.nested then (if call.nested then Function.update t.argument i call.cell else t.argument) i else
          ((t.world.calls w i d).threads i).resumeCell) = call.cell
        split
        · exact Function.update_self ..
        · rename_i free_
          exact cell (by simpa using free_)

/-- A step its place does not allow. -/
theorem Tracks.still (tracks : t.Tracks) {d : Do M} (stepped : t.world.step (w, d) = t.world) :
    ({ t.records w d with world := t.world } : Tracked M).Tracks := by
  have quiet : t.records w d = t := by
    cases top : (t.world.stackOf w).top with
    | none => exact records_idle stepped top top
    | some run =>
      obtain ⟨i, ph⟩ := run
      cases ph with
      | running => exact records_goes stepped top top
      | entering wait => simp only [Tracked.records, stepped, top]
      | back rc => simp only [Tracked.records, stepped, top]
  rw [quiet]
  exact tracks

theorem Tracks.step (tracks : t.Tracks) (e : Nat × Do M) (orderly : t.world.Orderly e)
    (records : t.world.Records e.1 e.2) : (t.step e).Tracks := by
  rcases e with ⟨w, d⟩
  suffices follows : t.Follows w d (t.world.act w d) from follows rfl
  unfold World.act
  split
  · intro stepped
    exact tracks.still stepped
  · rename_i inside
    have here : w < t.world.nworkers := by
      simp only [Bool.or_eq_true, decide_eq_true_eq, not_or, Nat.not_le] at inside
      exact inside.2
    split
    · rename_i op top
      exact tracks.turn here top op orderly
    · rename_i i wait top
      intro stepped
      obtain ⟨links, acts⟩ := tracks.links.waits tracks.kept.runs top
      have quiet : t.records w .waits = t := by simp only [Tracked.records, stepped, top]
      rw [quiet]
      exact tracks.unmoved (tracks.kept.waits here top) links
        (tracks.links.stays acts (tracks.kept.runs.alive w i (mem_progress_top top)))
    · rename_i i rc op top
      intro stepped
      obtain ⟨links, stays, _⟩ := tracks.links.lands tracks.kept top op
      have quiet : t.records w (.lands op) = t := by simp only [Tracked.records, stepped, top]
      rw [quiet]
      exact tracks.unmoved (tracks.kept.lands top op orderly) links stays
    · rename_i i top
      exact tracks.calls top _ orderly.2.2.2 records
    · intro stepped
      exact tracks.still stepped

end Tracks

end Tracked
end Cocolog.Green
