import Mathlib.Algebra.BigOperators.Group.Finset.Basic
import Mathlib.Data.List.Nodup
import Cocolog.Green.World

/-! A task is inside one run at most, and its engine is freed when no run of it is left.
This is kept as long as no nested wait looks for work above a suspended task that has been
woken, and no worker asks for the deadlock while another is not yet back from a task. -/

set_option linter.all false

namespace Cocolog.Green

open Lib

variable {M : Type*}

/-- The tasks awaited by the nested waits on the stack. -/
def Wait.ids : Wait → List Nat
  | .await id => [id]
  | .resume => []

def Phase.ids : Phase M → List Nat
  | .entering wait => wait.ids
  | _ => []

def Stack.awaits (k : Stack M) : List Nat := k.top.elim [] (·.2.ids) ++ k.below.flatMap (·.2.ids)

namespace World

def InRun (s : World M) (i : Nat) : Prop := ∃ w, w < s.nworkers ∧ i ∈ (s.stackOf w).progress

/-- No task has two runs, on one stack or on two; no task with a run is freed; and the
deadlock status was only given with no task ready and none in a run. -/
structure OneRun (s : World M) : Prop where
  once : ∀ w, w < s.nworkers → (s.stackOf w).progress.Nodup
  apart : ∀ v w, v < s.nworkers → w < s.nworkers → v ≠ w → List.Disjoint (s.stackOf v).progress (s.stackOf w).progress
  freed : ∀ i, (s.threads i).state = .done → ¬s.InRun i
  judged : s.misjudged = false

/-- A nested wait whose turn finds no answer, so that it looks for a task to run. -/
def looks (s : World M) : List (Nat × Wait) → Bool
  | [] => false
  | (_, .await id) :: _ => (s.threads id).state ≠ .done
  | (i, .resume) :: _ => (s.threads i).resumeText.isNone

/-- The world in which the worker's step asks `coco_g_deadlock`. -/
def asks (s : World M) (w : Nat) : Do M → Option (World M × Bool)
  | .turn op =>
    if (s.stackOf w).top.isNone ∧ (s.stackOf w).below = [] then some (s, op) else none
  | .lands op =>
    match (s.stackOf w).top with
    | some (i, .back .zero) =>
      let t := s.threads i
      if t.resumeText.isNone ∧ t.block ≠ .none ∧ t.block ≠ .yield then
        some ((s.setTop w none).setThread i { t with state := .blocked }, op)
      else none
    | _ => none
  | _ => none

/-- No nested wait looks for work with a woken task suspended on its stack, and no deadlock is
found while another worker has a run. -/
def Steady (s : World M) (e : Nat × Do M) : Prop :=
  ((s.stackOf e.1).top.isNone → s.looks (s.stackOf e.1).below = true →
    ∀ p ∈ (s.stackOf e.1).below, s.isReady p.1 = false) ∧
  ∀ a ∈ s.asks e.1 e.2, a.1.dead a.2 = true → ∀ v < s.nworkers, v ≠ e.1 → (s.stackOf v).top.isNone

instance (s : World M) (e : Nat × Do M) : Decidable (s.Steady e) := by
  unfold Steady
  infer_instance

/-- The nested waits on all stacks. -/
def nested (s : World M) : Nat := ∑ w ∈ Finset.range s.nworkers, (s.stackOf w).below.length

structure RunInv (s : World M) : Prop where
  pinned : ∀ w i, i ∈ (s.stackOf w).progress → (s.threads i).worker = w ∧ i < s.nthreads
  once : ∀ w, (s.stackOf w).progress.Nodup
  alive : ∀ w i, i ∈ (s.stackOf w).progress → (s.threads i).state ≠ .done
  workers : ∀ w, s.nworkers ≤ w → (s.stackOf w).progress = []
  awaits : ∀ w id, id ∈ (s.stackOf w).awaits → id < s.nthreads
  inline : s.inlineWait = s.nested
  judged : s.misjudged = false

theorem RunInv.oneRun {s : World M} (inv : s.RunInv) : s.OneRun where
  once w _ := inv.once w
  apart v w _ _ other := by
    intro i here there
    exact other ((inv.pinned v i here).1.symm.trans (inv.pinned w i there).1)
  freed i done := by
    rintro ⟨w, _, here⟩
    exact inv.alive w i here done
  judged := inv.judged

theorem start_runs (n : Nat) : (start n : World M).RunInv where
  pinned := by simp [start, Stack.progress]
  once := by simp [start, Stack.progress]
  alive := by simp [start, Stack.progress]
  workers := by simp [start, Stack.progress]
  awaits := by simp [start, Stack.awaits]
  inline := by simp [start, nested]
  judged := rfl

section
variable {s : World M} {w : Nat} {k : Stack M}

theorem stackOf_self : (s.setStack w k).stackOf w = k := by
  simp [setStack]

theorem stackOf_other {v : Nat} (other : v ≠ w) : (s.setStack w k).stackOf v = s.stackOf v := by
  simp [setStack, other]

end

/-- A step that starts and ends no run and frees no task. -/
structure Quiet (s s' : World M) : Prop where
  workers : s'.nworkers = s.nworkers
  nthreads : s.nthreads ≤ s'.nthreads
  pinned : ∀ i, i < s.nthreads → (s'.threads i).worker = (s.threads i).worker
  alive : ∀ i, i < s.nthreads → (s'.threads i).state = .done → (s.threads i).state = .done
  progress : ∀ w, (s'.stackOf w).progress = (s.stackOf w).progress
  awaits : ∀ w id, id ∈ (s'.stackOf w).awaits → id ∈ (s.stackOf w).awaits ∨ id < s'.nthreads
  inline : s'.inlineWait + s.nested = s.inlineWait + s'.nested
  judged : s'.misjudged = s.misjudged

theorem RunInv.quiet {s s' : World M} (inv : s.RunInv) (quiet : Quiet s s') : s'.RunInv where
  pinned w i here := by
    rw [quiet.progress w] at here
    obtain ⟨worker, inside⟩ := inv.pinned w i here
    exact ⟨(quiet.pinned i inside).trans worker, Nat.lt_of_lt_of_le inside quiet.nthreads⟩
  once w := by
    rw [quiet.progress w]
    exact inv.once w
  alive w i here done := by
    rw [quiet.progress w] at here
    exact inv.alive w i here (quiet.alive i (inv.pinned w i here).2 done)
  workers w out := (quiet.progress w).trans (inv.workers w (quiet.workers ▸ out))
  awaits w id there := (quiet.awaits w id there).elim
    (fun old => Nat.lt_of_lt_of_le (inv.awaits w id old) quiet.nthreads) fun inside => inside
  inline := by
    have := quiet.inline
    have := inv.inline
    omega
  judged := quiet.judged.trans inv.judged

namespace Quiet

variable {s s' : World M} {w i c : Nat}

theorem refl (s : World M) : Quiet s s :=
  ⟨rfl, Nat.le_refl _, fun _ _ => rfl, fun _ _ => id, fun _ => rfl, fun _ _ => .inl, rfl, rfl⟩

theorem thread (quiet : Quiet s s') {t : Thread M} (worker : t.worker = (s'.threads i).worker)
    (alive : t.state = .done → (s'.threads i).state = .done) : Quiet s (s'.setThread i t) where
  workers := quiet.workers
  nthreads := quiet.nthreads
  pinned j inside := by
    by_cases same : j = i
    · subst same
      simpa [setThread] using worker.trans (quiet.pinned j inside)
    · simpa [setThread, same] using quiet.pinned j inside
  alive j inside := by
    by_cases same : j = i
    · subst same
      simpa [setThread] using fun done => quiet.alive j inside (alive done)
    · simpa [setThread, same] using quiet.alive j inside
  progress := quiet.progress
  awaits := quiet.awaits
  inline := quiet.inline
  judged := quiet.judged

theorem chan (quiet : Quiet s s') (c : Nat) (ch : Chan M) : Quiet s (s'.setChan c ch) := { quiet with }

theorem log (quiet : Quiet s s') (log : Log M) : Quiet s { s' with log := log } := { quiet with }

theorem answer (quiet : Quiet s s') (call : Option (Call M)) (status : Option (Text M)) :
    Quiet s (s'.answer call status) := by
  unfold World.answer
  split
  · exact quiet.log _
  · exact quiet

theorem stack (quiet : Quiet s s') {k : Stack M} (progress : k.progress = (s'.stackOf w).progress)
    (below : k.below.length = (s'.stackOf w).below.length)
    (awaits : ∀ id, id ∈ k.awaits → id ∈ (s'.stackOf w).awaits ∨ id < s'.nthreads) : Quiet s (s'.setStack w k) where
  workers := quiet.workers
  nthreads := quiet.nthreads
  pinned := quiet.pinned
  alive := quiet.alive
  progress v := by
    by_cases same : v = w
    · subst same
      simpa [setStack] using progress.trans (quiet.progress v)
    · simpa [setStack, same] using quiet.progress v
  awaits v id there := by
    by_cases same : v = w
    · subst same
      rw [stackOf_self] at there
      rcases awaits id there with old | inside
      · exact quiet.awaits v id old
      · exact .inr inside
    · rw [stackOf_other same] at there
      exact quiet.awaits v id there
  inline := by
    have same : (s'.setStack w k).nested = s'.nested := by
      refine Finset.sum_congr rfl fun v _ => ?_
      by_cases at_ : v = w
      · subst at_
        simpa [setStack] using below
      · simp [setStack, at_]
    rw [same]
    exact quiet.inline
  judged := quiet.judged

theorem top (quiet : Quiet s s') {phase : Phase M} (at_ : (s'.stackOf w).top = some (i, phase)) (next : Phase M)
    (awaits : ∀ id, id ∈ next.ids → id < s'.nthreads) : Quiet s (s'.setTop w (some (i, next))) := by
  refine quiet.stack (by simp [Stack.progress, at_]) rfl fun id there => ?_
  rcases List.mem_append.mp there with top | below
  · exact .inr (awaits id top)
  · exact .inl (List.mem_append_right _ below)

theorem trans {s'' : World M} (first : Quiet s s') (second : Quiet s' s'') : Quiet s s'' where
  workers := second.workers.trans first.workers
  nthreads := first.nthreads.trans second.nthreads
  pinned i inside := (second.pinned i (Nat.lt_of_lt_of_le inside first.nthreads)).trans (first.pinned i inside)
  alive i inside done := first.alive i inside (second.alive i (Nat.lt_of_lt_of_le inside first.nthreads) done)
  progress w := (second.progress w).trans (first.progress w)
  awaits w id there := by
    rcases second.awaits w id there with old | inside
    · exact (first.awaits w id old).imp_right fun inside => Nat.lt_of_lt_of_le inside second.nthreads
    · exact .inr inside
  inline := by
    have := first.inline
    have := second.inline
    omega
  judged := second.judged.trans first.judged

theorem releaseSender (s : World M) (c si : Nat) (rest : List Nat) : Quiet s (s.releaseSender c si rest) := by
  unfold World.releaseSender
  simp only
  split
  · refine chan (thread ((refl s).log _) ?_ ?_) _ _
    · rfl
    · nofun
  · refine chan (thread (refl s) ?_ ?_) _ _
    · rfl
    · nofun

theorem move_sender (s : World M) (c : Nat) : Quiet s (s.move_sender c) := by
  unfold World.move_sender
  simp only
  split
  · exact refl s
  · split
    · exact ((refl s).chan _ _).trans (releaseSender _ _ _ _)
    · exact refl s

theorem blocks (quiet : Quiet s s') {t : Thread M} (at_ : (s'.stackOf w).top = some (i, .running))
    (worker : t.worker = (s'.threads i).worker) (nested : Bool) : Quiet s (s'.blocks w i t nested) := by
  unfold World.blocks
  refine top (thread quiet ?_ ?_) at_ _ ?_
  · exact worker
  · cases nested <;> simp
  · cases nested <;> simp [Phase.ids, Wait.ids]

theorem receives (quiet : Quiet s s') (c : Nat) (text : Option M) (call : Call M) :
    Quiet s (s'.receives c text call) := by
  unfold World.receives
  split
  · exact (quiet.log _).answer _ _
  · exact quiet.answer _ _

theorem send (at_ : (s.stackOf w).top = some (i, .running)) (c : Nat) (m : M) (cell : Nat) (nested : Bool) :
    Quiet s (s.async_send w i c m cell nested) := by
  unfold World.async_send
  split
  · exact refl s
  have called : Quiet s s.called := (refl s).log _
  simp only
  split
  · exact called.answer _ _
  split
  · refine answer (chan (thread ((called.log _).log _) ?_ ?_) _ _) _ _
    · rfl
    · nofun
  split
  · exact ((called.log _).chan _ _).answer _ _
  split
  · refine blocks (called.chan _ _) at_ ?_ nested
    rfl
  · exact { called with }

theorem recv (at_ : (s.stackOf w).top = some (i, .running)) (c cell : Nat) (nested : Bool) :
    Quiet s (s.async_recv w i c cell nested) := by
  unfold World.async_recv
  split
  · exact refl s
  have called : Quiet s s.called := (refl s).log _
  simp only
  split
  · exact ((called.receives _ _ _).chan _ _).trans (move_sender _ _)
  split
  · exact (called.trans (releaseSender _ _ _ _)).receives _ _ _
  split
  · exact called.answer _ _
  split
  · refine blocks (called.chan _ _) at_ ?_ nested
    rfl
  · exact { called with }

theorem foldl {f : World M → Nat → World M} (each : ∀ s i, Quiet s (f s i)) (s : World M) (l : List Nat) :
    Quiet s (l.foldl f s) := by
  induction l generalizing s with
  | nil => exact refl s
  | cons i rest ih => exact (each s i).trans (ih (f s i))

theorem close (s : World M) (c : Nat) : Quiet s (s.chan_close c) := by
  unfold World.chan_close
  split
  · exact refl s
  · refine chan (trans (foldl (fun s i => ?_) s _) (foldl (fun s i => ?_) _ _)) _ _
    · exact thread (refl s) rfl nofun
    · exact thread (refl s) rfl nofun

theorem spawn (s : World M) : Quiet s s.spawn := by
  unfold World.spawn
  split
  · refine ⟨rfl, Nat.le_succ _, fun i inside => ?_, fun i inside => ?_, fun _ => rfl, fun _ _ => .inl, rfl,
      rfl⟩ <;>
      simp [setThread, Nat.ne_of_lt inside]
  · exact refl s

theorem await (at_ : (s.stackOf w).top = some (i, .running)) (id cell : Nat) (nested : Bool) :
    Quiet s (s.async_await w i id cell nested) := by
  unfold World.async_await
  split
  · exact refl s
  rename_i inside
  split
  · exact refl s
  split
  · refine (refl s).top at_ _ fun id' there => ?_
    rw [List.mem_singleton.mp there]
    exact Nat.lt_of_not_le inside
  · refine top (thread (refl s) ?_ ?_) at_ _ (by simp [Phase.ids])
    · rfl
    · nofun

theorem calls (at_ : (s.stackOf w).top = some (i, .running)) (d : Do M) : Quiet s (s.calls w i d) := by
  unfold World.calls
  split
  · exact (refl s).top at_ _ (by simp [Phase.ids])
  · exact spawn s
  · unfold async_yield
    split
    · exact refl s
    · refine top (thread (refl s) ?_ ?_) at_ _ (by simp [Phase.ids])
      · rfl
      · exact id
  · exact await at_ _ _ _
  · unfold chan_new
    split
    · exact { refl s with }
    · exact refl s
  · exact send at_ _ _ _ _
  · exact recv at_ _ _ _
  · exact close s _
  · exact refl s

end Quiet

section Runs

variable {s : World M} {w i : Nat} {k : Stack M}

theorem nested_setStack (inside : w < s.nworkers) :
    (s.setStack w k).nested + (s.stackOf w).below.length = s.nested + k.below.length := by
  have here : w ∈ Finset.range s.nworkers := Finset.mem_range.mpr inside
  have before := Finset.add_sum_erase _ (fun v => (s.stackOf v).below.length) here
  have after := Finset.add_sum_erase _ (fun v => ((s.setStack w k).stackOf v).below.length) here
  have rest : ∑ v ∈ (Finset.range s.nworkers).erase w, ((s.setStack w k).stackOf v).below.length =
      ∑ v ∈ (Finset.range s.nworkers).erase w, (s.stackOf v).below.length :=
    Finset.sum_congr rfl fun v there => by rw [stackOf_other (Finset.ne_of_mem_erase there)]
  rw [rest, stackOf_self] at after
  have same : (s.setStack w k).nested = ∑ v ∈ Finset.range s.nworkers, ((s.setStack w k).stackOf v).below.length := rfl
  rw [same, ← after, nested, ← before]
  omega

theorem nested_zero (none_ : s.nested = 0) (inside : w < s.nworkers) : (s.stackOf w).below = [] :=
  List.length_eq_zero_iff.mp (Finset.sum_eq_zero_iff.mp none_ w (Finset.mem_range.mpr inside))

theorem answer_stackOf (s : World M) (call : Option (Call M)) (status : Option (Text M)) :
    (s.answer call status).stackOf = s.stackOf := by
  unfold World.answer
  split <;> rfl

theorem answer_threads (s : World M) (call : Option (Call M)) (status : Option (Text M)) :
    (s.answer call status).threads = s.threads := by
  unfold World.answer
  split <;> rfl

/-- A task that is ready, pinned here and not on the stack starts a run. -/
theorem RunInv.push (inv : s.RunInv) (top : (s.stackOf w).top = none) (new : i ∉ (s.stackOf w).progress)
    (worker : (s.threads i).worker = w) (inside : i < s.nthreads) (alive : (s.threads i).state ≠ .done)
    (here : w < s.nworkers) : (s.setTop w (some (i, .running))).RunInv := by
  have grown : ((s.setTop w (some (i, .running))).stackOf w).progress = i :: (s.stackOf w).progress := by
    simp [setTop, setStack, Stack.progress, top]
  have others : ∀ v, v ≠ w → (s.setTop w (some (i, .running))).stackOf v = s.stackOf v := fun v other =>
    stackOf_other other
  refine ⟨fun v j here => ?_, fun v => ?_, fun v j here => ?_, fun v out => ?_, fun v id there => ?_, ?_, inv.judged⟩
  · by_cases same : v = w
    · subst same
      rw [grown, List.mem_cons] at here
      rcases here with rfl | here
      · exact ⟨worker, inside⟩
      · exact inv.pinned v j here
    · rw [others v same] at here
      exact inv.pinned v j here
  · by_cases same : v = w
    · subst same
      rw [grown]
      exact List.nodup_cons.mpr ⟨new, inv.once v⟩
    · rw [others v same]
      exact inv.once v
  · by_cases same : v = w
    · subst same
      rw [grown, List.mem_cons] at here
      rcases here with rfl | here
      · exact alive
      · exact inv.alive v j here
    · rw [others v same] at here
      exact inv.alive v j here
  · rw [others v fun same => absurd here (Nat.not_lt.mpr (same ▸ out))]
    exact inv.workers v out
  · by_cases same : v = w
    · subst same
      simp only [setTop, stackOf_self, Stack.awaits, Option.elim_some, Phase.ids, List.nil_append] at there
      exact inv.awaits v id (List.mem_append_right _ there)
    · rw [others v same] at there
      exact inv.awaits v id there
  · have same : (s.setTop w (some (i, .running))).nested = s.nested := by
      refine Finset.sum_congr rfl fun v _ => ?_
      by_cases at_ : v = w
      · simp [setTop, setStack, at_]
      · rw [others v at_]
    rw [same]
    exact inv.inline

/-- The run at the top returns. -/
theorem RunInv.drop (inv : s.RunInv) {phase : Phase M} (top : (s.stackOf w).top = some (i, phase)) :
    (s.setTop w none).RunInv ∧ ∀ v, i ∉ ((s.setTop w none).stackOf v).progress := by
  have before : (s.stackOf w).progress = i :: ((s.setTop w none).stackOf w).progress := by
    simp [setTop, setStack, Stack.progress, top]
  have others : ∀ v, v ≠ w → (s.setTop w none).stackOf v = s.stackOf v := fun v other => stackOf_other other
  have sub : ∀ v j, j ∈ ((s.setTop w none).stackOf v).progress → j ∈ (s.stackOf v).progress := by
    intro v j here
    by_cases same : v = w
    · subst same
      rw [before]
      exact List.mem_cons_of_mem _ here
    · rwa [others v same] at here
  refine ⟨⟨fun v j here => inv.pinned v j (sub v j here), fun v => ?_, fun v j here => inv.alive v j (sub v j here),
    fun v out => List.eq_nil_iff_forall_not_mem.mpr fun j here => ?_, fun v id there => ?_, ?_, inv.judged⟩,
    fun v here => ?_⟩
  · by_cases same : v = w
    · subst same
      exact (List.nodup_cons.mp (before ▸ inv.once v)).2
    · rw [others v same]
      exact inv.once v
  · exact absurd (sub v j here) (by simp [inv.workers v out])
  · by_cases same : v = w
    · subst same
      simp only [setTop, stackOf_self, Stack.awaits, Option.elim_none, List.nil_append] at there
      exact inv.awaits v id (List.mem_append_right _ there)
    · rw [others v same] at there
      exact inv.awaits v id there
  · have same : (s.setTop w none).nested = s.nested := by
      refine Finset.sum_congr rfl fun v _ => ?_
      by_cases at_ : v = w
      · simp [setTop, setStack, at_]
      · rw [others v at_]
    rw [same]
    exact inv.inline
  · have mine : i ∈ (s.stackOf w).progress := by
      rw [before]
      exact List.mem_cons_self
    have same : v = w := (inv.pinned v i (sub v i here)).1.symm.trans (inv.pinned w i mine).1
    subst same
    exact (List.nodup_cons.mp (before ▸ inv.once v)).1 here

theorem RunInv.finish (inv : s.RunInv) (none_ : ∀ v, i ∉ (s.stackOf v).progress) (status : Text M) :
    (s.finish i status).RunInv where
  pinned v j here := by
    obtain ⟨worker, inside⟩ := inv.pinned v j here
    have other : j ≠ i := fun same => none_ v (same ▸ here)
    refine ⟨?_, inside⟩
    simp only [World.finish, wake, setThread, Function.update_of_ne other]
    split <;> exact worker
  once := inv.once
  alive v j here := by
    have other : j ≠ i := fun same => none_ v (same ▸ here)
    simp only [World.finish, wake, setThread, Function.update_of_ne other]
    split
    · simp
    · exact inv.alive v j here
  workers := inv.workers
  awaits := inv.awaits
  inline := inv.inline
  judged := inv.judged

/-- The deadlock is found with no run anywhere. -/
theorem RunInv.dead_idle (inv : s.RunInv) {op : Bool} (dead : s.dead op = true)
    (idle : ∀ v, v < s.nworkers → (s.stackOf v).top = none) (v : Nat) : (s.stackOf v).progress = [] := by
  have waits : s.nested = 0 := by
    rw [← inv.inline]
    simp only [World.dead, Bool.and_eq_true, decide_eq_true_eq] at dead
    exact dead.1.1.1.2
  by_cases inside : v < s.nworkers
  · simp [Stack.progress, idle v inside, nested_zero waits inside]
  · exact inv.workers v (Nat.le_of_not_lt inside)

theorem RunInv.deadlock (inv : s.RunInv) (op : Bool)
    (idle : s.dead op = true → ∀ v, v < s.nworkers → (s.stackOf v).top = none) : (s.deadlock op).RunInv := by
  unfold World.deadlock
  split
  · rename_i dead
    have empty := inv.dead_idle dead (idle dead)
    have quiet : s.anyRun = false := by
      simp [anyRun, empty]
    have inv' := inv.finish (fun v => by simp [empty v] : ∀ v, 0 ∉ (s.stackOf v).progress) (.error .deadlock)
    exact { inv' with judged := by simp [inv.judged, quiet] }
  · exact inv

theorem pick_spec {j : Nat} (picked : s.pick w = some j) :
    j < s.nthreads ∧ s.isReady j = true ∧ (s.threads j).worker = w := by
  have good := List.find?_some picked
  obtain ⟨k, inside, rfl⟩ := List.mem_map.mp (List.mem_of_find?_eq_some picked)
  simp only [Bool.and_eq_true, decide_eq_true_eq] at good
  exact ⟨Nat.mod_lt _ (Nat.lt_of_le_of_lt (Nat.zero_le k) (List.mem_range.mp inside)), good⟩

theorem not_done_of_ready (ready : s.isReady i = true) : (s.threads i).state ≠ .done := by
  simp only [isReady, decide_eq_true_eq] at ready
  simp [ready]

theorem RunInv.enter (inv : s.RunInv) (here : w < s.nworkers) (top : (s.stackOf w).top = none)
    (new : i ∉ (s.stackOf w).progress) (inside : i < s.nthreads) (ready : s.isReady i = true)
    (worker : (s.threads i).worker = w) : (s.enter w i).RunInv := by
  have alive := not_done_of_ready ready
  unfold World.enter
  simp only
  split
  · rename_i text _
    have quiet : ∀ call status, Quiet s ((s.answer call status).setThread i
        { s.threads i with resumeText := none, call := none }) := fun call status => by
      refine Quiet.thread ((Quiet.refl s).answer _ _) ?_ ?_ <;> unfold World.answer <;> split <;> simp
    have same : ∀ call status, ((s.answer call status).setThread i
        { s.threads i with resumeText := none, call := none }).stackOf = s.stackOf := fun call status =>
      answer_stackOf s call status
    refine (inv.quiet (quiet _ _)).push ?_ ?_ ?_ ?_ ?_ ?_
    · rw [same]
      exact top
    · rw [same]
      exact new
    · simpa [setThread] using worker
    · exact Nat.lt_of_lt_of_le inside (quiet _ _).nthreads
    · simpa [setThread] using alive
    · rw [(quiet _ _).workers]
      exact here
  · exact inv.push top new worker inside alive here

theorem RunInv.runPicked (inv : s.RunInv) (here : w < s.nworkers) (top : (s.stackOf w).top = none)
    (new : i ∉ (s.stackOf w).progress) (picked : s.pick w = some i) : (s.runPicked w i).RunInv := by
  obtain ⟨inside, ready, worker⟩ := pick_spec picked
  have quiet : Quiet s (s.setStack w { s.stackOf w with cursor := i + 1 }) := (Quiet.refl s).stack rfl rfl fun _ => .inl
  refine RunInv.enter (inv.quiet quiet) here ?_ ?_ inside ready worker
  · rw [stackOf_self]
    exact top
  · rw [quiet.progress]
    exact new

/-- A task in a nested wait is the running one again. -/
theorem RunInv.resumed (inv : s.RunInv) (here : w < s.nworkers) {wait : Wait} {rest : List (Nat × Wait)}
    (top : (s.stackOf w).top = none) (below : (s.stackOf w).below = (i, wait) :: rest) {t : Thread M}
    (worker : t.worker = (s.threads i).worker) : (s.resumed w i t rest).RunInv := by
  have count : (s.resumed w i t rest).nested + (s.stackOf w).below.length = s.nested + rest.length :=
    nested_setStack here
  have inline := inv.inline
  have less : (s.resumed w i t rest).inlineWait = s.inlineWait - 1 := rfl
  rw [below, List.length_cons] at count
  refine inv.quiet ⟨rfl, Nat.le_refl _, fun j _ => ?_, fun j _ => ?_, fun v => ?_, fun v id there => .inl ?_, ?_, rfl⟩
  · by_cases same : j = i
    · subst same
      simpa [World.resumed, setThread, setStack] using worker
    · simp [World.resumed, setThread, setStack, same]
  · by_cases same : j = i
    · subst same
      simp [World.resumed, setThread, setStack]
    · simp [World.resumed, setThread, setStack, same]
  · by_cases same : v = w
    · subst same
      simp [World.resumed, setStack, Stack.progress, top, below]
    · simp [World.resumed, setStack, setThread, same]
  · by_cases same : v = w
    · subst same
      simp only [World.resumed, stackOf_self, Stack.awaits, Option.elim_some, Phase.ids, List.nil_append] at there
      rw [Stack.awaits, below, List.flatMap_cons]
      exact List.mem_append_right _ (List.mem_append_right _ there)
    · simpa [World.resumed, setStack, setThread, same] using there
  · omega

/-- A nested wait ends and its call is answered. -/
theorem RunInv.answered (inv : s.RunInv) (here : w < s.nworkers) {wait : Wait} {rest : List (Nat × Wait)}
    (top : (s.stackOf w).top = none) (below : (s.stackOf w).below = (i, wait) :: rest) (call : Option (Call M))
    (status : Option (Text M)) {t : Thread M} (worker : t.worker = (s.threads i).worker) :
    ((s.answer call status).resumed w i t rest).RunInv := by
  have quiet : Quiet s (s.answer call status) := (Quiet.refl s).answer call status
  have stacks_ := answer_stackOf s call status
  refine @RunInv.resumed _ _ w i (inv.quiet quiet) ?_ wait rest ?_ ?_ t ?_
  · rw [quiet.workers]
    exact here
  · rw [stacks_]
    exact top
  · rw [stacks_]
    exact below
  · rw [answer_threads]
    exact worker

theorem RunInv.waits (inv : s.RunInv) (here : w < s.nworkers) {wait : Wait}
    (top : (s.stackOf w).top = some (i, .entering wait)) : (s.waits w i wait).RunInv := by
  have count : (s.waits w i wait).nested + (s.stackOf w).below.length = s.nested + ((s.stackOf w).below.length + 1) :=
    nested_setStack here
  have more : (s.waits w i wait).inlineWait = s.inlineWait + 1 := rfl
  refine inv.quiet ⟨rfl, Nat.le_refl _, fun j _ => ?_, fun j _ => ?_, fun v => ?_, fun v id there => .inl ?_, ?_, rfl⟩
  · by_cases same : j = i
    · subst same
      simp [World.waits, setThread, setStack]
    · simp [World.waits, setThread, setStack, same]
  · by_cases same : j = i
    · subst same
      simp [World.waits, setThread, setStack]
    · simp [World.waits, setThread, setStack, same]
  · by_cases same : v = w
    · subst same
      simp [World.waits, setStack, Stack.progress, top]
    · simp [World.waits, setStack, setThread, same]
  · by_cases same : v = w
    · subst same
      simpa [World.waits, setStack, Stack.awaits, top, Phase.ids] using there
    · simpa [World.waits, setStack, setThread, same] using there
  · omega

/-- What a ready task needs to start a run in a nested wait: the caution says it is not on the stack. -/
theorem not_below (top : (s.stackOf w).top = none) (calm : ∀ p ∈ (s.stackOf w).below, s.isReady p.1 = false)
    (ready : s.isReady i = true) : i ∉ (s.stackOf w).progress := by
  intro here
  simp only [Stack.progress, top, Option.map_none, Option.toList_none, List.nil_append, List.mem_map] at here
  obtain ⟨p, there, rfl⟩ := here
  exact absurd ready (by simp [calm p there])

theorem RunInv.runReady (inv : s.RunInv) (here : w < s.nworkers) {wait : Wait} {rest : List (Nat × Wait)}
    (top : (s.stackOf w).top = none) (below : (s.stackOf w).below = (i, wait) :: rest)
    (calm : ∀ p ∈ (s.stackOf w).below, s.isReady p.1 = false) : (s.runReady w i rest).RunInv := by
  unfold World.runReady
  split
  · rename_i j picked
    exact inv.runPicked here top (not_below top calm (pick_spec picked).2.1) picked
  · split
    · exact inv
    · exact inv.answered here top below _ _ rfl

theorem RunInv.turn (inv : s.RunInv) (here : w < s.nworkers) (top : (s.stackOf w).top = none) (op : Bool)
    (steady : s.Steady (w, .turn op)) : (s.turn w op).RunInv := by
  unfold World.turn
  split
  · rename_i below
    split
    · exact inv
    · unfold loopTurn
      split
      · rename_i j picked
        exact inv.runPicked here top (by simp [Stack.progress, top, below]) picked
      · have idle : (s.deadlock op).RunInv := by
          refine inv.deadlock op fun dead v inside => ?_
          by_cases same : v = w
          · rw [same]
            exact top
          · exact Option.isNone_iff_eq_none.mp
              (steady.2 (s, op) (by simp [asks, top, below]) dead v inside same)
        simp only
        split
        · exact idle.quiet ((Quiet.refl _).stack rfl rfl fun _ => .inl)
        · exact idle
  · rename_i i id rest below
    have look : (s.threads id).state ≠ .done → ∀ p ∈ (s.stackOf w).below, s.isReady p.1 = false := fun going =>
      steady.1 (by simp [top]) (by simp [looks, below, going])
    unfold awaitTurn
    split
    · exact inv.resumed here top below rfl
    · rename_i going
      split
      · rename_i target
        simp only [Bool.and_eq_true, decide_eq_true_eq] at target
        have inside : id < s.nthreads := inv.awaits w id (by simp [Stack.awaits, top, below, Wait.ids])
        exact inv.enter here top (not_below top (look going) target.1) inside target.1 target.2
      · exact inv.runReady here top below (look going)
  · rename_i i rest below
    unfold resumeTurn
    split
    · exact inv.answered here top below _ _ rfl
    · rename_i none_
      exact inv.runReady here top below (steady.1 (by simp [top]) (by simp [looks, below, none_]))

theorem RunInv.lands (inv : s.RunInv) {rc : Rc M} (top : (s.stackOf w).top = some (i, .back rc)) (op : Bool)
    (steady : s.Steady (w, .lands op)) : ((s.setTop w none).lands i rc op).RunInv := by
  obtain ⟨popped, none_⟩ := inv.drop top
  unfold World.lands
  simp only
  split
  · refine popped.quiet (Quiet.thread (Quiet.refl _) ?_ ?_)
    · rfl
    · nofun
  · exact popped.finish none_ _
  · exact popped.finish none_ _
  · split
    · exact popped
    · rename_i unwoken
      split
      · exact popped.finish none_ _
      · refine popped.quiet (Quiet.thread (Quiet.refl _) ?_ ?_)
        · rfl
        · nofun
      · rename_i some_ waits
        have quiet : Quiet (s.setTop w none) ((s.setTop w none).setThread i { s.threads i with state := .blocked }) := by
          refine Quiet.thread (Quiet.refl _) ?_ ?_
          · rfl
          · nofun
        refine (popped.quiet quiet).deadlock op fun dead v inside => ?_
        by_cases same : v = w
        · rw [same]
          simp [setThread, setTop, setStack]
        · have idle := steady.2 ((s.setTop w none).setThread i { s.threads i with state := .blocked }, op) ?_ dead v
            inside same
          · rw [← Option.isNone_iff_eq_none]
            simpa [setThread, setTop, setStack, same] using idle
          · have plain : (s.threads i).resumeText.isNone = true ∧ (s.threads i).block ≠ .none ∧
                (s.threads i).block ≠ .yield :=
              ⟨by simpa [setTop, setStack] using unwoken, fun h => some_ h, fun h => waits h⟩
            simp only [asks, top, plain, and_self, not_false_eq_true, ne_eq, if_true, Option.mem_def]

theorem RunInv.act (inv : s.RunInv) (w : Nat) (d : Do M) (steady : s.Steady (w, d)) : (s.act w d).RunInv := by
  unfold World.act
  split
  · exact inv
  · rename_i inside
    have here : w < s.nworkers := by
      simp only [Bool.or_eq_true, decide_eq_true_eq, not_or, Nat.not_le] at inside
      exact inside.2
    split
    · rename_i op top
      exact inv.turn here top op steady
    · rename_i i wait top
      exact inv.waits here top
    · rename_i i rc op top
      exact inv.lands top op steady
    · rename_i i top
      exact inv.quiet (Quiet.calls top _)
    · exact inv

end Runs

/-- On one worker, the main task receives inside a findall; the task run meanwhile sends to it
and then receives inside a findall of its own, on a channel nobody sends to. -/
def buriedWake : List (Nat × Do Nat) :=
  [(0, .turn false), (0, .channel 0), (0, .channel 0), (0, .go), (0, .recv 0 1 true), (0, .waits), (0, .turn false),
    (0, .send 0 7 2 false), (0, .recv 1 3 true), (0, .waits), (0, .turn false)]

/-- The main task blocks on a channel, and before its engine is back the other worker, with
nothing to do, asks for the deadlock. -/
def earlyVerdict : List (Nat × Do Nat) :=
  [(0, .turn false), (0, .channel 0), (0, .recv 0 1 false), (1, .turn false)]

end World
end Cocolog.Green
