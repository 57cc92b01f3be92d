import Cocolog.Green.Channels

/-! The books of the channels over whole runs: where each task stands, which builtins and
turns of the scheduler keep the books, and what a channel promises in every state reached. -/

set_option linter.all false

namespace Cocolog.Green

open Lib

variable {M : Type*}

/-- In no channel call, not blocked, and with nothing to be told. -/
def Thread.Clean (t : Thread M) : Prop := t.call = none ∧ t.block = .none ∧ t.resumeText = none

/-- The phases in which a task is clean. -/
def Phase.Bare : Phase M → Prop
  | .entering .resume => False
  | .back .zero => False
  | _ => True

namespace World

structure Places (s : World M) : Prop where
  top : ∀ w i ph, (s.stackOf w).top = some (i, ph) → ph.Bare → (s.threads i).Clean
  below : ∀ w i id, (i, .await id) ∈ (s.stackOf w).below → (s.threads i).Clean
  yields : ∀ i, (s.threads i).block = .yield → (s.threads i).resumeText = none ∧
    ∃ w, (s.stackOf w).top = some (i, .back .zero)
  awaits : ∀ i, (s.threads i).block = .await → (s.threads i).state = .blocked ∧ (s.threads i).call = none
  enters : ∀ w i, (s.stackOf w).top = some (i, .entering .resume) → (s.threads i).call ≠ none

/-- What a builtin of the running task does to the others and to the stack. -/
structure Builtin (s s' : World M) (w i : Nat) : Prop where
  others : ∀ j, j ≠ i → s'.threads j = s.threads j ∨
    ((s.threads j).call ≠ none ∧ (s'.threads j).call ≠ none ∧ (s'.threads j).block = .none) ∨
    (s.nthreads ≤ j ∧ (s'.threads j).Clean)
  stack : ∀ v, v ≠ w → s'.stackOf v = s.stackOf v
  below : (s'.stackOf w).below = (s.stackOf w).below
  top : ∃ ph, (s'.stackOf w).top = some (i, ph) ∧ (ph.Bare → (s'.threads i).Clean) ∧
    ((s'.threads i).block = .yield → ph = .back .zero ∧ (s'.threads i).resumeText = none) ∧ (ph = .entering .resume → (s'.threads i).call ≠ none)
  awaits : (s'.threads i).block = .await → (s'.threads i).state = .blocked ∧ (s'.threads i).call = none

section Places

variable {s s' : World M} {w i : Nat}

theorem Builtin.clean (step : Builtin s s' w i) {j : Nat} (other : j ≠ i) (clean : (s.threads j).Clean) :
    (s'.threads j).Clean := by
  rcases step.others j other with same | ⟨some_, _⟩ | ⟨_, clean'⟩
  · rwa [same]
  · exact absurd clean.1 some_
  · exact clean'

theorem mem_progress_top {k : Stack M} {ph : Phase M} (top : k.top = some (i, ph)) : i ∈ k.progress := by
  simp [Stack.progress, top]

theorem mem_progress_below {k : Stack M} {wait : Wait} (below : (i, wait) ∈ k.below) : i ∈ k.progress :=
  List.mem_append_right _ (List.mem_map.mpr ⟨_, below, rfl⟩)

/-- The run at the top is not further down, and on no other stack. -/
theorem RunInv.top_only (inv : s.RunInv) {ph : Phase M} (top : (s.stackOf w).top = some (i, ph)) :
    (∀ v, v ≠ w → i ∉ (s.stackOf v).progress) ∧ ∀ wait, (i, wait) ∉ (s.stackOf w).below := by
  constructor
  · intro v other there
    exact other ((inv.pinned v i there).1.symm.trans (inv.pinned w i (mem_progress_top top)).1)
  · intro wait there
    have once := inv.once w
    simp only [Stack.progress, top, Option.map_some, Option.toList_some, List.singleton_append, List.nodup_cons] at once
    exact once.1 (List.mem_map.mpr ⟨_, there, rfl⟩)

theorem Places.builtin (p : s.Places) (inv : s.RunInv) (at_ : (s.stackOf w).top = some (i, .running))
    (step : Builtin s s' w i) : s'.Places where
  top v j ph top bare := by
    by_cases same : v = w
    · subst same
      obtain ⟨ph', top', clean, _, _⟩ := step.top
      cases Option.some.inj (top'.symm.trans top)
      exact clean bare
    · rw [step.stack v same] at top
      have other : j ≠ i := fun mine => (inv.top_only at_).1 v same (mine ▸ mem_progress_top top)
      exact step.clean other (p.top v j ph top bare)
  below v j id there := by
    have old : (j, .await id) ∈ (s.stackOf v).below := by
      by_cases same : v = w
      · subst same
        rwa [step.below] at there
      · rwa [step.stack v same] at there
    have other : j ≠ i := by
      rintro rfl
      by_cases same : v = w
      · subst same
        exact (inv.top_only at_).2 _ old
      · exact (inv.top_only at_).1 v same (mem_progress_below old)
    exact step.clean other (p.below v j id old)
  yields j yield_ := by
    by_cases mine : j = i
    · subst mine
      obtain ⟨ph, top, _, zero, _⟩ := step.top
      exact ⟨(zero yield_).2, w, (zero yield_).1 ▸ top⟩
    · rcases step.others j mine with same | ⟨_, _, none_⟩ | ⟨_, clean⟩
      · rw [same] at yield_
        obtain ⟨none_, v, top⟩ := p.yields j yield_
        have other : v ≠ w := by
          rintro rfl
          exact absurd (Option.some.inj (at_.symm.trans top)) (by simp)
        exact ⟨same ▸ none_, v, step.stack v other ▸ top⟩
      · rw [none_] at yield_
        cases yield_
      · rw [clean.2.1] at yield_
        cases yield_
  awaits j await_ := by
    by_cases mine : j = i
    · subst mine
      exact step.awaits await_
    · rcases step.others j mine with same | ⟨_, _, none_⟩ | ⟨_, clean⟩
      · rw [same] at await_ ⊢
        exact p.awaits j await_
      · rw [none_] at await_
        cases await_
      · rw [clean.2.1] at await_
        cases await_
  enters v j top := by
    by_cases same : v = w
    · subst same
      obtain ⟨ph, top', _, _, some_⟩ := step.top
      cases Option.some.inj (top'.symm.trans top)
      exact some_ rfl
    · rw [step.stack v same] at top
      have other : j ≠ i := fun mine => (inv.top_only at_).1 v same (mine ▸ mem_progress_top top)
      rcases step.others j other with same | ⟨_, some_, _⟩ | ⟨out, _⟩
      · rw [same]
        exact p.enters v j top
      · exact some_
      · exact absurd (inv.pinned v j (mem_progress_top top)).2 (Nat.not_lt.mpr out)

end Places

namespace Builtin

variable {s s' : World M} {w i c : Nat}

/-- The caller goes on; others may be woken. -/
theorem goesOn (at_ : (s.stackOf w).top = some (i, .running)) (clean : (s.threads i).Clean)
    (stack : s'.stackOf = s.stackOf) (self : s'.threads i = s.threads i)
    (others : ∀ j, j ≠ i → s'.threads j = s.threads j ∨
      ((s.threads j).call ≠ none ∧ (s'.threads j).call ≠ none ∧ (s'.threads j).block = .none) ∨
      (s.nthreads ≤ j ∧ (s'.threads j).Clean)) : Builtin s s' w i where
  others := others
  stack v _ := by rw [stack]
  below := by rw [stack]
  top := ⟨.running, by rw [stack, at_], fun _ => self ▸ clean,
    fun yield_ => absurd ((congrArg Thread.block self).symm.trans yield_) (by simp [clean.2.1]), nofun⟩
  awaits await_ := by
    rw [self, clean.2.1] at await_
    cases await_

/-- The caller stops, and nobody else is touched. -/
theorem stops {t : Thread M} {ph : Phase M} (self : s'.threads i = t) (others : ∀ j, j ≠ i → s'.threads j = s.threads j)
    (stack : s'.stackOf = (s.setTop w (some (i, ph))).stackOf) (bare : ph.Bare → t.Clean)
    (yield_ : t.block = .yield → ph = .back .zero ∧ t.resumeText = none) (awaits : t.block = .await → t.state = .blocked ∧ t.call = none)
    (enters : ph = .entering .resume → t.call ≠ none) : Builtin s s' w i where
  others j other := .inl (others j other)
  stack v other := by rw [stack]; exact stackOf_other other
  below := by rw [stack, setTop, stackOf_self]
  top := ⟨ph, by rw [stack, setTop, stackOf_self], by rwa [self], by rwa [self], by rwa [self]⟩
  awaits := by rwa [self]

theorem send (b : s.Books) (at_ : (s.stackOf w).top = some (i, .running)) (clean : (s.threads i).Clean) (c : Nat) (m : M)
    (cell : Nat) (nested : Bool) : Builtin s (s.async_send w i c m cell nested) w i := by
  unfold async_send
  split
  · exact goesOn at_ clean rfl rfl fun _ _ => .inl rfl
  rename_i here
  have here : c < s.nchans := Nat.lt_of_not_le here
  simp only
  split
  · exact goesOn at_ clean rfl rfl fun _ _ => .inl rfl
  split
  · rename_i r rest list
    obtain ⟨held, waits, _⟩ := (b.receivers c here r).mp (by
      rw [show (s.chans c).receivers = r :: rest from list]
      exact List.mem_cons_self)
    have other : i ≠ r := by
      rintro rfl
      exact absurd (clean.1.symm.trans waits.1) nofun
    refine goesOn at_ clean rfl (threads_other other _) fun j _ => ?_
    by_cases same : j = r
    · subst same
      refine .inr (.inl ⟨by simp [waits.1], ?_, congrArg Thread.block (threads_self _)⟩)
      have same := congrArg Thread.call (threads_self (s := s) (i := j) ((s.threads j).woken (.ok m)))
      exact fun none_ => absurd (waits.1.symm.trans (same.symm.trans none_)) nofun
    · exact .inl (threads_other same _)
  split
  · exact goesOn at_ clean rfl rfl fun _ _ => .inl rfl
  split
  · refine stops (threads_self _) (fun j other => threads_other other _) rfl ?_ nofun nofun fun _ => nofun
    cases nested <;> exact False.elim
  · exact goesOn at_ clean rfl rfl fun _ _ => .inl rfl

theorem releaseSender_stackOf (s : World M) (c si : Nat) (rest : List Nat) :
    (s.releaseSender c si rest).stackOf = s.stackOf := by
  unfold World.releaseSender
  simp only
  split <;> rfl

theorem move_sender_stackOf (s : World M) (c : Nat) : (s.move_sender c).stackOf = s.stackOf := by
  unfold World.move_sender
  simp only
  split
  · rfl
  · split
    · exact releaseSender_stackOf _ _ _ _
    · rfl

theorem receives_same (s : World M) (c : Nat) (text : Option M) (call : Call M) :
    (s.receives c text call).threads = s.threads ∧ (s.receives c text call).stackOf = s.stackOf := by
  unfold World.receives
  split <;> exact ⟨rfl, rfl⟩

/-- A waiting sender is told; nobody else is touched. -/
theorem told (b : s.Books) (here : c < s.nchans) (at_ : (s.stackOf w).top = some (i, .running))
    (clean : (s.threads i).Clean) {si : Nat} (listed : si ∈ (s.chans c).senders) (stack : s'.stackOf = s.stackOf)
    (self : s'.threads si = { (s.threads si).woken .okSend with sendText := none })
    (others : ∀ j, j ≠ si → s'.threads j = s.threads j) : Builtin s s' w i := by
  obtain ⟨held, m, waits, _⟩ := b.sending here listed
  have other : i ≠ si := by
    rintro rfl
    exact absurd (clean.1.symm.trans waits.1) nofun
  refine goesOn at_ clean stack (others i other) fun j _ => ?_
  by_cases same : j = si
  · subst same
    exact .inr (.inl ⟨by simp [waits.1], by simp [self, Thread.woken, waits.1], by rw [self]; rfl⟩)
  · exact .inl (others j same)

theorem recv (b : s.Books) (at_ : (s.stackOf w).top = some (i, .running)) (clean : (s.threads i).Clean) (c cell : Nat)
    (nested : Bool) : Builtin s (s.async_recv w i c cell nested) w i := by
  unfold async_recv
  split
  · exact goesOn at_ clean rfl rfl fun _ _ => .inl rfl
  rename_i here
  have here : c < s.nchans := Nat.lt_of_not_le here
  have fits := b.chans c here
  simp only
  split
  · rename_i some_
    have some_ : 0 < (s.chans c).buf.count := some_
    obtain ⟨threads, stack⟩ := receives_same s.called c (s.called.chans c).buf.first ⟨s.log.calls, cell, c, none⟩
    cases list : (s.chans c).senders with
    | nil =>
      rw [move_sender_none (by simpa [called] using list)]
      exact goesOn at_ clean stack (congrFun threads i) fun j _ => .inl (congrFun threads j)
    | cons si rest =>
      have listed : si ∈ (s.chans c).senders := list ▸ List.mem_cons_self
      obtain ⟨held, m', waits, chan, message, text⟩ := b.sending here listed
      obtain ⟨space, _⟩ := fits.shift list some_ (b.new c) m' none
      have to_ := @Changed.moves _ s c ((s.called.receives c (s.called.chans c).buf.first ⟨s.log.calls, cell, c, none⟩).setChan
        c { s.chans c with buf := (s.chans c).buf.pop (s.chans c).cap }) threads ?_ (fun d other => ?_) ?_ si rest _
        (chans_self _) list space m' text held waits.1
      · exact told b here at_ clean listed ((move_sender_stackOf _ _).trans stack) to_.self to_.others
      · unfold World.receives
        split <;> rfl
      · refine (chans_other other _).trans ?_
        unfold World.receives
        split <;> rfl
      · unfold World.receives
        split <;> rfl
  split
  · rename_i si rest list
    have listed : si ∈ (s.chans c).senders := by
      rw [show (s.chans c).senders = si :: rest from list]
      exact List.mem_cons_self
    obtain ⟨held, m, waits, chan, message, text⟩ := b.sending here listed
    obtain ⟨threads, stack⟩ := receives_same (s.called.releaseSender c si rest) c (s.called.threads si).sendText
      ⟨s.log.calls, cell, c, none⟩
    have to_ := @Changed.releases _ s c s.called rfl rfl (fun _ _ => rfl) rfl si rest m text held waits.1
    exact told b here at_ clean listed (stack.trans (releaseSender_stackOf _ _ _ _))
      ((congrFun threads si).trans to_.self) fun j other => (congrFun threads j).trans (to_.others j other)
  split
  · exact goesOn at_ clean rfl rfl fun _ _ => .inl rfl
  split
  · refine stops (threads_self _) (fun j other => threads_other other _) rfl ?_ (by simp) (by simp) fun _ => by simp
    cases nested <;> exact False.elim
  · exact goesOn at_ clean rfl rfl fun _ _ => .inl rfl

theorem close (b : s.Books) (at_ : (s.stackOf w).top = some (i, .running)) (clean : (s.threads i).Clean) (c : Nat) :
    Builtin s (s.chan_close c) w i := by
  by_cases here : c < s.nchans
  · rw [b.chan_close_eq here]
    have same : ∀ j, s.shut c j = s.threads j ∨
        ((s.threads j).call ≠ none ∧ (s.shut c j).call ≠ none ∧ (s.shut c j).block = .none) := by
      intro j
      unfold shut
      split
      · rename_i listed
        obtain ⟨call, waits, _⟩ := (b.receivers c here j).mp listed
        exact .inr ⟨by simp [waits.1], by simp [Thread.woken, waits.1], rfl⟩
      · split
        · rename_i listed
          obtain ⟨call, waits, _⟩ := (b.senders c here j).mp listed
          exact .inr ⟨by simp [waits.1], by simp [Thread.woken, waits.1], rfl⟩
        · exact .inl rfl
    refine goesOn at_ clean rfl ?_ fun j _ => (same j).imp_right .inl
    exact (same i).resolve_right fun both => both.1 clean.1
  · have idle : s.chan_close c = s := by
      unfold chan_close
      rw [if_pos (Nat.le_of_not_lt here)]
    rw [idle]
    exact goesOn at_ clean rfl rfl fun _ _ => .inl rfl

theorem calls (b : s.Books) (at_ : (s.stackOf w).top = some (i, .running)) (clean : (s.threads i).Clean)
    (inside : i < s.nthreads) (d : Do M) : Builtin s (s.calls w i d) w i := by
  unfold World.calls
  split
  · rename_i rc
    exact stops rfl (fun _ _ => rfl) rfl (fun _ => clean) (fun yield_ => absurd (clean.2.1.symm.trans yield_) nofun)
      (fun await_ => absurd (clean.2.1.symm.trans await_) nofun) nofun
  · unfold spawn
    split
    · refine goesOn at_ clean rfl (threads_other (Nat.ne_of_lt inside) _) fun j _ => ?_
      by_cases new : j = s.nthreads
      · subst new
        refine .inr (.inr ⟨Nat.le_refl _, ?_⟩)
        have fresh : (s.setThread s.nthreads (.fresh s.nextWorker)).threads s.nthreads = .fresh s.nextWorker := threads_self _
        show ((s.setThread s.nthreads (.fresh s.nextWorker)).threads s.nthreads).Clean
        rw [fresh]
        exact ⟨rfl, rfl, rfl⟩
      · exact .inl (threads_other new _)
    · exact goesOn at_ clean rfl rfl fun _ _ => .inl rfl
  · unfold async_yield
    split
    · exact goesOn at_ clean rfl rfl fun _ _ => .inl rfl
    · exact stops (threads_self _) (fun j other => threads_other other _) rfl False.elim (fun _ => ⟨rfl, clean.2.2⟩) nofun nofun
  · unfold async_await
    split
    · exact goesOn at_ clean rfl rfl fun _ _ => .inl rfl
    split
    · exact goesOn at_ clean rfl rfl fun _ _ => .inl rfl
    split
    · exact stops rfl (fun _ _ => rfl) rfl (fun _ => clean) (fun yield_ => absurd (clean.2.1.symm.trans yield_) nofun)
        (fun await_ => absurd (clean.2.1.symm.trans await_) nofun) nofun
    · refine stops (threads_self _) (fun j other => threads_other other _) rfl False.elim ?_ ?_ nofun
      · nofun
      · exact fun _ => ⟨rfl, clean.1⟩
  · unfold chan_new
    split <;> exact goesOn at_ clean rfl rfl fun _ _ => .inl rfl
  · exact send b at_ clean _ _ _ _
  · exact recv b at_ clean _ _ _
  · exact close b at_ clean _
  · exact goesOn at_ clean rfl rfl fun _ _ => .inl rfl

end Builtin

section Scheduler

variable {s s' : World M} {w i : Nat}

theorem finish_threads (s : World M) (i : Nat) (status : Text M) (j : Nat) : (s.finish i status).threads j =
    if j = i then { s.threads i with status := some status, state := .done, block := .none }
    else if j < s.nthreads ∧ (s.threads j).state = .blocked ∧ (s.threads j).block = .await ∧
        (s.threads j).waitOn = some i then
      { s.threads j with resumeText := some status, state := .ready, block := .none, waitOn := none }
    else s.threads j := by
  simp only [World.finish, wake, setThread]
  by_cases same : j = i
  · subst same
    simp
  · simp [same]

/-- A task that is in no call ends; those that await it are told. -/
theorem Books.finish (b : s.Books) (p : s.Places) (out : (s.threads i).call = none) (status : Text M) :
    (s.finish i status).Books := by
  refine b.frame (fun j => ?_) (Nat.le_refl _) rfl rfl rfl
  rw [finish_threads]
  split
  · rename_i same
    subst same
    exact ⟨rfl, fun some_ => absurd out some_, fun some_ => absurd out some_, fun _ => ⟨nofun, nofun⟩,
      fun some_ => absurd out some_, fun some_ => absurd out some_⟩
  split
  · rename_i waits
    have out := (p.awaits j waits.2.2.1).2
    exact ⟨rfl, fun some_ => absurd out some_, fun some_ => absurd out some_, fun _ => ⟨nofun, nofun⟩,
      fun some_ => absurd out some_, fun some_ => absurd out some_⟩
  · exact Same.refl b rfl

theorem Places.finish (p : s.Places) (gone : ∀ v, i ∉ (s.stackOf v).progress) (status : Text M) :
    (s.finish i status).Places := by
  have other : ∀ j, j ≠ i → (s.threads j).block ≠ .await → (s.finish i status).threads j = s.threads j := by
    intro j away block
    rw [finish_threads, if_neg away, if_neg fun waits => block waits.2.2.1]
  have kept : ∀ v j, j ∈ (s.stackOf v).progress → (s.threads j).block ≠ .await →
      (s.finish i status).threads j = s.threads j := fun v j there block =>
    other j (fun same => gone v (same ▸ there)) block
  have block : ∀ j, ((s.finish i status).threads j).block ≠ .none →
      (s.finish i status).threads j = s.threads j := by
    intro j some_
    rw [finish_threads] at some_ ⊢
    split at some_
    · exact absurd rfl some_
    split at some_
    · exact absurd rfl some_
    rename_i away waits
    rw [if_neg away, if_neg waits]
  refine ⟨fun v j ph top bare => ?_, fun v j id there => ?_, fun j yield_ => ?_, fun j await_ => ?_, fun v j top => ?_⟩
  · have clean := p.top v j ph top bare
    rw [kept v j (mem_progress_top top) (by simp [clean.2.1])]
    exact clean
  · have clean := p.below v j id there
    rw [kept v j (mem_progress_below there) (by simp [clean.2.1])]
    exact clean
  · have same := block j (by simp [yield_])
    rw [same] at yield_ ⊢
    exact p.yields j yield_
  · have same := block j (by simp [await_])
    rw [same] at await_ ⊢
    exact p.awaits j await_
  · have some_ := p.enters v j top
    have busy : (s.threads j).block ≠ .await := fun await_ => some_ (p.awaits j await_).2
    rw [kept v j (mem_progress_top top) busy]
    exact some_

/-- The run at the top is over and leaves its task as `t`. -/
theorem Places.leaves (p : s.Places) (inv : s.RunInv) {ph : Phase M} (top : (s.stackOf w).top = some (i, ph))
    {t : Thread M} (block : t.block ≠ .yield) (awaits : t.block = .await → t.state = .blocked ∧ t.call = none) :
    ((s.setTop w none).setThread i t).Places := by
  obtain ⟨_, gone⟩ := inv.drop top
  have tops : ∀ v j ph', ((s.setTop w none).stackOf v).top = some (j, ph') → (s.stackOf v).top = some (j, ph') ∧ j ≠ i := by
    intro v j ph' top'
    refine ⟨?_, fun same => gone v (same ▸ mem_progress_top top')⟩
    by_cases same : v = w
    · subst same
      rw [setTop, stackOf_self] at top'
      cases top'
    · rwa [setTop, stackOf_other same] at top'
  refine ⟨fun v j ph' top' bare => ?_, fun v j id there => ?_, fun j yield_ => ?_, fun j await_ => ?_, fun v j top' => ?_⟩
  · obtain ⟨old, other⟩ := tops v j ph' top'
    rw [threads_other other]
    exact p.top v j ph' old bare
  · have there : (j, .await id) ∈ ((s.setTop w none).stackOf v).below := there
    have other : j ≠ i := fun same => gone v (same ▸ mem_progress_below there)
    rw [threads_other other]
    refine p.below v j id ?_
    by_cases same : v = w
    · subst same
      rwa [setTop, stackOf_self] at there
    · rwa [setTop, stackOf_other same] at there
  · by_cases mine : j = i
    · subst mine
      rw [threads_self] at yield_
      exact absurd yield_ block
    · rw [threads_other mine] at yield_ ⊢
      obtain ⟨none_, v, top'⟩ := p.yields j yield_
      have away : v ≠ w := by
        rintro rfl
        cases Option.some.inj (top.symm.trans top')
        exact mine rfl
      exact ⟨none_, v, (congrArg Stack.top (stackOf_other away)).trans top'⟩
  · by_cases mine : j = i
    · subst mine
      rw [threads_self] at await_ ⊢
      exact awaits await_
    · rw [threads_other mine] at await_ ⊢
      exact p.awaits j await_
  · obtain ⟨old, other⟩ := tops v j _ top'
    rw [threads_other other]
    exact p.enters v j old

/-- Task `i` is the running one of a worker that had none: it was nowhere, or in a nested wait. -/
theorem Places.runs (p : s.Places) (idle : (s.stackOf w).top = none) (clean : (s'.threads i).Clean)
    (others : ∀ j, j ≠ i → s'.threads j = s.threads j) (stack : ∀ v, v ≠ w → s'.stackOf v = s.stackOf v)
    (top : (s'.stackOf w).top = some (i, .running)) (below : (s'.stackOf w).below ⊆ (s.stackOf w).below)
    (away : ∀ v, v ≠ w → i ∉ (s.stackOf v).progress) (only : ∀ wait, (i, wait) ∉ (s'.stackOf w).below) : s'.Places where
  top v j ph top' bare := by
    by_cases same : v = w
    · subst same
      cases Option.some.inj (top.symm.trans top')
      exact clean
    · rw [stack v same] at top'
      have other : j ≠ i := fun mine => away v same (mine ▸ mem_progress_top top')
      rw [others j other]
      exact p.top v j ph top' bare
  below v j id there := by
    by_cases same : v = w
    · subst same
      have other : j ≠ i := fun mine => only _ (mine ▸ there)
      rw [others j other]
      exact p.below v j id (below there)
    · rw [stack v same] at there
      have other : j ≠ i := fun mine => away v same (mine ▸ mem_progress_below there)
      rw [others j other]
      exact p.below v j id there
  yields j yield_ := by
    by_cases mine : j = i
    · subst mine
      exact absurd (clean.2.1.symm.trans yield_) nofun
    · rw [others j mine] at yield_ ⊢
      obtain ⟨none_, v, top'⟩ := p.yields j yield_
      have other : v ≠ w := by
        rintro rfl
        exact absurd (idle.symm.trans top') nofun
      exact ⟨none_, v, stack v other ▸ top'⟩
  awaits j await_ := by
    by_cases mine : j = i
    · subst mine
      exact absurd (clean.2.1.symm.trans await_) nofun
    · rw [others j mine] at await_ ⊢
      exact p.awaits j await_
  enters v j top' := by
    by_cases same : v = w
    · subst same
      cases Option.some.inj (top.symm.trans top')
    · rw [stack v same] at top'
      have other : j ≠ i := fun mine => away v same (mine ▸ mem_progress_top top')
      rw [others j other]
      exact p.enters v j top'

theorem Places.waits (p : s.Places) (inv : s.RunInv) {wait : Wait} (top : (s.stackOf w).top = some (i, .entering wait)) :
    (s.waits w i wait).Places := by
  obtain ⟨away, below⟩ := inv.top_only top
  have self : (s.waits w i wait).threads i = { s.threads i with state := .nested } := threads_self _
  have others : ∀ j, j ≠ i → (s.waits w i wait).threads j = s.threads j := fun j other => threads_other other _
  have here : (s.waits w i wait).stackOf w = { s.stackOf w with top := none, below := (i, wait) :: (s.stackOf w).below } :=
    stackOf_self
  have stack : ∀ v, v ≠ w → (s.waits w i wait).stackOf v = s.stackOf v := fun v other => stackOf_other other
  have waiting : (s.threads i).block ≠ .await := by
    cases wait with
    | await id => simp [(p.top w i _ top trivial).2.1]
    | resume => exact fun await_ => p.enters w i top (p.awaits i await_).2
  refine ⟨fun v j ph top' bare => ?_, fun v j id there => ?_, fun j yield_ => ?_, fun j await_ => ?_, fun v j top' => ?_⟩
  · have same : v ≠ w := by
      rintro rfl
      rw [here] at top'
      cases top'
    rw [stack v same] at top'
    rw [others j fun mine => away v same (mine ▸ mem_progress_top top')]
    exact p.top v j ph top' bare
  · by_cases same : v = w
    · subst same
      rw [here] at there
      rcases List.mem_cons.mp there with new | old
      · cases new
        rw [self]
        exact p.top v i _ top trivial
      · rw [others j fun mine => below _ (mine ▸ old)]
        exact p.below v j id old
    · rw [stack v same] at there
      rw [others j fun mine => away v same (mine ▸ mem_progress_below there)]
      exact p.below v j id there
  · have none_ : ∀ v, (s.stackOf v).top = some (i, .back .zero) → False := by
      intro v top'
      by_cases same : v = w
      · subst same
        cases Option.some.inj (top.symm.trans top')
      · exact away v same (mem_progress_top top')
    by_cases mine : j = i
    · subst mine
      rw [self] at yield_
      obtain ⟨_, v, top'⟩ := p.yields j yield_
      exact (none_ v top').elim
    · rw [others j mine] at yield_ ⊢
      obtain ⟨text, v, top'⟩ := p.yields j yield_
      have other : v ≠ w := by
        rintro rfl
        cases Option.some.inj (top.symm.trans top')
      exact ⟨text, v, stack v other ▸ top'⟩
  · by_cases mine : j = i
    · subst mine
      rw [self] at await_
      exact absurd await_ waiting
    · rw [others j mine] at await_ ⊢
      exact p.awaits j await_
  · have same : v ≠ w := by
      rintro rfl
      rw [here] at top'
      cases top'
    rw [stack v same] at top'
    rw [others j fun mine => away v same (mine ▸ mem_progress_top top')]
    exact p.enters v j top'

end Scheduler

/-- The worker's nested channel wait is about to raise the deadlock error. -/
def givesUp (s : World M) (w : Nat) : Bool :=
  match (s.stackOf w).top, (s.stackOf w).below with
  | none, (i, .resume) :: _ => (s.threads i).resumeText.isNone && (s.pick w).isNone && !s.anyReady
  | _, _ => false

/-- What a channel operation needs: a place on the list it has to join, and for a close that
each waiting sender has the cell of its own call on record. -/
def Room (s : World M) : Do M → Prop
  | .send c _ _ _ => c < s.nchans → (s.chans c).closed = false → (s.chans c).receivers = [] →
    ¬(0 < (s.chans c).cap ∧ (s.chans c).buf.count < (s.chans c).cap) → (s.chans c).senders.length < 64
  | .recv c _ _ => c < s.nchans → (s.chans c).buf.count = 0 → (s.chans c).senders = [] → (s.chans c).closed = false →
    (s.chans c).receivers.length < 64
  | .close c => ∀ j ∈ (s.chans c).senders, ∀ call ∈ (s.threads j).call, (s.threads j).resumeCell = call.cell
  | _ => True

/-- The step is steady, no nested channel wait ends in the deadlock error, the main task is not
ended inside a channel call, and a channel operation has its room. -/
def Orderly (s : World M) (e : Nat × Do M) : Prop :=
  s.Steady e ∧ s.givesUp e.1 = false ∧ (∀ a ∈ s.asks e.1 e.2, a.1.dead a.2 = true → (a.1.threads 0).call = none) ∧
  s.Room e.2

instance (s : World M) (d : Do M) : Decidable (s.Room d) := by
  unfold Room
  split <;> infer_instance

instance (s : World M) (e : Nat × Do M) : Decidable (s.Orderly e) := by
  unfold Orderly
  infer_instance

/-- What every orderly step keeps. -/
structure Kept (s : World M) : Prop where
  runs : s.RunInv
  books : s.Books
  places : s.Places

section Kept

variable {s : World M} {w i : Nat}

theorem start_books (n : Nat) : (start n : World M).Books where
  fits := nofun
  inside := nofun
  known := nofun
  apart := nofun
  free _ _ := ⟨nofun, nofun⟩
  senders := nofun
  receivers := nofun
  chans := nofun
  blank _ _ := ⟨rfl, rfl⟩
  numbered := nofun
  reached := nofun
  answered := nofun

theorem start_kept (n : Nat) : (start n : World M).Kept where
  runs := start_runs n
  books := start_books n
  places := ⟨nofun, nofun, nofun, nofun, nofun⟩

/-- A task outside every call may change as it likes, short of the channels' blocks. -/
theorem Same.outside {t t' : Thread M} (out : t.call = none) (call : t'.call = none)
    (block : t'.block ≠ .send ∧ t'.block ≠ .recv) : Same t t' :=
  ⟨call.trans out.symm, fun some_ => absurd out some_, fun some_ => absurd out some_, fun _ => block,
    fun some_ => absurd out some_, fun some_ => absurd out some_⟩

/-- Task `i`, outside every call, becomes `t`; stacks and counters may change too. -/
theorem Books.outside (b : s.Books) {s' : World M} {t : Thread M} (out : (s.threads i).call = none)
    (self : s'.threads i = t) (call : t.call = none) (block : t.block ≠ .send ∧ t.block ≠ .recv)
    (others : ∀ j, j ≠ i → s'.threads j = s.threads j) (nthreads : s.nthreads ≤ s'.nthreads)
    (chans : s'.chans = s.chans) (nchans : s'.nchans = s.nchans) (log : s'.log = s.log) : s'.Books := by
  refine b.frame (fun j => ?_) nthreads chans nchans log
  by_cases mine : j = i
  · subst mine
    rw [self]
    exact Same.outside out call block
  · rw [others j mine]
    exact Same.refl b rfl

theorem Books.calls (b : s.Books) (clean : (s.threads i).Clean) (inside : i < s.nthreads) (d : Do M) (room : s.Room d) :
    (s.calls w i d).Books := by
  have kept : ∀ k : Nat → Stack M, ({ s with stackOf := k } : World M).Books := fun k =>
    b.frame (fun _ => Same.refl b rfl) (Nat.le_refl _) rfl rfl rfl
  unfold World.calls
  split
  · exact kept _
  · unfold spawn
    split
    · have out : (s.threads s.nthreads).call = none := by
        by_contra some_
        obtain ⟨call, at_⟩ := Option.ne_none_iff_exists'.mp some_
        exact Nat.lt_irrefl _ (b.inside _ call at_)
      exact b.outside out (threads_self _) rfl ⟨nofun, nofun⟩ (fun j other => threads_other other _) (Nat.le_succ _) rfl
        rfl rfl
    · exact b
  · unfold async_yield
    split
    · exact b
    · exact b.outside clean.1 (threads_self _) clean.1 ⟨nofun, nofun⟩ (fun j other => threads_other other _) (Nat.le_refl _)
        rfl rfl rfl
  · unfold async_await
    split
    · exact b
    split
    · exact b
    split
    · exact kept _
    · exact b.outside clean.1 (threads_self _) clean.1 ⟨nofun, nofun⟩ (fun j other => threads_other other _) (Nat.le_refl _)
        rfl rfl rfl
  · exact b.channel _
  · exact b.send clean.1 clean.2.2 inside _ _ _ _ room
  · exact b.recv clean.1 clean.2.2 inside _ _ _ room
  · rename_i c
    by_cases here : c < s.nchans
    · exact b.close here room
    · unfold chan_close
      rw [if_pos (Nat.le_of_not_lt here)]
      exact b
  · exact b

theorem Kept.calls (kept : s.Kept) (at_ : (s.stackOf w).top = some (i, .running)) (d : Do M) (room : s.Room d) :
    (s.calls w i d).Kept := by
  have clean := kept.places.top w i _ at_ trivial
  have inside := (kept.runs.pinned w i (mem_progress_top at_)).2
  exact ⟨kept.runs.quiet (Quiet.calls at_ d), kept.books.calls clean inside d room,
    kept.places.builtin kept.runs at_ (Builtin.calls kept.books at_ clean inside d)⟩

/-- A ready task that no worker runs waits for nothing. -/
theorem Kept.loose (kept : s.Kept) (ready : (s.threads i).state = .ready) (gone : ∀ v, i ∉ (s.stackOf v).progress) :
    (s.threads i).block = .none ∧ ((s.threads i).resumeText = none → (s.threads i).call = none) := by
  have called : ∀ call, (s.threads i).call = some call → (s.threads i).resumeText ≠ none := by
    intro call at_ none_
    have waits := ((kept.books.fits i call at_).waits none_).1
    rw [ready] at waits
    simp at waits
  have free : (s.threads i).block ≠ .send ∧ (s.threads i).block ≠ .recv := by
    cases at_ : (s.threads i).call with
    | none => exact kept.books.free i at_
    | some call =>
      have none_ := (kept.books.fits i call at_).loose (called call at_)
      simp [none_]
  refine ⟨?_, fun none_ => ?_⟩
  · cases block : (s.threads i).block with
    | none => rfl
    | await =>
      have blocked := (kept.places.awaits i block).1
      rw [ready] at blocked
      cases blocked
    | send => exact absurd block free.1
    | recv => exact absurd block free.2
    | yield =>
      obtain ⟨_, v, top⟩ := kept.places.yields i block
      exact absurd (mem_progress_top top) (gone v)
  · by_contra some_
    obtain ⟨call, at_⟩ := Option.ne_none_iff_exists'.mp some_
    exact called call at_ none_

/-- The waker's text is read and the task is in no call any more. -/
theorem Books.told (b : s.Books) {text : Text M} (holds : (s.threads i).resumeText = some text)
    {status : Option (Text M)} {t : Thread M} (call : t.call = none) (block : t.block ≠ .send ∧ t.block ≠ .recv)
    (status_ : ∀ held ∈ (s.threads i).call, status = some text ∨ status = none ∧ (s.threads i).resumeCell ≠ held.cell) :
    ((s.answer (s.threads i).call status).setThread i t).Books := by
  cases at_ : (s.threads i).call with
  | none =>
    exact b.outside at_ (threads_self _) call block (fun j other => threads_other other _) (Nat.le_refl _) rfl rfl rfl
  | some held =>
    exact b.change (b.ends at_ holds (status_ held at_) call block)
      ⟨threads_self _, fun j other => threads_other other _, rfl, rfl, fun _ _ => rfl, rfl, rfl⟩

theorem Books.unmoved (b : s.Books) {s' : World M} (threads : s'.threads = s.threads) (nthreads : s'.nthreads = s.nthreads)
    (chans : s'.chans = s.chans) (nchans : s'.nchans = s.nchans) (log : s'.log = s.log) : s'.Books :=
  b.frame (fun i => (congrFun threads i).symm ▸ Same.refl b rfl) (Nat.le_of_eq nthreads.symm) chans nchans log

theorem answer_other (s : World M) (call : Option (Call M)) (status : Option (Text M)) (t : Thread M) {j : Nat}
    (other : j ≠ i) : ((s.answer call status).setThread i t).threads j = s.threads j := by
  rw [threads_other other, answer_threads]

theorem Kept.enter (kept : s.Kept) (here : w < s.nworkers) (top : (s.stackOf w).top = none)
    (new : i ∉ (s.stackOf w).progress) (inside : i < s.nthreads) (ready : s.isReady i = true)
    (worker : (s.threads i).worker = w) : (s.enter w i).Kept := by
  have gone : ∀ v, i ∉ (s.stackOf v).progress := fun v there =>
    new (worker.symm.trans (kept.runs.pinned v i there).1 ▸ there)
  obtain ⟨loose, outside⟩ := kept.loose (by simpa [isReady] using ready) gone
  refine ⟨kept.runs.enter here top new inside ready worker, ?_, ?_⟩
  · unfold World.enter
    simp only
    split
    · rename_i text holds
      refine Books.unmoved (kept.books.told holds (t := { s.threads i with resumeText := none, call := none }) rfl ?_
        fun held at_ => ?_) rfl rfl rfl rfl rfl
      · simp [loose]
      · by_cases cell : held.cell = (s.threads i).resumeCell
        · simp [Option.mem_def.mp at_, cell]
        · refine .inr ⟨?_, fun same => cell same.symm⟩
          simp [Option.mem_def.mp at_, cell]
    · exact kept.books.unmoved rfl rfl rfl rfl rfl
  · have only : ∀ s' : World M, s'.stackOf = s.stackOf → ∀ wait, (i, wait) ∉ ((s'.setTop w (some (i, .running))).stackOf w).below := by
      intro s' same wait there
      rw [setTop, stackOf_self, same] at there
      exact gone w (mem_progress_below there)
    unfold World.enter
    simp only
    split
    · rename_i text holds
      refine kept.places.runs top ?_ (fun j other => answer_other s _ _ _ other) (fun v other => ?_) ?_ ?_
        (fun v _ => gone v) (only _ (answer_stackOf _ _ _))
      · have self : (((s.answer (s.threads i).call (if (s.threads i).call.all fun call => call.cell = (s.threads i).resumeCell
            then some text else none)).setThread i { s.threads i with resumeText := none, call := none }).threads i) =
            { s.threads i with resumeText := none, call := none } := threads_self _
        exact self.symm ▸ ⟨rfl, loose, rfl⟩
      · exact (stackOf_other other).trans (congrFun (answer_stackOf _ _ _) v)
      · rw [setTop, stackOf_self]
      · rw [setTop, stackOf_self]
        exact fun _ there => (congrArg Stack.below (congrFun (answer_stackOf _ _ _) w)) ▸ there
    · rename_i none_
      refine kept.places.runs top ⟨outside none_, loose, none_⟩ (fun _ _ => rfl) (fun v other => stackOf_other other) ?_ ?_
        (fun v _ => gone v) (only s rfl)
      · rw [setTop, stackOf_self]
      · rw [setTop, stackOf_self]
        exact List.Subset.refl _

/-- A worker's cursor or its mark of having left moves. -/
theorem Kept.stacked (kept : s.Kept) {k : Stack M} (top : k.top = (s.stackOf w).top)
    (below : k.below = (s.stackOf w).below) : (s.setStack w k).Kept := by
  have same : ∀ v, ((s.setStack w k).stackOf v).top = (s.stackOf v).top ∧
      ((s.setStack w k).stackOf v).below = (s.stackOf v).below := by
    intro v
    by_cases mine : v = w
    · subst mine
      rw [stackOf_self]
      exact ⟨top, below⟩
    · rw [stackOf_other mine]
      exact ⟨rfl, rfl⟩
  have quiet : Quiet s (s.setStack w k) := by
    refine (Quiet.refl s).stack ?_ (congrArg List.length below) fun id there => .inl ?_
    · rw [Stack.progress, Stack.progress, top, below]
    · rwa [Stack.awaits, ← top, ← below]
  refine ⟨kept.runs.quiet quiet, kept.books.unmoved rfl rfl rfl rfl rfl, ?_⟩
  refine ⟨fun v j ph there => kept.places.top v j ph ((same v).1 ▸ there), fun v j id there => kept.places.below v j id
    ((same v).2 ▸ there), fun j yield_ => ?_, kept.places.awaits, fun v j there => kept.places.enters v j ((same v).1 ▸ there)⟩
  obtain ⟨none_, v, there⟩ := kept.places.yields j yield_
  exact ⟨none_, v, (same v).1.trans there⟩

theorem Kept.runPicked (kept : s.Kept) (here : w < s.nworkers) (top : (s.stackOf w).top = none)
    (new : i ∉ (s.stackOf w).progress) (picked : s.pick w = some i) : (s.runPicked w i).Kept := by
  obtain ⟨inside, ready, worker⟩ := pick_spec picked
  have turned : (s.setStack w { s.stackOf w with cursor := i + 1 }).Kept := kept.stacked rfl rfl
  refine turned.enter here ?_ ?_ inside ready worker
  · rw [stackOf_self]
    exact top
  · rw [stackOf_self]
    exact new

/-- The task of a nested wait is the running one again, as `t`. -/
theorem Kept.resumed (kept : s.Kept) (here : w < s.nworkers) {wait : Wait} {rest : List (Nat × Wait)}
    (top : (s.stackOf w).top = none) (below : (s.stackOf w).below = (i, wait) :: rest) (call : Option (Call M))
    (status : Option (Text M)) {t : Thread M} (worker : t.worker = (s.threads i).worker) (block : t.block = .none)
    (text : t.resumeText = none)
    (books : ((s.answer call status).setThread i { t with state := .ready, call := none }).Books) :
    ((s.answer call status).resumed w i t rest).Kept := by
  have once := kept.runs.once w
  simp only [Stack.progress, top, below, Option.map_none, Option.toList_none, List.nil_append, List.map_cons,
    List.nodup_cons] at once
  have mine : i ∈ (s.stackOf w).progress := mem_progress_below (below ▸ List.mem_cons_self)
  have stack : ((s.answer call status).resumed w i t rest).stackOf w =
      { s.stackOf w with top := some (i, .running), below := rest } := by
    refine stackOf_self.trans ?_
    rw [answer_stackOf]
  refine ⟨kept.runs.answered here top below call status worker, books.unmoved rfl rfl rfl rfl rfl, ?_⟩
  refine kept.places.runs top ?_ (fun j other => answer_other s _ _ _ other) (fun v other => ?_) ?_ ?_ (fun v other there => ?_)
    (fun wait' there => ?_)
  · have self : ((s.answer call status).resumed w i t rest).threads i = { t with state := .ready, call := none } :=
      threads_self _
    rw [self]
    exact ⟨rfl, block, text⟩
  · exact (stackOf_other other).trans (congrFun (answer_stackOf _ _ _) v)
  · rw [stack]
  · rw [stack, below]
    exact List.subset_cons_self _ _
  · exact other ((kept.runs.pinned v i there).1.symm.trans (kept.runs.pinned w i mine).1)
  · rw [stack] at there
    exact once.1 (List.mem_map.mpr ⟨_, there, rfl⟩)

/-- A task in a call may go from one of the two waiting states to the other. -/
theorem Books.restated (b : s.Books) {s' : World M} {t : Thread M} (at_ : t = s.threads i) {state : State}
    (waits : state = .blocked ∨ state = .nested) (self : s'.threads i = { t with state })
    (others : ∀ j, j ≠ i → s'.threads j = s.threads j) (nthreads : s'.nthreads = s.nthreads) (chans : s'.chans = s.chans)
    (nchans : s'.nchans = s.nchans) (log : s'.log = s.log) : s'.Books := by
  refine b.frame (fun j => ?_) (Nat.le_of_eq nthreads.symm) chans nchans log
  by_cases mine : j = i
  · subst mine
    have same := Same.refl b at_.symm
    rw [self, ← at_]
    exact ⟨rfl, fun _ => rfl, fun _ => rfl, same.free, fun _ _ => ⟨waits, rfl, rfl, rfl⟩, same.loose⟩
  · rw [others j mine]
    exact Same.refl b rfl

theorem Kept.waits (kept : s.Kept) (here : w < s.nworkers) {wait : Wait}
    (top : (s.stackOf w).top = some (i, .entering wait)) : (s.waits w i wait).Kept :=
  ⟨kept.runs.waits here top, kept.books.restated rfl (.inr rfl) (threads_self _) (fun _ other => threads_other other _) rfl
    rfl rfl rfl, kept.places.waits kept.runs top⟩

theorem Kept.finish (kept : s.Kept) (gone : ∀ v, i ∉ (s.stackOf v).progress) (out : (s.threads i).call = none)
    (status : Text M) : (s.finish i status).Kept :=
  ⟨kept.runs.finish gone status, kept.books.finish kept.places out status, kept.places.finish gone status⟩

theorem Kept.deadlock (kept : s.Kept) (op : Bool)
    (idle : s.dead op = true → ∀ v, v < s.nworkers → (s.stackOf v).top = none)
    (out : s.dead op = true → (s.threads 0).call = none) : (s.deadlock op).Kept := by
  refine ⟨kept.runs.deadlock op idle, ?_, ?_⟩
  · unfold World.deadlock
    split
    · rename_i dead
      exact (kept.books.finish kept.places (out dead) _).unmoved rfl rfl rfl rfl rfl
    · exact kept.books
  · unfold World.deadlock
    split
    · rename_i dead
      have empty := kept.runs.dead_idle dead (idle dead)
      have gone : ∀ v, 0 ∉ (s.stackOf v).progress := fun v => by simp [empty v]
      exact { kept.places.finish gone (.error .deadlock) with }
    · exact kept.places

/-- The run at the top is over and its task, outside every call, is left as `t`. -/
theorem Kept.leaves (kept : s.Kept) {ph : Phase M} (top : (s.stackOf w).top = some (i, ph)) {t : Thread M}
    (worker : t.worker = (s.threads i).worker) (alive : t.state ≠ .done) (books : (s.setThread i t).Books)
    (block : t.block ≠ .yield) (awaits : t.block = .await → t.state = .blocked ∧ t.call = none) :
    ((s.setTop w none).setThread i t).Kept ∧ ∀ v, i ∉ (((s.setTop w none).setThread i t).stackOf v).progress := by
  obtain ⟨popped, gone⟩ := kept.runs.drop top
  refine ⟨⟨popped.quiet (Quiet.thread (Quiet.refl _) worker fun done => absurd done alive), books.unmoved rfl rfl rfl rfl rfl,
    kept.places.leaves kept.runs top block awaits⟩, gone⟩

theorem setThread_same (s : World M) (i : Nat) : s.setThread i (s.threads i) = s := by
  simp [setThread]

/-- The run at the top is over; its task did not yield. -/
theorem Kept.drop (kept : s.Kept) {ph : Phase M} (top : (s.stackOf w).top = some (i, ph))
    (block : (s.threads i).block ≠ .yield) :
    (s.setTop w none).Kept ∧ ∀ v, i ∉ ((s.setTop w none).stackOf v).progress := by
  have left := kept.leaves top (t := s.threads i) rfl (kept.runs.alive w i (mem_progress_top top))
    ((setThread_same s i).symm ▸ kept.books) block (kept.places.awaits i)
  have same : (s.setTop w none).setThread i (s.threads i) = s.setTop w none := setThread_same (s.setTop w none) i
  rwa [same] at left

theorem Kept.readied (kept : s.Kept) {ph : Phase M} (top : (s.stackOf w).top = some (i, ph))
    (out : (s.threads i).call = none) :
    ((s.setTop w none).setThread i { s.threads i with state := .ready, block := .none }).Kept := by
  have books : (s.setThread i { s.threads i with state := .ready, block := .none }).Books :=
    kept.books.outside out (threads_self _) out ⟨nofun, nofun⟩ (fun j other => threads_other other _) (Nat.le_refl _) rfl rfl
      rfl
  exact (kept.leaves top (t := { s.threads i with state := .ready, block := .none }) rfl nofun books nofun nofun).1

/-- Back without a text, a task is in a channel call exactly when its block says so. -/
theorem Books.uncalled (b : s.Books) (none_ : (s.threads i).resumeText = none)
    (block : (s.threads i).block ≠ .send ∧ (s.threads i).block ≠ .recv) : (s.threads i).call = none := by
  by_contra some_
  obtain ⟨call, at_⟩ := Option.ne_none_iff_exists'.mp some_
  have waits := ((b.fits i call at_).waits none_).2.2.1
  cases kind : call.message.isSome with
  | true =>
    rw [kind, if_pos rfl] at waits
    exact block.1 waits
  | false =>
    rw [kind, if_neg nofun] at waits
    exact block.2 waits

theorem Kept.lands (kept : s.Kept) {rc : Rc M} (top : (s.stackOf w).top = some (i, .back rc)) (op : Bool)
    (orderly : s.Orderly (w, .lands op)) : ((s.setTop w none).lands i rc op).Kept := by
  have bare : rc ≠ .zero → (s.threads i).Clean := by
    intro other
    refine kept.places.top w i _ top ?_
    cases rc with
    | zero => exact absurd rfl other
    | _ => trivial
  have ends : (s.threads i).Clean → ∀ status, ((s.setTop w none).finish i status).Kept := by
    intro clean status
    obtain ⟨dropped, gone⟩ := kept.drop top (by simp [clean.2.1])
    exact dropped.finish gone clean.1 status
  unfold World.lands
  simp only
  split
  · exact kept.readied top (bare (by simp)).1
  · exact ends (bare (by simp)) _
  · exact ends (bare (by simp)) _
  · split
    · rename_i woken
      refine (kept.drop top fun yield_ => ?_).1
      have woken : (s.threads i).resumeText.isSome = true := woken
      rw [(kept.places.yields i yield_).1] at woken
      cases woken
    rename_i unwoken
    have none_ : (s.threads i).resumeText = none := by simpa [setTop, setStack] using unwoken
    split
    · rename_i block
      have block : (s.threads i).block = .none := block
      exact ends ⟨kept.books.uncalled none_ (by simp [block]), block, none_⟩ _
    · rename_i block
      have block : (s.threads i).block = .yield := block
      exact kept.readied top (kept.books.uncalled none_ (by simp [block]))
    · rename_i some_ waits
      have block : (s.threads i).block ≠ .none ∧ (s.threads i).block ≠ .yield := ⟨fun h => some_ h, fun h => waits h⟩
      have books : (s.setThread i { s.threads i with state := .blocked }).Books :=
        kept.books.restated rfl (.inl rfl) (threads_self _) (fun j other => threads_other other _) rfl rfl rfl rfl
      obtain ⟨left, _⟩ := kept.leaves top (t := { s.threads i with state := .blocked }) rfl (by simp) books block.2
        fun await_ => ⟨rfl, (kept.places.awaits i await_).2⟩
      have asked : ((s.setTop w none).setThread i { s.threads i with state := .blocked }, op) ∈
          s.asks w (.lands op) := by
        simp [asks, top, none_, block]
      refine left.deadlock op (fun dead v inside => ?_) fun dead => orderly.2.2.1 _ asked dead
      by_cases same : v = w
      · rw [same]
        simp [setThread, setTop, setStack]
      · have idle := orderly.1.2 _ asked dead v inside same
        exact (congrArg Stack.top (stackOf_other same)).trans (Option.isNone_iff_eq_none.mp idle)

theorem Kept.runReady (kept : s.Kept) (here : w < s.nworkers) {wait : Wait} {rest : List (Nat × Wait)}
    (top : (s.stackOf w).top = none) (below : (s.stackOf w).below = (i, wait) :: rest)
    (calm : ∀ p ∈ (s.stackOf w).below, s.isReady p.1 = false)
    (clean : s.pick w = none → s.anyReady = false → (s.threads i).Clean) : (s.runReady w i rest).Kept := by
  unfold World.runReady
  split
  · rename_i j picked
    exact kept.runPicked here top (not_below top calm (pick_spec picked).2.1) picked
  · rename_i none_
    split
    · exact kept
    · rename_i idle
      have clean := clean none_ (by simpa using idle)
      refine kept.resumed here top below _ _ rfl clean.2.1 clean.2.2 ?_
      rw [clean.1]
      exact kept.books.outside clean.1 (threads_self _) rfl (by simp [clean.2.1]) (fun j other => threads_other other _)
        (Nat.le_refl _) rfl rfl rfl

theorem Kept.turn (kept : s.Kept) (here : w < s.nworkers) (top : (s.stackOf w).top = none) (op : Bool)
    (orderly : s.Orderly (w, .turn op)) : (s.turn w op).Kept := by
  unfold World.turn
  split
  · rename_i below
    split
    · exact kept
    have asked : (s, op) ∈ s.asks w (.turn op) := by simp [asks, top, below]
    unfold loopTurn
    split
    · rename_i j picked
      exact kept.runPicked here top (by simp [Stack.progress, top, below]) picked
    · have idle : (s.deadlock op).Kept := by
        refine kept.deadlock op (fun dead v inside => ?_) fun dead => orderly.2.2.1 _ asked dead
        by_cases same : v = w
        · rw [same]
          exact top
        · exact Option.isNone_iff_eq_none.mp (orderly.1.2 _ asked dead v inside same)
      simp only
      split
      · exact idle.stacked rfl rfl
      · exact idle
  · rename_i i id rest below
    have clean := kept.places.below w i id (below ▸ List.mem_cons_self)
    have look : (s.threads id).state ≠ .done → ∀ p ∈ (s.stackOf w).below, s.isReady p.1 = false := fun going =>
      orderly.1.1 (by simp [top]) (by simp [looks, below, going])
    unfold awaitTurn
    split
    · refine kept.resumed here top below none none rfl clean.2.1 clean.2.2 ?_
      exact kept.books.outside clean.1 (threads_self _) rfl (by simp [clean.2.1]) (fun j other => threads_other other _)
        (Nat.le_refl _) rfl rfl rfl
    · rename_i going
      split
      · rename_i target
        simp only [Bool.and_eq_true, decide_eq_true_eq] at target
        have inside : id < s.nthreads := kept.runs.awaits w id (by simp [Stack.awaits, top, below, Wait.ids])
        exact kept.enter here top (not_below top (look going) target.1) inside target.1 target.2
      · exact kept.runReady here top below (look going) fun _ _ => clean
  · rename_i i rest below
    unfold resumeTurn
    split
    · rename_i text holds
      refine kept.resumed here top below _ _ rfl rfl rfl ?_
      exact kept.books.told holds rfl ⟨by simp, by simp⟩ fun _ _ => .inl rfl
    · rename_i none_
      refine kept.runReady here top below (orderly.1.1 (by simp [top]) (by simp [looks, below, none_])) fun unpicked idle => ?_
      have stays := orderly.2.1
      simp [givesUp, top, below, none_, unpicked, idle] at stays

theorem Kept.act (kept : s.Kept) (w : Nat) (d : Do M) (orderly : s.Orderly (w, d)) : (s.act w d).Kept := by
  unfold World.act
  split
  · exact kept
  · rename_i inside
    have here : w < s.nworkers := by
      simp only [Bool.or_eq_true, decide_eq_true_eq, not_or, Nat.not_le] at inside
      exact inside.2
    split
    · rename_i op top
      exact kept.turn here top op orderly
    · rename_i i wait top
      exact kept.waits here top
    · rename_i i rc op top
      exact kept.lands top op orderly
    · rename_i i top
      exact kept.calls top _ orderly.2.2.2
    · exact kept

/-- Task `i` is suspended in a call on channel `c`, as its thread record says, and no worker runs it. -/
structure Held (s : World M) (i c : Nat) (block : Block) : Prop where
  call : ∃ call, s.Waits i call ∧ call.chan = c ∧ call.message.isSome = decide (block = .send)
  state : (s.threads i).state = .blocked ∨ (s.threads i).state = .nested
  block : (s.threads i).block = block
  chan : (s.threads i).chan = some c
  stopped : ∀ w, (s.stackOf w).top ≠ some (i, .running)

/-- What the channels of a world promise. -/
structure Conveys (s : World M) : Prop where
  /-- The messages handed over and then those in the buffer are the accepted ones, in order. -/
  conserved : ∀ c < s.nchans, ∃ items, (s.chans c).buf.Holds (s.chans c).cap items ∧
    (s.log.accepted c).map (·.1) = (s.log.delivered c).map (·.1) ++ items
  accepted : ∀ call status, (call, status) ∈ s.log.answered → ∀ m, call.message = some m → Sent status →
    call.chan < s.nchans ∧ (m, some call.id) ∈ s.log.accepted call.chan
  /-- Each message is handed to a receive call, which has it, and no call gets two. -/
  delivered : ∀ c < s.nchans, ∀ m k, (m, k) ∈ s.log.delivered c → ∃ id, k = some id ∧ s.Reached c m id
  once : ∀ c < s.nchans, ((s.log.delivered c).map (·.2)).Nodup
  receiverWaits : ∀ c < s.nchans, (s.chans c).receivers ≠ [] → (s.chans c).buf.count = 0 ∧ (s.chans c).senders = []
  senderWaits : ∀ c < s.nchans, (s.chans c).senders ≠ [] → (s.chans c).buf.count = (s.chans c).cap
  bounded : ∀ c < s.nchans, (s.chans c).buf.count ≤ (s.chans c).cap
  senders : ∀ c < s.nchans, ∀ i ∈ (s.chans c).senders, s.Held i c .send
  receivers : ∀ c < s.nchans, ∀ i ∈ (s.chans c).receivers, s.Held i c .recv

theorem Kept.held (kept : s.Kept) {c : Nat} {call : Call M} {block : Block} (waits : s.Waits i call) (chan : call.chan = c)
    (kind : call.message.isSome = decide (block = .send)) (either : block = .send ∨ block = .recv) : s.Held i c block := by
  obtain ⟨state, chan', block', _⟩ := (kept.books.fits i call waits.1).waits waits.2
  refine ⟨⟨call, waits, chan, kind⟩, state, ?_, chan'.trans (congrArg some chan), fun w top => ?_⟩
  · rw [block', kind]
    rcases either with rfl | rfl <;> rfl
  · exact absurd (waits.1.symm.trans (kept.places.top w i _ top trivial).1) nofun

theorem Kept.conveys (kept : s.Kept) : s.Conveys where
  conserved c here := (kept.books.chans c here).conserved
  accepted call status there m sends sent := by
    have listed := kept.books.answered call status there m sends sent
    refine ⟨?_, listed⟩
    by_contra out
    rw [(kept.books.blank call.chan (Nat.le_of_not_lt out)).1] at listed
    cases listed
  delivered c here m k there := by
    obtain ⟨id, rfl⟩ := Option.ne_none_iff_exists'.mp ((kept.books.chans c here).heard (m, k) there)
    exact ⟨id, rfl, kept.books.reached c m id there⟩
  once c here := (kept.books.chans c here).heardOnce
  receiverWaits c here := (kept.books.chans c here).receiverWaits
  senderWaits c here := (kept.books.chans c here).senderWaits
  bounded c here := by
    obtain ⟨items, holds, _⟩ := (kept.books.chans c here).conserved
    rw [holds.count]
    exact holds.fits
  senders c here i listed := by
    obtain ⟨call, waits, chan, kind⟩ := (kept.books.senders c here i).mp listed
    exact kept.held waits chan (by simpa using kind) (.inl rfl)
  receivers c here i listed := by
    obtain ⟨call, waits, chan, kind⟩ := (kept.books.receivers c here i).mp listed
    exact kept.held waits chan (by simpa using kind) (.inr rfl)

end Kept

/-- The main task's receive inside a findall ends in the deadlock error, which it catches; it
awaits another task, which then sends on the channel. -/
def staleReceiver : List (Nat × Do Nat) :=
  [(0, .turn false), (0, .channel 0), (0, .recv 0 1 true), (0, .waits), (0, .turn false), (0, .go), (0, .await 1 2 false),
    (0, .lands false), (0, .turn false), (0, .send 0 7 3 false)]

/-- The main task receives 7 and then waits to send 8 when the other task closes the channel:
the error goes to the cell of the receive, and the send's own cell stays unbound. -/
def staleCell : List (Nat × Do Nat) :=
  [(0, .turn false), (0, .channel 0), (0, .go), (0, .recv 0 5 false), (0, .lands false), (0, .turn false),
    (0, .send 0 7 2 false), (0, .yield false), (0, .lands false), (0, .turn false), (0, .send 0 8 1 false),
    (0, .lands false), (0, .turn false), (0, .close 0), (0, .stops (.solved 9)), (0, .lands false), (0, .turn false)]

/-- A receive waits, a sender hands its message over, and the receiver goes on with it. -/
def handOver : List (Nat × Do Nat) :=
  [(0, .turn false), (0, .channel 0), (0, .go), (0, .recv 0 1 false), (0, .lands false), (1, .turn false),
    (1, .send 0 7 2 false), (0, .turn false)]

end World
end Cocolog.Green
