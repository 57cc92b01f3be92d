import Cocolog.Green.Barrier

/-! What the barrier keeps: while one worker is in its write section every other waits
for that write or is away. It is kept as long as acknowledgements come from the workers
the write counted, and no store write starts after the main task while others still run. -/

set_option linter.all false

namespace Cocolog.Green

open Lib

variable {n : Nat}

/-- The worker waits for this very write to end. -/
def Worker.WaitsFor (x : Worker) (o : Op n) : Prop :=
  (∃ at_, x.place = .acked at_ o.seq) ∨ (x.place = .want ∧ x.applied = o.seq)

/-- Inside a foreign call it has not returned from. -/
def Worker.Inside (x : Worker) : Prop :=
  0 < x.foreign ∧ (x.place = .away ∨ ∃ seq, x.place = .acked .foreignBegin seq)

/-- What holds of a worker by itself, with `seq` the last write published. -/
structure Worker.Sound (x : Worker) (seq : Nat) : Prop where
  applied : x.applied ≤ seq
  acked : ∀ at_ seq, x.place = .acked at_ seq → x.applied = seq
  foreign : 0 < x.foreign → x.Inside
  away : x.place = .away → 0 < x.foreign

namespace Barrier

/-- The worker runs tasks or may still pick one. -/
def CanRun (s : Barrier n) (v : Fin n) : Prop :=
  (s.workers v).place ≠ .left ∧ ¬((s.workers v).place = .top ∧ s.stop = true)

instance (s : Barrier n) (v : Fin n) : Decidable (s.CanRun v) := inferInstanceAs (Decidable (_ ∧ ¬(_ ∧ _)))

/-- In a write section, and in a store write outside of one, a worker is alone. -/
structure Exclusive (s : Barrier n) : Prop where
  writes : ∀ w, (s.workers w).place = .write → ∀ v, v ≠ w →
    (∃ o, s.op = some o ∧ o.writer = w ∧ (s.workers v).WaitsFor o) ∨ (s.workers v).Inside
  bare : ∀ w, (s.workers w).place = .bare → ∀ v, v ≠ w → ¬s.CanRun v

/-- The write in flight counts on others than `w` and still waits for them. -/
def Uncounted (s : Barrier n) (w : Fin n) : Prop := s.op.any fun o => o.acks < o.need ∧ w ∉ o.counted

instance (s : Barrier n) (w : Fin n) : Decidable (s.Uncounted w) := inferInstanceAs (Decidable (_ = true))

/-- A worker away since before a write was published neither comes back nor goes deeper while
the write waits for its acks; a write refused at the first checks finds no other running. -/
def Careful (s : Barrier n) : Fin n × Act → Prop
  | (w, .foreignEnd) => (s.workers w).place = .away → (s.workers w).foreign = 1 → ¬s.Uncounted w
  | (w, .foreignBegin) => (s.workers w).place = .away → ¬s.Uncounted w
  | (w, .writeBegin) => (s.workers w).place = .task → (s.stop || s.mainDone) = true → ∀ v, v ≠ w → ¬s.CanRun v
  | _ => True

instance (s : Barrier n) : (e : Fin n × Act) → Decidable (s.Careful e)
  | (_, .foreignEnd) => inferInstanceAs (Decidable (_ → _ → ¬_))
  | (_, .foreignBegin) => inferInstanceAs (Decidable (_ → ¬_))
  | (_, .writeBegin) => inferInstanceAs (Decidable (_ → _ → ∀ _, _ → ¬_))
  | (_, .turn _) => .isTrue trivial
  | (_, .wake) => .isTrue trivial
  | (_, .returns _) => .isTrue trivial
  | (_, .deadlock) => .isTrue trivial
  | (_, .waitHere) => .isTrue trivial
  | (_, .answered) => .isTrue trivial
  | (_, .lock) => .isTrue trivial
  | (_, .gather) => .isTrue trivial
  | (_, .writeEnd) => .isTrue trivial
  | (_, .stop) => .isTrue trivial

/-- The workers that acknowledged the write. -/
def heard (s : Barrier n) (o : Op n) : Finset (Fin n) := o.counted.filter fun v => (s.workers v).applied = o.seq

/-- What holds of the write in flight and of every worker beside its writer. -/
structure Flying (s : Barrier n) (o : Op n) : Prop where
  seq : o.seq = s.opSeq
  need : o.need = o.counted.card
  writer : (s.workers o.writer).place = .gather ∨ (s.workers o.writer).place = .write
  others : o.writer ∉ o.counted
  waits : ∀ v, v ≠ o.writer → (s.workers v).applied = o.seq → (s.workers v).WaitsFor o
  /-- Whoever was not counted is still away, or acknowledged on its way back. -/
  uncounted : ∀ v, v ≠ o.writer → v ∉ o.counted → (s.workers v).Inside ∨ (s.workers v).applied = o.seq
  acks : o.acks ≤ (s.heard o).card ∨ s.heard o = o.counted
  entered : (s.workers o.writer).place = .write → s.heard o = o.counted

structure Inv (s : Barrier n) : Prop where
  flying : ∀ o, s.op = some o → s.Flying o
  writer : ∀ w, (s.workers w).place = .gather ∨ (s.workers w).place = .write → ∃ o, s.op = some o ∧ o.writer = w
  sound : ∀ w, (s.workers w).Sound s.opSeq
  bare : ∀ w, (s.workers w).place = .bare → ∀ v, v ≠ w → ¬s.CanRun v

theorem Inv.exclusive {s : Barrier n} (inv : s.Inv) : s.Exclusive := by
  refine ⟨fun w writes v other => ?_, inv.bare⟩
  obtain ⟨o, flying, rfl⟩ := inv.writer w (.inr writes)
  have f := inv.flying o flying
  by_cases counted : v ∈ o.counted
  · rw [← f.entered writes] at counted
    exact .inl ⟨o, flying, rfl, f.waits v other (Finset.mem_filter.mp counted).2⟩
  · rcases f.uncounted v other counted with inside | applied
    · exact .inr inside
    · exact .inl ⟨o, flying, rfl, f.waits v other applied⟩

theorem start_inv : (start n).Inv where
  flying := by simp [start]
  writer := by simp [start]
  sound := fun w => ⟨Nat.le_refl 0, by simp [start], by simp [start], by simp [start]⟩
  bare := by simp [start]

section Moves

variable {s : Barrier n} {w : Fin n} {x : Worker} {o : Op n}

@[simp] theorem set_self : (s.set w x).workers w = x := by
  simp [set]

theorem set_other {v : Fin n} (other : v ≠ w) : (s.set w x).workers v = s.workers v := by
  simp [set, other]

/-- A property of every worker is kept when the changed one has it. -/
theorem set_all {P : Fin n → Worker → Prop} (all : ∀ v, v ≠ w → P v (s.workers v)) (self : P w x) (v : Fin n) :
    P v ((s.set w x).workers v) := by
  by_cases same : v = w
  · subst same
    rwa [set_self]
  · rw [set_other same]
    exact all v same

/-- Whoever can run is not beside a bare write. -/
theorem Inv.not_bare (inv : s.Inv) (runs : s.CanRun w) {v : Fin n} (other : v ≠ w) :
    (s.workers v).place ≠ .bare :=
  fun bare => inv.bare v bare w other.symm runs

theorem Inv.bare_set (inv : s.Inv) (runs : s.CanRun w ∨ x.place = .left)
    (bare : x.place = .bare → ∀ v, v ≠ w → ¬s.CanRun v) (u : Fin n)
    (at_ : ((s.set w x).workers u).place = .bare) (v : Fin n) (other : v ≠ u) : ¬(s.set w x).CanRun v := by
  by_cases same : u = w
  · subst same
    rw [set_self] at at_
    unfold CanRun
    rw [set_other other]
    exact bare at_ v other
  · rw [set_other same] at at_
    rcases runs with runs | left
    · exact absurd at_ (inv.not_bare runs same)
    · refine set_all (P := fun v y => v ≠ u → ¬(y.place ≠ .left ∧ ¬(y.place = .top ∧ s.stop = true)))
        (fun v _ => inv.bare u at_ v) (fun _ can => can.1 left) v other

/-- A worker that does not stand at a safe point has not acknowledged the write in flight. -/
theorem Inv.unapplied (inv : s.Inv) (flying : s.op = some o) (other : w ≠ o.writer)
    (acked : ∀ at_ seq, (s.workers w).place ≠ .acked at_ seq) (want : (s.workers w).place ≠ .want) :
    (s.workers w).applied ≠ o.seq := by
  intro applied
  rcases (inv.flying o flying).waits w other applied with ⟨at_, at_seq⟩ | ⟨wants, _⟩
  · exact acked at_ _ at_seq
  · exact want wants

theorem heard_set (same : x.applied = (s.workers w).applied) : (s.set w x).heard o = s.heard o := by
  unfold heard
  refine Finset.filter_congr fun v _ => ?_
  by_cases v = w <;> simp_all [set_other]

/-- A worker that neither writes nor has acknowledged moves without touching the write in flight. -/
theorem Flying.set (f : s.Flying o) (other : w ≠ o.writer) (same : x.applied = (s.workers w).applied)
    (free : (s.workers w).applied ≠ o.seq) (kept : (s.workers w).Inside → x.Inside) : (s.set w x).Flying o where
  seq := f.seq
  need := f.need
  writer := by
    rw [set_other other.symm]
    exact f.writer
  others := f.others
  waits := set_all (P := fun v y => v ≠ o.writer → y.applied = o.seq → y.WaitsFor o) (fun v _ => f.waits v)
    fun _ applied => absurd (same ▸ applied) free
  uncounted := set_all (P := fun v y => v ≠ o.writer → v ∉ o.counted → y.Inside ∨ y.applied = o.seq)
    (fun v _ => f.uncounted v) fun out away => (f.uncounted w out away).imp kept fun applied => absurd applied free
  acks := by
    rw [heard_set same]
    exact f.acks
  entered := by
    rw [set_other other.symm, heard_set same]
    exact f.entered

theorem Inv.not_writer (inv : s.Inv) (flying : s.op = some o) (gather : (s.workers w).place ≠ .gather)
    (write : (s.workers w).place ≠ .write) : w ≠ o.writer := by
  rintro rfl
  exact (inv.flying o flying).writer.elim gather write

/-- A step that changes one worker only, none of its acknowledgements and not the write in flight. -/
theorem Inv.set (inv : s.Inv) (runs : s.CanRun w ∨ x.place = .left) (gather : (s.workers w).place ≠ .gather)
    (write : (s.workers w).place ≠ .write)
    (free : ∀ o, s.op = some o → (s.workers w).applied ≠ o.seq) (same : x.applied = (s.workers w).applied)
    (quiet : x.place ≠ .gather ∧ x.place ≠ .write) (sound : x.Sound s.opSeq)
    (kept : s.op ≠ none → (s.workers w).Inside → x.Inside)
    (bare : x.place = .bare → ∀ v, v ≠ w → ¬s.CanRun v) : (s.set w x).Inv where
  flying o flying := (inv.flying o flying).set (inv.not_writer flying gather write) same (free o flying)
    (kept (Option.ne_none_iff_exists'.mpr ⟨o, flying⟩))
  writer := set_all (P := fun v y => y.place = .gather ∨ y.place = .write → ∃ o, s.op = some o ∧ o.writer = v)
    (fun v _ => inv.writer v) fun busy => absurd busy (not_or.mpr quiet)
  sound := set_all (P := fun _ y => y.Sound s.opSeq) (fun v _ => inv.sound v) sound
  bare := inv.bare_set runs bare

theorem heard_ack (counted : w ∈ o.counted) (applied : x.applied = o.seq) :
    (s.set w x).heard o = insert w (s.heard o) := by
  ext v
  simp only [heard, Finset.mem_filter, Finset.mem_insert]
  by_cases same : v = w
  · simp [same, counted, applied]
  · simp [set_other same, same]

theorem heard_out (out : w ∉ o.counted) : (s.set w x).heard o = s.heard o := by
  refine Finset.filter_congr fun v here => ?_
  have other : v ≠ w := fun same => out (same ▸ here)
  rw [set_other other]

theorem pending_some (pend : s.pending w = some o) :
    s.op = some o ∧ o.writer ≠ w ∧ (s.workers w).applied ≠ o.seq := by
  simpa [pending, Option.filter_eq_some_iff] using pend

theorem pending_none (pend : s.pending w = none) (flying : s.op = some o) :
    o.writer = w ∨ (s.workers w).applied = o.seq := by
  simp only [pending, flying, Option.filter_eq_none_iff] at pend
  have settled := pend o rfl
  grind

/-- The count of acknowledgements stays below the workers heard from, or all are heard from. -/
theorem Flying.count (f : s.Flying o) (unheard : (s.workers w).applied ≠ o.seq)
    (counts : o.acks < o.need → w ∈ o.counted) (applied : x.applied = o.seq) :
    o.acks + 1 ≤ ((s.set w x).heard o).card ∨ (s.set w x).heard o = o.counted := by
  have new : w ∉ s.heard o := fun heard => unheard (Finset.mem_filter.mp heard).2
  by_cases counted : w ∈ o.counted
  · rw [heard_ack counted applied, Finset.card_insert_of_notMem new]
    rcases f.acks with few | all
    · exact .inl (Nat.succ_le_succ few)
    · exact absurd (all ▸ counted) new
  · -- the count is met already, so every counted worker was heard from before
    have met : o.need ≤ o.acks := Nat.le_of_not_lt fun few => counted (counts few)
    rw [heard_out counted]
    rcases f.acks with few | all
    · exact .inr (Finset.eq_of_subset_of_card_le (Finset.filter_subset _ _) (f.need ▸ met.trans few))
    · exact .inr all

theorem Flying.ack (f : s.Flying o) (other : o.writer ≠ w) (unheard : (s.workers w).applied ≠ o.seq)
    (counts : o.acks < o.need → w ∈ o.counted) {place : Place}
    (waits : place = .want ∨ ∃ at_, place = .acked at_ o.seq) :
    (s.ack w x o place).Flying { o with acks := o.acks + 1 } where
  seq := f.seq
  need := f.need
  writer := by
    show ((s.set w _).workers o.writer).place = _ ∨ ((s.set w _).workers o.writer).place = _
    rw [set_other other]
    exact f.writer
  others := f.others
  waits := set_all (P := fun v y => v ≠ o.writer → y.applied = o.seq → y.WaitsFor o) (fun v _ => f.waits v)
    fun _ _ => waits.symm.imp id fun want => ⟨want, rfl⟩
  uncounted := set_all (P := fun v y => v ≠ o.writer → v ∉ o.counted → y.Inside ∨ y.applied = o.seq)
    (fun v _ => f.uncounted v) fun _ _ => .inr rfl
  acks := @Flying.count _ s w { x with applied := o.seq, place } o f unheard counts rfl
  entered := by
    show ((s.set w _).workers o.writer).place = _ → (s.set w _).heard o = _
    rw [set_other other]
    intro writes
    have all := f.entered writes
    have out : w ∉ o.counted := fun counted => unheard (Finset.mem_filter.mp (all.symm ▸ counted : w ∈ s.heard o)).2
    rw [heard_out out]
    exact all

/-- A worker that acknowledges the write in flight and waits for it. -/
theorem Inv.ack (inv : s.Inv) (runs : s.CanRun w) (pend : s.pending w = some o)
    (counts : o.acks < o.need → w ∈ o.counted) {place : Place}
    (waits : place = .want ∨ ∃ at_, place = .acked at_ o.seq)
    (foreign : 0 < x.foreign → place = .acked .foreignBegin o.seq) : (s.ack w x o place).Inv where
  flying o' flying := by
    obtain ⟨now, other, unheard⟩ := pending_some pend
    cases Option.some.inj flying
    exact (inv.flying o now).ack other unheard counts waits
  writer := by
    obtain ⟨now, other, _⟩ := pending_some pend
    refine set_all (P := fun v y => y.place = .gather ∨ y.place = .write → 
      ∃ o' : Op n, some { o with acks := o.acks + 1 } = some o' ∧ o'.writer = v)
      (fun v _ busy => ?_) fun busy => ?_
    · obtain ⟨o', flying, rfl⟩ := inv.writer v busy
      cases Option.some.inj (now.symm.trans flying)
      exact ⟨_, rfl, rfl⟩
    · rcases waits with rfl | ⟨at_, rfl⟩ <;> simp at busy
  sound := by
    obtain ⟨now, _, _⟩ := pending_some pend
    refine set_all (P := fun _ y => y.Sound s.opSeq) (fun v _ => inv.sound v)
      ⟨(inv.flying o now).seq.le, fun at_ seq at_seq => ?_, fun some_ => ⟨some_, .inr ⟨_, foreign some_⟩⟩, fun away => ?_⟩
    · rcases waits with rfl | ⟨_, rfl⟩
      · cases at_seq
      · cases at_seq
        rfl
    · rcases waits with rfl | ⟨_, rfl⟩ <;> cases away
  bare := by
    refine inv.bare_set (.inl runs) fun bare => ?_
    rcases waits with rfl | ⟨_, rfl⟩ <;> cases bare

theorem canRun_of (left : (s.workers w).place ≠ .left) (top : (s.workers w).place ≠ .top) : s.CanRun w :=
  ⟨left, fun both => top both.1⟩

theorem Inv.foreign_eq (inv : s.Inv) (away : (s.workers w).place ≠ .away)
    (acked : ∀ at_ seq, (s.workers w).place ≠ .acked at_ seq) : (s.workers w).foreign = 0 := by
  by_contra some_
  rcases ((inv.sound w).foreign (Nat.pos_of_ne_zero some_)).2 with here | ⟨seq, here⟩
  · exact away here
  · exact acked _ seq here

theorem Inv.publish (inv : s.Inv) (want : (s.workers w).place = .want) (none_ : s.op = none) :
    (s.publish w).Inv := by
  have runs : s.CanRun w := canRun_of (by simp [want]) (by simp [want])
  have idle : (s.workers w).foreign = 0 := inv.foreign_eq (by simp [want]) (by simp [want])
  have fresh : ∀ v, (s.workers v).applied ≠ s.opSeq + 1 := fun v =>
    Nat.ne_of_lt (Nat.lt_succ_of_le (inv.sound v).applied)
  refine ⟨?_, ?_, ?_, inv.bare_set (.inl runs) (by simp)⟩
  · intro o flying
    cases Option.some.inj flying
    refine ⟨rfl, rfl, .inl (by simp [Barrier.publish, Barrier.moved]), by simp [asked], ?_, ?_, .inl (Nat.zero_le _), ?_⟩
    · exact set_all (P := fun v y => v ≠ w → y.applied = s.opSeq + 1 → y.WaitsFor _)
        (fun v _ _ applied => absurd applied (fresh v)) fun out => absurd rfl out
    · refine set_all (P := fun v y => v ≠ w → v ∉ s.asked w → y.Inside ∨ y.applied = s.opSeq + 1)
        (fun v other _ uncounted => .inl ((inv.sound v).foreign (Nat.pos_of_ne_zero fun idle => ?_)))
        fun out => absurd rfl out
      exact uncounted (Finset.mem_filter.mpr ⟨Finset.mem_univ v, other, idle⟩)
    · simp [Barrier.publish, Barrier.moved]
  · refine set_all (P := fun v y => y.place = .gather ∨ y.place = .write → ∃ o : Op n, some _ = some o ∧ o.writer = v)
      (fun v _ busy => ?_) fun _ => ⟨_, rfl, rfl⟩
    obtain ⟨o, flying, _⟩ := inv.writer v busy
    exact absurd (none_.symm.trans flying) nofun
  · refine set_all (P := fun _ y => y.Sound (s.opSeq + 1)) (fun v _ => ?_) ?_
    · exact { inv.sound v with applied := Nat.le_succ_of_le (inv.sound v).applied }
    · exact ⟨Nat.le_succ_of_le (inv.sound w).applied, nofun, fun some_ => absurd idle (Nat.ne_of_gt some_), nofun⟩

/-- The acks are in: every counted worker has been heard from. -/
theorem Inv.enter (inv : s.Inv) (gather : (s.workers w).place = .gather) (flying : s.op = some o)
    (met : o.need ≤ o.acks) : (s.moved w .write).Inv := by
  have runs : s.CanRun w := canRun_of (by simp [gather]) (by simp [gather])
  obtain ⟨o', flying', mine⟩ := inv.writer w (.inl gather)
  cases Option.some.inj (flying.symm.trans flying')
  subst mine
  have f := inv.flying o flying
  have all : s.heard o = o.counted := by
    rcases f.acks with few | all
    · exact Finset.eq_of_subset_of_card_le (Finset.filter_subset _ _) (f.need ▸ met.trans few)
    · exact all
  refine ⟨?_, ?_, ?_, inv.bare_set (.inl runs) (by simp)⟩
  · intro o' flying'
    cases Option.some.inj (flying.symm.trans flying')
    refine ⟨f.seq, f.need, .inr (by simp [moved]), f.others, ?_, ?_, ?_, fun _ => ?_⟩
    · exact set_all (P := fun v y => v ≠ o.writer → y.applied = o.seq → y.WaitsFor o) (fun v _ => f.waits v)
        fun out => absurd rfl out
    · exact set_all (P := fun v y => v ≠ o.writer → v ∉ o.counted → y.Inside ∨ y.applied = o.seq)
        (fun v _ => f.uncounted v) fun out => absurd rfl out
    · rw [moved, heard_out f.others]
      exact f.acks
    · rw [moved, heard_out f.others]
      exact all
  · exact set_all (P := fun v y => y.place = .gather ∨ y.place = .write → ∃ o, s.op = some o ∧ o.writer = v)
      (fun v _ => inv.writer v) fun _ => ⟨o, flying, rfl⟩
  · have idle : (s.workers o.writer).foreign = 0 := inv.foreign_eq (by simp [gather]) (by simp [gather])
    exact set_all (P := fun _ y => y.Sound s.opSeq) (fun v _ => inv.sound v)
      ⟨(inv.sound _).applied, nofun, fun some_ => absurd idle (Nat.ne_of_gt some_), nofun⟩

theorem Inv.writeEnd (inv : s.Inv) (write : (s.workers w).place = .write) :
    ({ s.moved w .task with op := none } : Barrier n).Inv := by
  have runs : s.CanRun w := canRun_of (by simp [write]) (by simp [write])
  obtain ⟨o, flying, rfl⟩ := inv.writer w (.inr write)
  refine ⟨nofun, ?_, ?_, inv.bare_set (.inl runs) (by simp)⟩
  · refine set_all (P := fun v y => y.place = .gather ∨ y.place = .write → ∃ o : Op n, none = some o ∧ o.writer = v)
      (fun v other busy => ?_) (by simp)
    obtain ⟨o', flying', rfl⟩ := inv.writer v busy
    cases Option.some.inj (flying.symm.trans flying')
    exact absurd rfl other
  · have idle : (s.workers o.writer).foreign = 0 := inv.foreign_eq (by simp [write]) (by simp [write])
    exact set_all (P := fun _ y => y.Sound s.opSeq) (fun v _ => inv.sound v)
      ⟨(inv.sound _).applied, nofun, fun some_ => absurd idle (Nat.ne_of_gt some_), nofun⟩

/-- A worker in its loop, in a task or in a nested wait goes to another such place. -/
theorem Inv.moved (inv : s.Inv) {p q : Place} (runs : s.CanRun w ∨ q = .left) (at_ : (s.workers w).place = p)
    (loose : p = .top ∨ p = .task ∨ p = .nest ∨ p = .bare)
    (onward : q = .top ∨ q = .task ∨ q = .nest ∨ q = .bare ∨ q = .want ∨ q = .left) (depth : Nat)
    (bare : q = .bare → ∀ v, v ≠ w → ¬s.CanRun v) : (s.set w { s.workers w with place := q, depth }).Inv := by
  have idle : (s.workers w).foreign = 0 := by
    refine inv.foreign_eq ?_ ?_ <;> rcases loose with rfl | rfl | rfl | rfl <;> simp [at_]
  have busy : (s.workers w).place ≠ .gather ∧ (s.workers w).place ≠ .write := by
    rcases loose with rfl | rfl | rfl | rfl <;> simp [at_]
  refine inv.set runs busy.1 busy.2 (fun o flying => ?_) rfl ?_ ⟨(inv.sound w).applied, ?_, ?_, ?_⟩ ?_ bare
  · refine inv.unapplied flying (inv.not_writer flying busy.1 busy.2) ?_ ?_ <;>
      rcases loose with rfl | rfl | rfl | rfl <;> simp [at_]
  · rcases onward with rfl | rfl | rfl | rfl | rfl | rfl <;> simp
  · rcases onward with rfl | rfl | rfl | rfl | rfl | rfl <;> simp
  · exact fun some_ => absurd idle (Nat.ne_of_gt some_)
  · rcases onward with rfl | rfl | rfl | rfl | rfl | rfl <;> simp
  · exact fun _ inside => absurd idle (Nat.ne_of_gt inside.1)

theorem Inv.mainDone (inv : s.Inv) (done : Bool) : ({ s with mainDone := done } : Barrier n).Inv where
  flying o flying := { inv.flying o flying with }
  writer := inv.writer
  sound := inv.sound
  bare := inv.bare

theorem Inv.stop (inv : s.Inv) : ({ s with stop := true } : Barrier n).Inv where
  flying o flying := { inv.flying o flying with }
  writer := inv.writer
  sound := inv.sound
  bare w bare v other := fun runs => inv.bare w bare v other ⟨runs.1, fun both => runs.2 ⟨both.1, rfl⟩⟩

/-- A worker that is not away and has not acknowledged the write in flight is counted in it. -/
theorem Inv.counted (inv : s.Inv) (pend : s.pending w = some o) (idle : (s.workers w).foreign = 0) :
    w ∈ o.counted := by
  obtain ⟨flying, other, unheard⟩ := pending_some pend
  by_contra out
  rcases (inv.flying o flying).uncounted w other.symm out with inside | heard
  · exact absurd idle (Nat.ne_of_gt inside.1)
  · exact unheard heard

/-- The acknowledgement of a worker that is not in a foreign call. -/
theorem Inv.ackHere (inv : s.Inv) (runs : s.CanRun w) (pend : s.pending w = some o)
    (idle : (s.workers w).foreign = 0) {place : Place} (waits : place = .want ∨ ∃ at_, place = .acked at_ o.seq) :
    (s.ack w (s.workers w) o place).Inv :=
  inv.ack runs pend (fun _ => inv.counted pend idle) waits fun some_ => absurd idle (Nat.ne_of_gt some_)

theorem Inv.loopTurn (inv : s.Inv) (top : (s.workers w).place = .top) (picks : Bool) : (s.loopTurn w picks).Inv := by
  unfold Barrier.loopTurn
  split
  · exact inv.moved (.inr rfl) top (.inl rfl) (by simp) _ nofun
  · rename_i going
    have runs : s.CanRun w := ⟨by simp [top], fun both => going both.2⟩
    split
    · rename_i o pend
      exact inv.ackHere runs pend (inv.foreign_eq (by simp [top]) (by simp [top])) (.inr ⟨_, rfl⟩)
    · split
      · exact inv.moved (.inl runs) top (.inl rfl) (by simp) _ nofun
      · split
        · exact inv.moved (.inl runs) top (.inl rfl) (by simp) _ nofun
        · exact inv

theorem Inv.nestTurn (inv : s.Inv) (nest : (s.workers w).place = .nest) (picks : Bool) :
    (s.nestTurn w picks).Inv := by
  have runs : s.CanRun w := canRun_of (by simp [nest]) (by simp [nest])
  unfold Barrier.nestTurn
  split
  · rename_i o pend
    exact inv.ackHere runs pend (inv.foreign_eq (by simp [nest]) (by simp [nest])) (.inr ⟨_, rfl⟩)
  · split
    · exact inv.moved (.inl runs) nest (by simp) (by simp) _ nofun
    · exact inv

theorem Inv.lock (inv : s.Inv) (want : (s.workers w).place = .want) : (s.lock w).Inv := by
  unfold Barrier.lock
  split
  · rename_i none_
    exact inv.publish want none_
  · split
    · rename_i o pend
      exact inv.ackHere (canRun_of (by simp [want]) (by simp [want])) pend
        (inv.foreign_eq (by simp [want]) (by simp [want])) (.inl rfl)
    · exact inv

/-- The write a waiter acknowledged is no longer in flight, so it has not acknowledged the one that is. -/
theorem Inv.wake (inv : s.Inv) {at_ : Safe} {seq : Nat} (acked : (s.workers w).place = .acked at_ seq) :
    (s.wake w at_ seq).Inv := by
  unfold Barrier.wake
  split
  · exact inv
  · rename_i gone
    have runs : s.CanRun w := canRun_of (by simp [acked]) (by simp [acked])
    have free : ∀ o, s.op = some o → (s.workers w).applied ≠ o.seq := by
      intro o flying applied
      rw [(inv.sound w).acked at_ seq acked] at applied
      simp [flying, applied] at gone
    have here : ∀ place, (place = .top ∨ place = .nest ∨ place = .task) → at_ ≠ .foreignBegin →
        (s.moved w place).Inv := by
      intro place places back
      have idle : (s.workers w).foreign = 0 := by
        by_contra some_
        rcases ((inv.sound w).foreign (Nat.pos_of_ne_zero some_)).2 with away | ⟨_, begins⟩
        · simp [acked] at away
        · exact back (by simp_all)
      refine inv.set (.inl runs) (by simp [acked]) (by simp [acked]) free rfl ?_
        ⟨(inv.sound w).applied, ?_, fun some_ => absurd idle (Nat.ne_of_gt some_), ?_⟩
        (fun _ inside => absurd idle (Nat.ne_of_gt inside.1)) ?_ <;>
        rcases places with rfl | rfl | rfl <;> simp
    cases at_ with
    | top => exact here _ (by simp) nofun
    | nest => exact here _ (by simp) nofun
    | foreignEnd => exact here _ (by simp) nofun
    | foreignBegin =>
      exact inv.set (.inl runs) (by simp [acked]) (by simp [acked]) free rfl (by simp)
        ⟨(inv.sound w).applied, nofun, fun some_ => ⟨some_, .inl rfl⟩, fun _ => Nat.succ_pos _⟩
        (fun _ _ => ⟨Nat.succ_pos _, .inl rfl⟩) nofun

theorem Inv.foreignBegin (inv : s.Inv) (from_ : (s.workers w).place = .task ∨ (s.workers w).place = .away)
    (careful : (s.workers w).place = .away → ¬s.Uncounted w) : (s.foreignBegin w).Inv := by
  have runs : s.CanRun w := by rcases from_ with at_ | at_ <;> exact canRun_of (by simp [at_]) (by simp [at_])
  have busy : (s.workers w).place ≠ .gather ∧ (s.workers w).place ≠ .write := by
    rcases from_ with at_ | at_ <;> simp [at_]
  unfold Barrier.foreignBegin ackWait
  simp only
  split
  · rename_i o pend
    refine inv.ack runs pend (fun few => ?_) (.inr ⟨_, rfl⟩) fun _ => rfl
    rcases from_ with at_ | at_
    · exact inv.counted pend (inv.foreign_eq (by simp [at_]) (by simp [at_]))
    · have careful := careful at_
      simp only [Uncounted, (pending_some pend).1, Option.any_some, decide_eq_true_eq, not_and, not_not] at careful
      exact careful few
  · refine inv.set (.inl runs) busy.1 busy.2 (fun o flying => ?_) rfl (by simp)
      ⟨(inv.sound w).applied, nofun, fun some_ => ⟨some_, .inl rfl⟩, fun _ => Nat.succ_pos _⟩
      (fun _ _ => ⟨Nat.succ_pos _, .inl rfl⟩) nofun
    refine inv.unapplied flying (inv.not_writer flying busy.1 busy.2) ?_ ?_ <;>
      rcases from_ with at_ | at_ <;> simp [at_]

theorem Inv.foreignEnd (inv : s.Inv) (away : (s.workers w).place = .away)
    (careful : (s.workers w).foreign = 1 → ¬s.Uncounted w) : (s.foreignEnd w).Inv := by
  have runs : s.CanRun w := canRun_of (by simp [away]) (by simp [away])
  have inside := (inv.sound w).away away
  have free : ∀ o, s.op = some o → (s.workers w).applied ≠ o.seq := fun o flying =>
    inv.unapplied flying (inv.not_writer flying (by simp [away]) (by simp [away])) (by simp [away]) (by simp [away])
  unfold Barrier.foreignEnd ackWait
  simp only
  split
  · rename_i last
    split
    · rename_i o pend
      refine inv.ack runs pend (fun few => ?_) (.inr ⟨_, rfl⟩) fun some_ => absurd last (Nat.ne_of_gt some_)
      have careful := careful (by omega)
      simp only [Uncounted, (pending_some pend).1, Option.any_some, decide_eq_true_eq, not_and, not_not] at careful
      exact careful few
    · rename_i pend
      -- nothing to acknowledge, so no write is in flight
      refine inv.set (.inl runs) (by simp [away]) (by simp [away]) free rfl (by simp)
        ⟨(inv.sound w).applied, nofun, fun some_ => absurd last (Nat.ne_of_gt some_), nofun⟩ (fun flies => ?_) nofun
      obtain ⟨o, flying⟩ := Option.ne_none_iff_exists'.mp flies
      rcases pending_none pend flying with mine | heard
      · exact absurd mine.symm (inv.not_writer flying (by simp [away]) (by simp [away]))
      · exact absurd heard (free o flying)
  · rename_i more
    exact inv.set (.inl runs) (by simp [away]) (by simp [away]) free rfl (by simp [away])
      ⟨(inv.sound w).applied, by simp [away], fun some_ => ⟨some_, .inl away⟩, fun _ => Nat.pos_of_ne_zero more⟩
      (fun _ _ => ⟨Nat.pos_of_ne_zero more, .inl away⟩) (by simp [away])

end Moves

theorem Inv.act {s : Barrier n} (inv : s.Inv) (w : Fin n) (a : Act) (careful : s.Careful (w, a)) : (s.act w a).Inv := by
  unfold Barrier.act
  split
  · rename_i picks top
    exact inv.loopTurn top picks
  · split
    · exact inv.mainDone true
    · exact inv
  · rename_i picks nest
    exact inv.nestTurn nest picks
  · rename_i nest
    exact inv.moved (.inl (canRun_of (by simp [nest]) (by simp [nest]))) nest (by simp) (by simp) _ nofun
  · rename_i at_ seq acked
    exact inv.wake acked
  · rename_i ends task
    have runs : s.CanRun w := canRun_of (by simp [task]) (by simp [task])
    refine Inv.mainDone (s := s.moved w _) ?_ _
    split
    · exact inv.moved (.inl runs) task (by simp) (by simp) _ nofun
    · exact inv.moved (.inl runs) task (by simp) (by simp) _ nofun
  · rename_i task
    exact inv.moved (.inl (canRun_of (by simp [task]) (by simp [task]))) task (by simp) (by simp) _ nofun
  · rename_i task
    have runs : s.CanRun w := canRun_of (by simp [task]) (by simp [task])
    split
    · rename_i refused
      exact inv.moved (.inl runs) task (by simp) (by simp) _ fun _ => careful task refused
    · exact inv.moved (.inl runs) task (by simp) (by simp) _ nofun
  · rename_i want
    exact inv.lock want
  · rename_i gather
    split
    · rename_i met
      obtain ⟨o, flying, _⟩ := inv.writer w (.inl gather)
      rw [flying] at met
      exact inv.enter gather flying (of_decide_eq_true met)
    · exact inv
  · rename_i write
    exact inv.writeEnd write
  · rename_i bare
    exact inv.moved (.inl (canRun_of (by simp [bare]) (by simp [bare]))) bare (by simp) (by simp) _ nofun
  · rename_i task
    exact inv.foreignBegin (.inl task) (by simp [task])
  · rename_i away
    exact inv.foreignBegin (.inr away) careful
  · rename_i away
    exact inv.foreignEnd away (careful away)
  · split
    · exact inv.stop
    · exact inv
  · exact inv

/-- In every run that keeps the two cautions a worker in a store write is alone. -/
theorem write_exclusive (n : Nat) (events : List (Fin n × Act)) (careful : Along step Careful (start n) events) :
    (run step (start n) events).Exclusive :=
  (run_along (fun _ e careful inv => inv.act e.1 e.2 careful) (start n) events careful start_inv).exclusive

/-- Worker 1 comes back from a call the write did not wait for, and its acknowledgement
stands for worker 2, which runs a task all the while. -/
def strayAck : List (Fin 3 × Act) :=
  [(0, .turn true), (1, .turn true), (2, .turn true), (1, .foreignBegin), (0, .writeBegin), (0, .lock),
    (1, .foreignEnd), (0, .gather)]

/-- The main task ends on worker 0 while worker 1 is in a task, which then writes to the store. -/
def lateWrite : List (Fin 2 × Act) :=
  [(0, .turn true), (1, .turn true), (0, .returns true), (0, .turn true), (1, .writeBegin)]

theorem write_not_exclusive :
    ¬(run step (start 3) strayAck).Exclusive ∧ ¬(run step (start 2) lateWrite).Exclusive := by
  constructor
  · intro exclusive
    have alone := exclusive.writes 0 (by decide) 2 (by decide)
    have place : ((run step (start 3) strayAck).workers 2).place = .task := by decide
    rcases alone with ⟨o, _, _, ⟨_, waits⟩ | ⟨waits, _⟩⟩ | ⟨_, away | ⟨_, away⟩⟩ <;> simp_all
  · intro exclusive
    exact exclusive.bare 1 (by decide) 0 (by decide) (by decide)

/-- The same three workers, with worker 2 at its safe point before worker 1 is back. -/
theorem write_exclusive_heard :
    (((run step (start 3) [(0, .turn true), (1, .turn true), (2, .turn true), (1, .foreignBegin), (0, .writeBegin),
      (0, .lock), (2, .returns false), (2, .turn true), (1, .foreignEnd), (0, .gather)]).workers 0).place = .write) ∧
    (run step (start 3) [(0, .turn true), (1, .turn true), (2, .turn true), (1, .foreignBegin), (0, .writeBegin),
      (0, .lock), (2, .returns false), (2, .turn true), (1, .foreignEnd), (0, .gather)]).Exclusive :=
  ⟨by decide, write_exclusive 3 _ (by decide)⟩

end Barrier
end Cocolog.Green
