import Cocolog.Green.World

/-! The fixed arrays of a channel. Each access of a channel operation is its index, as the
code computes it in an int, and the size of the array; nothing checks the two where the
lists of waiters grow or where a place in the ring is summed. -/

set_option linter.all false

namespace Cocolog.Green

open Lib

variable {M : Type*}

/-- No index when the sum behind it is past the ints. -/
structure Access where
  index : Option Nat
  size : Nat
  deriving DecidableEq, Repr

def Access.Inside (a : Access) : Prop := ∃ i, a.index = some i ∧ i < a.size

instance (a : Access) : Decidable a.Inside :=
  decidable_of_iff (∃ i ∈ a.index, i < a.size) Iff.rfl

def intSum (a b : Nat) : Option Nat := if a + b < 2 ^ 31 then some (a + b) else none

namespace Chan

variable (ch : Chan M) (allocated : Bool)

/-- The slots behind `buf`: none when `calloc` did not answer. -/
def slots : Nat := if allocated then ch.cap else 0

/-- The slot of the next message. -/
def put : Access := ⟨(intSum ch.buf.head ch.buf.count).map (· % ch.cap), ch.slots allocated⟩

/-- The slot of the oldest message, and the one after it. -/
def take : List Access :=
  [⟨some ch.buf.head, ch.slots allocated⟩, ⟨(intSum ch.buf.head 1).map (· % ch.cap), ch.slots allocated⟩]

def popped : Chan M := { ch with buf := ch.buf.pop ch.cap }

end Chan

/-- A waiter more at the end of a list of `n`. -/
def appends (n : Nat) : List Access := [⟨some n, 64⟩]

/-- The first of `n` waiters is read and removed, the others moving down. -/
def removes (n : Nat) : List Access :=
  ⟨some 0, 64⟩ :: (List.range (n - 1)).flatMap fun i => [⟨some (i + 1), 64⟩, ⟨some i, 64⟩]

def visits (n : Nat) : List Access := (List.range n).map fun i => ⟨some i, 64⟩

namespace World

def moveAccesses (ch : Chan M) (allocated : Bool) : List Access :=
  if ch.senders ≠ [] ∧ 0 < ch.cap ∧ ch.buf.count < ch.cap then ch.put allocated :: removes ch.senders.length else []

def sendAccesses (ch : Chan M) (allocated : Bool) : List Access :=
  if ch.closed then []
  else if ch.receivers ≠ [] then removes ch.receivers.length
  else if 0 < ch.cap ∧ ch.buf.count < ch.cap then [ch.put allocated]
  else appends ch.senders.length

def recvAccesses (ch : Chan M) (allocated : Bool) : List Access :=
  if 0 < ch.buf.count then ch.take allocated ++ moveAccesses ch.popped allocated
  else if ch.senders ≠ [] then removes ch.senders.length
  else if ch.closed then []
  else appends ch.receivers.length

def closeAccesses (ch : Chan M) : List Access := visits ch.senders.length ++ visits ch.receivers.length

/-- The worker's engine is in task code, and its next step is a builtin or a stop. -/
def atWork (s : World M) (w : Nat) : Bool :=
  match (s.stackOf w).top with
  | some (_, .running) => !s.overrun && w < s.nworkers
  | _ => false

def builtinAccesses (s : World M) (allocated : Nat → Bool) : Do M → List Access
  | .send c _ _ _ => if s.nchans ≤ c then [] else sendAccesses (s.chans c) (allocated c)
  | .recv c _ _ => if s.nchans ≤ c then [] else recvAccesses (s.chans c) (allocated c)
  | .close c => if s.nchans ≤ c then [] else closeAccesses (s.chans c)
  | _ => []

/-- The arrays of channels that a step reads and writes; `allocated` says which channels have
their buffer. -/
def accesses (s : World M) (allocated : Nat → Bool) (e : Nat × Do M) : List Access :=
  if s.atWork e.1 then s.builtinAccesses allocated e.2 else []

def Inside (s : World M) (allocated : Nat → Bool) (e : Nat × Do M) : Prop :=
  ∀ a ∈ s.accesses allocated e, a.Inside

instance (s : World M) (allocated : Nat → Bool) (e : Nat × Do M) : Decidable (s.Inside allocated e) :=
  inferInstanceAs (Decidable (∀ a ∈ s.accesses allocated e, a.Inside))

/-- A send finds a buffer whose next place is an int, or a place on the senders' list. -/
def SendFits (ch : Chan M) (allocated : Bool) : Prop :=
  ch.closed = false → ch.receivers = [] →
    if 0 < ch.cap ∧ ch.buf.count < ch.cap then allocated = true ∧ ch.buf.head + ch.buf.count < 2 ^ 31
    else ch.senders.length < 64

/-- A receive leaves a waiting sender a place that is an int, or finds a place on its own list. -/
def RecvFits (ch : Chan M) : Prop :=
  if 0 < ch.buf.count then ch.senders ≠ [] → (ch.buf.head + 1) % ch.cap + (ch.buf.count - 1) < 2 ^ 31
  else ch.senders = [] → ch.closed = false → ch.receivers.length < 64

def BuiltinFits (s : World M) (allocated : Nat → Bool) : Do M → Prop
  | .send c _ _ _ => c < s.nchans → SendFits (s.chans c) (allocated c)
  | .recv c _ _ => c < s.nchans → RecvFits (s.chans c)
  | _ => True

def Fits (s : World M) (allocated : Nat → Bool) (e : Nat × Do M) : Prop :=
  s.atWork e.1 = true → s.BuiltinFits allocated e.2

end World

/-- The builtin's 64 bit integer becomes the int that `coco_g_chan_new` takes. -/
def Do.asInt : Do M → Do M
  | .channel size => .channel (size.bmod (2 ^ 32))
  | d => d

section Accesses

variable {ch : Chan M} {allocated : Bool}

theorem inside_index {i n : Nat} : Access.Inside ⟨some i, n⟩ ↔ i < n :=
  ⟨fun ⟨_, same, less⟩ => Option.some.inj same ▸ less, fun less => ⟨i, rfl, less⟩⟩

theorem appends_inside {n : Nat} : (∀ a ∈ appends n, a.Inside) ↔ n < 64 := by
  simp only [appends, List.forall_mem_singleton, inside_index]

theorem removes_inside {n : Nat} (within : n ≤ 64) : ∀ a ∈ removes n, a.Inside := by
  intro a mem
  rcases List.mem_cons.mp mem with rfl | mem
  · exact inside_index.mpr (by omega)
  · obtain ⟨i, inside, mem⟩ := List.mem_flatMap.mp mem
    have less := List.mem_range.mp inside
    simp only [List.mem_cons, List.not_mem_nil, or_false] at mem
    rcases mem with rfl | rfl
    · exact inside_index.mpr (by omega)
    · exact inside_index.mpr (by omega)

theorem visits_inside {n : Nat} (within : n ≤ 64) : ∀ a ∈ visits n, a.Inside := by
  intro a mem
  obtain ⟨i, inside, rfl⟩ := List.mem_map.mp mem
  exact inside_index.mpr (Nat.lt_of_lt_of_le (List.mem_range.mp inside) within)

theorem put_inside (some_ : 0 < ch.cap) :
    (ch.put allocated).Inside ↔ allocated = true ∧ ch.buf.head + ch.buf.count < 2 ^ 31 := by
  unfold Chan.put Chan.slots intSum Access.Inside
  constructor
  · rintro ⟨i, index, less⟩
    cases allocated with
    | false => exact absurd less (Nat.not_lt_zero _)
    | true =>
      refine ⟨rfl, ?_⟩
      by_contra past
      rw [if_neg past] at index
      cases index
  · rintro ⟨rfl, less⟩
    rw [if_pos less]
    exact ⟨_, rfl, Nat.mod_lt _ some_⟩

/-- What every access of a run that has been inside so far leaves of a channel. -/
structure Chan.Sized (ch : Chan M) (allocated : Bool) : Prop where
  cap : ch.cap < 2 ^ 31
  head : 0 < ch.cap → ch.buf.head < ch.cap
  count : ch.buf.count ≤ ch.cap
  stored : 0 < ch.buf.count → allocated = true
  senders : ch.senders.length ≤ 64
  receivers : ch.receivers.length ≤ 64

theorem send_inside_iff (sized : ch.Sized allocated) :
    (∀ a ∈ World.sendAccesses ch allocated, a.Inside) ↔ World.SendFits ch allocated := by
  unfold World.sendAccesses World.SendFits
  cases closed : ch.closed with
  | true => simp
  | false =>
    by_cases list : ch.receivers = []
    · simp only [list, ne_eq, not_true_eq_false, if_false, Bool.false_eq_true, forall_const]
      split
      · rename_i room
        rw [List.forall_mem_singleton, put_inside room.1]
      · exact appends_inside
    · simp only [ne_eq, list, not_false_eq_true, if_true, Bool.false_eq_true, if_false, false_implies, implies_true,
        iff_true]
      exact removes_inside sized.receivers

theorem recv_inside_iff (sized : ch.Sized allocated) :
    (∀ a ∈ World.recvAccesses ch allocated, a.Inside) ↔ World.RecvFits ch := by
  unfold World.recvAccesses World.RecvFits
  by_cases some_ : 0 < ch.buf.count
  · have cap : 0 < ch.cap := Nat.lt_of_lt_of_le some_ sized.count
    have stored := sized.stored some_
    have slots : ch.slots allocated = ch.cap := if_pos stored
    have take : ∀ a ∈ ch.take allocated, a.Inside := by
      have next : intSum ch.buf.head 1 = some (ch.buf.head + 1) :=
        if_pos (Nat.lt_of_le_of_lt (Nat.succ_le_of_lt (sized.head cap)) sized.cap)
      simp only [Chan.take, slots, next, List.mem_cons, List.not_mem_nil, or_false, forall_eq_or_imp, forall_eq,
        Option.map_some, inside_index]
      exact ⟨sized.head cap, Nat.mod_lt _ cap⟩
    rw [if_pos some_, if_pos some_, List.forall_mem_append]
    have room : 0 < ch.popped.cap ∧ ch.popped.buf.count < ch.popped.cap :=
      ⟨cap, Nat.lt_of_lt_of_le (Nat.sub_lt some_ Nat.one_pos) sized.count⟩
    unfold World.moveAccesses
    by_cases list : ch.senders = []
    · have none_ : ¬(ch.popped.senders ≠ [] ∧ 0 < ch.popped.cap ∧ ch.popped.buf.count < ch.popped.cap) := fun both =>
        both.1 list
      rw [if_neg none_]
      exact ⟨fun _ other => absurd list other, fun _ => ⟨take, nofun⟩⟩
    · rw [if_pos ⟨list, room⟩, List.forall_mem_cons, put_inside room.1]
      exact ⟨fun both _ => both.2.1.2, fun fits => ⟨take, ⟨stored, fits list⟩, removes_inside sized.senders⟩⟩
  · rw [if_neg some_, if_neg some_]
    by_cases list : ch.senders = []
    · simp only [list, ne_eq, not_true_eq_false, if_false, forall_const]
      cases closed : ch.closed with
      | true => simp
      | false =>
        simp only [Bool.false_eq_true, if_false, forall_const]
        exact appends_inside
    · simp only [ne_eq, list, not_false_eq_true, if_true, false_implies, iff_true]
      exact removes_inside sized.senders

end Accesses

namespace World

def Sized (s : World M) (allocated : Nat → Bool) : Prop := ∀ c, (s.chans c).Sized (allocated c)

section Sized

variable {s s' : World M} {allocated : Nat → Bool} {w i c : Nat}

theorem start_sized (n : Nat) : (start n : World M).Sized allocated := fun _ =>
  ⟨Nat.two_pow_pos 31, id, Nat.le_refl _, fun some_ => absurd some_ (Nat.lt_irrefl _), Nat.zero_le _, Nat.zero_le _⟩

theorem Sized.same (sized : s.Sized allocated) (chans : s'.chans = s.chans) : s'.Sized allocated := fun c => by
  rw [chans]
  exact sized c

theorem Sized.set (sized : s.Sized allocated) {k : Chan M} (one : k.Sized (allocated c))
    (chans : s'.chans = Function.update s.chans c k) : s'.Sized allocated := fun d => by
  rw [chans]
  by_cases mine : d = c
  · subst mine
    rwa [Function.update_self]
  · rw [Function.update_of_ne mine]
    exact sized d

theorem answer_chans (s : World M) (call : Option (Call M)) (status : Option (Text M)) :
    (s.answer call status).chans = s.chans := by
  unfold World.answer
  split <;> rfl

theorem deadlock_chans (s : World M) (op : Bool) : (s.deadlock op).chans = s.chans := by
  unfold World.deadlock
  split <;> rfl

theorem enter_chans (s : World M) (w i : Nat) : (s.enter w i).chans = s.chans := by
  unfold World.enter
  simp only
  split
  · exact answer_chans _ _ _
  · rfl

theorem runReady_chans (s : World M) (w i : Nat) (rest : List (Nat × Wait)) : (s.runReady w i rest).chans = s.chans := by
  unfold World.runReady
  split
  · exact enter_chans _ _ _
  · split
    · rfl
    · exact answer_chans _ _ _

theorem turn_chans (s : World M) (w : Nat) (op : Bool) : (s.turn w op).chans = s.chans := by
  unfold World.turn
  split
  · split
    · rfl
    unfold World.loopTurn
    split
    · exact enter_chans _ _ _
    · simp only
      split <;> exact deadlock_chans _ _
  · unfold World.awaitTurn
    split
    · rfl
    split
    · exact enter_chans _ _ _
    · exact runReady_chans _ _ _ _
  · unfold World.resumeTurn
    split
    · exact answer_chans _ _ _
    · exact runReady_chans _ _ _ _

theorem lands_chans (s : World M) (i : Nat) (rc : Rc M) (op : Bool) : (s.lands i rc op).chans = s.chans := by
  unfold World.lands
  simp only
  split
  · rfl
  · rfl
  · rfl
  · split
    · rfl
    split
    · rfl
    · rfl
    · exact deadlock_chans _ _

theorem foldl_chans {f : World M → Nat → World M} (each : ∀ s i, (f s i).chans = s.chans) (s : World M) (l : List Nat) :
    (l.foldl f s).chans = s.chans := by
  induction l generalizing s with
  | nil => rfl
  | cons i rest ih => exact (ih _).trans (each s i)

theorem releaseSender_chans (s : World M) (c si : Nat) (rest : List Nat) :
    (s.releaseSender c si rest).chans = Function.update s.chans c { s.chans c with senders := rest } := by
  unfold World.releaseSender
  simp only
  split <;> rfl

theorem receives_chans (s : World M) (c : Nat) (text : Option M) (call : Call M) :
    (s.receives c text call).chans = s.chans := by
  unfold World.receives
  split <;> rfl

end Sized

end World

section Sized

variable {ch : Chan M} {allocated : Bool}

theorem Chan.Sized.push (sized : ch.Sized allocated) (room : 0 < ch.cap ∧ ch.buf.count < ch.cap) (stored : allocated = true)
    (entry : Option M) : ({ ch with buf := ch.buf.push ch.cap entry } : Chan M).Sized allocated :=
  ⟨sized.cap, sized.head, room.2, fun _ => stored, sized.senders, sized.receivers⟩

theorem Chan.Sized.pop (sized : ch.Sized allocated) : ch.popped.Sized allocated where
  cap := sized.cap
  head some_ := Nat.mod_lt _ some_
  count := (Nat.sub_le _ _).trans sized.count
  stored some_ := sized.stored (Nat.lt_of_lt_of_le some_ (Nat.sub_le _ _))
  senders := sized.senders
  receivers := sized.receivers

theorem Chan.Sized.lists (sized : ch.Sized allocated) {x y : List Nat} (closed : Bool)
    (sends : x.length ≤ 64) (receives : y.length ≤ 64) :
    ({ ch with closed, senders := x, receivers := y } : Chan M).Sized allocated :=
  ⟨sized.cap, sized.head, sized.count, sized.stored, sends, receives⟩

theorem Chan.Sized.released (sized : ch.Sized allocated) {n : Nat} {l : List Nat} (list : ch.senders = n :: l) :
    ({ ch with senders := l } : Chan M).Sized allocated := by
  refine sized.lists ch.closed ?_ sized.receivers
  have within := sized.senders
  rw [list, List.length_cons] at within
  omega

end Sized

namespace World

section Steps

variable {s : World M} {allocated : Nat → Bool} {w i c : Nat}

theorem Sized.chan_new (sized : s.Sized allocated) {size : Int} (int : size < 2 ^ 31) :
    (s.chan_new size).Sized allocated := by
  unfold World.chan_new
  split
  · refine sized.set (k := ⟨size.toNat, false, .empty, [], []⟩) ⟨?_, id, Nat.zero_le _, ?_, Nat.zero_le _,
      Nat.zero_le _⟩ rfl
    · show size.toNat < 2 ^ 31
      omega
    · exact fun some_ => absurd some_ (Nat.lt_irrefl _)
  · exact sized

theorem Sized.send (sized : s.Sized allocated) {m : M} {cell : Nat} {nested : Bool}
    (fits : c < s.nchans → SendFits (s.chans c) (allocated c)) : (s.async_send w i c m cell nested).Sized allocated := by
  unfold World.async_send
  split
  · exact sized
  rename_i here
  simp only
  split
  · exact sized.same (answer_chans _ _ _)
  rename_i opened
  split
  · rename_i r rest list
    refine sized.set (c := c) ((sized c).lists (s.chans c).closed (sized c).senders (y := rest) ?_) rfl
    have within := (sized c).receivers
    rw [show (s.chans c).receivers = r :: rest from list, List.length_cons] at within
    omega
  rename_i list
  split
  · rename_i room
    have opened : (s.chans c).closed = false := Bool.eq_false_iff.mpr opened
    have room : 0 < (s.chans c).cap ∧ (s.chans c).buf.count < (s.chans c).cap := room
    have fits := fits (Nat.lt_of_not_le here) opened list
    rw [if_pos room] at fits
    exact sized.set (c := c) ((sized c).push room fits.1 (some m)) rfl
  split
  · rename_i less
    refine sized.set (c := c) ((sized c).lists (s.chans c).closed (x := (s.chans c).senders ++ [i]) ?_
      (sized c).receivers) rfl
    rw [List.length_append]
    exact less
  · exact sized.same rfl

theorem Sized.move_sender (sized : s.Sized allocated) (stored : allocated c = true) :
    (s.move_sender c).Sized allocated := by
  unfold World.move_sender
  simp only
  split
  · exact sized
  · rename_i si rest list
    split
    · rename_i room
      have pushed : (s.setChan c { s.chans c with buf := (s.chans c).buf.push (s.chans c).cap (s.threads si).sendText
          }).Sized allocated := sized.set ((sized c).push room stored _) rfl
      refine pushed.set ((pushed c).released (n := si) (l := rest) ?_) (releaseSender_chans _ _ _ _)
      simp [setChan, list]
    · exact sized

theorem Sized.recv (sized : s.Sized allocated) {cell : Nat} {nested : Bool} :
    (s.async_recv w i c cell nested).Sized allocated := by
  unfold World.async_recv
  split
  · exact sized
  simp only
  split
  · rename_i some_
    refine Sized.move_sender (sized.set (c := c) (sized c).pop ?_) ((sized c).stored some_)
    exact congrArg (Function.update · c _) (receives_chans _ _ _ _)
  split
  · rename_i si rest list
    refine sized.set (c := c) ((sized c).released list) ?_
    rw [receives_chans, releaseSender_chans]
    rfl
  split
  · exact sized.same (answer_chans _ _ _)
  split
  · rename_i less
    refine sized.set (c := c) ((sized c).lists (s.chans c).closed (sized c).senders
      (y := (s.chans c).receivers ++ [i]) ?_) rfl
    rw [List.length_append]
    exact less
  · exact sized.same rfl

theorem Sized.close (sized : s.Sized allocated) : (s.chan_close c).Sized allocated := by
  unfold World.chan_close
  split
  · exact sized
  · refine sized.set (c := c) ((sized c).lists true (x := []) (y := []) (Nat.zero_le _) (Nat.zero_le _)) ?_
    refine congrArg (Function.update · c _) ?_
    exact (foldl_chans (fun _ _ => by rfl) _ _).trans (foldl_chans (fun _ _ => by rfl) _ _)

theorem asInt_less (size : Int) : size.bmod (2 ^ 32) < 2 ^ 31 := by
  have := Int.bmod_lt (x := size) (m := 2 ^ 32) (by decide)
  omega

theorem Sized.calls (sized : s.Sized allocated) (d : Do M) (fits : s.BuiltinFits allocated d) :
    (s.calls w i d.asInt).Sized allocated := by
  cases d with
  | turn op => exact sized
  | stops rc => exact sized.same rfl
  | waits => exact sized
  | lands op => exact sized
  | go =>
    refine sized.same ?_
    unfold Do.asInt World.calls World.spawn
    simp only
    split <;> rfl
  | yield nested =>
    refine sized.same ?_
    unfold Do.asInt World.calls World.async_yield
    simp only
    split <;> rfl
  | await id cell nested =>
    refine sized.same ?_
    unfold Do.asInt World.calls World.async_await
    simp only
    repeat' split
    all_goals rfl
  | channel size => exact sized.chan_new (asInt_less size)
  | send c m cell nested => exact sized.send fits
  | recv c cell nested => exact sized.recv
  | close c => exact sized.close

theorem Sized.step (sized : s.Sized allocated) (e : Nat × Do M) (fits : s.Fits allocated e) :
    (s.step (e.1, e.2.asInt)).Sized allocated := by
  unfold World.step World.act
  split
  · exact sized
  rename_i inside
  split
  · exact sized.same (turn_chans _ _ _)
  · exact sized.same rfl
  · exact sized.same (lands_chans _ _ _ _)
  · rename_i i top
    refine sized.calls e.2 (fits ?_)
    simp only [Bool.or_eq_true, decide_eq_true_eq, not_or, Bool.not_eq_true, Nat.not_le] at inside
    simp [atWork, top, inside]
  · exact sized

/-- Given what a run has kept so far, a step's accesses are inside exactly when it fits. -/
theorem Sized.inside_iff (sized : s.Sized allocated) (e : Nat × Do M) :
    s.Inside allocated e ↔ s.Fits allocated e := by
  have outside {c : Nat} {l : List Access} {P : Prop} (iff_ : (∀ a ∈ l, a.Inside) ↔ P) :
      (∀ a ∈ (if s.nchans ≤ c then [] else l), a.Inside) ↔ (c < s.nchans → P) := by
    split
    · rename_i out
      exact iff_of_true nofun fun here => absurd here (Nat.not_lt.mpr out)
    · rename_i here
      exact iff_.trans ⟨fun holds _ => holds, fun holds => holds (Nat.lt_of_not_le here)⟩
  unfold Inside accesses Fits
  cases s.atWork e.1 with
  | false => exact iff_of_true nofun nofun
  | true =>
    rw [if_pos rfl, eq_self_iff_true, true_imp_iff]
    cases e.2 with
    | send c m cell nested => exact outside (send_inside_iff (sized c))
    | recv c cell nested => exact outside (recv_inside_iff (sized c))
    | close c =>
      refine iff_of_true ((outside (P := True) (iff_of_true ?_ trivial)).mpr fun _ => trivial) trivial
      exact List.forall_mem_append.mpr ⟨visits_inside (sized c).senders, visits_inside (sized c).receivers⟩
    | _ => exact iff_of_true nofun trivial

end Steps

/-- A run of the builtins' calls, the sizes of channels narrowed. -/
def stepInt (s : World M) (e : Nat × Do M) : World M := s.step (e.1, e.2.asInt)

/-- In every run all accesses to the arrays of channels are inside exactly when every step fits. -/
theorem arrays_inside_iff (allocated : Nat → Bool) (nworkers : Nat) (events : List (Nat × Do M)) :
    Along stepInt (·.Inside allocated ·) (start nworkers) events ↔
      Along stepInt (·.Fits allocated ·) (start nworkers) events := by
  suffices ∀ s : World M, s.Sized allocated →
      (Along stepInt (·.Inside allocated ·) s events ↔ Along stepInt (·.Fits allocated ·) s events) from
    this _ (start_sized nworkers)
  induction events with
  | nil => exact fun _ _ => Iff.rfl
  | cons e rest ih =>
    intro s sized
    rw [Along, Along, sized.inside_iff e]
    exact and_congr_right fun fits => ih _ (sized.step e fits)

/-- The main task makes a rendezvous channel and 65 tasks, which all receive on it. -/
def crowd : List (Nat × Do Nat) :=
  [(0, Do.turn false), (0, .channel 0)] ++ List.replicate 65 (0, Do.go) ++ [(0, Do.await 1 2 false), (0, .lands false)] ++
    (List.replicate 65 [(0, Do.turn false), (0, .recv 0 1 false), (0, .lands false)]).flatten

theorem crowd_outside : ¬Along stepInt (·.Inside (fun _ => true) ·) (start 1 : World Nat) crowd := by
  decide +kernel

end World
end Cocolog.Green
