import Cocolog.Green.Runs

/-! A channel neither loses, doubles nor reorders messages, and whoever is on one of its
lists waits in that call. The books (what was accepted, what was handed over, which calls
ended how) are kept beside the world and compared with it after every step. -/

set_option linter.all false

namespace Cocolog.Green

open Lib

variable {M : Type*}

/-- What holds of a task that is in `call`. -/
structure Thread.Fits (t : Thread M) (log : Log M) (call : Call M) : Prop where
  id : call.id < log.calls
  cell : call.message = none → t.resumeCell = call.cell
  waits : t.resumeText = none → (t.state = .blocked ∨ t.state = .nested) ∧ t.chan = some call.chan ∧
    (t.block = if call.message.isSome then .send else .recv) ∧ (call.message.isSome → t.sendText = call.message)
  unheard : t.resumeText = none → call.message = none → some call.id ∉ (log.delivered call.chan).map (·.2)
  loose : t.resumeText ≠ none → t.block = .none
  told : ∀ m text, call.message = some m → t.resumeText = some text →
    (text = .okSend ∧ (m, some call.id) ∈ log.accepted call.chan) ∨
    (text = .error .sendClosed ∧ t.resumeCell = call.cell)

/-- A channel and its two lists of messages. -/
structure Chan.Fits (ch : Chan M) (accepted delivered : List (M × Option Nat)) : Prop where
  conserved : ∃ items, ch.buf.Holds ch.cap items ∧ accepted.map (·.1) = delivered.map (·.1) ++ items
  heard : ∀ p ∈ delivered, p.2 ≠ none
  heardOnce : (delivered.map (·.2)).Nodup
  receiverWaits : ch.receivers ≠ [] → ch.buf.count = 0 ∧ ch.senders = []
  senderWaits : ch.senders ≠ [] → ch.buf.count = ch.cap
  once : ch.senders.Nodup ∧ ch.receivers.Nodup
  closed : ch.closed = true → ch.senders = [] ∧ ch.receivers = []

namespace Chan.Fits

variable {ch : Chan M} {accepted delivered : List (M × Option Nat)} {m : M} {k : Nat} {i : Nat} {rest : List Nat}

theorem heardAlso (fits : ch.Fits accepted delivered) (new : some k ∉ delivered.map (·.2)) (m : M) :
    (∀ p ∈ delivered ++ [(m, some k)], p.2 ≠ none) ∧ ((delivered ++ [(m, some k)]).map (·.2)).Nodup := by
  constructor
  · intro p there
    rcases List.mem_append.mp there with old | last
    · exact fits.heard p old
    · rw [List.mem_singleton.mp last]
      nofun
  · rw [List.map_append, List.map_singleton, ← List.concat_eq_append]
    exact fits.heardOnce.concat new

theorem empty_of_count (fits : ch.Fits accepted delivered) (none_ : ch.buf.count = 0) :
    ch.buf.Holds ch.cap [] ∧ accepted.map (·.1) = delivered.map (·.1) := by
  obtain ⟨items, holds, same⟩ := fits.conserved
  have empty : items = [] := List.length_eq_zero_iff.mp (holds.count.symm.trans none_)
  subst empty
  exact ⟨holds, by simpa using same⟩

theorem no_receivers (fits : ch.Fits accepted delivered) (list : ch.senders = i :: rest) : ch.receivers = [] := by
  by_contra some_
  have idle := (fits.receiverWaits some_).2
  rw [list] at idle
  cases idle

theorem push (fits : ch.Fits accepted delivered) (none_ : ch.receivers = []) (room : ch.buf.count < ch.cap) (m : M)
    (k : Option Nat) : Fits { ch with buf := ch.buf.push ch.cap (some m) } (accepted ++ [(m, k)]) delivered where
  conserved := by
    obtain ⟨items, holds, same⟩ := fits.conserved
    exact ⟨items ++ [m], holds.push (holds.count ▸ room) m, by simp [same]⟩
  heard := fits.heard
  heardOnce := fits.heardOnce
  receiverWaits some_ := absurd none_ some_
  senderWaits some_ := absurd (fits.senderWaits some_) (Nat.ne_of_lt room)
  once := fits.once
  closed := fits.closed

/-- A message goes straight to the first waiting receiver. -/
theorem hand (fits : ch.Fits accepted delivered) (list : ch.receivers = i :: rest)
    (new : some k ∉ delivered.map (·.2)) (m : M) (sent : Option Nat) :
    Fits { ch with receivers := rest } (accepted ++ [(m, sent)]) (delivered ++ [(m, some k)]) := by
  obtain ⟨empty, idle⟩ := fits.receiverWaits (by simp [list])
  obtain ⟨holds, same⟩ := fits.empty_of_count empty
  have once := fits.once
  rw [list] at once
  refine ⟨⟨[], holds, by simp [same]⟩, (fits.heardAlso new m).1, (fits.heardAlso new m).2, fun _ => ⟨empty, idle⟩,
    fun some_ => absurd idle some_, ⟨once.1, once.2.of_cons⟩, fun closed => ?_⟩
  have closed := (fits.closed closed).2
  rw [list] at closed
  cases closed

/-- A receive takes the message of the first waiting sender of an empty buffer. -/
theorem take (fits : ch.Fits accepted delivered) (list : ch.senders = i :: rest) (none_ : ch.buf.count = 0)
    (new : some k ∉ delivered.map (·.2)) (m : M) (sent : Option Nat) :
    Fits { ch with senders := rest } (accepted ++ [(m, sent)]) (delivered ++ [(m, some k)]) := by
  obtain ⟨holds, same⟩ := fits.empty_of_count none_
  have full := fits.senderWaits (by simp [list])
  have once := fits.once
  rw [list] at once
  refine ⟨⟨[], holds, by simp [same]⟩, (fits.heardAlso new m).1, (fits.heardAlso new m).2, fun some_ => ?_,
    fun _ => full, ⟨once.1.of_cons, once.2⟩, fun closed => ?_⟩
  · exact absurd (fits.no_receivers list) some_
  · have closed := (fits.closed closed).1
    rw [list] at closed
    cases closed

/-- A receive takes the oldest message of the buffer, and nobody waits to send. -/
theorem pop (fits : ch.Fits accepted delivered) (list : ch.senders = []) (some_ : 0 < ch.buf.count)
    (new : some k ∉ delivered.map (·.2)) :
    ∃ m, ch.buf.first = some m ∧ Fits { ch with buf := ch.buf.pop ch.cap } accepted (delivered ++ [(m, some k)]) := by
  obtain ⟨items, holds, same⟩ := fits.conserved
  cases items with
  | nil => exact absurd holds.count (Nat.ne_of_gt some_)
  | cons m items =>
    obtain ⟨first, holds'⟩ := holds.pop
    refine ⟨m, first, ⟨items, holds', by simp [same]⟩, (fits.heardAlso new m).1, (fits.heardAlso new m).2, fun waits => ?_,
      fun waits => absurd list waits, fits.once, fits.closed⟩
    exact absurd (fits.receiverWaits waits).1 (Nat.ne_of_gt some_)

/-- A receive takes the oldest message, and the first waiting sender takes the slot. -/
theorem shift (fits : ch.Fits accepted delivered) (list : ch.senders = i :: rest) (some_ : 0 < ch.buf.count)
    (new : some k ∉ delivered.map (·.2)) (m' : M) (sent : Option Nat) :
    (ch.buf.pop ch.cap).count < ch.cap ∧ ∃ m, ch.buf.first = some m ∧
      Fits { ch with buf := (ch.buf.pop ch.cap).push ch.cap (some m'), senders := rest } (accepted ++ [(m', sent)])
        (delivered ++ [(m, some k)]) := by
  obtain ⟨items, holds, same⟩ := fits.conserved
  have full := fits.senderWaits (by simp [list])
  cases items with
  | nil => exact absurd holds.count (Nat.ne_of_gt some_)
  | cons m items =>
    obtain ⟨first, holds'⟩ := holds.pop
    have count := holds.count
    rw [List.length_cons] at count
    have room : items.length < ch.cap := by omega
    have once := fits.once
    rw [list] at once
    refine ⟨holds'.count ▸ room, m, first, ⟨items ++ [m'], holds'.push room m', by simp [same]⟩, (fits.heardAlso new m).1,
      (fits.heardAlso new m).2, fun waits => ?_, fun _ => ?_, ⟨once.1.of_cons, once.2⟩, fun closed => ?_⟩
    · exact absurd (fits.receiverWaits waits).1 (Nat.ne_of_gt some_)
    · show (ch.buf.pop ch.cap).count + 1 = ch.cap
      rw [holds'.count]
      omega
    · have closed := (fits.closed closed).1
      rw [list] at closed
      cases closed

theorem waitSend (fits : ch.Fits accepted delivered) (idle : ch.receivers = []) (opened : ch.closed = false)
    (full : ¬(0 < ch.cap ∧ ch.buf.count < ch.cap)) (new : i ∉ ch.senders) :
    Fits { ch with senders := ch.senders ++ [i] } accepted delivered where
  conserved := fits.conserved
  heard := fits.heard
  heardOnce := fits.heardOnce
  receiverWaits some_ := absurd idle some_
  senderWaits _ := by
    obtain ⟨items, holds, _⟩ := fits.conserved
    have count := holds.count
    have within := holds.fits
    show ch.buf.count = ch.cap
    omega
  once := ⟨List.concat_eq_append ▸ fits.once.1.concat new, fits.once.2⟩
  closed closed := absurd (opened.symm.trans closed) nofun

theorem waitRecv (fits : ch.Fits accepted delivered) (idle : ch.senders = []) (opened : ch.closed = false)
    (none_ : ch.buf.count = 0) (new : i ∉ ch.receivers) :
    Fits { ch with receivers := ch.receivers ++ [i] } accepted delivered where
  conserved := fits.conserved
  heard := fits.heard
  heardOnce := fits.heardOnce
  receiverWaits _ := ⟨none_, idle⟩
  senderWaits some_ := absurd idle some_
  once := ⟨fits.once.1, List.concat_eq_append ▸ fits.once.2.concat new⟩
  closed closed := absurd (opened.symm.trans closed) nofun

theorem close (fits : ch.Fits accepted delivered) :
    Fits { ch with closed := true, senders := [], receivers := [] } accepted delivered where
  conserved := fits.conserved
  heard := fits.heard
  heardOnce := fits.heardOnce
  receiverWaits some_ := absurd rfl some_
  senderWaits some_ := absurd rfl some_
  once := ⟨List.nodup_nil, List.nodup_nil⟩
  closed _ := ⟨rfl, rfl⟩

end Chan.Fits

namespace World

/-- Task `i` is in `call` and nobody has answered it yet. -/
def Waits (s : World M) (i : Nat) (call : Call M) : Prop :=
  (s.threads i).call = some call ∧ (s.threads i).resumeText = none

/-- The message is with the receive call it was handed to: answered, or held for its task. -/
def Reached (s : World M) (c : Nat) (m : M) (k : Nat) : Prop :=
  (∃ call, call.id = k ∧ call.chan = c ∧ call.message = none ∧ (call, some (.ok m)) ∈ s.log.answered) ∨
  ∃ i call, (s.threads i).call = some call ∧ call.id = k ∧ call.chan = c ∧ call.message = none ∧
    (s.threads i).resumeText = some (.ok m)

/-- A send that ended with its status bound to ok, or left unbound, which `async_sent/1` takes for ok. -/
def Sent (status : Option (Text M)) : Prop := status = none ∨ status = some .okSend

structure Books (s : World M) : Prop where
  fits : ∀ i call, (s.threads i).call = some call → (s.threads i).Fits s.log call
  inside : ∀ i call, (s.threads i).call = some call → i < s.nthreads
  known : ∀ i call, (s.threads i).call = some call → call.chan < s.nchans
  apart : ∀ i j a b, (s.threads i).call = some a → (s.threads j).call = some b → a.id = b.id → i = j
  free : ∀ i, (s.threads i).call = none → (s.threads i).block ≠ .send ∧ (s.threads i).block ≠ .recv
  senders : ∀ c, c < s.nchans → ∀ i, i ∈ (s.chans c).senders ↔
    ∃ call, s.Waits i call ∧ call.chan = c ∧ call.message.isSome = true
  receivers : ∀ c, c < s.nchans → ∀ i, i ∈ (s.chans c).receivers ↔
    ∃ call, s.Waits i call ∧ call.chan = c ∧ call.message.isSome = false
  chans : ∀ c, c < s.nchans → (s.chans c).Fits (s.log.accepted c) (s.log.delivered c)
  blank : ∀ c, s.nchans ≤ c → s.log.accepted c = [] ∧ s.log.delivered c = []
  numbered : ∀ c k, some k ∈ (s.log.delivered c).map (·.2) → k < s.log.calls
  reached : ∀ c m k, (m, some k) ∈ s.log.delivered c → s.Reached c m k
  answered : ∀ call status, (call, status) ∈ s.log.answered → ∀ m, call.message = some m → Sent status →
    (m, some call.id) ∈ s.log.accepted call.chan

/-- A step that leaves task `i` as `t`, channel `c` as `ch` and the books as `log`, and what it owes. -/
structure Change (s : World M) (i : Nat) (t : Thread M) (c : Nat) (ch : Chan M) (log : Log M) : Prop where
  here : c < s.nchans
  calls : s.log.calls ≤ log.calls
  accepted : ∀ d, d ≠ c → log.accepted d = s.log.accepted d
  delivered : ∀ d, d ≠ c → log.delivered d = s.log.delivered d
  accepts : s.log.accepted c ⊆ log.accepted c
  answers : s.log.answered ⊆ log.answered
  before : ∀ call, (s.threads i).call = some call → call.chan = c
  self : ∀ call, t.call = some call → t.Fits log call ∧ i < s.nthreads ∧ call.chan = c ∧
    ∀ j other, j ≠ i → (s.threads j).call = some other → other.id ≠ call.id
  free : t.call = none → t.block ≠ .send ∧ t.block ≠ .recv
  /-- No other waiting call is handed a message. -/
  unheard : ∀ j call, j ≠ i → s.Waits j call → some call.id ∈ (log.delivered c).map (·.2) →
    some call.id ∈ (s.log.delivered c).map (·.2)
  senders : ∀ j, j ≠ i → (j ∈ ch.senders ↔ j ∈ (s.chans c).senders)
  receivers : ∀ j, j ≠ i → (j ∈ ch.receivers ↔ j ∈ (s.chans c).receivers)
  sender : i ∈ ch.senders ↔ ∃ call, t.call = some call ∧ t.resumeText = none ∧ call.message.isSome = true
  receiver : i ∈ ch.receivers ↔ ∃ call, t.call = some call ∧ t.resumeText = none ∧ call.message.isSome = false
  fits : ch.Fits (log.accepted c) (log.delivered c)
  numbered : ∀ k, some k ∈ (log.delivered c).map (·.2) → k < log.calls
  kept : ∀ call m, (s.threads i).call = some call → call.message = none → (s.threads i).resumeText = some (.ok m) →
    (call, some (.ok m)) ∈ log.answered
  fresh : ∀ m k, (m, some k) ∈ log.delivered c → (m, some k) ∈ s.log.delivered c ∨
    ∃ call, call.id = k ∧ call.chan = c ∧ call.message = none ∧
      ((call, some (.ok m)) ∈ log.answered ∨ t.call = some call ∧ t.resumeText = some (.ok m))
  answered : ∀ call status, (call, status) ∈ log.answered → (call, status) ∈ s.log.answered ∨
    ∀ m, call.message = some m → Sent status → (m, some call.id) ∈ log.accepted call.chan

section Change

variable {s s' : World M} {i c : Nat} {t : Thread M} {ch : Chan M} {log : Log M}

theorem Change.accepted_mem (change : Change s i t c ch log) {d : Nat} {p : M × Option Nat}
    (there : p ∈ s.log.accepted d) : p ∈ log.accepted d := by
  by_cases same : d = c
  · subst same
    exact change.accepts there
  · rwa [change.accepted d same]

/-- A task that is not touched keeps what it holds. -/
theorem Change.fits_other (change : Change s i t c ch log) {j : Nat} (other : j ≠ i) {call : Call M}
    (at_ : (s.threads j).call = some call) (fits : (s.threads j).Fits s.log call) : (s.threads j).Fits log call where
  id := Nat.lt_of_lt_of_le fits.id change.calls
  cell := fits.cell
  waits := fits.waits
  unheard none_ receives := by
    by_cases same : call.chan = c
    · rw [same]
      exact fun there => fits.unheard none_ receives (same ▸ change.unheard j call other ⟨at_, none_⟩ there)
    · rw [change.delivered _ same]
      exact fits.unheard none_ receives
  loose := fits.loose
  told m text sends holds := (fits.told m text sends holds).imp_left fun ⟨ok, there⟩ => ⟨ok, change.accepted_mem there⟩

/-- The world after the change, as far as the books go. -/
structure Changed (s s' : World M) (i : Nat) (t : Thread M) (c : Nat) (ch : Chan M) (log : Log M) : Prop where
  self : s'.threads i = t
  others : ∀ j, j ≠ i → s'.threads j = s.threads j
  nthreads : s'.nthreads = s.nthreads
  here : s'.chans c = ch
  chans : ∀ d, d ≠ c → s'.chans d = s.chans d
  nchans : s'.nchans = s.nchans
  log : s'.log = log

theorem Change.reached (change : Change s i t c ch log) (to_ : Changed s s' i t c ch log) {d : Nat} {m : M} {k : Nat}
    (reached : s.Reached d m k) : s'.Reached d m k := by
  rcases reached with ⟨call, id, chan, receives, there⟩ | ⟨j, call, at_, id, chan, receives, holds⟩
  · exact .inl ⟨call, id, chan, receives, to_.log ▸ change.answers there⟩
  · by_cases same : j = i
    · subst same
      exact .inl ⟨call, id, chan, receives, to_.log ▸ change.kept call m at_ receives holds⟩
    · refine .inr ⟨j, call, ?_, id, chan, receives, ?_⟩ <;> rwa [to_.others j same]

theorem Change.waits_iff (change : Change s i t c ch log) (to_ : Changed s s' i t c ch log) {j : Nat} {call : Call M}
    (other : call.chan ≠ c) : s'.Waits j call ↔ s.Waits j call := by
  unfold Waits
  by_cases same : j = i
  · subst same
    rw [to_.self]
    constructor
    · intro waits
      exact absurd (change.self call waits.1).2.2.1 other
    · intro waits
      exact absurd (change.before call waits.1) other
  · rw [to_.others j same]

/-- A list of waiters of `c` is right again once the changed task is on it as it should. -/
theorem Change.listed (change : Change s i t c ch log) (to_ : Changed s s' i t c ch log) {sends : Bool} {l l' : List Nat}
    (old : ∀ j, j ∈ l ↔ ∃ call, s.Waits j call ∧ call.chan = c ∧ call.message.isSome = sends)
    (others : ∀ j, j ≠ i → (j ∈ l' ↔ j ∈ l))
    (self : i ∈ l' ↔ ∃ call, t.call = some call ∧ t.resumeText = none ∧ call.message.isSome = sends) (j : Nat) :
    j ∈ l' ↔ ∃ call, s'.Waits j call ∧ call.chan = c ∧ call.message.isSome = sends := by
  unfold Waits
  by_cases same : j = i
  · subst same
    rw [self, to_.self]
    constructor
    · rintro ⟨call, at_, none_, kind⟩
      exact ⟨call, ⟨at_, none_⟩, (change.self call at_).2.2.1, kind⟩
    · rintro ⟨call, ⟨at_, none_⟩, _, kind⟩
      exact ⟨call, at_, none_, kind⟩
  · rw [others j same, old j, to_.others j same]
    rfl

theorem Books.change (b : s.Books) (change : Change s i t c ch log) (to_ : Changed s s' i t c ch log) : s'.Books where
  fits j call at_ := by
    rw [to_.log]
    by_cases same : j = i
    · subst same
      rw [to_.self] at at_ ⊢
      exact (change.self call at_).1
    · rw [to_.others j same] at at_ ⊢
      exact change.fits_other same at_ (b.fits j call at_)
  inside j call at_ := by
    rw [to_.nthreads]
    by_cases same : j = i
    · subst same
      rw [to_.self] at at_
      exact (change.self call at_).2.1
    · rw [to_.others j same] at at_
      exact b.inside j call at_
  known j call at_ := by
    rw [to_.nchans]
    by_cases same : j = i
    · subst same
      rw [to_.self] at at_
      rw [(change.self call at_).2.2.1]
      exact change.here
    · rw [to_.others j same] at at_
      exact b.known j call at_
  apart j k a a' one two ids := by
    by_cases first : j = i <;> by_cases second : k = i
    · rw [first, second]
    · subst first
      rw [to_.self] at one
      rw [to_.others k second] at two
      exact absurd ids.symm ((change.self a one).2.2.2 k a' second two)
    · subst second
      rw [to_.self] at two
      rw [to_.others j first] at one
      exact absurd ids ((change.self a' two).2.2.2 j a first one)
    · rw [to_.others j first] at one
      rw [to_.others k second] at two
      exact b.apart j k a a' one two ids
  free j none_ := by
    by_cases same : j = i
    · subst same
      rw [to_.self] at none_ ⊢
      exact change.free none_
    · rw [to_.others j same] at none_ ⊢
      exact b.free j none_
  senders d inside j := by
    by_cases same : d = c
    · subst same
      rw [to_.here]
      exact change.listed to_ (b.senders d change.here) change.senders change.sender j
    · rw [to_.chans d same, b.senders d (to_.nchans ▸ inside) j]
      constructor <;> rintro ⟨call, waits, rfl, sends⟩
      · exact ⟨call, (change.waits_iff to_ same).mpr waits, rfl, sends⟩
      · exact ⟨call, (change.waits_iff to_ same).mp waits, rfl, sends⟩
  receivers d inside j := by
    by_cases same : d = c
    · subst same
      rw [to_.here]
      exact change.listed to_ (b.receivers d change.here) change.receivers change.receiver j
    · rw [to_.chans d same, b.receivers d (to_.nchans ▸ inside) j]
      constructor <;> rintro ⟨call, waits, rfl, receives⟩
      · exact ⟨call, (change.waits_iff to_ same).mpr waits, rfl, receives⟩
      · exact ⟨call, (change.waits_iff to_ same).mp waits, rfl, receives⟩
  chans d inside := by
    rw [to_.log]
    by_cases same : d = c
    · subst same
      rw [to_.here]
      exact change.fits
    · rw [to_.chans d same, change.accepted d same, change.delivered d same]
      exact b.chans d (to_.nchans ▸ inside)
  blank d out := by
    rw [to_.nchans] at out
    have same : d ≠ c := fun same => absurd change.here (Nat.not_lt.mpr (same ▸ out))
    rw [to_.log, change.accepted d same, change.delivered d same]
    exact b.blank d out
  numbered d k there := by
    rw [to_.log] at there ⊢
    by_cases same : d = c
    · subst same
      exact change.numbered k there
    · rw [change.delivered d same] at there
      exact Nat.lt_of_lt_of_le (b.numbered d k there) change.calls
  reached d m k there := by
    rw [to_.log] at there
    by_cases same : d = c
    · subst same
      rcases change.fresh m k there with old | ⟨call, id, chan, receives, answered | ⟨at_, holds⟩⟩
      · exact change.reached to_ (b.reached d m k old)
      · exact .inl ⟨call, id, chan, receives, to_.log ▸ answered⟩
      · refine .inr ⟨i, call, ?_, id, chan, receives, ?_⟩ <;> rwa [to_.self]
    · rw [change.delivered d same] at there
      exact change.reached to_ (b.reached d m k there)
  answered call status there m sends sent := by
    rw [to_.log] at there ⊢
    rcases change.answered call status there with old | new
    · exact change.accepted_mem (b.answered call status old m sends sent)
    · exact new m sends sent

end Change

section Operations

variable {s : World M} {w i c : Nat}

@[simp] theorem chans_self (ch : Chan M) : (s.setChan c ch).chans c = ch := by
  simp [setChan]

theorem chans_other {d : Nat} (other : d ≠ c) (ch : Chan M) : (s.setChan c ch).chans d = s.chans d := by
  simp [setChan, other]

@[simp] theorem threads_self (t : Thread M) : (s.setThread i t).threads i = t := by
  simp [setThread]

theorem threads_other {j : Nat} (other : j ≠ i) (t : Thread M) : (s.setThread i t).threads j = s.threads j := by
  simp [setThread, other]

theorem Books.not_listed (b : s.Books) (here : c < s.nchans) (bare : (s.threads i).call = none) :
    i ∉ (s.chans c).senders ∧ i ∉ (s.chans c).receivers := by
  constructor <;> intro listed
  · obtain ⟨call, ⟨at_, _⟩, _⟩ := (b.senders c here i).mp listed
    exact absurd (bare.symm.trans at_) nofun
  · obtain ⟨call, ⟨at_, _⟩, _⟩ := (b.receivers c here i).mp listed
    exact absurd (bare.symm.trans at_) nofun

/-- The books of a call that is new: its number is not on them. -/
theorem Books.new (b : s.Books) (c : Nat) : some s.log.calls ∉ (s.log.delivered c).map (·.2) :=
  fun there => Nat.lt_irrefl _ (b.numbered c _ there)

/-- A call that ends on the spot: no task is changed, and no list of waiters. -/
theorem Books.spot (b : s.Books) (here : c < s.nchans) (bare : (s.threads i).call = none) {ch : Chan M} {log : Log M}
    (lists : ch.senders = (s.chans c).senders ∧ ch.receivers = (s.chans c).receivers)
    (fits : ch.Fits (log.accepted c) (log.delivered c)) (calls : log.calls = s.log.calls + 1)
    (accepted : ∀ d, d ≠ c → log.accepted d = s.log.accepted d)
    (delivered : ∀ d, d ≠ c → log.delivered d = s.log.delivered d) (accepts : s.log.accepted c ⊆ log.accepted c)
    {call : Call M} {status : Option (Text M)} (answers : log.answered = (call, status) :: s.log.answered)
    (heard : log.delivered c = s.log.delivered c ∨ ∃ m, log.delivered c = s.log.delivered c ++ [(m, some s.log.calls)] ∧
      call.id = s.log.calls ∧ call.chan = c ∧ call.message = none ∧ status = some (.ok m))
    (sent : ∀ m, call.message = some m → Sent status → (m, some call.id) ∈ log.accepted call.chan) :
    Change s i (s.threads i) c ch log where
  here := here
  calls := by rw [calls]; exact Nat.le_succ _
  accepted := accepted
  delivered := delivered
  accepts := accepts
  answers := by rw [answers]; exact List.subset_cons_self _ _
  before call at_ := absurd (bare.symm.trans at_) nofun
  self call at_ := absurd (bare.symm.trans at_) nofun
  free := b.free i
  unheard j call' _ waits there := by
    rcases heard with same | ⟨m, more, _⟩
    · rwa [same] at there
    · rw [more, List.map_append, List.mem_append] at there
      rcases there with old | last
      · exact old
      · have id : call'.id = s.log.calls := by simpa using last
        exact absurd (b.fits j call' waits.1).id (by rw [id]; exact Nat.lt_irrefl _)
  senders j _ := by rw [lists.1]
  receivers j _ := by rw [lists.2]
  sender := by
    rw [lists.1]
    exact ⟨fun listed => absurd listed (b.not_listed here bare).1, fun ⟨_, at_, _⟩ => absurd (bare.symm.trans at_) nofun⟩
  receiver := by
    rw [lists.2]
    exact ⟨fun listed => absurd listed (b.not_listed here bare).2, fun ⟨_, at_, _⟩ => absurd (bare.symm.trans at_) nofun⟩
  fits := fits
  numbered k there := by
    rw [calls]
    rcases heard with same | ⟨m, more, _⟩
    · exact Nat.lt_succ_of_lt (b.numbered c k (same ▸ there))
    · rw [more, List.map_append, List.mem_append] at there
      rcases there with old | last
      · exact Nat.lt_succ_of_lt (b.numbered c k old)
      · have id : k = s.log.calls := by simpa using last
        rw [id]
        exact Nat.lt_succ_self _
  kept call _ at_ := absurd (bare.symm.trans at_) nofun
  fresh m k there := by
    rcases heard with same | ⟨m', more, id, chan, receives, ok⟩
    · exact .inl (same ▸ there)
    · rw [more, List.mem_append] at there
      rcases there with old | last
      · exact .inl old
      · have pair : m = m' ∧ k = s.log.calls := by simpa using last
        refine .inr ⟨call, id.trans pair.2.symm, chan, receives, .inl ?_⟩
        rw [answers, ok, pair.1]
        exact List.mem_cons_self
  answered call' status' there := by
    rw [answers] at there
    rcases List.mem_cons.mp there with new | old
    · cases new
      exact .inr sent
    · exact .inl old

/-- A call that ends on the spot and answers the waiting call `held` of task `i`; one message
changes hands, to the waiting receive or to the new one. -/
theorem Books.wakes (b : s.Books) (here : c < s.nchans) {held : Call M} (waits : s.Waits i held) (chan : held.chan = c)
    {t : Thread M} {ch : Chan M} {log : Log M} {text : Text M} (at_ : t.call = some held)
    (holds : t.resumeText = some text) (block : t.block = .none) (cell : t.resumeCell = (s.threads i).resumeCell)
    (told : ∀ m, held.message = some m → text = .okSend ∧ (m, some held.id) ∈ log.accepted c)
    (senders : ∀ j, j ∈ ch.senders ↔ j ≠ i ∧ j ∈ (s.chans c).senders)
    (receivers : ∀ j, j ∈ ch.receivers ↔ j ≠ i ∧ j ∈ (s.chans c).receivers)
    (fits : ch.Fits (log.accepted c) (log.delivered c)) (calls : log.calls = s.log.calls + 1)
    (accepted : ∀ d, d ≠ c → log.accepted d = s.log.accepted d)
    (delivered : ∀ d, d ≠ c → log.delivered d = s.log.delivered d) (accepts : s.log.accepted c ⊆ log.accepted c)
    {call : Call M} {status : Option (Text M)} (answers : log.answered = (call, status) :: s.log.answered)
    {m : M} {k : Nat} (heard : log.delivered c = s.log.delivered c ++ [(m, some k)])
    (to_ : (k = held.id ∧ held.message = none ∧ text = .ok m) ∨
      (k = s.log.calls ∧ call.id = k ∧ call.chan = c ∧ call.message = none ∧ status = some (.ok m)))
    (sent : ∀ m, call.message = some m → Sent status → (m, some call.id) ∈ log.accepted call.chan) :
    Change s i t c ch log := by
  have was := b.fits i held waits.1
  have mine : ∀ call', t.call = some call' → call' = held := fun call' same =>
    (Option.some.inj (at_.symm.trans same)).symm
  have known : k < log.calls := by
    rw [calls]
    rcases to_ with ⟨id, _⟩ | ⟨id, _⟩
    · rw [id]
      exact Nat.lt_succ_of_lt was.id
    · rw [id]
      exact Nat.lt_succ_self _
  have split_ : ∀ k', some k' ∈ (log.delivered c).map (·.2) → some k' ∈ (s.log.delivered c).map (·.2) ∨ k' = k := by
    intro k' there
    rw [heard, List.map_append, List.mem_append] at there
    exact there.imp_right fun last => by simpa using last
  refine
    { here := here
      calls := by rw [calls]; exact Nat.le_succ _
      accepted := accepted
      delivered := delivered
      accepts := accepts
      answers := by rw [answers]; exact List.subset_cons_self _ _
      before := fun call' same => Option.some.inj (waits.1.symm.trans same) ▸ chan
      self := fun call' same => ?_
      free := fun none_ => absurd (at_.symm.trans none_) nofun
      unheard := fun j call' other waits' there => ?_
      senders := fun j other => (senders j).trans (and_iff_right other)
      receivers := fun j other => (receivers j).trans (and_iff_right other)
      sender := ⟨fun listed => absurd rfl ((senders i).mp listed).1, fun ⟨_, _, none_, _⟩ =>
        absurd (holds.symm.trans none_) nofun⟩
      receiver := ⟨fun listed => absurd rfl ((receivers i).mp listed).1, fun ⟨_, _, none_, _⟩ =>
        absurd (holds.symm.trans none_) nofun⟩
      fits := fits
      numbered := fun k' there => ?_
      kept := fun _ _ _ _ holds' => absurd (waits.2.symm.trans holds') nofun
      fresh := fun m' k' there => ?_
      answered := fun call' status' there => ?_ }
  · cases mine call' same
    refine ⟨⟨calls ▸ Nat.lt_succ_of_lt was.id, fun receives => cell.trans (was.cell receives),
      fun none_ => absurd (holds.symm.trans none_) nofun, fun none_ => absurd (holds.symm.trans none_) nofun,
      fun _ => block, fun m' text' sends held' => .inl ?_⟩, b.inside i held waits.1, chan, fun j other away at_' id => ?_⟩
    · cases Option.some.inj (holds.symm.trans held')
      rw [chan]
      exact told m' sends
    · exact away (b.apart j i other held at_' waits.1 id)
  · rcases split_ _ there with old | same
    · exact old
    · rcases to_ with ⟨id, _⟩ | ⟨id, _⟩
      · exact absurd (b.apart j i call' held waits'.1 waits.1 (same.trans id)) other
      · exact absurd (b.fits j call' waits'.1).id (by rw [same, id]; exact Nat.lt_irrefl _)
  · rcases split_ k' there with old | same
    · rw [calls]
      exact Nat.lt_succ_of_lt (b.numbered c k' old)
    · rw [same]
      exact known
  · rw [heard, List.mem_append] at there
    rcases there with old | last
    · exact .inl old
    · have pair : m' = m ∧ k' = k := by simpa using last
      rw [pair.1, pair.2]
      rcases to_ with ⟨id, receives, ok⟩ | ⟨_, id, chan', receives, ok⟩
      · exact .inr ⟨held, id.symm, chan, receives, .inr ⟨at_, ok ▸ holds⟩⟩
      · refine .inr ⟨call, id, chan', receives, .inl ?_⟩
        rw [answers, ok]
        exact List.mem_cons_self
  · rw [answers] at there
    rcases List.mem_cons.mp there with new | old
    · cases new
      exact .inr sent
    · exact .inl old

/-- A call that has to wait: task `i` joins a list of `c`. -/
theorem Books.joins (b : s.Books) (here : c < s.nchans) (bare : (s.threads i).call = none) (inside : i < s.nthreads)
    {call : Call M} (id : call.id = s.log.calls) (chan : call.chan = c) {t : Thread M} {ch : Chan M}
    (at_ : t.call = some call) (none_ : t.resumeText = none) (cell : call.message = none → t.resumeCell = call.cell)
    (waits : (t.state = .blocked ∨ t.state = .nested) ∧ t.chan = some call.chan ∧
      (t.block = if call.message.isSome then .send else .recv) ∧ (call.message.isSome → t.sendText = call.message))
    (senders : ∀ j, j ∈ ch.senders ↔ j ∈ (s.chans c).senders ∨ j = i ∧ call.message.isSome = true)
    (receivers : ∀ j, j ∈ ch.receivers ↔ j ∈ (s.chans c).receivers ∨ j = i ∧ call.message.isSome = false)
    (fits : ch.Fits (s.log.accepted c) (s.log.delivered c)) :
    Change s i t c ch { s.log with calls := s.log.calls + 1 } := by
  obtain ⟨noSender, noReceiver⟩ := b.not_listed here bare
  have mine : ∀ call', t.call = some call' → call' = call := fun call' same =>
    (Option.some.inj (at_.symm.trans same)).symm
  refine
    { here := here
      calls := Nat.le_succ _
      accepted := fun _ _ => rfl
      delivered := fun _ _ => rfl
      accepts := List.Subset.refl _
      answers := List.Subset.refl _
      before := fun call' same => absurd (bare.symm.trans same) nofun
      self := fun call' same => ?_
      free := fun none_ => absurd (at_.symm.trans none_) nofun
      unheard := fun _ _ _ _ there => there
      senders := fun j other => by simp [senders j, other]
      receivers := fun j other => by simp [receivers j, other]
      sender := ?_
      receiver := ?_
      fits := fits
      numbered := fun k there => Nat.lt_succ_of_lt (b.numbered c k there)
      kept := fun _ _ same => absurd (bare.symm.trans same) nofun
      fresh := fun _ _ there => .inl there
      answered := fun _ _ there => .inl there }
  · cases mine call' same
    refine ⟨⟨id ▸ Nat.lt_succ_self _, cell, fun _ => waits, fun _ _ => ?_, fun some_ => absurd none_ some_,
      fun _ _ _ holds => absurd (none_.symm.trans holds) nofun⟩, inside, chan, fun j other _ at_' ids => ?_⟩
    · rw [id]
      exact b.new _
    · exact absurd (b.fits j other at_').id (by rw [ids, id]; exact Nat.lt_irrefl _)
  · rw [senders i]
    refine ⟨fun listed => ?_, fun ⟨call', same, _, sends⟩ => .inr ⟨rfl, mine call' same ▸ sends⟩⟩
    rcases listed with old | ⟨_, sends⟩
    · exact absurd old noSender
    · exact ⟨call, at_, none_, sends⟩
  · rw [receivers i]
    refine ⟨fun listed => ?_, fun ⟨call', same, _, receives⟩ => .inr ⟨rfl, mine call' same ▸ receives⟩⟩
    rcases listed with old | ⟨_, receives⟩
    · exact absurd old noReceiver
    · exact ⟨call, at_, none_, receives⟩

/-- The waker's text reaches the task, or a stale cell instead of its own. -/
theorem Books.ends (b : s.Books) {held : Call M} (at_ : (s.threads i).call = some held) {text : Text M}
    (holds : (s.threads i).resumeText = some text) {status : Option (Text M)}
    (status_ : status = some text ∨ status = none ∧ (s.threads i).resumeCell ≠ held.cell) {t : Thread M}
    (over_ : t.call = none) (block : t.block ≠ .send ∧ t.block ≠ .recv) :
    Change s i t held.chan (s.chans held.chan) { s.log with answered := (held, status) :: s.log.answered } := by
  have here := b.known i held at_
  have was := b.fits i held at_
  have unlisted : i ∉ (s.chans held.chan).senders ∧ i ∉ (s.chans held.chan).receivers := by
    constructor <;> intro listed
    · obtain ⟨_, ⟨_, none_⟩, _⟩ := (b.senders _ here i).mp listed
      exact absurd (holds.symm.trans none_) nofun
    · obtain ⟨_, ⟨_, none_⟩, _⟩ := (b.receivers _ here i).mp listed
      exact absurd (holds.symm.trans none_) nofun
  refine
    { here := here
      calls := Nat.le_refl _
      accepted := fun _ _ => rfl
      delivered := fun _ _ => rfl
      accepts := List.Subset.refl _
      answers := List.subset_cons_self _ _
      before := fun call' same => Option.some.inj (at_.symm.trans same) ▸ rfl
      self := fun _ same => absurd (over_.symm.trans same) nofun
      free := fun _ => block
      unheard := fun _ _ _ _ there => there
      senders := fun _ _ => Iff.rfl
      receivers := fun _ _ => Iff.rfl
      sender := ⟨fun listed => absurd listed unlisted.1, fun ⟨_, same, _⟩ => absurd (over_.symm.trans same) nofun⟩
      receiver := ⟨fun listed => absurd listed unlisted.2, fun ⟨_, same, _⟩ => absurd (over_.symm.trans same) nofun⟩
      fits := b.chans _ here
      numbered := fun k there => b.numbered _ k there
      kept := fun call m same receives ok => ?_
      fresh := fun _ _ there => .inl there
      answered := fun call status' there => ?_ }
  · cases Option.some.inj (at_.symm.trans same)
    cases Option.some.inj (holds.symm.trans ok)
    rcases status_ with rfl | ⟨_, stale⟩
    · exact List.mem_cons_self
    · exact absurd (was.cell receives) stale
  · rcases List.mem_cons.mp there with new | old
    · cases new
      refine .inr fun m sends sent => ?_
      rcases was.told m text sends holds with ⟨_, there⟩ | ⟨closed, cell⟩
      · exact there
      · rcases status_ with rfl | ⟨_, stale⟩
        · rcases sent with unbound | ok
          · cases unbound
          · rw [closed] at ok
            cases ok
        · exact absurd cell stale
    · exact .inl old

/-- A task keeps its call, and what its waiting rests on. -/
structure Same (t t' : Thread M) : Prop where
  call : t'.call = t.call
  text : t.call ≠ none → t'.resumeText = t.resumeText
  cell : t.call ≠ none → t'.resumeCell = t.resumeCell
  free : t.call = none → t'.block ≠ .send ∧ t'.block ≠ .recv
  waits : t.call ≠ none → t.resumeText = none → (t'.state = .blocked ∨ t'.state = .nested) ∧ t'.chan = t.chan ∧
    t'.block = t.block ∧ t'.sendText = t.sendText
  loose : t.call ≠ none → t.resumeText ≠ none → t'.block = .none

theorem Same.refl {t : Thread M} (b : s.Books) (at_ : s.threads i = t) : Same t t :=
  ⟨rfl, fun _ => rfl, fun _ => rfl, fun none_ => at_ ▸ b.free i (at_ ▸ none_), fun some_ none_ => by
    obtain ⟨call, same⟩ := Option.ne_none_iff_exists'.mp some_
    have fits := b.fits i call (at_ ▸ same)
    rw [at_] at fits
    exact ⟨(fits.waits none_).1, rfl, rfl, rfl⟩, fun some_ woken => by
    obtain ⟨call, same⟩ := Option.ne_none_iff_exists'.mp some_
    have fits := b.fits i call (at_ ▸ same)
    rw [at_] at fits
    exact fits.loose woken⟩

/-- Steps of the scheduler leave the books as they are. -/
theorem Books.frame (b : s.Books) {s' : World M} (threads : ∀ i, Same (s.threads i) (s'.threads i))
    (nthreads : s.nthreads ≤ s'.nthreads) (chans : s'.chans = s.chans) (nchans : s'.nchans = s.nchans)
    (log : s'.log = s.log) : s'.Books := by
  have waits : ∀ i call, s'.Waits i call ↔ s.Waits i call := by
    intro i call
    have same := threads i
    unfold Waits
    rw [same.call]
    constructor <;> rintro ⟨at_, none_⟩
    · exact ⟨at_, same.text (by simp [at_]) ▸ none_⟩
    · exact ⟨at_, (same.text (by simp [at_])).trans none_⟩
  refine ⟨fun i call at_ => ?_, fun i call at_ => ?_, fun i call at_ => ?_, fun i j a a' one two => ?_, fun i none_ => ?_,
    ?_, ?_, ?_, ?_, ?_, fun c m k there => ?_, ?_⟩
  · have same := threads i
    rw [same.call] at at_
    have some_ : (s.threads i).call ≠ none := by simp [at_]
    have fits := b.fits i call at_
    rw [log]
    refine ⟨fits.id, fun receives => (same.cell some_).trans (fits.cell receives), fun none_ => ?_, fun none_ => ?_,
      fun woken => same.loose some_ (same.text some_ ▸ woken), fun m text sends holds => ?_⟩
    · rw [same.text some_] at none_
      obtain ⟨state, chan, block, text⟩ := same.waits some_ none_
      obtain ⟨_, chan', block', text'⟩ := fits.waits none_
      exact ⟨state, chan.trans chan', block.trans block', fun sends => text.trans (text' sends)⟩
    · exact fits.unheard (same.text some_ ▸ none_)
    · rw [same.text some_] at holds
      rw [same.cell some_]
      exact fits.told m text sends holds
  · rw [(threads i).call] at at_
    exact Nat.lt_of_lt_of_le (b.inside i call at_) nthreads
  · rw [(threads i).call] at at_
    rw [nchans]
    exact b.known i call at_
  · rw [(threads i).call] at one
    rw [(threads j).call] at two
    exact b.apart i j a a' one two
  · exact (threads i).free ((threads i).call ▸ none_)
  · simpa only [waits, chans, nchans] using b.senders
  · simpa only [waits, chans, nchans] using b.receivers
  · rw [chans, nchans, log]
    exact b.chans
  · rw [nchans, log]
    exact b.blank
  · rw [log]
    exact b.numbered
  · rw [log] at there
    rcases b.reached c m k there with ⟨call, id, chan, receives, old⟩ | ⟨i, call, at_, id, chan, receives, holds⟩
    · exact .inl ⟨call, id, chan, receives, log ▸ old⟩
    · refine .inr ⟨i, call, (threads i).call.trans at_, id, chan, receives, ?_⟩
      exact ((threads i).text (by simp [at_])).trans holds
  · rw [log]
    exact b.answered

theorem waiting_eq {call : Call M} (waits : s.Waits i call) (chan : call.chan = c)
    (receives : call.message.isSome = false) : s.waiting i c = some call.id := by
  have none_ : call.message.isNone = true := by simpa using receives
  simp [World.waiting, waits.1, waits.2, chan, none_]

/-- A send finds a receiver, room in the buffer, a closed channel, or fewer than 64 senders waiting. -/
theorem Books.send (b : s.Books) (bare : (s.threads i).call = none) (clear : (s.threads i).resumeText = none)
    (inside : i < s.nthreads) (c : Nat) (m : M) (cell : Nat) (nested : Bool)
    (room : c < s.nchans → (s.chans c).closed = false → (s.chans c).receivers = [] →
      ¬(0 < (s.chans c).cap ∧ (s.chans c).buf.count < (s.chans c).cap) → (s.chans c).senders.length < 64) :
    (s.async_send w i c m cell nested).Books := by
  unfold async_send
  split
  · exact b
  rename_i here
  have here : c < s.nchans := Nat.lt_of_not_le here
  have fits := b.chans c here
  simp only
  split
  · refine b.change (i := i) (c := c) ?_ ⟨rfl, fun _ _ => rfl, rfl, rfl, fun _ _ => rfl, rfl, rfl⟩
    refine b.spot here bare ⟨rfl, rfl⟩ fits rfl (fun _ _ => rfl) (fun _ _ => rfl) (List.Subset.refl _) rfl (.inl rfl) ?_
    intro m' _ sent
    rcases sent with unbound | ok
    · cases unbound
    · cases ok
  rename_i opened
  split
  · rename_i r rest list
    have list : (s.chans c).receivers = r :: rest := list
    obtain ⟨held, waits, chan, receives⟩ := (b.receivers c here r).mp (by simp [list])
    have once := fits.once.2
    rw [list] at once
    have idle := (fits.receiverWaits (by simp [list])).2
    have name : s.called.waiting r c = some held.id := waiting_eq waits chan receives
    rw [name]
    refine b.change (i := r) ?_ ⟨threads_self _, fun j other => threads_other other _, rfl, chans_self _,
      fun d other => chans_other other _, rfl, rfl⟩
    have new : some held.id ∉ (s.log.delivered c).map (·.2) :=
      chan ▸ (b.fits r held waits.1).unheard waits.2 (by simpa using receives)
    refine b.wakes here waits chan waits.1 rfl rfl rfl (fun m' sends => ?_) (fun j => ?_) (fun j => ?_) ?_ rfl (fun d other => ?_)
      (fun d other => ?_) ?_ rfl ?_ (.inl ⟨rfl, by simpa using receives, rfl⟩) (fun m' sends _ => ?_)
    · simp [sends] at receives
    · simp [called, idle]
    · simp only [List.nodup_cons] at once
      simp only [list, List.mem_cons]
      exact ⟨fun there => ⟨fun same => once.1 (same ▸ there), .inr there⟩, fun both => both.2.resolve_left both.1⟩
    · simpa [answer, setChan, setThread, deliver, accept, called] using fits.hand list new m (some s.log.calls)
    · simp [answer, setChan, setThread, deliver, accept, called, other]
    · simp [answer, setChan, setThread, deliver, accept, called, other]
    · simp [answer, setChan, setThread, deliver, accept, called]
    · simp [answer, setChan, setThread, deliver, accept, called]
    · cases Option.some.inj sends
      simp [answer, setChan, setThread, deliver, accept, called]
  rename_i idle
  split
  · rename_i space
    refine b.change (i := i) ?_ ⟨rfl, fun _ _ => rfl, rfl, chans_self _, fun d other => chans_other other _, rfl, rfl⟩
    refine b.spot here bare ⟨rfl, rfl⟩ ?_ rfl (fun d other => ?_) (fun _ _ => rfl) ?_ rfl (.inl rfl) fun m' sends _ => ?_
    · simpa [answer, setChan, accept, called] using fits.push idle space.2 m (some s.log.calls)
    · simp [answer, setChan, accept, called, other]
    · simp [answer, setChan, accept, called]
    · cases Option.some.inj sends
      simp [answer, setChan, accept, called]
  rename_i full
  split
  · refine b.change (i := i) ?_ ⟨threads_self _, fun j other => threads_other other _, rfl, chans_self _,
      fun d other => chans_other other _, rfl, rfl⟩
    refine b.joins here bare inside rfl rfl rfl clear (by simp) ⟨?_, rfl, rfl, fun _ => rfl⟩ (fun j => ?_) (fun j => ?_) ?_
    · cases nested <;> simp
    · simp [called]
    · simp [called]
    · exact fits.waitSend idle (by simpa [called] using opened) full (b.not_listed here bare).1
  · rename_i many
    exact absurd (room here (by simpa [called] using opened) idle full) many

theorem move_sender_none (list : (s.chans c).senders = []) : s.move_sender c = s := by
  simp [World.move_sender, list]

/-- The first waiting sender is told its send is done. -/
theorem Changed.releases {u : World M} (threads : u.threads = s.threads) (nthreads : u.nthreads = s.nthreads)
    (chans : ∀ d, d ≠ c → u.chans d = s.chans d) (nchans : u.nchans = s.nchans) {si : Nat} (rest : List Nat) {m : M}
    (text : (s.threads si).sendText = some m) {call : Call M} (at_ : (s.threads si).call = some call) :
    Changed s (u.releaseSender c si rest) si { (s.threads si).woken .okSend with sendText := none } c
      { u.chans c with senders := rest }
      { u.log with accepted := Function.update u.log.accepted c (u.log.accepted c ++ [(m, some call.id)]) } := by
  have form : u.releaseSender c si rest = ((u.accept c m (some call.id)).setThread si
      { (s.threads si).woken .okSend with sendText := none }).setChan c { u.chans c with senders := rest } := by
    simp only [World.releaseSender, threads, text, at_, Option.map_some]
    rfl
  rw [form]
  refine ⟨threads_self _, fun j other => (threads_other other _).trans (congrFun threads j), nthreads, chans_self _,
    fun d other => (chans_other other _).trans (chans d other), nchans, rfl⟩

/-- The first waiting sender takes the slot that is free. -/
theorem Changed.moves {u : World M} (threads : u.threads = s.threads) (nthreads : u.nthreads = s.nthreads)
    (chans : ∀ d, d ≠ c → u.chans d = s.chans d) (nchans : u.nchans = s.nchans) {si : Nat} {rest : List Nat}
    {ch : Chan M} (here : u.chans c = ch) (list : ch.senders = si :: rest) (room : ch.buf.count < ch.cap) {m : M}
    (text : (s.threads si).sendText = some m) {call : Call M} (at_ : (s.threads si).call = some call) :
    Changed s (u.move_sender c) si { (s.threads si).woken .okSend with sendText := none } c
      { ch with buf := ch.buf.push ch.cap (some m), senders := rest }
      { u.log with accepted := Function.update u.log.accepted c (u.log.accepted c ++ [(m, some call.id)]) } := by
  have form : u.move_sender c = (u.setChan c { ch with buf := ch.buf.push ch.cap (some m) }).releaseSender c si rest := by
    have fits : 0 < ch.cap ∧ ch.buf.count < ch.cap := ⟨Nat.lt_of_le_of_lt (Nat.zero_le _) room, room⟩
    simp only [World.move_sender, here, list, fits, and_self, if_true, threads, text]
  rw [form]
  have released := @Changed.releases _ s c (u.setChan c { ch with buf := ch.buf.push ch.cap (some m) }) threads nthreads
    (fun d other => (chans_other other _).trans (chans d other)) nchans si rest m text call at_
  rwa [chans_self] at released

/-- What a waiting sender holds. -/
theorem Books.sending (b : s.Books) (here : c < s.nchans) {si : Nat} (listed : si ∈ (s.chans c).senders) :
    ∃ call m, s.Waits si call ∧ call.chan = c ∧ call.message = some m ∧ (s.threads si).sendText = some m := by
  obtain ⟨call, waits, chan, sends⟩ := (b.senders c here si).mp listed
  obtain ⟨m, message⟩ := Option.isSome_iff_exists.mp sends
  exact ⟨call, m, waits, chan, message, (((b.fits si call waits.1).waits waits.2).2.2.2 sends).trans message⟩

/-- A receive finds a message, a sender, a closed channel, or fewer than 64 receivers waiting. -/
theorem Books.recv (b : s.Books) (bare : (s.threads i).call = none) (clear : (s.threads i).resumeText = none)
    (inside : i < s.nthreads) (c cell : Nat) (nested : Bool)
    (room : c < s.nchans → (s.chans c).buf.count = 0 → (s.chans c).senders = [] → (s.chans c).closed = false →
      (s.chans c).receivers.length < 64) : (s.async_recv w i c cell nested).Books := by
  unfold async_recv
  split
  · exact b
  rename_i here
  have here : c < s.nchans := Nat.lt_of_not_le here
  have fits := b.chans c here
  simp only
  split
  · rename_i some_
    have some_ : 0 < (s.chans c).buf.count := some_
    cases list : (s.chans c).senders with
    | nil =>
      obtain ⟨m, first, fits'⟩ := fits.pop list some_ (b.new c)
      have first : (s.called.chans c).buf.first = some m := first
      rw [first, move_sender_none (by simpa [called] using list)]
      refine b.change (i := i) ?_ ⟨rfl, fun _ _ => rfl, rfl, chans_self _, fun d other => chans_other other _, rfl, rfl⟩
      refine b.spot here bare ⟨rfl, rfl⟩ ?_ rfl (fun _ _ => rfl) (fun d other => ?_) (List.Subset.refl _) rfl
        (.inr ⟨m, ?_, rfl, rfl, rfl, rfl⟩) nofun
      · simpa [receives, answer, setChan, deliver, called] using fits'
      · simp [receives, answer, setChan, deliver, called, other]
      · simp [receives, answer, setChan, deliver, called]
    | cons si rest =>
      obtain ⟨held, m', waits, chan, message, text⟩ := b.sending here (list ▸ List.mem_cons_self)
      obtain ⟨space, m, first, fits'⟩ := fits.shift list some_ (b.new c) m' (some held.id)
      have first : (s.called.chans c).buf.first = some m := first
      have once := fits.once.1
      rw [list] at once
      rw [first]
      have to_ := @Changed.moves _ s c ((s.called.receives c (some m) ⟨s.log.calls, cell, c, none⟩).setChan c
        { s.chans c with buf := (s.chans c).buf.pop (s.chans c).cap }) rfl rfl (fun d other => chans_other other _) rfl si
        rest _ (chans_self _) list space m' text held waits.1
      refine b.change ?_ to_
      refine b.wakes here waits chan waits.1 rfl rfl rfl (fun m'' sends => ⟨rfl, ?_⟩) (fun j => ?_) (fun j => ?_) ?_ rfl
        (fun d other => ?_) (fun d other => ?_) ?_ rfl ?_ (.inr ⟨rfl, rfl, rfl, rfl, rfl⟩) nofun
      · rw [message] at sends
        cases sends
        simp
      · simp only [list, List.mem_cons]
        exact ⟨fun there => ⟨fun same => (List.nodup_cons.mp once).1 (same ▸ there), .inr there⟩, fun ⟨other, there⟩ =>
          there.resolve_left other⟩
      · simp [fits.no_receivers list]
      · simpa [receives, answer, setChan, deliver, called] using fits'
      · simp [receives, answer, setChan, deliver, called, other]
      · simp [receives, answer, setChan, deliver, called, other]
      · simp [receives, answer, setChan, deliver, called]
      · simp [receives, answer, setChan, deliver, called]
  rename_i none_
  have none_ : (s.chans c).buf.count = 0 := Nat.eq_zero_of_not_pos none_
  split
  · rename_i si rest list
    have list : (s.chans c).senders = si :: rest := list
    obtain ⟨held, m, waits, chan, message, text⟩ := b.sending here (list ▸ List.mem_cons_self)
    have once := fits.once.1
    rw [list] at once
    have text' : (s.called.threads si).sendText = some m := text
    have to_ := @Changed.releases _ s c s.called rfl rfl (fun _ _ => rfl) rfl si rest m text held waits.1
    rw [text']
    have log_ : ((s.called.releaseSender c si rest).receives c (some m) ⟨s.log.calls, cell, c, none⟩).log =
        { calls := s.log.calls + 1
          accepted := Function.update s.log.accepted c (s.log.accepted c ++ [(m, some held.id)])
          delivered := Function.update s.log.delivered c (s.log.delivered c ++ [(m, some s.log.calls)])
          answered := (⟨s.log.calls, cell, c, none⟩, some (.ok m)) :: s.log.answered } := by
      simp only [receives, answer, deliver, to_.log]
      rfl
    refine b.change (i := si) ?_ ⟨to_.self, to_.others, to_.nthreads, to_.here, to_.chans, to_.nchans, log_⟩
    refine b.wakes here waits chan waits.1 rfl rfl rfl (fun m'' sends => ⟨rfl, ?_⟩) (fun j => ?_) (fun j => ?_) ?_ rfl
      (fun d other => Function.update_of_ne other _ _) (fun d other => Function.update_of_ne other _ _) ?_ rfl
      (Function.update_self _ _ _) (.inr ⟨rfl, rfl, rfl, rfl, rfl⟩) nofun
    · rw [message] at sends
      cases sends
      simp
    · simp only [list, List.mem_cons]
      exact ⟨fun there => ⟨fun same => (List.nodup_cons.mp once).1 (same ▸ there), .inr there⟩, fun ⟨other, there⟩ =>
        there.resolve_left other⟩
    · simp [called, fits.no_receivers list]
    · simpa [called] using fits.take list none_ (b.new c) m (some held.id)
    · simp
  rename_i idle
  have idle : (s.chans c).senders = [] := idle
  split
  · refine b.change (i := i) (c := c) ?_ ⟨rfl, fun _ _ => rfl, rfl, rfl, fun _ _ => rfl, rfl, rfl⟩
    exact b.spot here bare ⟨rfl, rfl⟩ fits rfl (fun _ _ => rfl) (fun _ _ => rfl) (List.Subset.refl _) rfl (.inl rfl) nofun
  rename_i opened
  have opened : (s.chans c).closed = false := by simpa [called] using opened
  split
  · refine b.change (i := i) ?_ ⟨threads_self _, fun j other => threads_other other _, rfl, chans_self _,
      fun d other => chans_other other _, rfl, rfl⟩
    refine b.joins here bare inside rfl rfl rfl clear (fun _ => rfl) ⟨?_, rfl, rfl, nofun⟩ (fun j => ?_) (fun j => ?_) ?_
    · cases nested <;> simp
    · simp [called]
    · simp [called]
    · exact fits.waitRecv idle opened none_ (b.not_listed here bare).2
  · rename_i many
    exact absurd (room here none_ idle opened) many

theorem foldl_threads (g : Thread M → Thread M) (l : List Nat) (once : l.Nodup) (s : World M) :
    l.foldl (fun s i => s.setThread i (g (s.threads i))) s =
      { s with threads := fun j => if j ∈ l then g (s.threads j) else s.threads j } := by
  induction l generalizing s with
  | nil => simp
  | cons i rest ih =>
    obtain ⟨new, once⟩ := List.nodup_cons.mp once
    rw [List.foldl_cons, ih once]
    simp only [setThread, World.mk.injEq, true_and, and_true]
    funext j
    by_cases same : j = i
    · subst same
      simp [new]
    · simp [same]

/-- What closing channel `c` does to a task. -/
def shut (s : World M) (c j : Nat) : Thread M :=
  if j ∈ (s.chans c).receivers then (s.threads j).woken .closed
  else if j ∈ (s.chans c).senders then { (s.threads j).woken (.error .sendClosed) with sendText := none }
  else s.threads j

theorem Books.chan_close_eq (b : s.Books) (here : c < s.nchans) :
    s.chan_close c = { s with
      threads := s.shut c
      chans := Function.update s.chans c { s.chans c with closed := true, senders := [], receivers := [] } } := by
  have fits := b.chans c here
  unfold chan_close
  rw [if_neg (Nat.not_le.mpr here)]
  have first := foldl_threads (fun t : Thread M => { t.woken (.error .sendClosed) with sendText := none }) _ fits.once.1 s
  simp only at first ⊢
  rw [first, foldl_threads (fun t : Thread M => t.woken .closed) _ fits.once.2]
  simp only [setChan, World.mk.injEq, true_and, and_true]
  funext j
  unfold shut
  by_cases receives : j ∈ (s.chans c).receivers
  · have idle := (fits.receiverWaits (List.ne_nil_of_mem receives)).2
    simp [receives, idle]
  · simp [receives]

theorem shut_call (j : Nat) : (s.shut c j).call = (s.threads j).call ∧ (s.shut c j).resumeCell = (s.threads j).resumeCell := by
  unfold shut
  split
  · exact ⟨rfl, rfl⟩
  · split <;> exact ⟨rfl, rfl⟩

/-- A close leaves those that wait elsewhere alone. -/
theorem Books.shut_other (b : s.Books) (here : c < s.nchans) {j : Nat} {call : Call M} (waits : s.Waits j call)
    (away : call.chan ≠ c) : s.shut c j = s.threads j := by
  have noReceiver : j ∉ (s.chans c).receivers := by
    intro listed
    obtain ⟨call', waits', chan, _⟩ := (b.receivers c here j).mp listed
    exact away (Option.some.inj (waits.1.symm.trans waits'.1) ▸ chan)
  have noSender : j ∉ (s.chans c).senders := by
    intro listed
    obtain ⟨call', waits', chan, _⟩ := (b.senders c here j).mp listed
    exact away (Option.some.inj (waits.1.symm.trans waits'.1) ▸ chan)
  simp [shut, noReceiver, noSender]

/-- Who still waits after the close waited before, and on another channel. -/
theorem Books.shut_waits (b : s.Books) (here : c < s.nchans) {j : Nat} {call : Call M} :
    ((s.shut c j).call = some call ∧ (s.shut c j).resumeText = none) ↔ s.Waits j call ∧ call.chan ≠ c := by
  rw [(shut_call j).1]
  constructor
  · rintro ⟨at_, none_⟩
    unfold shut at none_
    split at none_
    · cases none_
    split at none_
    · cases none_
    rename_i noReceiver noSender
    refine ⟨⟨at_, none_⟩, fun chan => ?_⟩
    cases kind : call.message.isSome with
    | true => exact noSender ((b.senders c here j).mpr ⟨call, ⟨at_, none_⟩, chan, kind⟩)
    | false => exact noReceiver ((b.receivers c here j).mpr ⟨call, ⟨at_, none_⟩, chan, kind⟩)
  · rintro ⟨⟨at_, none_⟩, away⟩
    exact ⟨at_, b.shut_other here ⟨at_, none_⟩ away ▸ none_⟩

theorem Books.shut_fits (b : s.Books) (here : c < s.nchans) {j : Nat} {call : Call M}
    (at_ : (s.threads j).call = some call) (cell : j ∈ (s.chans c).senders → (s.threads j).resumeCell = call.cell) :
    (s.shut c j).Fits s.log call := by
  have was := b.fits j call at_
  refine ⟨was.id, fun receives => (shut_call j).2.trans (was.cell receives), fun none_ => ?_, fun none_ receives => ?_,
    fun woken => ?_, fun m text sends holds => ?_⟩
  · obtain ⟨waits, away⟩ := (b.shut_waits here).mp ⟨(shut_call j).1.trans at_, none_⟩
    rw [b.shut_other here waits away]
    exact was.waits waits.2
  · obtain ⟨waits, away⟩ := (b.shut_waits here).mp ⟨(shut_call j).1.trans at_, none_⟩
    exact was.unheard waits.2 receives
  · unfold shut at woken ⊢
    split
    · rfl
    split
    · rfl
    · rename_i noReceiver noSender
      simp only [noReceiver, noSender, if_false] at woken
      exact was.loose woken
  · rw [(shut_call j).2]
    unfold shut at holds
    split at holds
    · rename_i listed
      obtain ⟨call', waits, _, receives⟩ := (b.receivers c here j).mp listed
      cases Option.some.inj (at_.symm.trans waits.1)
      simp [sends] at receives
    split at holds
    · rename_i listed
      exact .inr ⟨(Option.some.inj holds).symm, cell listed⟩
    · exact was.told m text sends holds

/-- A close tells every waiter; a sender it tells has the cell of its own call on record. -/
theorem Books.close (b : s.Books) (here : c < s.nchans)
    (cells : ∀ j ∈ (s.chans c).senders, ∀ call ∈ (s.threads j).call, (s.threads j).resumeCell = call.cell) :
    (s.chan_close c).Books := by
  rw [b.chan_close_eq here]
  have fits := b.chans c here
  refine ⟨fun j call at_ => ?_, fun j call at_ => ?_, fun j call at_ => ?_, fun j k a a' one two => ?_, fun j none_ => ?_,
    fun d inside j => ?_, fun d inside j => ?_, fun d inside => ?_, b.blank, b.numbered, fun d m k there => ?_, b.answered⟩
  · rw [(shut_call j).1] at at_
    exact b.shut_fits here at_ fun listed => cells j listed call at_
  · rw [(shut_call j).1] at at_
    exact b.inside j call at_
  · rw [(shut_call j).1] at at_
    exact b.known j call at_
  · rw [(shut_call j).1] at one
    rw [(shut_call k).1] at two
    exact b.apart j k a a' one two
  · have was := b.free j ((shut_call j).1 ▸ none_)
    simp only [shut]
    split
    · exact ⟨nofun, nofun⟩
    split
    · exact ⟨nofun, nofun⟩
    · exact was
  · simp only [Waits, b.shut_waits here]
    by_cases same : d = c
    · subst same
      rw [Function.update_self]
      exact ⟨nofun, fun ⟨_, waits, chan, _⟩ => absurd chan waits.2⟩
    · rw [Function.update_of_ne same, b.senders d inside j]
      constructor <;> rintro ⟨call, waits, chan, sends⟩
      · exact ⟨call, ⟨waits, chan ▸ same⟩, chan, sends⟩
      · exact ⟨call, waits.1, chan, sends⟩
  · simp only [Waits, b.shut_waits here]
    by_cases same : d = c
    · subst same
      rw [Function.update_self]
      exact ⟨nofun, fun ⟨_, waits, chan, _⟩ => absurd chan waits.2⟩
    · rw [Function.update_of_ne same, b.receivers d inside j]
      constructor <;> rintro ⟨call, waits, chan, receives⟩
      · exact ⟨call, ⟨waits, chan ▸ same⟩, chan, receives⟩
      · exact ⟨call, waits.1, chan, receives⟩
  · by_cases same : d = c
    · subst same
      simpa using fits.close
    · simpa [same] using b.chans d inside
  · rcases b.reached d m k there with old | ⟨j, call, at_, id, chan, receives, holds⟩
    · exact .inl old
    · refine .inr ⟨j, call, (shut_call j).1.trans at_, id, chan, receives, ?_⟩
      have noReceiver : j ∉ (s.chans c).receivers := by
        intro listed
        obtain ⟨_, waits, _⟩ := (b.receivers c here j).mp listed
        exact absurd (holds.symm.trans waits.2) nofun
      have noSender : j ∉ (s.chans c).senders := by
        intro listed
        obtain ⟨_, waits, _⟩ := (b.senders c here j).mp listed
        exact absurd (holds.symm.trans waits.2) nofun
      simpa [shut, noReceiver, noSender] using holds

theorem Books.channel (b : s.Books) (size : Int) : (s.chan_new size).Books := by
  unfold chan_new
  split
  · have unused : ∀ j call, s.Waits j call → call.chan ≠ s.nchans := fun j call waits =>
      Nat.ne_of_lt (b.known j call waits.1)
    have cases_ : ∀ d, d < s.nchans + 1 → d ≠ s.nchans → d < s.nchans := fun d inside other =>
      Nat.lt_of_le_of_ne (Nat.le_of_lt_succ inside) other
    refine ⟨b.fits, b.inside, fun j call at_ => Nat.lt_succ_of_lt (b.known j call at_), b.apart, b.free,
      fun d inside j => ?_, fun d inside j => ?_, fun d inside => ?_, fun d out => b.blank d (Nat.le_of_succ_le out),
      b.numbered, b.reached, b.answered⟩
    · by_cases same : d = s.nchans
      · subst same
        rw [show (({ s.setChan s.nchans ⟨size.toNat, false, .empty, [], []⟩ with nchans := s.nchans + 1 } : World M).chans
          s.nchans).senders = [] from congrArg Chan.senders (chans_self _)]
        exact ⟨nofun, fun ⟨call, waits, chan, _⟩ => absurd chan (unused j call waits)⟩
      · have old := b.senders d (cases_ d inside same) j
        rwa [← chans_other same (⟨size.toNat, false, .empty, [], []⟩ : Chan M)] at old
    · by_cases same : d = s.nchans
      · subst same
        rw [show (({ s.setChan s.nchans ⟨size.toNat, false, .empty, [], []⟩ with nchans := s.nchans + 1 } : World M).chans
          s.nchans).receivers = [] from congrArg Chan.receivers (chans_self _)]
        exact ⟨nofun, fun ⟨call, waits, chan, _⟩ => absurd chan (unused j call waits)⟩
      · have old := b.receivers d (cases_ d inside same) j
        rwa [← chans_other same (⟨size.toNat, false, .empty, [], []⟩ : Chan M)] at old
    · by_cases same : d = s.nchans
      · subst same
        obtain ⟨accepted, delivered⟩ := b.blank s.nchans (Nat.le_refl _)
        have new : Chan.Fits (⟨size.toNat, false, .empty, [], []⟩ : Chan M) [] [] :=
          ⟨⟨[], RingBuffer.holds_empty _, rfl⟩, nofun, List.nodup_nil, nofun, nofun, ⟨List.nodup_nil, List.nodup_nil⟩, nofun⟩
        have goal : ((s.setChan s.nchans ⟨size.toNat, false, .empty, [], []⟩).chans s.nchans).Fits
            (s.log.accepted s.nchans) (s.log.delivered s.nchans) := by
          rw [chans_self, accepted, delivered]
          exact new
        exact goal
      · have old := b.chans d (cases_ d inside same)
        rwa [← chans_other same (⟨size.toNat, false, .empty, [], []⟩ : Chan M)] at old
  · exact b

end Operations

end World
end Cocolog.Green
