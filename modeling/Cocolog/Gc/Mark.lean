import Cocolog.Gc.Bits
import Cocolog.Gc.Machine
import Mathlib.Algebra.BigOperators.Group.Finset.Basic
import Mathlib.Algebra.Order.BigOperators.Group.Finset

/-! The mark. A stack of cells still to look at, from one root after another, until every
cell a marked one names is marked; the marked are then exactly what the roots reach. A
stack that cannot grow abandons the collection. -/

set_option linter.all false

namespace Cocolog.Gc

open Cocolog.Lib Cocolog.Term

namespace Machine

/-- The goals a marker names by their indices, where it holds integers. -/
def markerGoals (m : Machine) (t : Nat) : List Nat :=
  [t + 1, t + 3].flatMap fun a =>
    match m.heap (deref m.heap m.heapLen a) with
    | .int q => if 0 ≤ q then [q.toNat] else []
    | _ => []

/-- The cells a cell names. -/
def edges (m : Machine) (t : Nat) : List Nat :=
  match m.heap t with
  | .ref p => if p = t then [] else [p]
  | .pos w => if w / 65536 ≤ t then [t - w / 65536] else []
  | .func f => List.range' (t + 1) (m.arity f) ++ if f = m.texit then m.markerGoals t else []
  | _ => []

/-- `coco_gc_push`, one cell after another onto a stack with room for `room`. -/
def pushAll (room : Nat) : List Nat → List Nat → Option (List Nat)
  | [], stack => some stack
  | c :: cs, stack => if stack.length < room then pushAll room cs (c :: stack) else none

/-- The loop of `coco_gc_mark`. -/
def drain (m : Machine) (room : Nat) : Nat → Bits → List Nat → Option Bits
  | _, bits, [] => some bits
  | 0, _, _ :: _ => none
  | turns + 1, bits, t :: stack =>
    if m.heapLen ≤ t ∨ bits.marked t = true then m.drain room turns bits stack
    else
      let bits := bits.mark t
      match pushAll room ((m.edges t).filter fun q => decide (q < m.heapLen) && !bits.marked q)
        stack with
      | none => none
      | some stack => m.drain room turns bits stack

/-- How many cells all of the heap's cells name. -/
def degree (m : Machine) : Nat := ∑ t ∈ Finset.range m.heapLen, (m.edges t).length

/-- `coco_gc_mark`. No mark takes more turns: a cell is pushed only by one just marked. -/
def markRoot (m : Machine) (room : Nat) (bits : Bits) (root : Nat) : Option Bits :=
  if m.heapLen ≤ root ∨ bits.marked root = true then some bits
  else (pushAll room [root] []).bind fun stack => m.drain room (m.degree + 1) bits stack

def markAll (m : Machine) (room : Nat) (bits : Bits) (roots : List Nat) : Option Bits :=
  roots.foldlM (m.markRoot room) bits

/- What the mark finds. -/

/-- The cells reached from some. -/
inductive Reach (m : Machine) (roots : List Nat) : Nat → Prop where
  | root {r : Nat} (mem : r ∈ roots) (below : r < m.heapLen) : Reach m roots r
  | step {t q : Nat} (from_ : Reach m roots t) (mem : q ∈ m.edges t) (below : q < m.heapLen) :
      Reach m roots q

/-- Every cell a marked one names is marked or waiting. -/
def Waits (m : Machine) (bits : Bits) (stack : List Nat) : Prop :=
  ∀ t, bits.marked t = true → t < m.heapLen ∧
    ∀ q ∈ m.edges t, q < m.heapLen → bits.marked q = true ∨ q ∈ stack

variable {m : Machine}

theorem pushAll_some {room : Nat} {cs stack stack' : List Nat}
    (pushed : pushAll room cs stack = some stack') : stack' = cs.reverse ++ stack := by
  induction cs generalizing stack with
  | nil => exact (Option.some.inj pushed).symm
  | cons c cs ih =>
    unfold pushAll at pushed
    split at pushed
    · rw [ih pushed, List.reverse_cons, List.append_assoc]
      rfl
    · cases pushed

theorem pushAll_room {room : Nat} {cs stack : List Nat} (fits : stack.length + cs.length ≤ room) :
    pushAll room cs stack = some (cs.reverse ++ stack) := by
  induction cs generalizing stack with
  | nil => rfl
  | cons c cs ih =>
    rw [List.length_cons] at fits
    rw [pushAll, if_pos (by omega), ih (by rw [List.length_cons]; omega), List.reverse_cons,
      List.append_assoc]
    rfl

theorem Waits.pushed {bits : Bits} {t : Nat} {stack : List Nat} (waits : m.Waits bits (t :: stack))
    (inside : t < m.heapLen) :
    m.Waits (bits.mark t) (((m.edges t).filter fun q =>
      decide (q < m.heapLen) && !(bits.mark t).marked q).reverse ++ stack) := by
  intro i marked
  rw [Bits.marked_mark, Bool.or_eq_true, decide_eq_true_iff] at marked
  have told : ∀ q, q < m.heapLen → q ∈ m.edges t ∨ bits.marked q = true ∨ q ∈ t :: stack →
      (bits.mark t).marked q = true ∨ q ∈ ((m.edges t).filter fun q =>
        decide (q < m.heapLen) && !(bits.mark t).marked q).reverse ++ stack := by
    intro q below known
    cases now : (bits.mark t).marked q with
    | true => exact .inl rfl
    | false =>
      refine .inr ?_
      rw [List.mem_append, List.mem_reverse, List.mem_filter]
      rw [Bits.marked_mark, Bool.or_eq_false_iff, decide_eq_false_iff_not] at now
      rcases known with edge | marked | waiting
      · refine .inl ⟨edge, ?_⟩
        rw [Bits.marked_mark, now.2, decide_eq_false now.1, decide_eq_true below]
        rfl
      · rw [marked] at now
        cases now.2
      · rcases List.mem_cons.mp waiting with rfl | waiting
        · exact absurd rfl now.1
        · exact .inr waiting
  rcases marked with rfl | marked
  · exact ⟨inside, fun q edge below => told q below (.inl edge)⟩
  · refine ⟨(waits i marked).1, fun q edge below => told q below ?_⟩
    exact .inr ((waits i marked).2 q edge below)

theorem Waits.pop {bits : Bits} {t : Nat} {stack : List Nat} (waits : m.Waits bits (t :: stack))
    (done : m.heapLen ≤ t ∨ bits.marked t = true) : m.Waits bits stack := by
  intro i marked
  refine ⟨(waits i marked).1, fun q edge below => ?_⟩
  rcases (waits i marked).2 q edge below with known | waiting
  · exact .inl known
  · rcases List.mem_cons.mp waiting with rfl | waiting
    · rcases done with past | known
      · exact absurd below (Nat.not_lt.mpr past)
      · exact .inl known
    · exact .inr waiting

/-- A drained stack leaves nothing waiting, marks what it held, and nothing that is not
reached. -/
theorem drain_spec {room turns : Nat} {bits bits' : Bits} {stack : List Nat} {reached : Nat → Prop}
    (drained : m.drain room turns bits stack = some bits') (waits : m.Waits bits stack)
    (known : ∀ i, bits.marked i = true → reached i)
    (held : ∀ t ∈ stack, t < m.heapLen → reached t)
    (closed : ∀ t q, reached t → q ∈ m.edges t → q < m.heapLen → reached q) :
    m.Waits bits' [] ∧ (∀ i, bits.marked i = true → bits'.marked i = true) ∧
      (∀ t ∈ stack, t < m.heapLen → bits'.marked t = true) ∧
      ∀ i, bits'.marked i = true → reached i := by
  induction turns generalizing bits stack with
  | zero =>
    cases stack with
    | nil =>
      cases drained
      exact ⟨waits, fun _ h => h, (fun t mem => by cases mem), known⟩
    | cons t stack => cases drained
  | succ turns ih =>
    cases stack with
    | nil =>
      cases drained
      exact ⟨waits, fun _ h => h, (fun t mem => by cases mem), known⟩
    | cons t stack =>
      unfold drain at drained
      split at drained
      · rename_i done
        obtain ⟨waits', more, marked, sound⟩ := ih drained (waits.pop done) known
          fun t mem => held t (List.mem_cons_of_mem _ mem)
        refine ⟨waits', more, ?_, sound⟩
        intro s mem below
        rcases List.mem_cons.mp mem with rfl | mem
        · rcases done with past | known
          · exact absurd below (Nat.not_lt.mpr past)
          · exact more s known
        · exact marked s mem below
      · rename_i fresh
        have inside : t < m.heapLen := Nat.lt_of_not_le fun le => fresh (.inl le)
        dsimp only at drained
        split at drained
        · cases drained
        · rename_i stack' pushed
          rw [pushAll_some pushed] at drained
          have here := held t List.mem_cons_self inside
          have known' : ∀ i, (bits.mark t).marked i = true → reached i := by
            intro i now
            rw [Bits.marked_mark, Bool.or_eq_true, decide_eq_true_iff] at now
            rcases now with rfl | now
            · exact here
            · exact known i now
          obtain ⟨waits', more, marked, sound⟩ := ih drained (waits.pushed inside) known' (by
            intro s mem below
            rcases List.mem_append.mp mem with mem | mem
            · rw [List.mem_reverse, List.mem_filter] at mem
              exact closed t s here mem.1 below
            · exact held s (List.mem_cons_of_mem _ mem) below)
          refine ⟨waits', fun i known => more i ?_, ?_, sound⟩
          · rw [Bits.marked_mark, known, Bool.or_true]
          · intro s mem below
            rcases List.mem_cons.mp mem with rfl | mem
            · exact more s (by rw [Bits.marked_mark, decide_eq_true rfl, Bool.true_or])
            · exact marked s (List.mem_append_right _ mem) below

theorem markRoot_spec {room root : Nat} {bits bits' : Bits} {reached : Nat → Prop}
    (marks : m.markRoot room bits root = some bits') (waits : m.Waits bits [])
    (known : ∀ i, bits.marked i = true → reached i) (held : root < m.heapLen → reached root)
    (closed : ∀ t q, reached t → q ∈ m.edges t → q < m.heapLen → reached q) :
    m.Waits bits' [] ∧ (∀ i, bits.marked i = true → bits'.marked i = true) ∧
      (root < m.heapLen → bits'.marked root = true) ∧ ∀ i, bits'.marked i = true → reached i := by
  unfold markRoot at marks
  split at marks
  · rename_i done
    cases marks
    refine ⟨waits, fun _ h => h, fun below => ?_, known⟩
    rcases done with past | marked
    · exact absurd below (Nat.not_lt.mpr past)
    · exact marked
  · obtain ⟨stack, pushed, drained⟩ := Option.bind_eq_some_iff.mp marks
    rw [pushAll_some pushed] at drained
    have start : m.Waits bits ([root].reverse ++ []) :=
      fun i marked => ⟨(waits i marked).1, fun q edge below =>
        .inl (((waits i marked).2 q edge below).resolve_right (List.not_mem_nil))⟩
    obtain ⟨waits', more, marked, sound⟩ := drain_spec drained start known (by
      intro t mem below
      rw [List.mem_singleton.mp mem] at below ⊢
      exact held below) closed
    exact ⟨waits', more, marked root (List.mem_singleton_self root), sound⟩

/-- The marked cells are the reached ones. -/
theorem markAll_spec {room : Nat} {roots : List Nat} {bits : Bits}
    (marks : m.markAll room Bits.empty roots = some bits) (i : Nat) :
    bits.marked i = true ↔ m.Reach roots i := by
  have general : ∀ (rest : List Nat) (bits bits' : Bits), rest ⊆ roots →
      rest.foldlM (m.markRoot room) bits = some bits' → m.Waits bits [] →
      (∀ i, bits.marked i = true → m.Reach roots i) →
      m.Waits bits' [] ∧ (∀ i, bits.marked i = true → bits'.marked i = true) ∧
        (∀ r ∈ rest, r < m.heapLen → bits'.marked r = true) ∧
        ∀ i, bits'.marked i = true → m.Reach roots i := by
    intro rest
    induction rest with
    | nil =>
      intro bits bits' _ marks waits known
      cases marks
      exact ⟨waits, fun _ h => h, (fun r mem => by cases mem), known⟩
    | cons r rest ih =>
      intro bits bits' sub marks waits known
      rw [List.foldlM_cons] at marks
      obtain ⟨middle, first, marks⟩ := Option.bind_eq_some_iff.mp marks
      have mem : r ∈ roots := sub List.mem_cons_self
      obtain ⟨waits, more, marked, known⟩ := markRoot_spec first waits known (.root mem)
        fun _ _ from_ edge below => .step from_ edge below
      obtain ⟨waits', more', marked', known'⟩ :=
        ih middle bits' (fun x hx => sub (List.mem_cons_of_mem r hx)) marks waits known
      refine ⟨waits', fun i h => more' i (more i h), ?_, known'⟩
      intro s mem below
      rcases List.mem_cons.mp mem with rfl | mem
      · exact more' s (marked below)
      · exact marked' s mem below
  have start : m.Waits Bits.empty [] := by
    intro i marked
    rw [Bits.marked_empty] at marked
    cases marked
  obtain ⟨waits, -, marked, known⟩ := general roots Bits.empty bits (fun _ h => h) marks start (by
    intro i marked
    rw [Bits.marked_empty] at marked
    cases marked)
  constructor
  · exact known i
  · intro reach
    induction reach with
    | root mem below => exact marked _ mem below
    | step from_ mem below ih =>
      exact ((waits _ ih).2 _ mem below).resolve_right List.not_mem_nil

/- The turns and the room that are always enough. -/

/-- How many cells the unmarked ones may still push. -/
def pending (m : Machine) (bits : Bits) : Nat :=
  ∑ t ∈ Finset.range m.heapLen, if bits.marked t = true then 0 else (m.edges t).length

theorem pending_mark {bits : Bits} {t : Nat} (inside : t < m.heapLen)
    (fresh : bits.marked t = false) :
    m.pending (bits.mark t) + (m.edges t).length = m.pending bits := by
  have mem : t ∈ Finset.range m.heapLen := Finset.mem_range.mpr inside
  unfold pending
  rw [← Finset.sum_erase_add _ _ mem, ← Finset.sum_erase_add _ _ mem, fresh]
  have here : (bits.mark t).marked t = true := by
    rw [Bits.marked_mark, decide_eq_true rfl, Bool.true_or]
  rw [here, if_pos rfl, if_neg Bool.false_ne_true, Nat.add_zero]
  refine congrArg (· + (m.edges t).length) (Finset.sum_congr rfl ?_)
  intro i other
  rw [Bits.marked_mark, decide_eq_false (Finset.ne_of_mem_erase other), Bool.false_or]

theorem pending_le (bits : Bits) : m.pending bits ≤ m.degree := by
  refine Finset.sum_le_sum ?_
  intro t _
  split
  · exact Nat.zero_le _
  · exact Nat.le_refl _

theorem drain_total {room turns : Nat} {bits : Bits} {stack : List Nat}
    (enough : stack.length + m.pending bits ≤ turns)
    (fits : stack.length + m.pending bits ≤ room) : ∃ bits', m.drain room turns bits stack = some bits' := by
  induction turns generalizing bits stack with
  | zero =>
    cases stack with
    | nil => exact ⟨bits, rfl⟩
    | cons t stack =>
      rw [List.length_cons] at enough
      omega
  | succ turns ih =>
    cases stack with
    | nil => exact ⟨bits, rfl⟩
    | cons t stack =>
      rw [List.length_cons] at enough fits
      unfold drain
      split
      · exact ih (by omega) (by omega)
      · rename_i undone
        have inside : t < m.heapLen := Nat.lt_of_not_le fun le => undone (.inl le)
        have fresh : bits.marked t = false := Bool.eq_false_iff.mpr fun done => undone (.inr done)
        have less := pending_mark inside fresh
        have shorter := List.length_filter_le
          (fun q => decide (q < m.heapLen) && !(bits.mark t).marked q) (m.edges t)
        dsimp only
        rw [pushAll_room (by omega)]
        have length : ((m.edges t).filter fun q =>
            decide (q < m.heapLen) && !(bits.mark t).marked q).reverse.length ≤ (m.edges t).length := by
          rw [List.length_reverse]
          exact shorter
        exact ih (by rw [List.length_append]; omega) (by rw [List.length_append]; omega)

/-- With room for every cell the heap's cells name, no mark fails. -/
theorem markAll_total {room : Nat} (ample : m.degree < room) (bits : Bits) (roots : List Nat) :
    ∃ bits', m.markAll room bits roots = some bits' := by
  unfold markAll
  induction roots generalizing bits with
  | nil => exact ⟨bits, rfl⟩
  | cons r roots ih =>
    have first : ∃ middle, m.markRoot room bits r = some middle := by
      unfold markRoot
      split
      · exact ⟨bits, rfl⟩
      · have le := pending_le (m := m) bits
        rw [pushAll_room (by rw [List.length_nil, List.length_singleton]; omega), Option.bind_some]
        exact drain_total (by simp only [List.reverse_singleton, List.append_nil, List.length_singleton]; omega)
          (by simp only [List.reverse_singleton, List.append_nil, List.length_singleton]; omega)
    obtain ⟨middle, first⟩ := first
    obtain ⟨bits', rest⟩ := ih middle
    refine ⟨bits', ?_⟩
    rw [List.foldlM_cons, first]
    exact rest

end Machine

end Cocolog.Gc
