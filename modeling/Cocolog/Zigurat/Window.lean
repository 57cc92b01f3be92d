import Cocolog.Lib.Loop
import Cocolog.Lib.Pipeline
import Cocolog.Lib.Scan
import Cocolog.Store.Pred

/-! The window of `coco_zg_sync_pred`: a predicate's clauses written to the database by
calls that are sent ahead of their answers. Two counters walk the clause list, one ahead
for what is sent, one behind for what is answered, and each passes over the clauses that
are not the program's to write. -/

set_option linter.all false

namespace Cocolog.Zigurat

open Cocolog.Lib Cocolog.Store

/-- One `cocolog::assert_clause`: the row's ordinal, the stored clause and the file it is
sent under. -/
structure Call where
  ordinal : Nat
  clause : Nat
  origin : Nat
deriving Repr, DecidableEq

/-- What the connection grants the call at each position: its name taken
(`zg_call_send`), its arguments written, the verb and the name acknowledged
(`zg_call_wait`), the procedure's answer read to its end (`coco_zg_finish`). -/
structure Grants where
  send : Nat → Bool := fun _ => true
  write : Nat → Bool := fun _ => true
  wait : Nat → Bool := fun _ => true
  finish : Nat → Bool := fun _ => true

/-- The loop's two counters, the calls on the line, oldest first, and what happened on it.
`refused` is an early return with 0; `hung` is a wait for an answer nobody sends. -/
structure Window where
  head : Nat := 0
  tail : Nat := 0
  line : List Call := []
  log : List (Exchange Call) := []
  refused : Bool := false
  hung : Bool := false
deriving Repr, DecidableEq

/-- A clause this loop does not write: a module's, or one that is dead. -/
def skips (p : Pred) (i : Nat) : Bool := p.muted i != 0 || p.dead i

/-- Nothing refused of the calls that are made. -/
def Grants.All (g : Grants) (p : Pred) : Prop :=
  ∀ i < p.nclauses, skips p i = false → g.send i = true ∧ g.write i = true ∧ g.wait i = true ∧ g.finish i = true

def callAt (p : Pred) (i : Nat) : Call := { ordinal := i, clause := p.clauses i, origin := p.origins i }

namespace Window

/-- The branch that sends. -/
def send (p : Pred) (g : Grants) (s : Window) : Window :=
  if skips p s.head then { s with head := s.head + 1 }
  else if !g.send s.head then { s with refused := true }
  else if !g.write s.head then { s with refused := true }
  else { s with
    head := s.head + 1
    line := s.line ++ [callAt p s.head]
    log := s.log ++ [.sent (callAt p s.head)] }

/-- The branch that waits. The connection answers the oldest call on its line. -/
def take (p : Pred) (g : Grants) (s : Window) : Window :=
  if skips p s.tail then { s with tail := s.tail + 1 }
  else match s.line with
    | [] => { s with hung := true }
    | c :: rest =>
      if !g.wait s.tail then { s with refused := true }
      else if !g.finish s.tail then { s with refused := true }
      else { s with tail := s.tail + 1, line := rest, log := s.log ++ [.answered c] }

/-- One turn of `while (tail < p->nclauses)`. The difference of the counters is the
source's: `head` is never behind `tail`. -/
def turn (p : Pred) (window : Nat) (g : Grants) (s : Window) : Option Window :=
  if s.refused || s.hung then none
  else if s.tail < p.nclauses then
    if s.head < p.nclauses ∧ s.head - s.tail < window then some (s.send p g) else some (s.take p g)
  else none

end Window

/-- The calls due from one position to another. -/
def due (p : Pred) (lo hi : Nat) : List Call := (positions (fun i => !skips p i) lo hi).map (callAt p)

theorem due_self (p : Pred) (i : Nat) : due p i i = [] := by
  simp [due, positions_of_ge (Nat.le_refl i)]

theorem due_head (p : Pred) {lo hi : Nat} (below : lo < hi) :
    due p lo hi = if skips p lo then due p (lo + 1) hi else callAt p lo :: due p (lo + 1) hi := by
  rw [due, positions_cons below]
  cases skips p lo <;> rfl

theorem due_split (p : Pred) {lo mid hi : Nat} (h1 : lo ≤ mid) (h2 : mid ≤ hi) :
    due p lo hi = due p lo mid ++ due p mid hi := by
  simp [due, positions_split h1 h2]

theorem due_last (p : Pred) {lo hi : Nat} (le : lo ≤ hi) :
    due p lo (hi + 1) = due p lo hi ++ if skips p hi then [] else [callAt p hi] := by
  rw [due_split p le (Nat.le_succ hi), due_head p (Nat.lt_succ_self hi), due_self]

theorem due_length_le (p : Pred) (lo hi : Nat) : (due p lo hi).length ≤ hi - lo := by
  rw [due, List.length_map, positions]
  exact (List.length_filter_le _ _).trans_eq List.length_range'

/-- What every turn keeps: the line holds the calls between the counters, and the log has
sent those before the first and answered those before the second, punctually. -/
structure Window.Level (p : Pred) (window : Nat) (s : Window) : Prop where
  behind : s.tail ≤ s.head
  head_le : s.head ≤ p.nclauses
  near : s.head ≤ s.tail + window
  line : s.line = due p s.tail s.head
  sent : sentOf s.log = due p 0 s.head
  answered : answeredOf s.log = due p 0 s.tail
  punctual : Punctual window s.log
  waits : s.hung = false

namespace Window.Level

variable {p : Pred} {window : Nat} {g : Grants} {s s' : Window}

theorem start (p : Pred) (window : Nat) : ({} : Window).Level p window :=
  ⟨Nat.le_refl 0, Nat.zero_le _, Nat.zero_le _, (due_self p 0).symm, (due_self p 0).symm, (due_self p 0).symm,
    punctual_nil window, rfl⟩

theorem refuse (h : s.Level p window) : ({ s with refused := true } : Window).Level p window :=
  ⟨h.behind, h.head_le, h.near, h.line, h.sent, h.answered, h.punctual, h.waits⟩

theorem send (h : s.Level p window) (more : s.head < p.nclauses) (room : s.head - s.tail < window) :
    (s.send p g).Level p window := by
  have behind := h.behind
  have last := due_last p h.behind
  have whole := due_last p (Nat.zero_le s.head)
  rw [Window.send]
  split
  · rename_i skip
    rw [if_pos skip, List.append_nil] at last whole
    exact ⟨by simp only; omega, by simp only; omega, by simp only; omega, h.line.trans last.symm,
      h.sent.trans whole.symm, h.answered, h.punctual, h.waits⟩
  · rename_i goes
    rw [if_neg goes] at last whole
    split
    · exact h.refuse
    · split
      · exact h.refuse
      · have sent : sentOf (s.log ++ [Exchange.sent (callAt p s.head)]) = due p 0 (s.head + 1) := by
          rw [sentOf_append, h.sent, whole, sentOf_sent]
        have answered : answeredOf (s.log ++ [Exchange.sent (callAt p s.head)]) = due p 0 s.tail := by
          rw [answeredOf_append, h.answered, answeredOf_sent, List.append_nil]
        refine ⟨by simp only; omega, by simp only; omega, by simp only; omega, ?_, sent, answered,
          h.punctual.snoc ⟨?_, ?_⟩, h.waits⟩
        · simp only [h.line, last]
        · rw [sent, answered, due_split p (Nat.zero_le s.tail) (show s.tail ≤ s.head + 1 by omega)]
          exact List.prefix_append _ _
        · rw [sent, answered, due_split p (Nat.zero_le s.tail) (show s.tail ≤ s.head + 1 by omega),
            List.length_append]
          have short := due_length_le p s.tail (s.head + 1)
          omega

theorem take (h : s.Level p window) (apart : s.tail < s.head) : (s.take p g).Level p window := by
  have near := h.near
  have first := due_head p apart
  have whole := due_last p (Nat.zero_le s.tail)
  rw [Window.take]
  split
  · rename_i skip
    rw [if_pos skip] at first whole
    rw [List.append_nil] at whole
    exact ⟨apart, h.head_le, by simp only; omega, h.line.trans first, h.sent, h.answered.trans whole.symm,
      h.punctual, h.waits⟩
  · rename_i goes
    rw [if_neg goes] at first whole
    -- the clause behind was sent, so its call is the oldest on the line
    have line := h.line.trans first
    simp only [line]
    split
    · exact line ▸ h.refuse
    · split
      · exact line ▸ h.refuse
      · have sent : sentOf (s.log ++ [Exchange.answered (callAt p s.tail)]) = due p 0 s.head := by
          rw [sentOf_append, h.sent, sentOf_answered, List.append_nil]
        have answered : answeredOf (s.log ++ [Exchange.answered (callAt p s.tail)]) = due p 0 (s.tail + 1) := by
          rw [answeredOf_append, h.answered, whole, answeredOf_answered]
        refine ⟨apart, h.head_le, by simp only; omega, rfl, sent, answered, h.punctual.snoc ⟨?_, ?_⟩, h.waits⟩
        · rw [sent, answered, due_split p (Nat.zero_le (s.tail + 1)) apart]
          exact List.prefix_append _ _
        · rw [sent, answered, due_split p (Nat.zero_le (s.tail + 1)) apart, List.length_append]
          have short := due_length_le p (s.tail + 1) s.head
          omega

theorem turn (pos : 0 < window) (h : s.Level p window) (next : s.turn p window g = some s') :
    s'.Level p window := by
  rw [Window.turn] at next
  split at next
  · cases next
  · split at next
    · rename_i below
      split at next
      · rename_i ahead
        cases next
        exact h.send ahead.1 ahead.2
      · rename_i full
        cases next
        have behind := h.behind
        exact h.take (by omega)
    · cases next

end Window.Level

namespace Window

variable {p : Pred} {window : Nat} {g : Grants} {s s' : Window}

/-- How many turns can be left. -/
def left (p : Pred) (s : Window) : Nat :=
  if s.refused || s.hung then 0 else 1 + (p.nclauses - s.head) + (p.nclauses - s.tail)

theorem left_turn (next : s.turn p window g = some s') : s'.left p < s.left p := by
  rw [turn] at next
  split at next
  · cases next
  · rename_i going
    have now : s.left p = 1 + (p.nclauses - s.head) + (p.nclauses - s.tail) := if_neg going
    simp only [Bool.or_eq_true, not_or, Bool.not_eq_true] at going
    rw [now]
    split at next
    · rename_i below
      split at next
      · rename_i ahead
        cases next
        rw [send]
        split
        · simp only [left, going.1, going.2, Bool.or_false, Bool.false_eq_true, if_false]
          omega
        · split
          · exact Nat.lt_of_lt_of_le (Nat.lt_add_of_pos_left Nat.one_pos) (by simp [left]; omega)
          · split
            · exact Nat.lt_of_lt_of_le (Nat.lt_add_of_pos_left Nat.one_pos) (by simp [left]; omega)
            · simp only [left, going.1, going.2, Bool.or_false, Bool.false_eq_true, if_false]
              omega
      · cases next
        rw [take]
        split
        · simp only [left, going.1, going.2, Bool.or_false, Bool.false_eq_true, if_false]
          omega
        · split
          · simp only [left, Bool.or_true, if_true]
            omega
          · split
            · simp only [left, Bool.true_or, if_true]
              omega
            · split
              · simp only [left, Bool.true_or, if_true]
                omega
              · simp only [left, going.1, going.2, Bool.or_false, Bool.false_eq_true, if_false]
                omega
    · cases next

/-- A connection that grants everything makes no turn give up. -/
theorem refused_turn (all : g.All p) (kept : s.refused = false) (next : s.turn p window g = some s') :
    s'.refused = false := by
  rw [turn] at next
  split at next
  · cases next
  · split at next
    · rename_i below
      split at next
      · rename_i ahead
        cases next
        rw [send]
        split
        · exact kept
        · rename_i goes
          obtain ⟨sends, writes, -, -⟩ := all s.head ahead.1 (Bool.eq_false_iff.mpr goes)
          rw [sends, writes]
          exact kept
      · cases next
        rw [take]
        split
        · exact kept
        · rename_i goes
          obtain ⟨-, -, waits, ends⟩ := all s.tail below (Bool.eq_false_iff.mpr goes)
          rw [waits, ends]
          split
          · exact kept
          · exact kept
    · cases next

/-- What has been granted where the loop has not given up. -/
def Granted (p : Pred) (g : Grants) (s : Window) : Prop :=
  s.refused = false →
    (∀ i < s.head, skips p i = false → g.send i = true ∧ g.write i = true) ∧
    ∀ i < s.tail, skips p i = false → g.wait i = true ∧ g.finish i = true

theorem granted_turn (granted : s.Granted p g) (next : s.turn p window g = some s') : s'.Granted p g := by
  have grow : ∀ {P : Nat → Prop} {k : Nat}, (∀ i < k, skips p i = false → P i) → (skips p k = false → P k) →
      ∀ i < k + 1, skips p i = false → P i := by
    intro P k below here i less goes
    rcases Nat.lt_succ_iff_lt_or_eq.mp less with less | rfl
    · exact below i less goes
    · exact here goes
  rw [turn] at next
  split at next
  · cases next
  · split at next
    · split at next
      · cases next
        rw [send]
        split
        · rename_i skip
          intro kept
          exact ⟨grow (granted kept).1 fun goes => absurd (skip ▸ goes) Bool.noConfusion, (granted kept).2⟩
        · split
          · intro kept
            cases kept
          · rename_i sends
            split
            · intro kept
              cases kept
            · rename_i writes
              intro kept
              exact ⟨grow (granted kept).1 fun _ => ⟨by simpa using sends, by simpa using writes⟩, (granted kept).2⟩
      · cases next
        rw [take]
        split
        · rename_i skip
          intro kept
          exact ⟨(granted kept).1, grow (granted kept).2 fun goes => absurd (skip ▸ goes) Bool.noConfusion⟩
        · split
          · exact granted
          · split
            · intro kept
              cases kept
            · rename_i waits
              split
              · intro kept
                cases kept
              · rename_i ends
                intro kept
                exact ⟨(granted kept).1, grow (granted kept).2 fun _ => ⟨by simpa using waits, by simpa using ends⟩⟩
    · cases next

/-- A loop that stopped went to the end of the list or gave up. -/
theorem turn_eq_none (waits : s.hung = false) (done : s.turn p window g = none) :
    s.refused = true ∨ p.nclauses ≤ s.tail := by
  rw [turn, waits, Bool.or_false] at done
  split at done
  · rename_i refused
    exact .inl refused
  · split at done
    · split at done <;> cases done
    · rename_i beyond
      exact .inr (Nat.le_of_not_lt beyond)

/-- Where it went through, both counters went to the end of the list. -/
theorem Level.ended (level : s.Level p window) (done : s.turn p window g = none) (went : s.refused = false) :
    s.head = p.nclauses ∧ s.tail = p.nclauses := by
  have at_end : p.nclauses ≤ s.tail := by
    rcases turn_eq_none level.waits done with refused | at_end
    · rw [went] at refused
      cases refused
    · exact at_end
  have behind := level.behind
  have head_le := level.head_le
  omega

/-- It gives up just where the connection refuses something of a call it makes. -/
theorem Level.went_iff (level : s.Level p window) (done : s.turn p window g = none)
    (reached : Steps (Window.turn p window g) {} s) : s.refused = false ↔ g.All p := by
  constructor
  · intro went
    obtain ⟨head, tail⟩ := level.ended done went
    have granted : s.Granted p g := reached.invariant (I := fun s => s.Granted p g)
      (fun _ _ granted next => granted_turn granted next)
      fun _ => ⟨fun _ less => absurd less (Nat.not_lt_zero _), fun _ less => absurd less (Nat.not_lt_zero _)⟩
    intro i less goes
    obtain ⟨sends, writes⟩ := (granted went).1 i (head ▸ less) goes
    obtain ⟨waits, ends⟩ := (granted went).2 i (tail ▸ less) goes
    exact ⟨sends, writes, waits, ends⟩
  · intro all
    exact reached.invariant (I := fun s => s.refused = false)
      (fun _ _ kept next => refused_turn all kept next) rfl

end Window

/-- However the live clauses lie among the others and wherever the connection gives up, the
loop ends, never waits for an answer nobody owes it, and was punctual throughout; where the
connection granted all, it sent one call for each live clause of the program's, in
order, and took the answer of each. -/
theorem each_call_answered_once (p : Pred) (window : Nat) (g : Grants) (pos : 0 < window) :
    ∃ e, Settles (fun fuel => loop (Window.turn p window g) fuel {}) e ∧ e.hung = false ∧
      Punctual window e.log ∧ sentOf e.log <+: due p 0 p.nclauses ∧
      (e.refused = false →
        sentOf e.log = due p 0 p.nclauses ∧ answeredOf e.log = due p 0 p.nclauses ∧ e.line = [] ∧
        (window = 1 → e.log = oneByOne (due p 0 p.nclauses))) ∧
      (e.refused = false ↔ g.All p) := by
  obtain ⟨e, settles, level, done⟩ := loop_settles wellFounded_lt (Window.left p)
    (fun _ _ level next => ⟨Window.Level.turn pos level next, Window.left_turn next⟩)
    (Window.Level.start p window)
  obtain ⟨enough, all⟩ := id settles
  have reached := (loop_reaches (all enough le_rfl)).1
  refine ⟨e, settles, level.waits, level.punctual, ?_, ?_, level.went_iff done reached⟩
  · rw [level.sent, due_split p (Nat.zero_le e.head) level.head_le]
    exact List.prefix_append _ _
  · intro went
    obtain ⟨head, tail⟩ := level.ended done went
    have sent := head ▸ level.sent
    have answered := tail ▸ level.answered
    refine ⟨sent, answered, ?_, ?_⟩
    · rw [level.line, head, tail, due_self]
    · rintro rfl
      rcases level.punctual.one with ⟨l, log⟩ | ⟨l, a, log⟩
      · rw [log, sentOf_oneByOne] at sent
        rw [log, sent]
      · have lengths : (sentOf e.log).length = (answeredOf e.log).length := by rw [sent, answered]
        simp [log] at lengths

/-- A predicate of four clauses: one of a module's, one dead, two of the program's. -/
def sparse : Pred :=
  { nclauses := 4, clauses := fun i => 10 * i, muted := fun i => if i = 0 then 1 else 0,
    tomb := some fun i => if i = 2 then 5 else 0, ntomb := 1 }

theorem each_call_answered_once_sparse :
    0 < 1 ∧ ∃ e, Settles (fun fuel => loop (Window.turn sparse 1 {}) fuel {}) e ∧ e.refused = false ∧
      e.log = oneByOne [{ ordinal := 1, clause := 10, origin := 0 }, { ordinal := 3, clause := 30, origin := 0 }] := by
  refine ⟨Nat.one_pos, ?_⟩
  obtain ⟨e, settles, -, -, -, whole, went⟩ := each_call_answered_once sparse 1 {} Nat.one_pos
  have went : e.refused = false := went.mpr fun _ _ _ => ⟨rfl, rfl, rfl, rfl⟩
  exact ⟨e, settles, went, ((whole went).2.2.2 rfl).trans (by decide)⟩

end Cocolog.Zigurat
