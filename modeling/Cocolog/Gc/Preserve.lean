import Cocolog.Gc.Chain
import Cocolog.Gc.Trail

/-! A collection keeps every proof state the search can still reach: the one it is in and
the one each barrier goes back to. One renaming of cells, which keeps their order, takes
the terms of each state to those of its counterpart. -/

set_option linter.all false

namespace Cocolog.Gc

open Cocolog.Lib Cocolog.Term

/-- The undoing of some entry writes the cell. -/
def Written (es : List Entry) (i : Nat) : Prop := ∃ e ∈ es, e.target = some i

namespace Machine

/-- The cells that are reached: from the roots, from the copies of globals, and from the
cells that hold what `setarg/3` took away. -/
def Reachable (m : Machine) (i : Nat) : Prop := m.Reach m.allRoots i

/-- The markers of functor `$trace_exit/3` are the tracer's. `own` are the cells only it
makes and only they name: the two arguments that lead to integers, and these. -/
structure Tracer (m : Machine) (es : List Entry) (own : Nat → Prop) : Prop where
  arity : m.arity m.texit = 3
  marker : ∀ t, m.Reachable t → m.heap t = .func m.texit → ∀ a, a = t + 1 ∨ a = t + 3 →
    own a ∧ ∃ j q, m.heap a = .ref j ∧ j ≠ a ∧ j < m.heapLen ∧ own j ∧ m.heap j = .int q ∧ 0 ≤ q ∧
      ¬ own q.toNat
  depth : ∀ t, m.Reachable t → m.heap t = .func m.texit → ¬ own (t + 2)
  root : ∀ r ∈ m.roots, ¬ own r
  ref : ∀ i p, m.Reachable i → ¬ own i → m.heap i = .ref p → ¬ own p
  arg : ∀ t f k, m.Reachable t → m.heap t = .func f → f ≠ m.texit → k < m.arity f → ¬ own (t + 1 + k)
  header : ∀ t w, m.Reachable t → m.heap t = .pos w → ¬ own (t - w / 65536)
  unwritten : ∀ i, own i → ¬ Written es i
  unsaved : ∀ s a, .value s a ∈ es → ¬ own s

/-- A well-formed machine. Its trail is made of entries; a saved cell is one only the trail
knows and holds an argument's content; the barriers' marks never fall, and stand between
entries and within the heap; compounds are whole, and a position stands in the environment
it names. -/
structure WellFormed (m : Machine) (es : List Entry) (own : Nat → Prop) : Prop where
  trail : m.trail = wordsOf es
  fits : ∀ e ∈ es, e.Fits
  saved : ∀ s a, .value s a ∈ es → s < m.heapLen ∧ (∀ f, m.heap s ≠ .func f) ∧
    (∀ w, m.heap s ≠ .pos w) ∧ ¬ Written es s
  ordered : Ordered m.barriers
  between : ∀ b ∈ m.barriers, Between 0 es b.1 ∧ b.2 ≤ m.heapLen
  whole : ∀ t f, m.Reachable t → m.heap t = .func f → t + m.arity f < m.heapLen
  position : ∀ t w, m.Reachable t → m.heap t = .pos w → w / 65536 ≤ t ∧
    ∃ f, m.heap (t - w / 65536) = .func f ∧ w / 65536 ≤ m.arity f
  tracer : m.Tracer es own

section

variable {m : Machine} {es : List Entry} {own : Nat → Prop} {bits : Bits}

/- The cells of a state gone back to. -/

theorem undone_unwritten {newer : List Entry} (sub : newer ⊆ es) {i : Nat} (kept : ¬ Written es i) :
    newer.foldr (fun e h => e.undo h) m.heap i = m.heap i := by
  induction newer with
  | nil => rfl
  | cons e newer ih =>
    have rest := ih fun x mem => sub (List.mem_cons_of_mem _ mem)
    have not_here : e.target ≠ some i := fun at_ => kept ⟨e, sub List.mem_cons_self, at_⟩
    rw [List.foldr_cons]
    cases e with
    | var v =>
      rw [Entry.undo, Function.update_of_ne fun at_ => not_here (congrArg some at_.symm)]
      exact rest
    | value s a =>
      rw [Entry.undo, Function.update_of_ne fun at_ => not_here (congrArg some at_.symm)]
      exact rest
    | sent i serial => exact rest

/-- A cell gone back to holds what it held, or is unbound, or holds a saved cell's content. -/
theorem undone_cell (wf : m.WellFormed es own) {newer : List Entry} (sub : newer ⊆ es) (i : Nat) :
    newer.foldr (fun e h => e.undo h) m.heap i = m.heap i ∨
      newer.foldr (fun e h => e.undo h) m.heap i = .ref i ∨
      ∃ s a, Entry.value s a ∈ es ∧ newer.foldr (fun e h => e.undo h) m.heap i = m.heap s := by
  induction newer with
  | nil => exact .inl rfl
  | cons e newer ih =>
    have sub' : newer ⊆ es := fun x mem => sub (List.mem_cons_of_mem _ mem)
    have rest := ih sub'
    rw [List.foldr_cons]
    cases e with
    | var v =>
      rw [Entry.undo]
      by_cases here : i = v
      · rw [here, Function.update_self]
        exact .inr (.inl rfl)
      · rw [Function.update_of_ne here]
        exact rest
    | value s a =>
      have mem : Entry.value s a ∈ es := sub List.mem_cons_self
      rw [Entry.undo]
      by_cases here : i = a
      · rw [here, Function.update_self, undone_unwritten sub' (wf.saved s a mem).2.2.2]
        exact .inr (.inr ⟨s, a, mem, rfl⟩)
      · rw [Function.update_of_ne here]
        exact rest
    | sent i serial => exact rest

/- The reached cells. -/

theorem savedCells_mem {es : List Entry} (fits : ∀ e ∈ es, e.Fits) {s a : Nat}
    (mem : Entry.value s a ∈ es) {n : Nat} (inside : s < n) : s ∈ savedCells n (wordsOf es) := by
  have skip : ∀ v ws, isPair v = false → savedCells n (v :: ws) = savedCells n ws := by
    intro v ws single
    cases ws with
    | nil => rfl
    | cons w ws => rw [savedCells, single, if_neg Bool.false_ne_true]
  induction es with
  | nil => cases mem
  | cons e es ih =>
    have rest := fun mem => ih (fun e h => fits e (List.mem_cons_of_mem _ h)) mem
    have here := fits e List.mem_cons_self
    rw [wordsOf_cons]
    cases e with
    | var v =>
      rw [Entry.words, List.singleton_append, skip v _ (isPair_small here)]
      exact rest ((List.mem_cons.mp mem).resolve_left (by simp))
    | value s' a' =>
      obtain ⟨hs, -⟩ := here
      have tag : trailTag (s' + pairBit) = 0 := by unfold trailTag pairBit; omega
      have cell : trailCell (s' + pairBit) = s' := by unfold trailCell pairBit; omega
      rw [Entry.words, List.cons_append, List.singleton_append, savedCells,
        isPair_pair (show s' < 2 ^ 63 by omega), if_pos rfl, tag, cell]
      rcases List.mem_cons.mp mem with same | mem
      · cases same
        rw [if_pos ⟨rfl, inside⟩]
        exact List.mem_append_left _ (List.mem_singleton_self s)
      · exact List.mem_append_right _ (rest mem)
    | sent i serial =>
      have small : (i + 1) * 2 ^ 40 < 2 ^ 63 := by
        have := here.1
        omega
      rw [Entry.words, List.cons_append, List.singleton_append, savedCells, isPair_pair small,
        if_pos rfl]
      exact List.mem_append_right _ (rest ((List.mem_cons.mp mem).resolve_left (by simp)))

theorem WellFormed.saved_reachable (wf : m.WellFormed es own) {s a : Nat}
    (mem : Entry.value s a ∈ es) : m.Reachable s := by
  have inside := (wf.saved s a mem).1
  refine .root (List.mem_append_right _ ?_) inside
  rw [wf.trail]
  exact savedCells_mem wf.fits mem inside

theorem Reachable.below {i : Nat} (reach : m.Reachable i) : i < m.heapLen := by
  cases reach with
  | root _ below => exact below
  | step _ _ below => exact below

theorem Reachable.arg {t f k : Nat} (reach : m.Reachable t) (held : m.heap t = .func f)
    (below : k < m.arity f) (inside : t + 1 + k < m.heapLen) : m.Reachable (t + 1 + k) := by
  refine .step reach ?_ inside
  rw [edges, held]
  refine List.mem_append_left _ ?_
  rw [List.mem_range'_1]
  omega

theorem WellFormed.arg_reachable (wf : m.WellFormed es own) {t f k : Nat} (reach : m.Reachable t)
    (held : m.heap t = .func f) (below : k < m.arity f) : m.Reachable (t + 1 + k) := by
  have whole := wf.whole t f reach held
  exact reach.arg held below (by omega)

/-- A reference's cell is reached, unless it is past the end. -/
theorem Reachable.ref {i p : Nat} (reach : m.Reachable i) (held : m.heap i = .ref p) :
    m.heapLen ≤ p ∨ m.Reachable p := by
  by_cases self : p = i
  · exact .inr (self ▸ reach)
  · by_cases below : p < m.heapLen
    · refine .inr (.step reach ?_ below)
      rw [edges, held]
      dsimp only
      rw [if_neg self]
      exact List.mem_singleton_self p
    · exact .inl (Nat.le_of_not_lt below)

theorem WellFormed.header_reachable (wf : m.WellFormed es own) {t w : Nat} (reach : m.Reachable t)
    (held : m.heap t = .pos w) : m.Reachable (t - w / 65536) := by
  have inside := reach.below
  refine .step reach ?_ (by omega)
  rw [edges, held]
  dsimp only
  rw [if_pos (wf.position t w reach held).1]
  exact List.mem_singleton_self _

/- The markers. -/

theorem deref_two {h : Mem} {len a j : Nat} {q : Int} (first : h a = .ref j) (apart : j ≠ a)
    (second : h j = .int q) (some_ : 0 < len) : deref h len a = j := by
  obtain ⟨k, rfl⟩ : ∃ k, len = k + 1 := ⟨len - 1, by omega⟩
  rw [deref, first]
  dsimp only
  rw [if_neg apart]
  cases k with
  | zero => rfl
  | succ k => rw [deref, second]

theorem goalOf_two {h : Mem} {len a j : Nat} {q : Int} (first : h a = .ref j) (apart : j ≠ a)
    (second : h j = .int q) (some_ : 0 < len) (index : 0 ≤ q) : goalOf h len a = q.toNat := by
  rw [goalOf, deref_two first apart second some_, second]
  exact if_pos index

theorem indexed_own (wf : m.WellFormed es own) (marks : ∀ i, bits.marked i = true ↔ m.Reachable i)
    {j : Nat} (index : m.Indexed bits j) : own j := by
  obtain ⟨t, below, marked, held, at_⟩ := index
  have lead : ∀ a, a = t + 1 ∨ a = t + 3 → IndexAt m.heapLen m.heap a j → own j := by
    intro a arg at_
    obtain ⟨-, j', q, first, apart, -, own_, second, -⟩ :=
      wf.tracer.marker t ((marks t).mp marked) held a arg
    obtain ⟨end_, -⟩ := at_
    rw [deref_two first apart second (by omega)] at end_
    rwa [← end_]
  rcases at_ with first | third
  · exact lead _ (.inl rfl) first
  · exact lead _ (.inr rfl) third

/- The two states side by side. -/

/-- Each marked cell of the one state, where the cut or the trail leaves it, is in the
other at its rank, its reference moved and, for a marker's integer, its index too. -/
def Agrees (m : Machine) (es : List Entry) (bits : Bits) (hm : Nat) (h h' : Mem) : Prop :=
  ∀ i, bits.marked i = true → (i < hm ∨ ¬ Written es i) →
    (m.Indexed bits i →
      h' (bits.below i) = moveCell m.heapLen bits (moveIndex m.heapLen bits (h i))) ∧
    (¬ m.Indexed bits i → h' (bits.below i) = moveCell m.heapLen bits (h i))

theorem agrees_now (marks : ∀ i, bits.marked i = true ↔ m.Reachable i) (hm : Nat) :
    m.Agrees es bits hm m.heap (slide m.heapLen bits (m.fixMarkers bits)).1 := by
  intro i marked _
  have inside := ((marks i).mp marked).below
  rw [slide_cell _ inside marked]
  constructor
  · intro index
    rw [(fixMarkers_spec m bits i).1 index]
  · intro other
    rw [(fixMarkers_spec m bits i).2 other]

/-- One more entry dropped from the thinned trail. -/
theorem Agrees.drop {hm : Nat} {h h' : Mem} {e : Entry} (agrees : m.Agrees es bits hm h h')
    (mem : e ∈ es) (lost : e.Lost bits hm) : m.Agrees es bits hm (e.undo h) h' := by
  intro i marked where_
  have other : e.target ≠ some i := by
    intro at_
    rcases lost i at_ with unmarked | past
    · rw [marked] at unmarked
      cases unmarked
    · rcases where_ with below | kept
      · omega
      · exact kept ⟨e, mem, at_⟩
  have same : e.undo h i = h i := by
    cases e with
    | var v => exact Function.update_of_ne (fun at_ => other (congrArg some at_.symm)) _ _
    | value s a => exact Function.update_of_ne (fun at_ => other (congrArg some at_.symm)) _ _
    | sent i serial => rfl
  rw [same]
  exact agrees i marked where_

theorem agrees_ref {v : Nat} (inside : v < m.heapLen) :
    moveCell m.heapLen bits (.ref v) = .ref (bits.below v) := by
  rw [moveCell, if_pos inside, Bits.rank_eq]

/-- One more entry kept. -/
theorem Agrees.keep (wf : m.WellFormed es own) (marks : ∀ i, bits.marked i = true ↔ m.Reachable i)
    {hm : Nat} {h h' : Mem} {e : Entry} (agrees : m.Agrees es bits hm h h') (mem : e ∈ es)
    (kept : e.Kept bits) : m.Agrees es bits hm (e.undo h) ((e.moved bits).undo h') := by
  have apart : ∀ {i j}, bits.marked i = true → bits.marked j = true → i ≠ j →
      bits.below i ≠ bits.below j := fun hi hj different same => different (Bits.below_inj hi hj same)
  cases e with
  | var v =>
    have held : bits.marked v = true := kept
    intro i marked where_
    rw [Entry.moved, Entry.undo, Entry.undo]
    by_cases here : i = v
    · rw [here, Function.update_self, Function.update_self,
        show moveIndex m.heapLen bits (.ref v) = .ref v from rfl,
        agrees_ref ((marks v).mp held).below]
      exact ⟨fun _ => rfl, fun _ => rfl⟩
    · rw [Function.update_of_ne here, Function.update_of_ne (apart marked held here)]
      exact agrees i marked where_
  | value s a =>
    obtain ⟨saved, held⟩ : bits.marked s = true ∧ bits.marked a = true := kept
    have plain : ∀ {j}, own j → ¬ (j = s ∨ j = a) := by
      rintro j mine (rfl | rfl)
      · exact wf.tracer.unsaved j a mem mine
      · exact wf.tracer.unwritten j mine ⟨_, mem, rfl⟩
    have source := (agrees s saved (.inr (wf.saved s a mem).2.2.2)).2 fun index =>
      plain (indexed_own wf marks index) (.inl rfl)
    intro i marked where_
    rw [Entry.moved, Entry.undo, Entry.undo]
    by_cases here : i = a
    · rw [here, Function.update_self, Function.update_self, source]
      exact ⟨fun index => absurd (.inr rfl) (plain (indexed_own wf marks index)), fun _ => rfl⟩
    · rw [Function.update_of_ne here, Function.update_of_ne (apart marked held here)]
      exact agrees i marked where_
  | sent i serial => exact agrees

/-- The states a thinned trail and the whole one go back to. -/
theorem Agrees.thinned (wf : m.WellFormed es own) (marks : ∀ i, bits.marked i = true ↔ m.Reachable i)
    {hm : Nat} {h h' : Mem} (agrees : m.Agrees es bits hm h h') {newer newer' : List Entry}
    (thin : Thinned bits hm newer newer') (sub : newer ⊆ es) :
    m.Agrees es bits hm (newer.foldr (fun e h => e.undo h) h) (newer'.foldr (fun e h => e.undo h) h') := by
  induction thin with
  | nil => exact agrees
  | drop lost _ ih => exact (ih fun x mem => sub (List.mem_cons_of_mem _ mem)).drop (sub List.mem_cons_self) lost
  | keep kept _ ih =>
    exact (ih fun x mem => sub (List.mem_cons_of_mem _ mem)).keep wf marks (sub List.mem_cons_self) kept

/- The terms. -/

/-- The cells a term is read from: those past the end, and the reached ones that are not
the tracer's own. -/
def Seen (m : Machine) (own : Nat → Prop) (i : Nat) : Prop :=
  m.heapLen ≤ i ∨ (m.Reachable i ∧ ¬ own i)

/-- A state some of the newest entries are undone in. -/
structure Undone (m : Machine) (es : List Entry) (h : Mem) : Prop where
  still : ∀ i, ¬ Written es i → h i = m.heap i
  cell : ∀ i, h i = m.heap i ∨ h i = .ref i ∨ ∃ s a, Entry.value s a ∈ es ∧ h i = m.heap s

section

variable {h h' : Mem} {hm : Nat}

/-- What is no reference is where it was. -/
theorem Undone.func (wf : m.WellFormed es own) (undone : m.Undone es h) {i f : Nat}
    (held : h i = .func f) : m.heap i = .func f := by
  rcases undone.cell i with same | unbound | ⟨s, a, mem, copy⟩
  · rw [← same, held]
  · rw [held] at unbound
    cases unbound
  · rw [held] at copy
    exact absurd copy.symm ((wf.saved s a mem).2.1 f)

theorem Undone.pos (wf : m.WellFormed es own) (undone : m.Undone es h) {i w : Nat}
    (held : h i = .pos w) : m.heap i = .pos w := by
  rcases undone.cell i with same | unbound | ⟨s, a, mem, copy⟩
  · rw [← same, held]
  · rw [held] at unbound
    cases unbound
  · rw [held] at copy
    exact absurd copy.symm ((wf.saved s a mem).2.2.1 w)

theorem Undone.ref (wf : m.WellFormed es own) (undone : m.Undone es h) {i p : Nat}
    (reach : m.Reachable i) (plain : ¬ own i) (held : h i = .ref p) : m.Seen own p := by
  have follow : ∀ {j}, m.Reachable j → ¬ own j → m.heap j = .ref p → m.Seen own p := by
    intro j reach plain held
    rcases reach.ref held with past | there
    · exact .inl past
    · exact .inr ⟨there, wf.tracer.ref j p reach plain held⟩
  rcases undone.cell i with same | unbound | ⟨s, a, mem, copy⟩
  · exact follow reach plain (same ▸ held)
  · rw [held] at unbound
    cases unbound
    exact .inr ⟨reach, plain⟩
  · exact follow (wf.saved_reachable mem) (wf.tracer.unsaved s a mem) (copy ▸ held)

/-- What is no reference was held by a reached cell. -/
theorem Undone.value (wf : m.WellFormed es own) (undone : m.Undone es h) {m' : Machine} {i : Nat}
    {c : Cell} (reach : m.Reachable i) (plain : ¬ own i)
    (value : ∀ j, m.Reachable j → ¬ own j → m'.value (m.heap j) = m.value (m.heap j))
    (held : h i = c) (bound : ∀ p, c ≠ .ref p) : m'.value c = m.value c := by
  rcases undone.cell i with same | unbound | ⟨s, a, mem, copy⟩
  · rw [← held, same]
    exact value i reach plain
  · exact absurd (held.symm.trans unbound) (bound i)
  · rw [← held, copy]
    exact value s (wf.saved_reachable mem) (wf.tracer.unsaved s a mem)

/-- A marker's argument, in a state gone back to: the goal it names, and that goal is read. -/
theorem Undone.goal (wf : m.WellFormed es own) (undone : m.Undone es h) {t a : Nat}
    (reach : m.Reachable t) (held : m.heap t = .func m.texit) (arg : a = t + 1 ∨ a = t + 3) {len : Nat}
    (some_ : 0 < len) :
    ∃ j q, m.heap a = .ref j ∧ j ≠ a ∧ m.Reachable j ∧ own j ∧ m.heap j = .int q ∧ 0 ≤ q ∧
      goalOf h len a = q.toNat ∧ m.Seen own q.toNat := by
  obtain ⟨mine, j, q, first, apart, below, own_, second, index, plain⟩ := wf.tracer.marker t reach held a arg
  have three : a - (t + 1) < m.arity m.texit := by
    rw [wf.tracer.arity]
    omega
  have reach_a : m.Reachable a := by
    have there := wf.arg_reachable reach held three
    rwa [show t + 1 + (a - (t + 1)) = a by omega] at there
  have reach_j : m.Reachable j := (reach_a.ref first).resolve_left (by omega)
  refine ⟨j, q, first, apart, reach_j, own_, second, index, ?_, ?_⟩
  · refine goalOf_two ?_ apart ?_ some_ index
    · rw [undone.still a (wf.tracer.unwritten a mine), first]
    · rw [undone.still j (wf.tracer.unwritten j own_), second]
  · by_cases inside : q.toNat < m.heapLen
    · refine .inr ⟨.step reach ?_ inside, plain⟩
      rw [edges, held]
      refine List.mem_append_right _ ?_
      rw [if_pos rfl, markerGoals, List.mem_flatMap]
      refine ⟨a, by simpa using arg, ?_⟩
      rw [deref_two first apart second (by omega), second]
      dsimp only
      rw [if_pos index]
      exact List.mem_singleton_self _
    · exact .inl (Nat.le_of_not_lt inside)

/-- Nothing a term is read from leads out of the cells it is read from. -/
theorem seen_closed (wf : m.WellFormed es own) (undone : m.Undone es h) (fits : hm ≤ m.heapLen) (i : Nat)
    (seen : m.Seen own i) : ∀ c ∈ (m.site ⟨h, hm⟩ i).targets, m.Seen own c := by
  intro c mem
  unfold site at mem
  dsimp only at mem
  split at mem
  · cases mem
  · rename_i inside
    obtain ⟨reach, plain⟩ : m.Reachable i ∧ ¬ own i := seen.resolve_left (by omega)
    cases held : h i with
    | ref p =>
      rw [held] at mem
      dsimp only at mem
      split at mem
      · cases mem
      · rw [Site.targets, List.mem_singleton] at mem
        rw [mem]
        exact undone.ref wf reach plain held
    | func f =>
      have now := undone.func wf held
      rw [held] at mem
      dsimp only at mem
      split at mem
      · rename_i marker
        subst marker
        have some_ : 0 < hm := by omega
        obtain ⟨_, _, -, -, -, -, -, -, first, seen₁⟩ := undone.goal wf reach now (.inl rfl) some_
        obtain ⟨_, _, -, -, -, -, -, -, third, seen₃⟩ := undone.goal wf reach now (.inr rfl) some_
        have middle := wf.arg_reachable (k := 1) reach now (by rw [wf.tracer.arity]; decide)
        rw [Site.targets, first, third] at mem
        simp only [List.mem_cons, List.not_mem_nil, or_false] at mem
        rcases mem with rfl | rfl | rfl
        · exact seen₁
        · exact .inr ⟨middle, wf.tracer.depth i reach now⟩
        · exact seen₃
      · rename_i other
        rw [Site.targets, List.mem_range'_1] at mem
        obtain ⟨k, rfl⟩ : ∃ k, c = i + 1 + k := ⟨c - (i + 1), by omega⟩
        have below : k < m.arity f := by omega
        exact .inr ⟨wf.arg_reachable reach now below, wf.tracer.arg i f k reach now other below⟩
    | pos w =>
      have now := undone.pos wf held
      rw [held, Site.targets, List.mem_singleton] at mem
      rw [mem]
      exact .inr ⟨wf.header_reachable reach now, wf.tracer.header i w reach now⟩
    | _ =>
      rw [held] at mem
      cases mem

/-- Where a cell of a term goes. -/
theorem movedTo_below {i : Nat} (inside : i < m.heapLen) :
    movedTo bits m.heapLen i = bits.below i := by
  rw [movedTo, if_pos inside, Bits.rank_eq]

theorem movedTo_inj (marks : ∀ i, bits.marked i = true ↔ m.Reachable i) {i p : Nat}
    (reach : m.Reachable i) (seen : m.Seen own p) (same : movedTo bits m.heapLen p = bits.below i) :
    p = i := by
  rcases seen with past | ⟨there, -⟩
  · rw [movedTo, if_neg (by omega)] at same
    have low := bits.below_le i
    have inside := reach.below
    omega
  · rw [movedTo_below there.below] at same
    exact Bits.below_inj ((marks p).mpr there) ((marks i).mpr reach) same

/-- A marker's argument in the other state. -/
theorem goal_moves (wf : m.WellFormed es own) (marks : ∀ i, bits.marked i = true ↔ m.Reachable i)
    (undone : m.Undone es h) (agrees : m.Agrees es bits hm h h') {t a : Nat} (reach : m.Reachable t)
    (held : m.heap t = .func m.texit) (arg : a = t + 1 ∨ a = t + 3) (below : t < hm) :
    goalOf h' (bits.below hm) (bits.below a) = movedTo bits m.heapLen (goalOf h hm a) := by
  have some_ : 0 < hm := by omega
  obtain ⟨j, q, first, apart, reach_j, own_, second, index, goal, -⟩ := undone.goal wf reach held arg some_
  obtain ⟨mine, -⟩ := wf.tracer.marker t reach held a arg
  have three : a - (t + 1) < m.arity m.texit := by
    rw [wf.tracer.arity]
    omega
  have reach_a : m.Reachable a := by
    have there := wf.arg_reachable reach held three
    rwa [show t + 1 + (a - (t + 1)) = a by omega] at there
  have unwritten_a := wf.tracer.unwritten a mine
  have unwritten_j := wf.tracer.unwritten j own_
  have not_index : ¬ m.Indexed bits a := by
    rintro ⟨t', -, -, -, at_ | at_⟩ <;>
    · obtain ⟨-, q, int⟩ := at_
      rw [first] at int
      cases int
  have is_index : m.Indexed bits j := by
    refine ⟨t, reach.below, (marks t).mpr reach, held, ?_⟩
    have at_ : IndexAt m.heapLen m.heap a j :=
      ⟨deref_two first apart second (Nat.lt_of_le_of_lt (Nat.zero_le _) reach.below), q, second⟩
    rcases arg with rfl | rfl
    · exact .inl at_
    · exact .inr at_
  have cell_a : h' (bits.below a) = .ref (bits.below j) := by
    rw [(agrees a ((marks a).mpr reach_a) (.inr unwritten_a)).2 not_index, undone.still a unwritten_a,
      first, agrees_ref reach_j.below]
  have cell_j : h' (bits.below j) = .int (movedTo bits m.heapLen q.toNat) := by
    rw [(agrees j ((marks j).mpr reach_j) (.inr unwritten_j)).1 is_index, undone.still j unwritten_j,
      second, moveIndex]
    by_cases small : 0 ≤ q ∧ q < m.heapLen
    · rw [if_pos small, movedTo, if_pos (by omega)]
      rfl
    · rw [if_neg small, movedTo, if_neg (by omega), Int.toNat_of_nonneg index]
      rfl
  have apart' : bits.below j ≠ bits.below a := fun same =>
    apart (Bits.below_inj ((marks j).mpr reach_j) ((marks a).mpr reach_a) same)
  have low := Bits.below_lt ((marks t).mpr reach) below
  rw [goal, goalOf_two cell_a apart' cell_j (by omega) (by omega)]
  rfl

/-- A stretch of reached cells goes down together. -/
theorem below_args (wf : m.WellFormed es own) (marks : ∀ i, bits.marked i = true ↔ m.Reachable i)
    {t f k : Nat} (reach : m.Reachable t) (held : m.heap t = .func f) (le : k ≤ m.arity f) :
    bits.below (t + k) = bits.below t + k := by
  refine Bits.below_add ?_
  intro j below
  cases j with
  | zero => exact (marks t).mpr reach
  | succ j =>
    rw [show t + (j + 1) = t + 1 + j by omega]
    exact (marks _).mpr (wf.arg_reachable reach held (by omega))

/-- What stands at a cell of the one state stands, renamed, where the cell went. -/
theorem site_moves (wf : m.WellFormed es own) (marks : ∀ i, bits.marked i = true ↔ m.Reachable i)
    (undone : m.Undone es h) (agrees : m.Agrees es bits hm h h') (fits : hm ≤ m.heapLen) {m' : Machine}
    (texit : m'.texit = m.texit) (arity : m'.arity = m.arity)
    (value : ∀ j, m.Reachable j → ¬ own j → m'.value (m.heap j) = m.value (m.heap j)) (i : Nat)
    (seen : m.Seen own i) :
    m'.site ⟨h', bits.below hm⟩ (movedTo bits m.heapLen i) =
      (m.site ⟨h, hm⟩ i).map (movedTo bits m.heapLen) (Face.rename (movedTo bits m.heapLen)) := by
  unfold site
  dsimp only
  by_cases past : hm ≤ i
  · have past' : bits.below hm ≤ movedTo bits m.heapLen i := by
      unfold movedTo
      split
      · rw [Bits.rank_eq]
        exact Bits.below_mono past
      · exact Nat.le_trans (bits.below_le hm) past
    rw [if_pos past, if_pos past']
    rfl
  · obtain ⟨reach, plain⟩ : m.Reachable i ∧ ¬ own i := seen.resolve_left (by omega)
    have marked := (marks i).mpr reach
    have inside := reach.below
    have low := Bits.below_lt marked (Nat.lt_of_not_le past)
    have cell : h' (bits.below i) = moveCell m.heapLen bits (h i) :=
      (agrees i marked (.inl (Nat.lt_of_not_le past))).2 fun index => plain (indexed_own wf marks index)
    rw [if_neg past, movedTo_below inside, if_neg (by omega), cell]
    cases held : h i with
    | ref p =>
      have there := undone.ref wf reach plain held
      have ref : moveCell m.heapLen bits (.ref p) = .ref (movedTo bits m.heapLen p) := by
        rw [moveCell, movedTo]
        split <;> rfl
      rw [ref]
      dsimp only
      by_cases self : p = i
      · rw [self, movedTo_below inside, if_pos rfl, if_pos rfl]
        rw [Site.map, Face.rename, movedTo_below inside]
        rfl
      · rw [if_neg self, if_neg fun same => self (movedTo_inj marks reach there same)]
        rfl
    | func f =>
      have now := undone.func wf held
      dsimp only [moveCell]
      rw [texit, arity]
      by_cases marker : f = m.texit
      · subst marker
        have three := wf.tracer.arity
        have at₁ := below_args wf marks (k := 1) reach now (by omega)
        have at₂ := below_args wf marks (k := 2) reach now (by omega)
        have at₃ := below_args wf marks (k := 3) reach now (by omega)
        have first := goal_moves wf marks undone agrees reach now (.inl rfl) (by omega)
        have third := goal_moves wf marks undone agrees reach now (.inr rfl) (by omega)
        have middle := wf.arg_reachable (k := 1) reach now (by omega)
        rw [at₁] at first
        rw [at₃] at third
        rw [if_pos rfl, if_pos rfl, first, third, ← at₂, Site.map, List.map_cons, List.map_cons,
          List.map_cons, List.map_nil, movedTo_below middle.below]
        rfl
      · rw [if_neg marker, if_neg marker, Site.map]
        refine congrArg (Site.node _) (List.ext_getElem? fun k => ?_)
        rw [List.getElem?_map]
        by_cases below : k < m.arity f
        · have arg := wf.arg_reachable reach now below
          rw [List.getElem?_range' below, List.getElem?_range' below, Option.map_some, Nat.one_mul,
            movedTo_below arg.below, show i + 1 + k = i + (k + 1) by omega,
            below_args wf marks reach now (by omega)]
          congr 1
          omega
        · rw [List.getElem?_eq_none (by rw [List.length_range']; omega),
            List.getElem?_eq_none (by rw [List.length_range']; omega), Option.map_none]
    | pos w =>
      have now := undone.pos wf held
      obtain ⟨le, f, header, within⟩ := wf.position i w reach now
      have reach' := wf.header_reachable reach now
      have stretch := below_args wf marks reach' header within
      rw [show i - w / 65536 + w / 65536 = i by omega] at stretch
      dsimp only [moveCell]
      rw [Site.map, List.map_cons, List.map_nil, movedTo_below reach'.below, stretch,
        Nat.add_sub_cancel]
      rfl
    | _ =>
      have same := undone.value wf reach plain value held (by simp)
      exact congrArg (fun v => Site.node (Face.holds _ v) []) same

end

/- The collection as a whole. -/

/-- Every root of the one machine denotes in its state what it denotes, renamed, in the
other's. -/
def SameTerms (m : Machine) (s : State) (m' : Machine) (s' : State) (r : Nat → Nat) : Prop :=
  ∀ root ∈ m.roots, ∀ path l', m'.denotes s' (r root) path l' ↔
    ∃ l, m.denotes s root path l ∧ l' = l.rename r

theorem sameTerms_id (gcache : List GCache) (s : State) :
    m.SameTerms s { m with gcache } s id := by
  have same : ({ m with gcache } : Machine).site s = m.site s := rfl
  intro root _ path l'
  unfold denotes
  rw [same]
  constructor
  · intro reads
    exact ⟨l', reads, (Face.rename_id l').symm⟩
  · rintro ⟨l, reads, rfl⟩
    rw [Face.rename_id]
    exact reads

theorem WellFormed.root_seen (wf : m.WellFormed es own) {root : Nat} (mem : root ∈ m.roots) :
    m.Seen own root := by
  by_cases inside : root < m.heapLen
  · exact .inr ⟨.root (List.mem_append_left _ (List.mem_append_left _ mem)) inside,
      wf.tracer.root root mem⟩
  · exact .inl (Nat.le_of_not_lt inside)

/-- States that agree denote the same. -/
theorem Agrees.sameTerms (wf : m.WellFormed es own) (marks : ∀ i, bits.marked i = true ↔ m.Reachable i)
    {h h' : Mem} {hm : Nat} (agrees : m.Agrees es bits hm h h') (undone : m.Undone es h)
    (fits : hm ≤ m.heapLen) {m' : Machine} (texit : m'.texit = m.texit) (arity : m'.arity = m.arity)
    (value : ∀ j, m.Reachable j → ¬ own j → m'.value (m.heap j) = m.value (m.heap j)) :
    m.SameTerms ⟨h, hm⟩ m' ⟨h', bits.below hm⟩ (movedTo bits m.heapLen) := by
  intro root mem path l'
  exact reads_iff (site_moves wf marks undone agrees fits texit arity value)
    (seen_closed wf undone fits) (wf.root_seen mem) path l'

theorem hostRoots_compact (gc : List GCache) (bits : Bits) :
    (m.compact gc bits).hostRoots = m.hostRoots.map (movedTo bits m.heapLen) := by
  unfold hostRoots compact
  dsimp only
  induction m.hroots with
  | nil => rfl
  | cons r rs ih =>
    rw [List.map_cons, List.flatMap_cons, List.flatMap_cons, ih, List.map_append]
    cases r.pos <;> rfl

/-- The barriers after a collection: how many words of the trail are kept before each, and
how many cells below it. -/
theorem barriers_compact (wf : m.WellFormed es own) (marks : ∀ i, bits.marked i = true ↔ m.Reachable i)
    (gc : List GCache) :
    ∃ es', (m.compact gc bits).trail = wordsOf es' ∧
      (m.compact gc bits).engineRoots = m.engineRoots.map (movedTo bits m.heapLen) ∧
      (m.compact gc bits).barriers.length = m.barriers.length ∧
      ∀ (k tmark hmark : Nat), m.barriers[k]? = some (tmark, hmark) →
        ∃ older newer older' newer', es = older ++ newer ∧ tmark = (wordsOf older).length ∧
          es' = older' ++ newer' ∧ Thinned bits hmark newer newer' ∧
          (m.compact gc bits).barriers[k]? = some ((wordsOf older').length, bits.below hmark) := by
  have inside : ∀ i, bits.marked i = true → i < m.heapLen := fun i marked => ((marks i).mp marked).below
  obtain ⟨es', words, -, length, barriers⟩ := trailPass_spec inside wf.fits
    (fun s a mem => (marks s).mpr (wf.saved_reachable mem)) 0 0 none gc wf.ordered (by simp)
    fun b mem => (wf.between b mem).1
  rw [← wf.trail] at words length barriers
  have written : (m.compact gc bits).barriers =
      ((trailPass m.heapLen bits 0 0 none m.barriers gc m.trail).1.zip (m.barriers.map Prod.snd)).map
        fun b => (b.1, movedTo bits (m.heapLen + 1) b.2) := by
    show chainBarriers true (moveRoots _ _ true _).reverse = _
    rw [chainBarriers_moveRoots, List.reverse_reverse, chainBarriers_setTrailMarks true _ length]
    rfl
  refine ⟨es', words, ?_, ?_, ?_⟩
  · show chainRoots true (moveRoots _ _ true _) = _
    rw [chainRoots_moveRoots, chainRoots_setTrailMarks _ length, List.reverse_reverse]
    rfl
  · rw [written, List.length_map, List.length_zip, length, List.length_map, Nat.min_self]
  · intro k tmark hmark kth
    obtain ⟨mark, kth'⟩ : ∃ mark, (trailPass m.heapLen bits 0 0 none m.barriers gc m.trail).1[k]? = some mark := by
      have below : k < m.barriers.length := (List.getElem?_eq_some_iff.mp kth).1
      exact ⟨_, List.getElem?_eq_getElem (by rw [length]; exact below)⟩
    obtain ⟨older, newer, older', newer', parts, at_, parts', mark_, thin⟩ := barriers k _ mark kth kth'
    refine ⟨older, newer, older', newer', parts, by simpa using at_, parts', thin, ?_⟩
    have le := (wf.between _ (List.mem_of_getElem? kth)).2
    have pair : ((trailPass m.heapLen bits 0 0 none m.barriers gc m.trail).1.zip
        (m.barriers.map Prod.snd))[k]? = some (mark, hmark) := by
      rw [List.getElem?_zip_eq_some]
      exact ⟨kth', by rw [List.getElem?_map, kth]; rfl⟩
    rw [written, List.getElem?_map, pair, Option.map_some, movedTo,
      if_pos (Nat.lt_succ_of_le le), Bits.rank_eq, mark_, Nat.zero_add]

theorem undone_back (wf : m.WellFormed es own) {newer : List Entry} (sub : newer ⊆ es) :
    m.Undone es (newer.foldr (fun e h => e.undo h) m.heap) :=
  ⟨fun _ kept => undone_unwritten sub kept, undone_cell wf sub⟩

/-- Going back to a mark that stands between entries undoes the newer ones. -/
theorem back_eq {m : Machine} {older newer : List Entry} (trail : m.trail = wordsOf (older ++ newer))
    (fits : ∀ e ∈ newer, e.Fits) (hmark : Nat) :
    m.back (wordsOf older).length hmark = ⟨newer.foldr (fun e h => e.undo h) m.heap, hmark⟩ := by
  unfold back
  have left : m.trail.length - (wordsOf older).length = (wordsOf newer).length := by
    rw [trail, wordsOf_append, List.length_append, Nat.add_sub_cancel_left]
  rw [left, trail, undo_entries fits]

/-- The tables still hold what the reached cells name. -/
theorem compact_value (wf : m.WellFormed es own) (marks : ∀ i, bits.marked i = true ↔ m.Reachable i)
    (gc : List GCache) (due free : Bool) (i : Nat) (reach : m.Reachable i) (plain : ¬ own i) :
    ((m.compact gc bits).tablesReclaim due free).value (m.heap i) = m.value (m.heap i) := by
  have marked := (marks i).mpr reach
  have inside : bits.below i < (m.compact gc bits).heapLen := by
    show _ < (slide m.heapLen bits (m.fixMarkers bits)).2
    rw [slide_len]
    exact Bits.below_lt marked reach.below
  have agrees : m.Agrees es bits m.heapLen m.heap (m.compact gc bits).heap :=
    agrees_now marks m.heapLen
  have cell := (agrees i marked (.inl reach.below)).2 fun index =>
    plain (indexed_own wf marks index)
  have kept := (m.compact gc bits).value_tablesReclaim due free inside
  rw [cell] at kept
  cases held : m.heap i with
  | flt k =>
    rw [held] at kept
    exact kept
  | str k =>
    rw [held] at kept
    exact kept
  | big k =>
    rw [held] at kept
    exact kept
  | rat k =>
    rw [held] at kept
    exact kept
  | _ => rfl

/-- A heap collection preserves every proof state the search can still reach: the state the
machine is in and the one each barrier goes back to. One renaming takes every root to where
it is, keeps the order of the cells reached, and takes the term each root denoted in a
state to the one it denotes in that state's counterpart. -/
theorem collect_preserves (wf : m.WellFormed es own) (mem : Memory) :
    ∃ r : Nat → Nat,
      (∀ i j, m.Reachable i → m.Reachable j → i < j → r i < r j) ∧
      (m.collect mem).roots = m.roots.map r ∧
      m.SameTerms m.now (m.collect mem) (m.collect mem).now r ∧
      (m.collect mem).barriers.length = m.barriers.length ∧
      ∀ (k tmark hmark : Nat), m.barriers[k]? = some (tmark, hmark) →
        ∃ tmark' hmark', (m.collect mem).barriers[k]? = some (tmark', hmark') ∧
          m.SameTerms (m.back tmark hmark) (m.collect mem) ((m.collect mem).back tmark' hmark') r := by
  cases found : (m.markPhase mem).2 with
  | none =>
    have still : m.collect mem = { m with gcache := (m.markPhase mem).1 } := by
      rw [collect, found]
    rw [still]
    refine ⟨id, fun _ _ _ _ older => older, (List.map_id _).symm, sameTerms_id _ _, rfl, ?_⟩
    intro k tmark hmark kth
    exact ⟨tmark, hmark, kth, sameTerms_id _ _⟩
  | some bits =>
    have marks : ∀ i, bits.marked i = true ↔ m.Reachable i := markPhase_spec found
    have done : m.collect mem = (m.compact (m.markPhase mem).1 bits).tablesReclaim mem.due mem.free := by
      rw [collect, found]
    obtain ⟨es', trail, engines, count, barriers⟩ := barriers_compact wf marks (m.markPhase mem).1
    have value := compact_value wf marks (m.markPhase mem).1 mem.due mem.free
    rw [done]
    obtain ⟨floats, strings, bigs, rats, tables⟩ :=
      tablesReclaim_eq (m.compact (m.markPhase mem).1 bits) mem.due mem.free
    rw [tables] at value ⊢
    refine ⟨movedTo bits m.heapLen, ?_, ?_, ?_, count, ?_⟩
    · intro i j hi hj older
      rw [movedTo_below hi.below, movedTo_below hj.below]
      exact Bits.below_lt ((marks i).mpr hi) older
    · have hosts := hostRoots_compact (m := m) (m.markPhase mem).1 bits
      show (m.compact (m.markPhase mem).1 bits).engineRoots ++
        (m.compact (m.markPhase mem).1 bits).hostRoots = _
      rw [roots, engines, hosts, List.map_append]
    · have now : (m.compact (m.markPhase mem).1 bits).now =
          ⟨(slide m.heapLen bits (m.fixMarkers bits)).1, bits.below m.heapLen⟩ := by
        rw [← slide_len m.heapLen bits (m.fixMarkers bits)]
        rfl
      show m.SameTerms _ _ (m.compact (m.markPhase mem).1 bits).now _
      rw [now]
      exact (agrees_now marks m.heapLen).sameTerms wf marks
        ⟨fun _ _ => rfl, fun _ => .inl rfl⟩ (Nat.le_refl _) rfl rfl value
    · intro k tmark hmark kth
      obtain ⟨older, newer, older', newer', parts, at_, parts', thin, mark⟩ := barriers k tmark hmark kth
      have sub : newer ⊆ es := by
        rw [parts]
        exact List.subset_append_right _ _
      have fits : ∀ e ∈ newer, e.Fits := fun e mem => wf.fits e (sub mem)
      refine ⟨_, _, mark, ?_⟩
      show m.SameTerms _ _ ((m.compact (m.markPhase mem).1 bits).back _ _) _
      rw [at_, back_eq (by rw [wf.trail, parts]) fits,
        back_eq (by rw [trail, parts']) (thin.fits fits)]
      exact ((agrees_now marks hmark).thinned wf marks thin sub).sameTerms wf marks
        (undone_back wf sub) (wf.between _ (List.mem_of_getElem? kth)).2 rfl rfl value

end

/-- With memory for all it asks, a collection is never abandoned, and leaves the cells that
are reached. -/
theorem collect_completes (m : Machine) {mem : Memory} (bitmap : mem.bitmap = true)
    (lists : mem.lists = true) (fixed : mem.fixed = true) (ample : m.degree < mem.stack) :
    ∃ bits : Bits, (∀ i, bits.marked i = true ↔ m.Reachable i) ∧
      (m.collect mem).heapLen = bits.below m.heapLen := by
  obtain ⟨bits, found⟩ := markPhase_total bitmap lists fixed ample
  refine ⟨bits, markPhase_spec found, ?_⟩
  obtain ⟨_, _, _, _, tables⟩ :=
    tablesReclaim_eq (m.compact (m.markPhase mem).1 bits) mem.due mem.free
  rw [collect, found]
  dsimp only
  rw [tables]
  exact slide_len m.heapLen bits _

/-- `f(b)`, which `setarg/3` made of `f(a)` after a choice point, and a cell nothing names. -/
def afterSetarg : Machine where
  heap i := [.func 1, .atom 9, .atom 3, .atom 8].getD i (.atom 0)
  heapLen := 4
  trail := [3 + pairBit, 1 + pairBit]
  chain := [{ goals := 0, query := 0, choices := [⟨0, 0, 0, 2, 0⟩] }]
  arity f := if f = 0 then 3 else 1
  texit := 0

theorem collect_preserves_afterSetarg :
    (afterSetarg.collect ⟨true, true, 16, true, true, true⟩).heapLen = 3 ∧
      (afterSetarg.collect ⟨true, true, 16, true, true, true⟩).trail = [2 + pairBit, 1 + pairBit] ∧
      ∃ r : Nat → Nat,
        ∃ tmark' hmark', (afterSetarg.collect ⟨true, true, 16, true, true, true⟩).barriers[0]? =
            some (tmark', hmark') ∧
          afterSetarg.SameTerms (afterSetarg.back 0 2)
            (afterSetarg.collect ⟨true, true, 16, true, true, true⟩)
            ((afterSetarg.collect ⟨true, true, 16, true, true, true⟩).back tmark' hmark') r := by
  have cells : ∀ t f, afterSetarg.heap t = .func f → t = 0 ∧ f = 1 := by
    intro t f held
    match t with
    | 0 => exact ⟨rfl, (Cell.func.inj held).symm⟩
    | 1 | 2 | 3 => cases held
    | t + 4 => cases held
  have no_pos : ∀ t w, afterSetarg.heap t ≠ .pos w := by
    intro t w held
    match t with
    | 0 | 1 | 2 | 3 => cases held
    | t + 4 => cases held
  have no_ref : ∀ t p, afterSetarg.heap t ≠ .ref p := by
    intro t p held
    match t with
    | 0 | 1 | 2 | 3 => cases held
    | t + 4 => cases held
  have wf : afterSetarg.WellFormed [.value 3 1] fun _ => False := {
    trail := rfl
    fits := by simp [Entry.Fits]
    saved := by
      intro s a mem
      rw [List.mem_singleton] at mem
      cases mem
      refine ⟨by decide, fun f held => absurd (cells 3 f held).1 (by decide), no_pos 3, ?_⟩
      rintro ⟨e, mem, at_⟩
      rw [List.mem_singleton] at mem
      rw [mem] at at_
      cases at_
    ordered := List.pairwise_singleton _ _
    between := by
      intro b mem
      have here : b = (0, 2) := List.mem_singleton.mp mem
      rw [here]
      exact ⟨⟨[], [.value 3 1], rfl, rfl⟩, by decide⟩
    whole := by
      intro t f _ held
      obtain ⟨rfl, rfl⟩ := cells t f held
      decide
    position := fun t w _ held => absurd held (no_pos t w)
    tracer := {
      arity := rfl
      marker := fun t _ held => absurd (cells t 0 held).2 (by decide)
      depth := fun _ _ _ no => no
      root := fun _ _ no => no
      ref := fun i p _ _ held => absurd held (no_ref i p)
      arg := fun _ _ _ _ _ _ _ no => no
      header := fun t w _ held => absurd held (no_pos t w)
      unwritten := fun _ no => no.elim
      unsaved := fun _ _ _ no => no } }
  obtain ⟨r, -, -, -, -, barriers⟩ := collect_preserves wf ⟨true, true, 16, true, true, true⟩
  exact ⟨by decide, by decide, r, barriers 0 0 2 rfl⟩

end Machine

end Cocolog.Gc
