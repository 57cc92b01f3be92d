import Cocolog.Term.Cell
import Mathlib.Data.List.Basic
import Mathlib.Logic.Function.Basic

/-! Keys, on the heap and in the store, and the copy that takes a clause from the one to
the other. A key is the principal cell of an argument as a machine word, zero for a cell
that cannot be compared as one. The copy keeps every key. -/

set_option linter.all false

namespace Cocolog.Store

open Cocolog.Lib Cocolog.Term

/-- A cell's key: zero for a reference, a float, a string, a boxed integer and a
rational, the word itself for any other. -/
def cellKey : Cell → Nat
  | .ref _ | .flt _ | .str _ | .big _ | .rat _ => 0
  | c => c.word

/-- The heap: its cells and how many there are. -/
structure Heap where
  cells : Mem
  len : Nat

namespace Heap

/-- `coco_deref`. -/
def deref (h : Heap) (t : Nat) : Nat := Term.deref h.cells h.len t

/-- `coco_cell_key`. -/
def cellKeyAt (h : Heap) (a : Nat) : Nat := cellKey (h.cells (h.deref a))

/-- `coco_arg_key`: the key of a term's first argument. -/
def argKey (tb : Tables) (h : Heap) (t : Nat) : Nat :=
  match h.cells (h.deref t) with
  | .func f => if tb.arity f = 0 then 0 else h.cellKeyAt (h.deref t + 1)
  | _ => 0

/-- `coco_call_arg_key`. -/
def callArgKey (tb : Tables) (h : Heap) (call pos : Nat) : Nat :=
  if pos = 0 then h.argKey tb call else h.cellKeyAt (h.deref call + (pos + 1))

/-- The head `coco_clause_parts` finds: the left of a neck, or the clause itself, which
its readers dereference. -/
def clauseHead (tb : Tables) (neck : Nat) (h : Heap) (t : Nat) : Nat :=
  match h.cells (h.deref t) with
  | .func f => if tb.arity f = 2 ∧ (tb.functors f).name = neck then h.deref t + 1 else t
  | _ => t

end Heap

/-- The head `coco_store_clause_parts` finds. -/
def storeHead (tb : Tables) (neck : Nat) (s : Mem) (turns clause : Nat) : Nat :=
  let c := deref s turns clause
  match s c with
  | .func f => if tb.arity f = 2 ∧ (tb.functors f).name = neck then c + 1 else c
  | _ => c

/-- `coco_store_arg_key`. -/
def storeArgKey (tb : Tables) (neck : Nat) (s : Mem) (turns clause j : Nat) : Nat :=
  let head := deref s turns (storeHead tb neck s turns clause)
  match s head with
  | .func f => if tb.arity f ≤ j then 0 else cellKey (s (deref s turns (head + (j + 1))))
  | _ => 0

/-- Two cells with different keys, neither zero, are the roots of terms that cannot be
made one. -/
theorem not_unifiable_of_keys {tb : Tables} {h h' : Mem} {t t' : Nat}
    (some_ : cellKey (h t) ≠ 0) (some' : cellKey (h' t') ≠ 0)
    (different : cellKey (h t) ≠ cellKey (h' t')) : ¬ Unifiable tb h t h' t' := by
  have labelled : ∀ c, cellKey c ≠ 0 → ∃ root n, shape tb c = some (root, n) ∧
      ∀ d m, shape tb d = some (root, m) → cellKey d ≠ 0 → cellKey d = cellKey c := by
    intro c nonzero
    cases c with
    | atom a =>
      refine ⟨.atom a, 0, rfl, ?_⟩
      intro d m held _
      cases d <;> simp_all [shape]
    | int i =>
      refine ⟨.int i, 0, rfl, ?_⟩
      intro d m held _
      cases d <;> simp_all [shape]
    | func f =>
      refine ⟨.func f, tb.arity f, rfl, ?_⟩
      intro d m held _
      cases d <;> simp_all [shape]
    | pos w =>
      refine ⟨.pos w, 0, rfl, ?_⟩
      intro d m held _
      cases d <;> simp_all [shape]
    | _ => exact absurd rfl nonzero
  obtain ⟨root, n, held, -⟩ := labelled (h t) some_
  obtain ⟨root', n', held', only⟩ := labelled (h' t') some'
  refine not_unifiable_of_roots held held' ?_
  rintro rfl
  exact different (only (h t) n held some_)

/- The copy. -/

/-- The store while a term is put into it: its cells, their count and the variables met. -/
structure Putting where
  cells : Mem
  len : Nat
  vars : List (Nat × Nat)

namespace Putting

/-- `coco_store_push`. -/
def push (s : Putting) (c : Cell) : Putting :=
  { s with cells := Function.update s.cells s.len c, len := s.len + 1 }

/-- `n` slots reserved, each an unbound variable of its own. -/
def reserve (s : Putting) : Nat → Putting
  | 0 => s
  | n + 1 => (s.push (.ref s.len)).reserve n

end Putting

/-- `coco_store_put_walk`. The source walks with a stack of frames, the first argument of
the newest compound first, which visits the arguments in the order of this recursion. The
fuel runs out on a cyclic term alone, and a clause that is one is refused. -/
def put (tb : Tables) (h : Heap) : Nat → Nat → Putting → Option (Nat × Putting)
  | 0, _, _ => none
  | fuel + 1, t, s =>
    let t := h.deref t
    match h.cells t with
    | .ref _ =>
      match s.vars.lookup t with
      | some v => some (v, s)
      | none => some (s.len, { s.push (.ref s.len) with vars := (t, s.len) :: s.vars })
    | .func f =>
      let hd := s.len
      let s := (s.push (.func f)).reserve (tb.arity f)
      ((List.range (tb.arity f)).foldlM (fun s k =>
        (put tb h fuel (t + (k + 1)) s).map fun r =>
          { r.2 with cells := Function.update r.2.cells (hd + 1 + k) (.ref r.1) }) s).map
        fun s => (hd, s)
    | c => some (s.len, s.push c)

/-- In memory `m` the cell `r` holds a copy of the heap's term at `t`: the same cells,
each argument slot leading to the copy of the argument. -/
inductive Copy (tb : Tables) (h : Heap) (m : Mem) : Nat → Nat → Prop where
  | var {t r : Nat} (unbound : (h.cells (h.deref t)).isRef = true) (self : m r = .ref r) :
      Copy tb h m t r
  | atomic {t r : Nat} (held : (h.cells (h.deref t)).isRef = false)
      (flat : ∀ f, h.cells (h.deref t) ≠ .func f) (same : m r = h.cells (h.deref t)) :
      Copy tb h m t r
  | func {t r f : Nat} (arg : Nat → Nat) (held : h.cells (h.deref t) = .func f)
      (same : m r = .func f)
      (slot : ∀ k < tb.arity f, m (r + 1 + k) = .ref (arg k) ∧ arg k ≠ r + 1 + k)
      (copies : ∀ k < tb.arity f, Copy tb h m (h.deref t + (k + 1)) (arg k)) : Copy tb h m t r

/-- Every variable met has a cell of its own, unbound. -/
def Putting.Selves (s : Putting) : Prop :=
  ∀ x v, (x, v) ∈ s.vars → v < s.len ∧ s.cells v = .ref v

/-- The cells a copy stands on: those written since `base`, and the variables'. -/
def Putting.Stands (base : Nat) (s : Putting) (m : Mem) : Prop :=
  (∀ i, base ≤ i → i < s.len → m i = s.cells i) ∧ ∀ x v, (x, v) ∈ s.vars → m v = .ref v

/-- What putting a term does to the store. -/
structure PutOk (tb : Tables) (h : Heap) (t r : Nat) (s s' : Putting) : Prop where
  grows : s.len ≤ s'.len
  root : (s.len ≤ r ∧ r < s'.len) ∨ ∃ x, (x, r) ∈ s.vars
  keeps : ∀ i < s.len, s'.cells i = s.cells i
  older : ∀ q ∈ s.vars, q ∈ s'.vars
  newer : ∀ x v, (x, v) ∈ s'.vars → (x, v) ∈ s.vars ∨ s.len ≤ v
  selves : s'.Selves
  copy : ∀ m, s'.Stands s.len m → Copy tb h m t r

namespace Putting

theorem reserve_spec (s : Putting) (n : Nat) :
    (s.reserve n).len = s.len + n ∧ (s.reserve n).vars = s.vars ∧
      ∀ i < s.len, (s.reserve n).cells i = s.cells i := by
  induction n generalizing s with
  | zero => exact ⟨rfl, rfl, fun _ _ => rfl⟩
  | succ n ih =>
    obtain ⟨len, vars, keeps⟩ := ih (s.push (.ref s.len))
    refine ⟨len.trans (by simp only [push]; omega), vars, ?_⟩
    intro i hi
    rw [reserve, keeps i (by simp only [push]; omega)]
    simp [push, Nat.ne_of_lt hi]

end Putting

/-- What the loop over a compound's arguments has done after the first `k`. -/
structure ArgsOk (tb : Tables) (h : Heap) (t hd : Nat) (s0 : Putting) (k : Nat) (s : Putting) :
    Prop where
  grows : s0.len ≤ s.len
  keeps : ∀ i < s0.len, (i ≤ hd ∨ hd + 1 + k ≤ i) → s.cells i = s0.cells i
  older : ∀ q ∈ s0.vars, q ∈ s.vars
  newer : ∀ x v, (x, v) ∈ s.vars → (x, v) ∈ s0.vars ∨ s0.len ≤ v
  selves : s.Selves
  args : ∀ j < k, ∃ a, s.cells (hd + 1 + j) = .ref a ∧ a ≠ hd + 1 + j ∧
    ∀ m, s.Stands s0.len m → Copy tb h m (t + (j + 1)) a

variable {tb : Tables} {h : Heap}

theorem ArgsOk.step {t hd n k r : Nat} {s0 s s' : Putting} (len : s0.len = hd + 1 + n)
    (low : ∀ x v, (x, v) ∈ s0.vars → v < hd) (below : k < n) (before : ArgsOk tb h t hd s0 k s)
    (put : PutOk tb h (t + (k + 1)) r s s') :
    ArgsOk tb h t hd s0 (k + 1)
      { s' with cells := Function.update s'.cells (hd + 1 + k) (.ref r) } := by
  have before_grows := before.grows
  have grows := put.grows
  -- no variable's cell is a slot of this compound
  have off_slots : ∀ x v, (x, v) ∈ s'.vars → v < hd ∨ s0.len ≤ v := by
    intro x v hv
    rcases put.newer x v hv with old | new
    · rcases before.newer x v old with older | newer
      · exact .inl (low x v older)
      · exact .inr newer
    · exact .inr (by omega)
  refine
    { grows := by simp only; omega, keeps := ?_, older := fun q hq => put.older q (before.older q hq)
      newer := ?_, selves := ?_, args := ?_ }
  · intro i hi outside
    have off : i ≠ hd + 1 + k := by omega
    show Function.update s'.cells (hd + 1 + k) (.ref r) i = _
    rw [Function.update_of_ne off, put.keeps i (by omega), before.keeps i hi (by omega)]
  · intro x v hv
    rcases put.newer x v hv with old | new
    · exact before.newer x v old
    · exact .inr (by omega)
  · intro x v hv
    have off : v ≠ hd + 1 + k := by
      rcases off_slots x v hv with low | high <;> omega
    obtain ⟨bound, self⟩ := put.selves x v hv
    exact ⟨bound, by simpa [off] using self⟩
  · intro j hj
    rcases Nat.eq_or_lt_of_le (Nat.le_of_lt_succ hj) with rfl | earlier
    · refine ⟨r, by simp, ?_, ?_⟩
      · rcases put.root with ⟨high, -⟩ | ⟨x, old⟩
        · omega
        · rcases before.newer x r old with older | newer
          · have := low x r older
            omega
          · omega
      · rintro m ⟨agree, selves⟩
        refine put.copy m ⟨?_, selves⟩
        intro i h1 h2
        have off : i ≠ hd + 1 + j := by omega
        rw [agree i (by omega) h2]
        simp [off]
    · obtain ⟨a, cell, off, copy⟩ := before.args j earlier
      refine ⟨a, ?_, off, ?_⟩
      · have apart : hd + 1 + j ≠ hd + 1 + k := by omega
        show Function.update s'.cells (hd + 1 + k) (.ref r) (hd + 1 + j) = _
        rw [Function.update_of_ne apart, put.keeps _ (by omega), cell]
      · rintro m ⟨agree, selves⟩
        refine copy m ⟨?_, fun x v hv => selves x v (put.older _ hv)⟩
        intro i h1 h2
        have off : i ≠ hd + 1 + k := by omega
        rw [agree i h1 (by simp only; omega), ← put.keeps i h2]
        simp [off]

/-- A term put into the store is copied there, and nothing that was there changes. -/
theorem put_spec {fuel t r : Nat} {s s' : Putting} (selves : s.Selves)
    (done : put tb h fuel t s = some (r, s')) : PutOk tb h t r s s' := by
  induction fuel generalizing t r s s' with
  | zero => cases done
  | succ fuel ih =>
    rw [put] at done
    cases cell : h.cells (h.deref t) with
    | ref p =>
      simp only [cell] at done
      split at done
      · rename_i v found
        obtain ⟨rfl, rfl⟩ := Prod.mk.inj (Option.some.inj done)
        have member : (h.deref t, v) ∈ s.vars := by
          obtain ⟨front, back, eq, -⟩ := List.lookup_eq_some_iff.mp found
          rw [eq]
          exact List.mem_append_right front List.mem_cons_self
        exact ⟨Nat.le_refl _, .inr ⟨_, member⟩, fun _ _ => rfl, fun _ hq => hq,
          fun _ _ hv => .inl hv, selves,
          fun m stands => .var (by simp [cell, Cell.isRef]) (stands.2 _ _ member)⟩
      · obtain ⟨rfl, rfl⟩ := Prod.mk.inj (Option.some.inj done)
        refine ⟨Nat.le_succ _, .inl ⟨Nat.le_refl _, Nat.lt_succ_self _⟩, ?_, ?_, ?_, ?_, ?_⟩
        · intro i hi
          simp [Putting.push, Nat.ne_of_lt hi]
        · intro q hq
          exact List.mem_cons_of_mem _ hq
        · intro x v hv
          rcases List.mem_cons.mp hv with same | old
          · exact .inr (Nat.le_of_eq (Prod.mk.inj same).2.symm)
          · exact .inl old
        · intro x v hv
          rcases List.mem_cons.mp hv with same | old
          · obtain ⟨rfl, rfl⟩ := Prod.mk.inj same
            exact ⟨Nat.lt_succ_self _, by simp [Putting.push]⟩
          · obtain ⟨bound, self⟩ := selves x v old
            refine ⟨Nat.lt_succ_of_lt bound, ?_⟩
            simpa [Putting.push, Nat.ne_of_lt bound] using self
        · intro m stands
          exact .var (by simp [cell, Cell.isRef]) (stands.2 _ _ List.mem_cons_self)
    | func f =>
      simp only [cell] at done
      obtain ⟨s1, loop, eq⟩ := Option.map_eq_some_iff.mp done
      obtain ⟨rfl, rfl⟩ := Prod.mk.inj eq
      obtain ⟨s0, hs0⟩ : ∃ s0, s0 = (s.push (.func f)).reserve (tb.arity f) := ⟨_, rfl⟩
      rw [← hs0] at loop
      obtain ⟨len0, vars0, keeps0⟩ := (s.push (.func f)).reserve_spec (tb.arity f)
      rw [← hs0] at len0 vars0 keeps0
      have len : s0.len = s.len + 1 + tb.arity f := len0
      have vars : s0.vars = s.vars := vars0
      have old_cells : ∀ i < s.len, s0.cells i = s.cells i := by
        intro i hi
        rw [keeps0 i (by simp only [Putting.push]; omega)]
        simp [Putting.push, Nat.ne_of_lt hi]
      have header : s0.cells s.len = .func f := by
        rw [keeps0 s.len (by simp [Putting.push])]
        simp [Putting.push]
      have selves0 : s0.Selves := by
        intro x v hv
        rw [vars] at hv
        obtain ⟨bound, self⟩ := selves x v hv
        exact ⟨by omega, by rw [old_cells v bound, self]⟩
      have low : ∀ x v, (x, v) ∈ s0.vars → v < s.len := by
        intro x v hv
        rw [vars] at hv
        exact (selves x v hv).1
      have args : ∀ k ≤ tb.arity f, ∀ sk,
          (List.range k).foldlM (fun s' k =>
            (put tb h fuel (h.deref t + (k + 1)) s').map fun r =>
              { r.2 with cells := Function.update r.2.cells (s.len + 1 + k) (.ref r.1) }) s0 =
            some sk → ArgsOk tb h (h.deref t) s.len s0 k sk := by
        intro k
        induction k with
        | zero =>
          rintro _ sk hk
          obtain rfl : s0 = sk := Option.some.inj hk
          exact ⟨Nat.le_refl _, fun _ _ _ => rfl, fun _ hq => hq, fun _ _ hv => .inl hv, selves0,
            fun j hj => absurd hj (Nat.not_lt_zero j)⟩
        | succ k ihk =>
          intro le sk hk
          rw [List.range_succ, List.foldlM_append] at hk
          obtain ⟨sj, before, after⟩ := Option.bind_eq_some_iff.mp hk
          have okj := ihk (by omega) sj before
          simp only [List.foldlM_cons, List.foldlM_nil] at after
          obtain ⟨sr, stepped, last⟩ := Option.bind_eq_some_iff.mp after
          obtain ⟨⟨rk, s''⟩, putk, write⟩ := Option.map_eq_some_iff.mp stepped
          have final : sk = sr := (Option.some.inj last).symm
          rw [final, ← write]
          exact okj.step len low (by omega) (ih okj.selves putk)
      have all := args (tb.arity f) (Nat.le_refl _) s1 loop
      have grows := all.grows
      refine ⟨by omega, .inl ⟨Nat.le_refl _, by omega⟩, ?_, ?_, ?_, all.selves, ?_⟩
      · intro i hi
        rw [all.keeps i (by omega) (by omega), old_cells i hi]
      · intro q hq
        exact all.older q (by rw [vars]; exact hq)
      · intro x v hv
        rcases all.newer x v hv with old | new
        · exact .inl (by rw [← vars]; exact old)
        · exact .inr (by omega)
      · rintro m ⟨agree, own⟩
        choose! arg slot off copy using all.args
        refine .func arg cell ?_ ?_ ?_
        · rw [agree s.len (Nat.le_refl _) (by omega), all.keeps s.len (by omega) (by omega), header]
        · intro k hk
          exact ⟨by rw [agree _ (by omega) (by omega)]; exact slot k hk, off k hk⟩
        · intro k hk
          exact copy k hk m ⟨fun i h1 h2 => agree i (by omega) h2, own⟩
    | _ =>
      simp only [cell] at done
      obtain ⟨rfl, rfl⟩ := Prod.mk.inj (Option.some.inj done)
      refine ⟨Nat.le_succ _, .inl ⟨Nat.le_refl _, Nat.lt_succ_self _⟩, ?_, fun _ hq => hq,
        fun _ _ hv => .inl hv, ?_, ?_⟩
      · intro i hi
        simp [Putting.push, Nat.ne_of_lt hi]
      · intro x v hv
        obtain ⟨bound, self⟩ := selves x v hv
        refine ⟨Nat.lt_succ_of_lt bound, ?_⟩
        simpa [Putting.push, Nat.ne_of_lt bound] using self
      · intro m stands
        refine .atomic (by simp [cell, Cell.isRef]) (by simp [cell]) ?_
        rw [stands.1 s.len (Nat.le_refl _) (Nat.lt_succ_self _), cell]
        simp [Putting.push]

/- What the copy keeps. -/

theorem deref_fixed {m : Mem} {r : Nat} (fixed : m r = .ref r ∨ (m r).isRef = false) (turns : Nat) :
    deref m turns r = r := by
  cases turns with
  | zero => rfl
  | succ turns =>
    rw [Term.deref]
    rcases fixed with self | held
    · simp [self]
    · split
      · rename_i p bound
        simp [bound, Cell.isRef] at held
      · rfl

theorem Copy.fixed {m : Mem} {t r : Nat} (copy : Copy tb h m t r) :
    m r = .ref r ∨ (m r).isRef = false := by
  cases copy with
  | var _ self => exact .inl self
  | atomic held _ same => exact .inr (by rw [same]; exact held)
  | func _ _ same => exact .inr (by rw [same]; rfl)

theorem Copy.cellKey_eq {m : Mem} {t r : Nat} (copy : Copy tb h m t r) :
    cellKey (m r) = h.cellKeyAt t := by
  cases copy with
  | var unbound self =>
    cases cell : h.cells (h.deref t) <;> simp_all [Heap.cellKeyAt, cellKey, Cell.isRef]
  | atomic _ _ same => rw [same, Heap.cellKeyAt]
  | func _ held same => rw [same, Heap.cellKeyAt, held]

/-- The slot of a copied argument leads to its copy. -/
theorem deref_slot {m : Mem} {t x a turns : Nat} (slot : m x = .ref a) (off : a ≠ x)
    (copy : Copy tb h m t a) (enough : 1 ≤ turns) : deref m turns x = a := by
  obtain ⟨turns, rfl⟩ : ∃ k, turns = k + 1 := ⟨turns - 1, by omega⟩
  simp only [Term.deref, slot, if_neg off]
  exact deref_fixed copy.fixed turns

/-- Argument `j`'s key in the head of a clause still on the heap. -/
def Heap.headKey (tb : Tables) (neck : Nat) (h : Heap) (clause j : Nat) : Nat :=
  let head := h.deref (h.clauseHead tb neck clause)
  match h.cells head with
  | .func f => if tb.arity f ≤ j then 0 else h.cellKeyAt (head + (j + 1))
  | _ => 0

theorem argKey_eq_headKey (tb : Tables) (neck : Nat) (h : Heap) (clause : Nat) :
    h.argKey tb (h.clauseHead tb neck clause) = h.headKey tb neck clause 0 := by
  simp only [Heap.argKey, Heap.headKey, Nat.le_zero]

theorem Copy.headKey_eq {m : Mem} {t r turns : Nat} (copy : Copy tb h m t r) (enough : 1 ≤ turns)
    (j : Nat) :
    (match m r with
      | .func f => if tb.arity f ≤ j then 0 else cellKey (m (deref m turns (r + (j + 1))))
      | _ => 0) =
    (match h.cells (h.deref t) with
      | .func f => if tb.arity f ≤ j then 0 else h.cellKeyAt (h.deref t + (j + 1))
      | _ => 0) := by
  cases copy with
  | var unbound self =>
    cases cell : h.cells (h.deref t) <;> simp_all [Cell.isRef]
  | atomic held flat same =>
    rw [same]
    cases cell : h.cells (h.deref t) with
    | func f => exact absurd cell (flat f)
    | _ => rfl
  | @func _ _ f arg held same slot copies =>
    rw [same, held]
    by_cases past : tb.arity f ≤ j
    · simp [past]
    · have below : j < tb.arity f := by omega
      obtain ⟨leads, off⟩ := slot j below
      have at_slot : r + (j + 1) = r + 1 + j := by omega
      simp only [if_neg past, at_slot, deref_slot leads off (copies j below) enough]
      exact (copies j below).cellKey_eq

/-- What the store reads for a copied clause is what the heap said of it. -/
theorem Copy.storeArgKey_eq {m : Mem} {t r turns : Nat} (copy : Copy tb h m t r)
    (enough : 1 ≤ turns) (neck j : Nat) :
    storeArgKey tb neck m turns r j = h.headKey tb neck t j := by
  have stays : deref m turns r = r := deref_fixed copy.fixed turns
  -- the head is found the same way on both sides
  have head : ∃ r', deref m turns (storeHead tb neck m turns r) = r' ∧
      Copy tb h m (h.clauseHead tb neck t) r' := by
    have whole := copy
    cases copy with
    | var unbound self =>
      refine ⟨r, by simp only [storeHead, stays, self], ?_⟩
      cases cell : h.cells (h.deref t) <;> simp_all [Heap.clauseHead, Cell.isRef]
    | atomic held flat same =>
      cases cell : h.cells (h.deref t) with
      | func f => exact absurd cell (flat f)
      | _ =>
        refine ⟨r, by simp only [storeHead, stays, same, cell], ?_⟩
        simpa only [Heap.clauseHead, cell] using whole
    | @func _ _ f arg held same slot copies =>
      simp only [storeHead, stays, same, Heap.clauseHead, held]
      by_cases necked : tb.arity f = 2 ∧ (tb.functors f).name = neck
      · have below : 0 < tb.arity f := by omega
        obtain ⟨leads, off⟩ := slot 0 below
        rw [if_pos necked, if_pos necked]
        exact ⟨arg 0, deref_slot leads off (copies 0 below) enough, copies 0 below⟩
      · rw [if_neg necked, if_neg necked]
        exact ⟨r, stays, whole⟩
  obtain ⟨r', reached, copied⟩ := head
  have key := copied.headKey_eq enough j
  simp only [storeArgKey, reached, Heap.headKey]
  exact key

end Cocolog.Store
