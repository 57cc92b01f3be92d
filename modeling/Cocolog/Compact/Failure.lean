import Cocolog.Compact.Model

/-! A compaction that answers 0. Of the store it can have written one thing, the sizes of
the globals, and it wrote each as the global was copied; the heap is as long as before. -/

set_option linter.all false

namespace Cocolog.Compact

open Cocolog.Lib Cocolog.Term Cocolog.Store Cocolog.Copy

/-- One global after the other, what `coco_store_get` and then `coco_store_put` leave of
its term in the fresh array are as many cells as its `size` says. -/
def Fits {tb : Tables} (ws : Words tb) (fuel : Nat) (cells : Heap) (hmark : Nat) : List Global → Copying → Prop
  | [], _ => True
  | g :: rest, s =>
    ∃ r s', copyRoot ws fuel cells hmark g.cell s = some (r, s') ∧ s'.tmp.cells.len - r = g.size ∧
      Fits ws fuel cells hmark rest s'

variable {tb : Tables} {ws : Words tb} {fuel hmark : Nat} {cells : Heap} {s s' : Copying}

theorem copyRoot_heap_len {root r : Nat} (ran : copyRoot ws fuel cells hmark root s = some (r, s')) :
    s'.m.heap.len = hmark := by
  simp only [copyRoot, Option.bind_eq_some_iff, Option.map_eq_some_iff] at ran
  obtain ⟨_, -, _, -, is⟩ := ran
  rw [← (Prod.mk.inj is).2]
  rfl

theorem copyRoots_heap_len {roots rs : List Nat} (mark : s.m.heap.len = hmark)
    (ran : copyRoots ws fuel cells hmark roots s = some (rs, s')) : s'.m.heap.len = hmark := by
  induction roots generalizing s rs with
  | nil =>
    cases ran
    exact mark
  | cons root rest ih =>
    simp only [copyRoots, Option.bind_eq_some_iff, Option.map_eq_some_iff] at ran
    obtain ⟨⟨r, s₁⟩, first, ⟨rs', s₂⟩, later, is⟩ := ran
    cases is
    exact ih (copyRoot_heap_len first) later

theorem copyGlobals_heap_len {gs gs' : List Global} {rs : List Nat} (mark : s.m.heap.len = hmark)
    (ran : copyGlobals ws fuel cells hmark gs s = some (rs, gs', s')) : s'.m.heap.len = hmark := by
  induction gs generalizing s rs gs' with
  | nil =>
    cases ran
    exact mark
  | cons g rest ih =>
    simp only [copyGlobals, Option.bind_eq_some_iff, Option.map_eq_some_iff] at ran
    obtain ⟨⟨r, s₁⟩, first, ⟨rs', gs₁, s₂⟩, later, is⟩ := ran
    cases is
    exact ih (copyRoot_heap_len first) later

/-- The globals are left as they were exactly when every copy takes the size recorded. -/
theorem sized_eq_iff {gs gs' : List Global} {rs : List Nat}
    (ran : copyGlobals ws fuel cells hmark gs s = some (rs, gs', s')) :
    gs' = gs ↔ Fits ws fuel cells hmark gs s := by
  induction gs generalizing s rs gs' with
  | nil =>
    cases ran
    exact ⟨fun _ => trivial, fun _ => rfl⟩
  | cons g rest ih =>
    simp only [copyGlobals, Option.bind_eq_some_iff, Option.map_eq_some_iff] at ran
    obtain ⟨⟨r, s₁⟩, first, ⟨rs', gs₁, s₂⟩, later, is⟩ := ran
    cases is
    rw [List.cons_eq_cons, ih later]
    constructor
    · rintro ⟨same, fits⟩
      exact ⟨r, s₁, first, congrArg Global.size same, fits⟩
    · rintro ⟨r', s₁', first', size, fits⟩
      obtain ⟨rfl, rfl⟩ := Prod.mk.inj (Option.some.inj (first.symm.trans first'))
      exact ⟨by rw [size], fits⟩

/-- The state the copies start from. -/
def Mach.start (m : Mach) (st : Base) (a : Answers) : Copying :=
  ⟨m, ⟨⟨fun _ => .ref 0, 0⟩, if 0 < st.cells.len then st.cells.len else 1, false⟩, a.later.later⟩

/-- What a compaction did that answered 0: nothing, or the copies of all three families,
with the sizes written. -/
theorem compact_failed {st st' : Base} {m m' : Mach} {a : Answers} {rooms : Nat → Bool}
    (failed : compact ws fuel st m a rooms = some (false, st', m')) :
    ((st.machines = true ∨ a.arrays 0 = .refused ∨ a.arrays 1 = .refused) ∧ st' = st ∧ m' = m) ∨
      (¬(st.machines = true ∨ a.arrays 0 = .refused ∨ a.arrays 1 = .refused) ∧ ∃ clauses s₁ globals sized s₂ sets s₃,
        copyRoots ws fuel st.cells m.heap.len (st.preds.flatMap cellsOf) (m.start st a) = some (clauses, s₁) ∧
        copyGlobals ws fuel st.cells m.heap.len st.globals s₁ = some (globals, sized, s₂) ∧
        copyRoots ws fuel st.cells m.heap.len st.roots.flatten s₂ = some (sets, s₃) ∧
        st' = { st with globals := sized } ∧ m' = s₃.m) := by
  unfold compact at failed
  split at failed
  · rename_i many
    cases failed
    exact .inl ⟨.inl many, rfl, rfl⟩
  rename_i one
  split at failed
  · rename_i no
    cases failed
    exact .inl ⟨.inr (.inl no), rfl, rfl⟩
  rename_i roots
  split at failed
  · rename_i no
    cases failed
    exact .inl ⟨.inr (.inr no), rfl, rfl⟩
  rename_i array
  simp only [Option.bind_eq_some_iff, Option.map_eq_some_iff] at failed
  obtain ⟨⟨clauses, s₁⟩, first, ⟨globals, sized, s₂⟩, second, ⟨sets, s₃⟩, third, is⟩ := failed
  refine .inr ⟨?_, clauses, s₁, globals, sized, s₂, sets, s₃, first, second, third, ?_⟩
  · simp only [not_or]
    exact ⟨one, roots, array⟩
  · split at is
    · cases is
      exact ⟨rfl, rfl⟩
    · cases is

/-- One global, the term `f(a, b)`. -/
def oneGlobal : Base where
  preds := []
  globals := [⟨7, 0, 5, 0, true⟩]
  roots := []
  cells := ⟨fun | 0 => .func 0 | 1 => .ref 3 | 2 => .ref 4 | 3 => .atom 1 | _ => .atom 2, 5⟩
  cap := 64

/-- A heap of 64 atoms, and room for no more. -/
def fullHeap : Mach where
  heap := ⟨fun _ => .atom 1, 64⟩
  heapCap := 64

/-- Memory for the first requests only. -/
def firstGiven (n : Nat) : Answers where
  arrays k := if k < n then .doubled else .refused
  maps _ := true

/-- The global, and a rootset that names its term as well. -/
def alsoRooted : Base := { oneGlobal with roots := [[0]] }

end Cocolog.Compact
