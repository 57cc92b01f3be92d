import Cocolog.Copy.Get
import Cocolog.Lib.Brent

/-! Lists that are their own tail. Two loops of one method tell them from the lists that end,
and the second brings back the elements of the lead and of the cycle. -/

set_option linter.all false

namespace Cocolog.Copy

open Cocolog.Lib Cocolog.Term Cocolog.Store

variable {tb : Tables}

/-- The loop of `coco_list_cyclic`. -/
def listCyclicLoop (ws : Words tb) (h : Heap) : (turns : Nat) → (l kept power lam : Nat) → Option Bool
  | 0, _, _, _, _ => none
  | turns + 1, l, kept, power, lam =>
    if isCons ws (h.cells l) then
      let l := h.deref (l + 2)
      if l = kept then some true
      else if lam + 1 = power then listCyclicLoop ws h turns l l (power * 2) 0
      else listCyclicLoop ws h turns l kept power (lam + 1)
    else some false

/-- `coco_list_cyclic`, with turns enough for the cells there are. -/
def listCyclic (ws : Words tb) (h : Heap) (l : Nat) : Option Bool :=
  listCyclicLoop ws h (4 * h.len + 1) (h.deref l) (h.deref l) 1 0

/-- The loop of `coco_list_cycle_items`. `rooms` are the answers to the pushes. -/
def listCycleItemsLoop (ws : Words tb) (h : Heap) (rooms : Nat → Bool) :
    (turns : Nat) → (l kept power lam : Nat) → (v : List Nat) → Option (Option (List Nat))
  | 0, _, _, _, _, _ => none
  | turns + 1, l, kept, power, lam, v =>
    if isCons ws (h.cells l) then
      if rooms v.length then
        let v := v ++ [h.deref (l + 1)]
        let l := h.deref (l + 2)
        if l = kept then some (some v)
        else if lam + 1 = power then listCycleItemsLoop ws h rooms turns l l (power * 2) 0 v
        else listCycleItemsLoop ws h rooms turns l kept power (lam + 1) v
      else some none
    else some none

/-- `coco_list_cycle_items`: the items, or `none` for its answer 0. -/
def listCycleItems (ws : Words tb) (h : Heap) (rooms : Nat → Bool) (l : Nat) : Option (Option (List Nat)) :=
  listCycleItemsLoop ws h rooms (4 * h.len + 1) (h.deref l) (h.deref l) 1 0 []

/-- The tail of a list cell. -/
def tail (ws : Words tb) (h : Heap) (l : Nat) : Option Nat := if isCons ws (h.cells l) then some (h.deref (l + 2)) else none

variable {ws : Words tb} {h : Heap} {rooms : Nat → Bool}

theorem listCyclicLoop_eq (turns l kept power lam : Nat) (seen : List Nat) :
    listCyclicLoop ws h turns l kept power lam = (brent (tail ws h) turns l kept power lam seen).map Option.isSome := by
  induction turns generalizing l kept power lam seen with
  | zero => rfl
  | succ turns ih =>
    rw [listCyclicLoop, brent, tail]
    split
    · dsimp only
      split
      · rfl
      · split
        · exact ih _ _ _ _ _
        · exact ih _ _ _ _ _
    · rfl

theorem listCycleItemsLoop_eq (granted : ∀ k, rooms k = true) (turns l kept power lam : Nat) (seen : List Nat) :
    listCycleItemsLoop ws h rooms turns l kept power lam (seen.map fun c => h.deref (c + 1)) =
      (brent (tail ws h) turns l kept power lam seen).map (Option.map (List.map fun c => h.deref (c + 1))) := by
  induction turns generalizing l kept power lam seen with
  | zero => rfl
  | succ turns ih =>
    have pushed : (seen.map fun c => h.deref (c + 1)) ++ [h.deref (l + 1)] = (seen ++ [l]).map fun c => h.deref (c + 1) := by
      rw [List.map_append, List.map_singleton]
    rw [listCycleItemsLoop, brent, tail, granted, pushed]
    split
    · dsimp only
      rw [if_pos rfl]
      split
      · rfl
      · split
        · exact ih _ _ _ _ _
        · exact ih _ _ _ _ _
    · rfl

/-- A push refused is the answer 0; pushes granted change nothing. -/
theorem listCycleItemsLoop_refused (turns l kept power lam : Nat) (v : List Nat) :
    listCycleItemsLoop ws h rooms turns l kept power lam v = some none ∨
      listCycleItemsLoop ws h rooms turns l kept power lam v = listCycleItemsLoop ws h (fun _ => true) turns l kept power lam v := by
  induction turns generalizing l kept power lam v with
  | zero => exact .inr rfl
  | succ turns ih =>
    rw [listCycleItemsLoop, listCycleItemsLoop, if_pos (rfl : true = true)]
    split
    · split
      · dsimp only
        split
        · exact .inr rfl
        · split
          · exact ih _ _ _ _ _
          · exact ih _ _ _ _ _
      · exact .inl rfl
    · exact .inl rfl

theorem tail_lt (sound : Sound tb h.cells h.len) {l c : Nat} (is : tail ws h l = some c) : c < h.len := by
  rw [tail] at is
  split at is
  · rename_i cons
    have cell : h.cells l = .func ws.consF := by simpa [isCons] using cons
    have lt := sound.func_lt cell
    rw [ws.consF_is] at lt
    cases is
    exact sound.deref_lt lt _
  · cases is

/-- In every heap the two loops end. The first tells the lists whose tails come back to a cell; for these the second gives the
elements of a beginning of the list that has every cell of it, and for any other term nothing. -/
theorem list_cycles (ws : Words tb) (h : Heap) (sound : Sound tb h.cells h.len) (l : Nat) (lt : l < h.len) :
    (Returns (tail ws h) (h.deref l) → listCyclic ws h l = some true ∧
      ∃ (x : Nat → Nat) (n : Nat), (∀ k, walk (tail ws h) (h.deref l) k = some (x k)) ∧ (∀ k, ∃ j < n, x j = x k) ∧
        ∀ rooms, (∀ k, rooms k = true) → listCycleItems ws h rooms l = some (some ((List.range n).map fun k => h.deref (x k + 1)))) ∧
      (¬Returns (tail ws h) (h.deref l) → listCyclic ws h l = some false ∧ ∀ rooms, listCycleItems ws h rooms l = some none) ∧
      ∀ rooms, listCycleItems ws h rooms l = some none ∨ listCycleItems ws h rooms l = listCycleItems ws h (fun _ => true) l := by
  have inside : ∀ k c, walk (tail ws h) (h.deref l) k = some c → c ∈ Finset.range h.len := by
    intro k c is
    rw [Finset.mem_range]
    cases k with
    | zero =>
      cases is
      exact sound.deref_lt lt _
    | succ k =>
      rw [walk, Option.bind_eq_some_iff] at is
      obtain ⟨b, -, is⟩ := is
      exact tail_lt sound is
  have found := brent_spec inside
  rw [Finset.card_range] at found
  have refused := fun rooms => @listCycleItemsLoop_refused tb ws h rooms (4 * h.len + 1) (h.deref l) (h.deref l) 1 0 []
  have items : ∀ rooms, (∀ k, rooms k = true) → listCycleItems ws h rooms l = _ := fun rooms granted =>
    listCycleItemsLoop_eq granted (4 * h.len + 1) (h.deref l) (h.deref l) 1 0 []
  refine ⟨fun returns => ?_, fun once => ?_, refused⟩
  · obtain ⟨x, n, is, every, answer⟩ := found.2 returns
    refine ⟨?_, x, n, is, every, fun rooms granted => ?_⟩
    · rw [listCyclic, listCyclicLoop_eq _ _ _ _ _ [], answer]
      rfl
    · rw [items rooms granted, answer, Option.map_some, Option.map_some, List.map_map]
      rfl
  · have answer := found.1 once
    refine ⟨?_, fun rooms => ?_⟩
    · rw [listCyclic, listCyclicLoop_eq _ _ _ _ _ [], answer]
      rfl
    · rcases refused rooms with none_ | same
      · exact none_
      · refine same.trans ((items _ fun _ => rfl).trans ?_)
        rw [answer]
        rfl

/-- A list of one cell that is its own tail. -/
def ring : Heap where
  cells
    | 0 => .func 2
    | 1 => .atom 3
    | 2 => .ref 0
    | i => .ref i
  len := 3

def ringTables : Tables where
  functors f := ⟨f, 2⟩

def ringWords : Words ringTables := ⟨0, 1, 0, 1, 2, 3, rfl, rfl, rfl⟩

theorem ring_sound : Sound ringTables ring.cells ring.len where
  inside := by decide
  ends := by
    have two : ∀ i < 3, End ring.cells (deref ring.cells 2 i) := by decide
    exact fun i lt => ⟨2, two i lt⟩
  beyond := by
    rintro (_ | _ | _ | i) le
    · cases le
    · exact absurd le (by decide)
    · exact absurd le (by decide)
    · rfl

theorem list_cycles_ring : listCyclic ringWords ring 0 = some true :=
  ((list_cycles ringWords ring ring_sound 0 (by decide)).1 ⟨0, 1, 0, by decide, by decide, by decide⟩).1

end Cocolog.Copy
