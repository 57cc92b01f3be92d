import Cocolog.Copy.Get
import Mathlib.Algebra.Order.BigOperators.Group.Finset

/-! How long a walk leaves what it fills. A put takes a cell and its slots for a compound,
a cell for anything else, and one for each variable, however often it is met; a get has
the variables in their slots. The cells still owed to the frames are counted the way the
walk will meet them. -/

set_option linter.all false

namespace Cocolog.Copy

open Cocolog.Lib Cocolog.Term Cocolog.Store

/-- The terms at these cells, one after the other, take `n` cells without their
variables. -/
inductive Takes (tb : Tables) (item : Nat → Item) : List Nat → Nat → Finset Nat → Prop where
  | nil : Takes tb item [] 0 ∅
  | var {a v n : Nat} {l : List Nat} {V : Finset Nat} (is : item a = .var v) (rest : Takes tb item l n V) :
      Takes tb item (a :: l) n (insert v V)
  | atomic {a n : Nat} {c : Cell} {l : List Nat} {V : Finset Nat} (is : item a = .atomic c)
      (rest : Takes tb item l n V) : Takes tb item (a :: l) (n + 1) V
  | comp {a s f n : Nat} {l : List Nat} {V : Finset Nat} (is : item a = .comp s f)
      (rest : Takes tb item (argsOf s (tb.arity f) ++ l) n V) : Takes tb item (a :: l) (n + (1 + tb.arity f)) V

/-- The source cells the frames have still to place, in order. -/
def owed (frames : List Frame) : List Nat := frames.flatMap fun fr => (argsOf fr.src fr.n).drop fr.i

variable {tb : Tables} {item : Nat → Item} {h h' s : Heap} {t r : Nat} {w w' : Walk} {l l' : List Nat} {n N : Nat}
  {V U : Finset Nat} {π R : Nat → Nat → Prop}

/-- Items at related cells. -/
inductive Likewise (tb : Tables) (π R : Nat → Nat → Prop) : Item → Item → Prop where
  | var {v x : Nat} (paired : π v x) : Likewise tb π R (.var v) (.var x)
  | atomic (c : Cell) : Likewise tb π R (.atomic c) (.atomic c)
  | comp {s s' f : Nat} (args : ∀ k < tb.arity f, R (s + 1 + k) (s' + 1 + k)) :
      Likewise tb π R (.comp s f) (.comp s' f)

theorem likewise (bisim : Bisim tb h.cells h.len h'.cells h'.len π R) {a b : Nat} (related : R a b) :
    Likewise tb π R (itemAt h.cells h.len a) (itemAt h'.cells h'.len b) := by
  obtain ⟨d, d', leads, leads', held⟩ := bisim a b related
  unfold itemAt
  rw [leads.deref, leads'.deref]
  rcases held with ⟨var, var', paired⟩ | ⟨held, same, args⟩
  · rw [var, var']
    exact .var paired
  · rw [same]
    cases cell : h.cells d with
    | ref p =>
      rw [cell] at held
      cases held
    | func f => exact .comp fun k below => args f k cell below
    | _ => exact .atomic _

theorem related_args {s s' n : Nat} (args : ∀ k < n, R (s + 1 + k) (s' + 1 + k)) :
    List.Forall₂ R (argsOf s n) (argsOf s' n) := by
  unfold argsOf
  rw [List.forall₂_map_left_iff, List.forall₂_map_right_iff, List.forall₂_same]
  intro k mem
  have here := args k (List.mem_range.mp mem)
  rw [Nat.add_assoc, Nat.add_assoc, Nat.add_comm 1 k] at here
  exact here

namespace Takes

theorem card_le (takes : Takes tb item l n V) : V.card ≤ n + l.length := by
  induction takes with
  | nil => exact Nat.le_refl 0
  | @var a v n l V is rest ih =>
    have one := Finset.card_insert_le v V
    rw [List.length_cons]
    omega
  | atomic is rest ih =>
    rw [List.length_cons]
    omega
  | comp is rest ih =>
    simp only [List.length_append, argsOf, List.length_map, List.length_range] at ih
    rw [List.length_cons]
    omega

/-- Related cells take as many, with as many variables. -/
theorem bisim (bisim : Bisim tb h.cells h.len h'.cells h'.len π R) (related : List.Forall₂ R l l')
    (takes : Takes tb (itemAt h.cells h.len) l n V) :
    ∃ V', Takes tb (itemAt h'.cells h'.len) l' n V' ∧ (∀ v ∈ V, ∃ x ∈ V', π v x) ∧ ∀ x ∈ V', ∃ v ∈ V, π v x := by
  induction takes generalizing l' with
  | nil =>
    cases related
    exact ⟨∅, .nil, fun _ mem => absurd mem (Finset.notMem_empty _), fun _ mem => absurd mem (Finset.notMem_empty _)⟩
  | @var a v n l V is rest ih =>
    obtain ⟨b, l₁, one, more, rfl⟩ := List.forall₂_cons_left_iff.mp related
    obtain ⟨V', takes', there, back⟩ := ih more
    have pair := likewise bisim one
    rw [is] at pair
    generalize is' : itemAt h'.cells h'.len b = item' at pair
    cases pair with
    | @var _ x paired =>
      refine ⟨insert x V', .var is' takes', ?_, ?_⟩
      · intro v' mem
        rcases Finset.mem_insert.mp mem with rfl | mem
        · exact ⟨x, Finset.mem_insert_self x V', paired⟩
        · obtain ⟨x', mem', paired'⟩ := there v' mem
          exact ⟨x', Finset.mem_insert_of_mem mem', paired'⟩
      · intro x' mem
        rcases Finset.mem_insert.mp mem with rfl | mem
        · exact ⟨v, Finset.mem_insert_self v V, paired⟩
        · obtain ⟨v', mem', paired'⟩ := back x' mem
          exact ⟨v', Finset.mem_insert_of_mem mem', paired'⟩
  | @atomic a n c l V is rest ih =>
    obtain ⟨b, l₁, one, more, rfl⟩ := List.forall₂_cons_left_iff.mp related
    obtain ⟨V', takes', there, back⟩ := ih more
    have pair := likewise bisim one
    rw [is] at pair
    generalize is' : itemAt h'.cells h'.len b = item' at pair
    cases pair with
    | atomic => exact ⟨V', .atomic is' takes', there, back⟩
  | @comp a s f n l V is rest ih =>
    obtain ⟨b, l₁, one, more, rfl⟩ := List.forall₂_cons_left_iff.mp related
    have pair := likewise bisim one
    rw [is] at pair
    generalize is' : itemAt h'.cells h'.len b = item' at pair
    cases pair with
    | comp args =>
      obtain ⟨V', takes', there, back⟩ := ih (List.rel_append (related_args args) more)
      exact ⟨V', .comp is' takes', there, back⟩

/-- Cells taken alike, counted with their variables, when the pairs are one to one. -/
theorem card_eq {V' : Finset Nat} (one : ∀ v x x', π v x → π v x' → x = x') (own : ∀ v v' x, π v x → π v' x → v = v')
    (there : ∀ v ∈ V, ∃ x ∈ V', π v x) (back : ∀ x ∈ V', ∃ v ∈ V, π v x) : V.card = V'.card := by
  choose! to_ to_mem to_pair using there
  choose! from_ from_mem from_pair using back
  refine Nat.le_antisymm (Finset.card_le_card_of_injOn to_ to_mem ?_) (Finset.card_le_card_of_injOn from_ from_mem ?_)
  · intro v mem v' mem' same
    have pair := to_pair v' mem'
    rw [← same] at pair
    exact own v v' _ (to_pair v mem) pair
  · intro x mem x' mem' same
    have pair := from_pair x' mem'
    rw [← same] at pair
    exact one _ x x' (from_pair x mem) pair

end Takes

theorem owed_next {fr : Frame} (rest : List Frame) (below : fr.i < fr.n) :
    owed (fr :: rest) = (fr.src + (fr.i + 1)) :: owed (advance fr rest) := by
  have length : (argsOf fr.src fr.n).length = fr.n := by simp [argsOf]
  have first : (argsOf fr.src fr.n).drop fr.i =
      (fr.src + (fr.i + 1)) :: (argsOf fr.src fr.n).drop (fr.i + 1) := by
    rw [List.drop_eq_getElem_cons (by rw [length]; exact below)]
    simp [argsOf]
  unfold advance
  split
  · rename_i last
    have none_ : (argsOf fr.src fr.n).drop (fr.i + 1) = [] := List.drop_eq_nil_of_le (by omega)
    simp [owed, first, none_]
  · simp [owed, first]

theorem owed_done {fr : Frame} (rest : List Frame) (done : fr.n ≤ fr.i) : owed (fr :: rest) = owed rest := by
  have none_ : (argsOf fr.src fr.n).drop fr.i = [] := List.drop_eq_nil_of_le (by simpa [argsOf] using done)
  simp [owed, none_]

theorem owed_owe (w : Walk) (src dst n : Nat) : owed (w.owe src dst n).frames = argsOf src n ++ owed w.frames := by
  unfold Walk.owe
  split
  · simp [owed]
  · rename_i none_
    obtain rfl : n = 0 := by omega
    simp [argsOf]

/- The put. -/

/-- The source variables mapped so far. -/
def keys (w : Walk) : List Nat := w.vars.map Prod.fst

/-- How far a put is in taking what its term takes, `N` cells and the variables `U`, from
cell `base` on; it has not been past its ceiling. -/
structure PutSize (tb : Tables) (item : Nat → Item) (base N : Nat) (U : Finset Nat) (top : Option Nat) (l : List Nat)
    (w : Walk) : Prop where
  left : ∃ n V, Takes tb item l n V ∧ w.len + n = base + N + (keys w).length ∧ V ∪ (keys w).toFinset = U
  once : (keys w).Nodup
  ceil : w.wceil = top

theorem PutSize.len_le {base : Nat} {top : Option Nat} (size : PutSize tb item base N U top l w) :
    w.len ≤ base + N + U.card := by
  obtain ⟨⟨n, V, -, total, all⟩, once, -⟩ := size
  have some_ : (keys w).length ≤ U.card := by
    rw [← List.toFinset_card_of_nodup once, ← all]
    exact Finset.card_le_card Finset.subset_union_right
  omega

theorem mem_keys {v : Nat} : v ∈ keys w ↔ w.vars.lookup v ≠ none := by
  unfold keys
  rw [Ne, List.lookup_eq_none_iff]
  simp

/-- A variable's place in what is owed is taken by its mapping. -/
theorem union_keys {v : Nat} (mapped : v ∈ keys w) : insert v V ∪ (keys w).toFinset = V ∪ (keys w).toFinset := by
  rw [Finset.insert_union, Finset.insert_eq_of_mem]
  exact Finset.mem_union_right V (List.mem_toFinset.mpr mapped)

/-- A put's node under a ceiling no lower than what the term takes. -/
theorem PutSize.node {base a : Nat} {top : Option Nat} (room : ∀ c, top = some c → base + N + U.card ≤ c)
    (size : PutSize tb (itemAt h.cells h.len) base N U top (a :: owed w.frames) w) :
    PutSize tb (itemAt h.cells h.len) base N U top (owed (putNode tb h a w).2.frames) (putNode tb h a w).2 := by
  have short := size.len_le
  obtain ⟨⟨n, V, takes, total, all⟩, once, ceil⟩ := size
  have at_ := itemAt_eq h a
  cases takes with
  | @var _ v _ _ V is rest =>
    rw [is] at at_
    cases cell : h.cells (h.deref a) with
    | ref p =>
      simp only [cell, Item.var.injEq] at at_
      subst at_
      simp only [putNode, cell]
      cases found : w.vars.lookup (h.deref a) with
      | some x =>
        have mapped : h.deref a ∈ keys w := mem_keys.mpr (by rw [found]; simp)
        exact ⟨⟨n, V, rest, total, (union_keys mapped).symm.trans all⟩, once, ceil⟩
      | none =>
        have new : h.deref a ∉ keys w := fun mapped => mem_keys.mp mapped found
        refine ⟨⟨n, V, rest, ?_, ?_⟩, List.nodup_cons.mpr ⟨new, once⟩, ceil⟩
        · simp only [keys, List.map_cons, List.length_cons, Walk.push_len] at total ⊢
          omega
        · rw [← all]
          simp only [keys, List.map_cons, List.toFinset_cons, Finset.union_insert, Finset.insert_union]
    | _ =>
      simp only [cell] at at_
      cases at_
  | @atomic _ n c _ V is rest =>
    rw [is] at at_
    have kept : PutSize tb (itemAt h.cells h.len) base N U top (owed w.frames) (w.push (h.cells (h.deref a))) := by
      refine ⟨⟨n, V, rest, ?_, all⟩, once, ceil⟩
      have same : keys (w.push (h.cells (h.deref a))) = keys w := rfl
      rw [Walk.push_len, same]
      omega
    cases cell : h.cells (h.deref a) with
    | ref p =>
      simp only [cell] at at_
      cases at_
    | func f =>
      simp only [cell] at at_
      cases at_
    | _ =>
      rw [cell] at kept
      simp only [putNode, cell]
      exact kept
  | @comp _ src f n _ V is rest =>
    have under : past w.wceil w.len = false := by
      rw [ceil]
      cases top with
      | none => rfl
      | some c =>
        have bound := room c rfl
        simp only [past, decide_eq_false_iff_not]
        omega
    rw [putNode_comp is, if_neg (by simp [under])]
    refine ⟨⟨n, V, ?_, ?_, ?_⟩, ?_, (Walk.owe_wceil ..).trans ceil⟩
    · rw [owed_owe]
      exact rest
    · have same : (keys ((w.pushStruct (.func f) (tb.arity f)).owe src (w.len + 1) (tb.arity f))).length =
          (keys w).length := by
        rw [keys, Walk.owe_vars]
        rfl
      rw [same, Walk.owe_len, Walk.pushStruct_len]
      omega
    · rw [keys, Walk.owe_vars]
      exact all
    · rw [keys, Walk.owe_vars]
      exact once

theorem PutSize.step {base : Nat} {top : Option Nat} (room : ∀ c, top = some c → base + N + U.card ≤ c)
    (size : PutSize tb (itemAt h.cells h.len) base N U top (owed w.frames) w)
    (next : fillStep (putNode tb h) w = some w') :
    PutSize tb (itemAt h.cells h.len) base N U top (owed w'.frames) w' := by
  cases frames : w.frames with
  | nil =>
    rw [fillStep_nil frames] at next
    cases next
  | cons fr rest =>
    obtain ⟨left, once, ceil⟩ := size
    rw [frames] at left
    by_cases done : fr.n ≤ fr.i
    · rw [fillStep_drop frames done, Option.some.injEq] at next
      rw [owed_done rest done] at left
      subst next
      exact ⟨left, once, ceil⟩
    · rw [owed_next rest (Nat.lt_of_not_le done)] at left
      simp only [fillStep, frames, if_neg done, Option.some.injEq] at next
      have issued : PutSize tb (itemAt h.cells h.len) base N U top
          ((fr.src + (fr.i + 1)) :: owed ({ w with frames := advance fr rest } : Walk).frames)
          { w with frames := advance fr rest } := ⟨left, once, ceil⟩
      have placed := issued.node room
      rw [← next]
      exact ⟨placed.left, placed.once, placed.ceil⟩

/-- A put of a term, under no ceiling or one it stays under, ends as long as the term says. -/
theorem putWalk_size {s : Heap} {top : Option Nat} {fuel : Nat} (takes : Takes tb (itemAt h.cells h.len) [t] N U)
    (room : ∀ c, top = some c → s.len + N + U.card ≤ c) (ran : putWalk tb h fuel t (.over_ s top) = some (r, w)) :
    w.len = s.len + N + U.card ∧ w.wceil = top := by
  have start : PutSize tb (itemAt h.cells h.len) s.len N U top (t :: owed (Walk.over_ s top).frames)
      (Walk.over_ s top) :=
    ⟨⟨N, U, takes, rfl, Finset.union_empty U⟩, List.nodup_nil, rfl⟩
  obtain ⟨w', looped, is⟩ := Option.map_eq_some_iff.mp ran
  obtain ⟨-, rfl⟩ := Prod.mk.inj is
  obtain ⟨reached, done⟩ := loop_reaches looped
  have size := reached.invariant (I := fun w => PutSize tb (itemAt h.cells h.len) s.len N U top (owed w.frames) w)
    (fun _ _ size next => size.step room next) (start.node room)
  rw [fillStep_stopped done] at size
  obtain ⟨⟨n, V, takes', total, all⟩, once, ceil⟩ := size
  cases takes' with
  | nil =>
    rw [Finset.empty_union] at all
    rw [← all, List.toFinset_card_of_nodup once]
    exact ⟨total, ceil⟩

/-- Every reference laid down names a cell that was. -/
structure Low (base : Nat) (w : Walk) : Prop where
  grown : base ≤ w.len
  refs : ∀ i p, base ≤ i → i < w.len → w.cells i = .ref p → base ≤ p
  vars : ∀ v x, w.vars.lookup v = some x → base ≤ x

theorem Low.push {base : Nat} (low : Low base w) (c : Cell) (names : ∀ p, c = .ref p → base ≤ p) : Low base (w.push c) := by
  refine ⟨low.grown.trans (Nat.le_succ _), ?_, low.vars⟩
  intro i p le lt cell
  by_cases at_ : i = w.len
  · rw [at_, Walk.push_new] at cell
    exact names p cell
  · have before : i < w.len := by
      rw [Walk.push_len] at lt
      omega
    rw [w.push_old c before] at cell
    exact low.refs i p le before cell

theorem Low.reserve {base : Nat} (low : Low base w) (n : Nat) : Low base (w.reserve n) := by
  refine ⟨low.grown.trans (Nat.le_add_right ..), ?_, low.vars⟩
  intro i p le lt cell
  by_cases slot : w.len ≤ i ∧ i < w.len + n
  · have here : (w.reserve n).cells i = .ref i := if_pos slot
    obtain rfl := Cell.ref.inj (here.symm.trans cell)
    exact le
  · have before : i < w.len := by
      have : i < w.len + n := lt
      omega
    have here : (w.reserve n).cells i = w.cells i := if_neg slot
    exact low.refs i p le before (here.symm.trans cell)

theorem Low.setArg {base to_ : Nat} (low : Low base w) (slot : Nat) (le : base ≤ to_) : Low base (w.setArg slot to_) := by
  refine ⟨low.grown, ?_, low.vars⟩
  intro i p le_i lt cell
  by_cases at_ : i = slot
  · have here : (w.setArg slot to_).cells i = .ref to_ := by
      rw [at_]
      exact Function.update_self ..
    obtain rfl := Cell.ref.inj (here.symm.trans cell)
    exact le
  · have here : (w.setArg slot to_).cells i = w.cells i := Function.update_of_ne at_ ..
    exact low.refs i p le_i lt (here.symm.trans cell)

theorem Low.putNode {base : Nat} (low : Low base w) (a : Nat) :
    base ≤ (putNode tb h a w).1 ∧ Low base (putNode tb h a w).2 := by
  have grown := low.grown
  unfold Copy.putNode
  dsimp only
  split
  · split
    · rename_i v met
      exact ⟨low.vars _ _ met, low⟩
    · have pushed := low.push (.ref w.len) fun p is => by
        cases is
        exact grown
      refine ⟨grown, pushed.grown, pushed.refs, ?_⟩
      intro v x met
      rw [List.lookup_cons] at met
      split at met
      · cases met
        exact grown
      · exact low.vars v x met
  · rename_i f _
    have pushed : Low base (w.push (.func f)) := low.push (.func f) fun p is => nomatch is
    split
    · exact ⟨grown, pushed.grown, pushed.refs, pushed.vars⟩
    · have struct_ : Low base (w.pushStruct (.func f) (tb.arity f)) := pushed.reserve (tb.arity f)
      refine ⟨grown, ?_, ?_, ?_⟩
      · rw [Walk.owe_len]
        exact struct_.grown
      · rw [Walk.owe_len, Walk.owe_cells]
        exact struct_.refs
      · rw [Walk.owe_vars]
        exact struct_.vars
  · rename_i not_ref _
    exact ⟨grown, low.push _ fun p is => absurd is (not_ref p)⟩

theorem Low.step {base : Nat} (low : Low base w) (next : fillStep (Copy.putNode tb h) w = some w') : Low base w' := by
  unfold fillStep at next
  split at next
  · cases next
  · rename_i fr rest frames
    split at next
    · cases next
      exact ⟨low.grown, low.refs, low.vars⟩
    · cases next
      have moved : Low base { w with frames := advance fr rest } := ⟨low.grown, low.refs, low.vars⟩
      obtain ⟨le, after⟩ := @Low.putNode tb h _ _ moved (fr.src + (fr.i + 1))
      exact after.setArg _ le

/-- What a put lays down names nothing that was there before. -/
theorem putWalk_low {s : Heap} {top : Option Nat} {fuel : Nat} (ran : putWalk tb h fuel t (.over_ s top) = some (r, w)) :
    ∀ i p, s.len ≤ i → i < w.len → w.cells i = .ref p → s.len ≤ p := by
  obtain ⟨w', looped, is⟩ := Option.map_eq_some_iff.mp ran
  obtain ⟨-, rfl⟩ := Prod.mk.inj is
  have start : Low s.len (Walk.over_ s top) := by
    refine ⟨le_rfl, fun i p le lt _ => ?_, fun v x met => nomatch met⟩
    have : i < s.len := lt
    omega
  obtain ⟨reached, -⟩ := loop_reaches looped
  exact (reached.invariant (I := Low s.len) (fun _ _ low next => low.step next) (start.putNode t).2).refs

/- The get. -/

/-- A get pushes a cell for what is owed but the variables, which live in their slots. -/
theorem getStep_size {st : Heap} {base : Nat}
    (size : ∃ n V, Takes tb (itemAt st.cells st.len) (owed w.frames) n V ∧ w.len + n = base + N)
    (next : getStep tb st w = some w') :
    ∃ n V, Takes tb (itemAt st.cells st.len) (owed w'.frames) n V ∧ w'.len + n = base + N := by
  obtain ⟨n, V, takes, total⟩ := size
  cases frames : w.frames with
  | nil =>
    rw [getStep_nil frames] at next
    cases next
  | cons fr rest =>
    rw [frames] at takes
    by_cases done : fr.n ≤ fr.i
    · rw [getStep_drop frames done, Option.some.injEq] at next
      rw [owed_done rest done] at takes
      subst next
      exact ⟨n, V, takes, total⟩
    · rw [owed_next rest (Nat.lt_of_not_le done)] at takes
      have at_ := itemAt_eq st (fr.src + (fr.i + 1))
      simp only [getStep, frames, if_neg done] at next
      cases takes with
      | @var _ v _ _ V is left =>
        rw [is] at at_
        split at next
        · split at next <;> cases next <;> exact ⟨n, V, left, total⟩
        all_goals
          rename_i cell
          simp only [cell] at at_
          cases at_
      | @atomic _ n c _ V is left =>
        rw [is] at at_
        split at next
        · rename_i cell
          simp only [cell] at at_
          cases at_
        · rename_i cell
          simp only [cell] at at_
          cases at_
        · cases next
          refine ⟨n, V, left, ?_⟩
          simp only [Walk.setArg, Walk.push_len]
          omega
      | @comp _ src f n _ V is left =>
        rw [is] at at_
        split at next
        · rename_i cell
          simp only [cell] at at_
          cases at_
        · rename_i f' cell
          simp only [cell, Item.comp.injEq] at at_
          obtain ⟨rfl, rfl⟩ := at_
          cases next
          refine ⟨n, V, ?_, ?_⟩
          · rw [owed_owe]
            exact left
          · rw [Walk.owe_len]
            simp only [Walk.setArg, Walk.pushStruct_len]
            omega
        · rename_i _ not_func
          exfalso
          split at at_
          · cases at_
          · rename_i f' cell
            exact not_func f' cell
          · cases at_

theorem getStep_stopped {st : Heap} (done : getStep tb st w = none) : w.frames = [] := by
  cases frames : w.frames with
  | nil => rfl
  | cons fr rest =>
    simp only [getStep, frames] at done
    split at done
    · cases done
    · split at done
      · split at done <;> cases done
      · cases done
      · cases done

/-- What a get leaves on the heap is no less than the term takes without its variables. -/
theorem storeGetVm_size {st : Heap} {fuel : Nat} (takes : Takes tb (itemAt st.cells st.len) [t] N U)
    (ran : storeGetVm tb st fuel t (.over_ s none) = some (r, w)) : s.len + N ≤ w.len := by
  have at_ := itemAt_eq st t
  unfold storeGetVm at ran
  dsimp only at ran
  split at ran
  · rename_i cell
    simp only [cell] at at_
    have none_ : N = 0 := by
      cases takes with
      | var is left =>
        cases left
        rfl
      | atomic is left =>
        rw [is] at at_
        cases at_
      | comp is left =>
        rw [is] at at_
        cases at_
    split at ran <;> cases ran <;> simp [none_, Walk.over_]
  · rename_i f cell
    simp only [cell] at at_
    obtain ⟨w', looped, is⟩ := Option.map_eq_some_iff.mp ran
    obtain ⟨-, rfl⟩ := Prod.mk.inj is
    cases takes with
    | var is left =>
      rw [is] at at_
      cases at_
    | atomic is left =>
      rw [is] at at_
      cases at_
    | @comp _ src f' n _ V is left =>
      rw [is] at at_
      obtain ⟨rfl, rfl⟩ := Item.comp.inj at_
      obtain ⟨reached, done⟩ := loop_reaches looped
      have start : ∃ k V', Takes tb (itemAt st.cells st.len)
          (owed (((Walk.over_ s none).pushStruct (.func f') (tb.arity f')).owe (st.deref t) (s.len + 1)
            (tb.arity f')).frames) k V' ∧
          (((Walk.over_ s none).pushStruct (.func f') (tb.arity f')).owe (st.deref t) (s.len + 1)
            (tb.arity f')).len + k = s.len + (n + (1 + tb.arity f')) := by
        refine ⟨n, U, ?_, ?_⟩
        · rw [owed_owe]
          exact left
        · rw [Walk.owe_len]
          simp only [Walk.pushStruct_len, Walk.over_]
          omega
      obtain ⟨k, V', rest, total⟩ := reached.invariant
        (I := fun w => ∃ k V', Takes tb (itemAt st.cells st.len) (owed w.frames) k V' ∧
          w.len + k = s.len + (n + (1 + tb.arity f')))
        (fun _ _ size next => getStep_size size next) start
      rw [getStep_stopped done] at rest
      cases rest
      exact Nat.le_of_eq total.symm
  · rename_i c not_ref not_func
    cases ran
    cases takes with
    | var is left =>
      cases left
      exact Nat.le_succ _
    | atomic is left =>
      cases left
      exact Nat.le_refl _
    | comp is left =>
      exfalso
      rw [is] at at_
      split at at_
      · cases at_
      · rename_i f' cell
        exact not_func f' cell
      · cases at_

end Cocolog.Copy
