import Cocolog.Term.Cell
import Mathlib.Data.Finset.Card
import Mathlib.Data.Nat.Find
import Mathlib.Logic.Function.Iterate

/-! Memories whose terms are all there: references lead somewhere, and a compound's
arguments follow it. Such a memory has a tree for every cell, whatever its unbound
variables stand for, and pointing a cell at the end of a chain keeps it so. -/

set_option linter.all false

namespace Cocolog.Term

open Cocolog.Lib

/-- A cell that holds something, or an unbound variable. -/
def End (h : Mem) (t : Nat) : Prop := h t = .ref t ∨ (h t).isRef = false

instance (h : Mem) (t : Nat) : Decidable (End h t) := inferInstanceAs (Decidable (_ ∨ _))

/-- One reference followed. -/
def follow (h : Mem) (t : Nat) : Nat :=
  match h t with
  | .ref p => p
  | _ => t

theorem follow_end {h : Mem} {t : Nat} (stop : End h t) : follow h t = t := by
  unfold follow
  rcases stop with self | held
  · rw [self]
  · cases cell : h t <;> simp_all [Cell.isRef]

theorem follow_ref {h : Mem} {t p : Nat} (cell : h t = .ref p) : follow h t = p := by
  simp only [follow, cell]

theorem deref_eq_iterate (h : Mem) (turns t : Nat) : deref h turns t = (follow h)^[turns] t := by
  induction turns generalizing t with
  | zero => rfl
  | succ turns ih =>
    rw [deref, Function.iterate_succ_apply]
    cases cell : h t with
    | ref p =>
      by_cases self : p = t
      · have stop : End h t := .inl (by rw [cell, self])
        simp only [if_pos self, follow_end stop]
        exact (Function.iterate_fixed (follow_end stop) turns).symm
      · simp only [if_neg self, follow_ref cell]
        exact ih p
    | _ =>
      have stop : End h t := .inr (by rw [cell]; rfl)
      rw [follow_end stop]
      exact (Function.iterate_fixed (follow_end stop) turns).symm

theorem deref_end {h : Mem} {t : Nat} (stop : End h t) (turns : Nat) : deref h turns t = t := by
  rw [deref_eq_iterate]
  exact Function.iterate_fixed (follow_end stop) turns

theorem deref_succ (h : Mem) (turns t : Nat) : deref h (turns + 1) t = deref h turns (follow h t) := by
  rw [deref_eq_iterate, deref_eq_iterate, Function.iterate_succ_apply]

theorem deref_add (h : Mem) (n k t : Nat) : deref h (n + k) t = deref h k (deref h n t) := by
  rw [deref_eq_iterate, deref_eq_iterate, deref_eq_iterate, Nat.add_comm, Function.iterate_add_apply]

/-- Once at the end of a chain, more turns stay there. -/
theorem deref_stays {h : Mem} {t n m : Nat} (stop : End h (deref h n t)) (le : n ≤ m) :
    deref h m t = deref h n t := by
  obtain ⟨k, rfl⟩ := Nat.exists_eq_add_of_le le
  rw [deref_add, deref_end stop]

/-- A chain that stays in the first `len` cells and ends is no longer than that. -/
theorem deref_end_of_inside {h : Mem} {len i : Nat} (inside : ∀ k, deref h k i < len)
    (ends : ∃ n, End h (deref h n i)) : End h (deref h len i) := by
  classical
  have least := Nat.find_spec ends
  have minimal : ∀ m, m < Nat.find ends → ¬ End h (deref h m i) :=
    fun m less => Nat.find_min ends less
  generalize Nat.find ends = n at least minimal
  -- the cells on the way to the end are all different
  have apart : Set.InjOn (fun k => deref h k i) (Finset.range (n + 1)) := by
    have one : ∀ j k, j < k → k ≤ n → deref h j i ≠ deref h k i := by
      intro j k less le same
      apply minimal (j + (n - k)) (by omega)
      have back : deref h (j + (n - k)) i = deref h n i := by
        rw [deref_add, same, ← deref_add]
        congr 1
        omega
      rw [back]
      exact least
    intro j hj k hk same
    rw [Finset.coe_range, Set.mem_Iio] at hj hk
    rcases Nat.lt_trichotomy j k with less | rfl | more
    · exact absurd same (one j k less (by omega))
    · rfl
    · exact absurd same.symm (one k j more (by omega))
  have short : (Finset.range (n + 1)).card ≤ (Finset.range len).card := by
    apply Finset.card_le_card_of_injOn _ _ apart
    intro k _
    rw [Finset.coe_range, Set.mem_Iio]
    exact inside k
  rw [Finset.card_range, Finset.card_range] at short
  rw [deref_stays least (by omega)]
  exact least

/-- What a cell names is in the first `len` cells, and it is no position. -/
def Cell.Inside (tb : Tables) (len i : Nat) : Cell → Prop
  | .ref p => p < len
  | .func f => i + tb.arity f < len
  | .pos _ => False
  | _ => True

instance (tb : Tables) (len i : Nat) (c : Cell) : Decidable (c.Inside tb len i) := by
  cases c <;> unfold Cell.Inside <;> infer_instance

/-- A memory of `len` cells with every term whole. -/
structure Sound (tb : Tables) (h : Mem) (len : Nat) : Prop where
  inside : ∀ i < len, (h i).Inside tb len i
  ends : ∀ i < len, ∃ n, End h (deref h n i)
  beyond : ∀ i, len ≤ i → h i = .ref i

namespace Sound

variable {tb : Tables} {h : Mem} {len : Nat}

theorem ref_lt (sound : Sound tb h len) {i p : Nat} (lt : i < len) (cell : h i = .ref p) : p < len := by
  have here := sound.inside i lt
  rwa [cell] at here

theorem func_lt (sound : Sound tb h len) {i f : Nat} (cell : h i = .func f) : i + tb.arity f < len := by
  have lt : i < len := by
    by_contra past
    rw [sound.beyond i (Nat.le_of_not_lt past)] at cell
    cases cell
  have here := sound.inside i lt
  rwa [cell] at here

theorem not_pos (sound : Sound tb h len) (i w : Nat) : h i ≠ .pos w := by
  intro cell
  by_cases lt : i < len
  · have here := sound.inside i lt
    rw [cell] at here
    exact here
  · rw [sound.beyond i (Nat.le_of_not_lt lt)] at cell
    cases cell

theorem follow_lt (sound : Sound tb h len) {i : Nat} (lt : i < len) : follow h i < len := by
  unfold follow
  split
  · rename_i p cell
    exact sound.ref_lt lt cell
  · exact lt

theorem deref_lt (sound : Sound tb h len) {i : Nat} (lt : i < len) (turns : Nat) :
    deref h turns i < len := by
  induction turns generalizing i with
  | zero => exact lt
  | succ turns ih =>
    rw [deref_succ]
    exact ih (sound.follow_lt lt)

/-- No chain is longer than the memory. -/
theorem deref_end (sound : Sound tb h len) {i : Nat} (lt : i < len) : End h (deref h len i) :=
  deref_end_of_inside (sound.deref_lt lt) (sound.ends i lt)

/-- Every chain has its end, one past the cells at once. -/
theorem stop (sound : Sound tb h len) (i : Nat) : End h (deref h len i) := by
  by_cases lt : i < len
  · exact sound.deref_end lt
  · have self := sound.beyond i (Nat.le_of_not_lt lt)
    rw [Term.deref_end (.inl self)]
    exact .inl self

/-- A cell pointed at the end of a chain. -/
theorem redirect (sound : Sound tb h len) {a b : Nat} (ha : a < len) (hb : b < len) (off : a ≠ b)
    (stop : End h b) : Sound tb (Function.update h a (.ref b)) len := by
  have other : ∀ i, i ≠ a → Function.update h a (.ref b) i = h i := fun i ne => Function.update_of_ne ne _ _
  have same : Function.update h a (.ref b) a = .ref b := Function.update_self a _ h
  generalize Function.update h a (.ref b) = g at other same
  have still : ∀ i, i ≠ a → End h i → End g i := by
    intro i ne at_end
    unfold End
    rw [other i ne]
    exact at_end
  have last : End g b := still b (Ne.symm off) stop
  constructor
  · intro i lt
    by_cases at_a : i = a
    · rw [at_a, same]
      exact hb
    · rw [other i at_a]
      exact sound.inside i lt
  · intro i lt
    obtain ⟨n, at_end⟩ := sound.ends i lt
    refine ⟨n + 1, ?_⟩
    -- the chain is the old one, with one step more if it ended at `a`
    have general : ∀ n i, End h (deref h n i) → End g (deref g (n + 1) i) := by
      intro n
      induction n with
      | zero =>
        intro i at_end
        rw [deref_succ]
        by_cases at_a : i = a
        · rw [at_a, follow_ref same]
          exact last
        · have here := still i at_a at_end
          rw [follow_end here]
          exact here
      | succ n ih =>
        intro i at_end
        rw [deref_succ]
        by_cases at_a : i = a
        · rw [at_a, follow_ref same, Term.deref_end last]
          exact last
        · have step : follow g i = follow h i := by simp only [follow, other i at_a]
          rw [step]
          apply ih
          rwa [deref_succ] at at_end
    exact general n i at_end
  · intro i past
    rw [other i (by omega)]
    exact sound.beyond i past

end Sound

/- Trees for every cell. -/

/-- The tree of a cell when its unbound variables stand for `σ`. -/
def unfolding (tb : Tables) (h : Mem) (len : Nat) (σ : Nat → PathTree Label) : List Nat → Nat → Option Label
  | [], i =>
    match shape tb (h (deref h len i)) with
    | some (root, _) => some root
    | none => σ (deref h len i) []
  | k :: path, i =>
    match shape tb (h (deref h len i)) with
    | some (_, n) => if k < n then unfolding tb h len σ path (deref h len i + 1 + k) else none
    | none => σ (deref h len i) (k :: path)

theorem shape_none {tb : Tables} {c : Cell} : shape tb c = none ↔ c.isRef = true := by
  cases c <;> simp [shape, Cell.isRef]

theorem unfolding_deref (tb : Tables) (h : Mem) (len : Nat) (σ : Nat → PathTree Label) {i j : Nat}
    (same : deref h len i = deref h len j) (path : List Nat) :
    unfolding tb h len σ path i = unfolding tb h len σ path j := by
  cases path with
  | nil => rw [unfolding, unfolding, same]
  | cons k path => rw [unfolding, unfolding, same]

/-- The tree of a cell under an assignment of trees to the unbound variables. -/
def treeAt (tb : Tables) (h : Mem) (len : Nat) (σ : Nat → PathTree Label) (i : Nat) : PathTree Label :=
  fun path => unfolding tb h len σ path i

theorem treeAt_var (tb : Tables) {h : Mem} (len : Nat) (σ : Nat → PathTree Label) {v : Nat}
    (unbound : h v = .ref v) : treeAt tb h len σ v = σ v := by
  have here : deref h len v = v := Term.deref_end (.inl unbound) len
  funext path
  cases path <;> simp only [treeAt, unfolding, here, unbound, shape]

theorem treeAt_node (tb : Tables) {h : Mem} (len : Nat) (σ : Nat → PathTree Label) {i : Nat}
    {root : Label} {n : Nat} (held : (h i).isRef = false) (is : shape tb (h i) = some (root, n)) :
    treeAt tb h len σ i = PathTree.node root n fun k => treeAt tb h len σ (i + 1 + k) := by
  have here : deref h len i = i := Term.deref_end (.inr held) len
  funext path
  cases path with
  | nil =>
    simp only [treeAt, unfolding, here, is]
    rfl
  | cons k path => simp only [treeAt, unfolding, here, is, PathTree.node]

/-- Whatever the unbound variables stand for, a sound memory has its trees. -/
theorem Sound.treeAt_admits {tb : Tables} {h : Mem} {len : Nat} (sound : Sound tb h len)
    (σ : Nat → PathTree Label) : Admits tb h (treeAt tb h len σ) := by
  intro i
  cases cell : h i with
  | ref p =>
    intro off
    have lt : i < len := by
      by_contra past
      rw [sound.beyond i (Nat.le_of_not_lt past)] at cell
      exact off (Cell.ref.inj cell).symm
    have on : deref h len p = deref h (len + 1) i := by rw [deref_succ, follow_ref cell]
    have same : deref h len i = deref h len p := by
      rw [on]
      exact (deref_stays (sound.deref_end lt) (Nat.le_succ len)).symm
    funext path
    exact unfolding_deref tb h len σ same path
  | _ =>
    intro root n is
    have held : (h i).isRef = false := by rw [cell]; rfl
    exact treeAt_node tb len σ held (by rw [cell]; exact is)

/-- And no others. -/
theorem Sound.eq_treeAt {tb : Tables} {h : Mem} {len : Nat} (sound : Sound tb h len)
    {σ ρ : Nat → PathTree Label} (admits : Admits tb h ρ) (vars : ∀ v, h v = .ref v → ρ v = σ v) (i : Nat) :
    ρ i = treeAt tb h len σ i := by
  have stop := sound.stop
  have every : ∀ path i, ρ i path = treeAt tb h len σ i path := by
    intro path
    induction path with
    | nil =>
      intro i
      rw [← admits.deref len i, ← (sound.treeAt_admits σ).deref len i]
      rcases stop i with self | held
      · rw [vars _ self, treeAt_var tb len σ self]
      · obtain ⟨⟨root, n⟩, is⟩ := Option.ne_none_iff_exists'.mp fun none_ =>
          Bool.false_ne_true (held.symm.trans (shape_none.mp none_))
        rw [admits.node is, (sound.treeAt_admits σ).node is]
        rfl
    | cons k path ih =>
      intro i
      rw [← admits.deref len i, ← (sound.treeAt_admits σ).deref len i]
      rcases stop i with self | held
      · rw [vars _ self, treeAt_var tb len σ self]
      · obtain ⟨⟨root, n⟩, is⟩ := Option.ne_none_iff_exists'.mp fun none_ =>
          Bool.false_ne_true (held.symm.trans (shape_none.mp none_))
        rw [admits.node is, (sound.treeAt_admits σ).node is]
        simp only [PathTree.node]
        split
        · exact ih _
        · rfl
  exact funext fun path => every path i

end Cocolog.Term
