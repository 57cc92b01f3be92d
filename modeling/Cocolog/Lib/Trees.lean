import Mathlib.Algebra.Order.Ring.Nat
import Mathlib.Data.List.Basic

/-! Trees over labels, finite or not, as the label found at each path. Two trees are
equal when they are equal at every path; a tree is its root and its children. -/

set_option linter.all false

namespace Cocolog.Lib

variable {L : Type*}

/-- The label at each path from the root, child numbers first to last. -/
def PathTree (L : Type*) := List Nat → Option L

namespace PathTree

/-- A root with `n` children. -/
def node (root : L) (n : Nat) (child : Nat → PathTree L) : PathTree L
  | [] => some root
  | k :: path => if k < n then child k path else none

/-- A root alone. -/
def leaf (root : L) : PathTree L := node root 0 fun _ _ => none

@[simp] theorem node_nil (root : L) (n : Nat) (child : Nat → PathTree L) :
    node root n child [] = some root := rfl

@[simp] theorem leaf_nil (root : L) : leaf root [] = some root := rfl

theorem node_cons {root : L} {n : Nat} {child : Nat → PathTree L} {k : Nat} (path : List Nat)
    (below : k < n) : node root n child (k :: path) = child k path := if_pos below

theorem node_zero (root : L) (child child' : Nat → PathTree L) : node root 0 child = node root 0 child' := by
  funext path
  cases path <;> rfl

theorem node_congr {root : L} {n : Nat} {child child' : Nat → PathTree L} (same : ∀ k < n, child k = child' k) :
    node root n child = node root n child' := by
  funext path
  cases path with
  | nil => rfl
  | cons k path =>
    by_cases below : k < n
    · rw [node_cons path below, node_cons path below, same k below]
    · rw [node, node, if_neg below, if_neg below]

theorem node_child {root root' : L} {n n' : Nat} {child child' : Nat → PathTree L}
    (same : node root n child = node root' n' child') {k : Nat} (below : k < n)
    (below' : k < n') : child k = child' k := by
  funext path
  have at_path := congrFun same (k :: path)
  rwa [node_cons path below, node_cons path below'] at at_path

/-- The two trees are the same at every path shorter than `n`. -/
def AgreeTo (n : Nat) (t u : PathTree L) : Prop := ∀ path : List Nat, path.length < n → t path = u path

namespace AgreeTo

variable {n : Nat} {t u v : PathTree L}

theorem of_eq (same : t = u) : AgreeTo n t u := fun path _ => congrFun same path

theorem zero (t u : PathTree L) : AgreeTo 0 t u := fun _ short => absurd short (Nat.not_lt_zero _)

theorem symm (one : AgreeTo n t u) : AgreeTo n u t := fun path short => (one path short).symm

theorem trans (one : AgreeTo n t u) (two : AgreeTo n u v) : AgreeTo n t v :=
  fun path short => (one path short).trans (two path short)

theorem le {m : Nat} (one : AgreeTo n t u) (le : m ≤ n) : AgreeTo m t u :=
  fun path short => one path (Nat.lt_of_lt_of_le short le)

/-- Children that agree make trees that agree one deeper. -/
theorem node {root : L} {k : Nat} {child child' : Nat → PathTree L}
    (children : ∀ j < k, AgreeTo n (child j) (child' j)) :
    AgreeTo (n + 1) (PathTree.node root k child) (PathTree.node root k child') := by
  intro path short
  cases path with
  | nil => rfl
  | cons j path =>
    by_cases below : j < k
    · rw [node_cons path below, node_cons path below]
      exact children j below path (Nat.lt_of_succ_lt_succ short)
    · simp only [PathTree.node, if_neg below]

end AgreeTo

/-- Trees that agree to every depth are one. -/
theorem eq_of_agreeTo {t u : PathTree L} (every : ∀ n, AgreeTo n t u) : t = u :=
  funext fun path => every (path.length + 1) path (Nat.lt_succ_self _)

end PathTree

end Cocolog.Lib
