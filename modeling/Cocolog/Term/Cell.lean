import Cocolog.Lib.Trees

/-! Cells, the memories that hold them and the trees they stand for. A memory is the
heap or the store: both keep a term as cells that name one another by index. The trees a
memory admits are read off locally, cell by cell, so cyclic terms need nothing more. -/

set_option linter.all false

namespace Cocolog.Term

open Cocolog.Lib

/-- A cell by its tag. `pos` is a goal of an environment, the distance back to its header
and the goal's number in one word, and is never part of a program's term. -/
inductive Cell where
  | ref (p : Nat)
  | atom (a : Nat)
  | int (i : Int)
  | func (f : Nat)
  | flt (k : Nat)
  | str (k : Nat)
  | pos (w : Nat)
  | big (k : Nat)
  | rat (k : Nat)
deriving Repr, DecidableEq

namespace Cell

/-- The payload over a four-bit tag, in 64 bits. -/
def pack (payload tag : Nat) : Nat := payload * 16 % 2 ^ 64 + tag

/-- The machine word. -/
def word : Cell → Nat
  | ref p => pack p 0
  | atom a => pack a 1
  | int i => pack (i % 2 ^ 60).toNat 2
  | func f => pack f 3
  | flt k => pack k 4
  | str k => pack k 5
  | pos w => pack w 6
  | big k => pack k 7
  | rat k => pack k 8

/-- A reference, bound or not. -/
def isRef : Cell → Bool
  | ref _ => true
  | _ => false

end Cell

/-- A functor: its name, an atom, and how many arguments it takes. -/
structure Functor where
  name : Nat
  arity : Nat
deriving Repr, DecidableEq

/-- The machine's tables: functors, and what floats, strings, wide integers and
rationals stand at their indices. A float is its bits, a string its bytes. -/
structure Tables where
  functors : Nat → Functor
  floats : Nat → Nat := fun _ => 0
  strings : Nat → List Nat := fun _ => []
  bigs : Nat → Int := fun _ => 0
  rats : Nat → Int × Nat := fun _ => (0, 1)

namespace Tables

/-- How many arguments functor `f` takes. -/
def arity (tb : Tables) (f : Nat) : Nat := (tb.functors f).arity

end Tables

/-- What stands at a node of a term. -/
inductive Label where
  | atom (a : Nat)
  | int (i : Int)
  | func (f : Nat)
  | flt (bits : Nat)
  | str (bytes : List Nat)
  | pos (w : Nat)
  | big (i : Int)
  | rat (n : Int) (d : Nat)
deriving Repr, DecidableEq

/-- Cells by index. -/
abbrev Mem := Nat → Cell

/-- `coco_deref` and `coco_store_deref`: along references to a cell that holds something,
or to an unbound one. The turns are the memory's length; no chain is longer. -/
def deref (h : Mem) : Nat → Nat → Nat
  | 0, t => t
  | turns + 1, t =>
    match h t with
    | .ref p => if p = t then t else deref h turns p
    | _ => t

/-- The root of a cell's tree and how many children it has, for a cell that is not a
reference. -/
def shape (tb : Tables) : Cell → Option (Label × Nat)
  | .ref _ => none
  | .atom a => some (.atom a, 0)
  | .int i => some (.int i, 0)
  | .func f => some (.func f, tb.arity f)
  | .flt k => some (.flt (tb.floats k), 0)
  | .str k => some (.str (tb.strings k), 0)
  | .pos w => some (.pos w, 0)
  | .big k => some (.big (tb.bigs k), 0)
  | .rat k => some (.rat (tb.rats k).1 (tb.rats k).2, 0)

/-- An assignment of trees to cells that the memory allows: a bound reference has its
target's tree, anything else its own root over the trees of the cells after it. Unbound
variables are free. -/
def Admits (tb : Tables) (h : Mem) (ρ : Nat → PathTree Label) : Prop :=
  ∀ i, match h i with
    | .ref p => p ≠ i → ρ i = ρ p
    | c => ∀ root n, shape tb c = some (root, n) → ρ i = PathTree.node root n fun k => ρ (i + 1 + k)

/-- Some instance of the one term is an instance of the other. -/
def Unifiable (tb : Tables) (h : Mem) (t : Nat) (h' : Mem) (t' : Nat) : Prop :=
  ∃ ρ ρ', Admits tb h ρ ∧ Admits tb h' ρ' ∧ ρ t = ρ' t'

variable {tb : Tables} {h h' : Mem} {ρ ρ' : Nat → PathTree Label}

theorem Admits.ref (admits : Admits tb h ρ) {i p : Nat} (bound : h i = .ref p) : ρ i = ρ p := by
  by_cases self : p = i
  · rw [self]
  · have here := admits i
    rw [bound] at here
    exact here self

theorem Admits.node (admits : Admits tb h ρ) {i : Nat} {root : Label} {n : Nat}
    (held : shape tb (h i) = some (root, n)) :
    ρ i = PathTree.node root n fun k => ρ (i + 1 + k) := by
  have here := admits i
  cases cell : h i with
  | ref p =>
    rw [cell] at held
    cases held
  | _ =>
    rw [cell] at here held
    exact here root n held

theorem Admits.deref (admits : Admits tb h ρ) (turns t : Nat) : ρ (deref h turns t) = ρ t := by
  induction turns generalizing t with
  | zero => rfl
  | succ turns ih =>
    rw [Term.deref]
    split
    · rename_i p bound
      split
      · rfl
      · rw [ih, admits.ref bound]
    · rfl

/-- Two terms whose roots are different cannot be made one. -/
theorem not_unifiable_of_roots {t t' : Nat} {root root' : Label} {n n' : Nat}
    (held : shape tb (h t) = some (root, n)) (held' : shape tb (h' t') = some (root', n'))
    (different : root ≠ root') : ¬ Unifiable tb h t h' t' := by
  rintro ⟨ρ, ρ', admits, admits', same⟩
  rw [admits.node held, admits'.node held'] at same
  have roots := congrFun same []
  rw [PathTree.node_nil, PathTree.node_nil] at roots
  exact different (Option.some.inj roots)

/-- Unifying is unifying what the two references lead to. -/
theorem unifiable_deref (turns turns' t t' : Nat) :
    Unifiable tb h t h' t' ↔ Unifiable tb h (deref h turns t) h' (deref h' turns' t') := by
  constructor
  · rintro ⟨ρ, ρ', admits, admits', same⟩
    exact ⟨ρ, ρ', admits, admits', by rw [admits.deref, admits'.deref]; exact same⟩
  · rintro ⟨ρ, ρ', admits, admits', same⟩
    exact ⟨ρ, ρ', admits, admits', by rwa [admits.deref, admits'.deref] at same⟩

/-- Compounds that unify do so argument by argument. -/
theorem Unifiable.arg {t t' f k : Nat} (one : Unifiable tb h t h' t') (held : h t = .func f)
    (held' : h' t' = .func f) (below : k < tb.arity f) :
    Unifiable tb h (t + (k + 1)) h' (t' + (k + 1)) := by
  obtain ⟨ρ, ρ', admits, admits', same⟩ := one
  refine ⟨ρ, ρ', admits, admits', ?_⟩
  have root : shape tb (h t) = some (.func f, tb.arity f) := by rw [held]; rfl
  have root' : shape tb (h' t') = some (.func f, tb.arity f) := by rw [held']; rfl
  rw [admits.node root, admits'.node root'] at same
  have child := PathTree.node_child same below below
  have at_ : t + (k + 1) = t + 1 + k := by omega
  have at' : t' + (k + 1) = t' + 1 + k := by omega
  rw [at_, at']
  exact child

end Cocolog.Term
