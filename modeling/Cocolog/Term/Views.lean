import Cocolog.Term.Memory

/-! Terms read off a memory, cycles and all: where a cell leads, the rational tree it is
the root of with its variables named, and when one term is another up to the names of its
variables. Two terms are shown to be variants by a relation between their cells that
reading keeps. -/

set_option linter.all false

namespace Cocolog.Term

open Cocolog.Lib

/-- References followed from `a` end at `d`, all of it in the first `len` cells. -/
inductive Leads (h : Mem) (len : Nat) : Nat → Nat → Prop where
  | stop {a : Nat} (inside : a < len) (ends : End h a) : Leads h len a a
  | step {a p d : Nat} (inside : a < len) (cell : h a = .ref p) (off : p ≠ a) (rest : Leads h len p d) :
      Leads h len a d

namespace Leads

variable {h h' : Mem} {len len' a b d d' : Nat}

theorem lt (leads : Leads h len a d) : d < len := by
  induction leads with
  | stop inside _ => exact inside
  | step _ _ _ _ ih => exact ih

theorem source_lt (leads : Leads h len a d) : a < len := by
  cases leads with
  | stop inside _ => exact inside
  | step inside _ _ _ => exact inside

theorem ends (leads : Leads h len a d) : End h d := by
  induction leads with
  | stop _ ends => exact ends
  | step _ _ _ _ ih => exact ih

theorem unique (one : Leads h len a d) (two : Leads h len a d') : d = d' := by
  induction one with
  | stop _ ends =>
    cases two with
    | stop _ _ => rfl
    | step _ cell off _ =>
      have fixed := follow_end ends
      rw [follow_ref cell] at fixed
      exact absurd fixed off
  | step _ cell off _ ih =>
    cases two with
    | stop _ ends =>
      have fixed := follow_end ends
      rw [follow_ref cell] at fixed
      exact absurd fixed off
    | step _ cell' _ rest' =>
      obtain rfl : _ = _ := Cell.ref.inj (cell.symm.trans cell')
      exact ih rest'

/-- The end of the end is itself. -/
theorem last (leads : Leads h len a d) : Leads h len d d := .stop leads.lt leads.ends

theorem iterate (leads : Leads h len a d) : (∀ k, Term.deref h k a < len) ∧ ∃ n, Term.deref h n a = d := by
  induction leads with
  | stop inside ends => exact ⟨fun k => by rwa [Term.deref_end ends k], 0, rfl⟩
  | step inside cell off _ ih =>
    obtain ⟨bounded, n, reached⟩ := ih
    constructor
    · intro k
      cases k with
      | zero => exact inside
      | succ k =>
        rw [deref_succ, follow_ref cell]
        exact bounded k
    · exact ⟨n + 1, by rw [deref_succ, follow_ref cell, reached]⟩

/-- The source's dereference finds the end. -/
theorem deref (leads : Leads h len a d) : Term.deref h len a = d := by
  obtain ⟨bounded, n, reached⟩ := leads.iterate
  have last : End h (Term.deref h n a) := by
    rw [reached]
    exact leads.ends
  have stop := deref_end_of_inside bounded ⟨n, last⟩
  rcases Nat.le_total n len with le | le
  · rw [deref_stays last le, reached]
  · rw [← deref_stays stop le, reached]

/-- Cells that are the same lead to the same end. -/
theorem mono (same : ∀ i < len, h' i = h i) (le : len ≤ len') (leads : Leads h len a d) :
    Leads h' len' a d := by
  induction leads with
  | stop inside ends =>
    refine .stop (by omega) ?_
    unfold End
    rw [same _ inside]
    exact ends
  | step inside cell off _ ih => exact .step (by omega) ((same _ inside).trans cell) off ih

theorem of_ref (inside : a < len) (cell : h a = .ref b) (rest : Leads h len b d) : Leads h len a d := by
  by_cases off : b = a
  · rw [← off]
    exact rest
  · exact .step inside cell off rest

/-- In a memory that still has every reference of the chain, the end leads where the start
does. -/
theorem onward {e : Nat} (keeps : ∀ i p, h i = .ref p → p ≠ i → h' i = .ref p) (leads : Leads h len a d)
    (whole : Leads h' len' a e) : Leads h' len' d e := by
  induction leads with
  | stop _ _ => exact whole
  | step _ cell off _ ih =>
    apply ih
    have next := keeps _ _ cell off
    cases whole with
    | stop _ ends =>
      have fixed := follow_end ends
      rw [follow_ref next] at fixed
      exact absurd fixed off
    | step _ cell' _ rest' =>
      obtain rfl := Cell.ref.inj (next.symm.trans cell')
      exact rest'

end Leads

/-- What stands at a place of a term: a variable, told by its cell, or a label. -/
inductive Mark where
  | var (v : Nat)
  | label (l : Label)
deriving Repr, DecidableEq

/-- The rational tree of the term at a cell, its variables named. -/
def tree (tb : Tables) (h : Mem) (len : Nat) : Nat → PathTree Mark
  | a, [] =>
    match shape tb (h (deref h len a)) with
    | none => some (.var (deref h len a))
    | some (root, _) => some (.label root)
  | a, k :: path =>
    match shape tb (h (deref h len a)) with
    | none => none
    | some (_, n) => if k < n then tree tb h len (deref h len a + 1 + k) path else none

/-- A variable of the term. -/
def Occurs (tb : Tables) (h : Mem) (len t v : Nat) : Prop := ∃ path, tree tb h len t path = some (.var v)

/-- Variables renamed. -/
def Mark.rename (σ : Nat → Nat) : Mark → Mark
  | .var v => .var (σ v)
  | .label l => .label l

/-- The term at `t'` is the term at `t` with its variables renamed, each to one of its own
from cell `new` on. -/
def Variant (tb : Tables) (h : Mem) (len t : Nat) (h' : Mem) (len' t' new : Nat) : Prop :=
  ∃ σ : Nat → Nat, (∀ v w, Occurs tb h len t v → Occurs tb h len t w → σ v = σ w → v = w) ∧
    (∀ v, Occurs tb h len t v → new ≤ σ v) ∧
    ∀ path, tree tb h' len' t' path = (tree tb h len t path).map (Mark.rename σ)

/-- A set of cells that reading never leaves: each leads somewhere, and the arguments of a
compound it leads to are in it. -/
def Whole (tb : Tables) (h : Mem) (len : Nat) (live : Nat → Prop) : Prop :=
  ∀ a, live a → ∃ d, Leads h len a d ∧ ∀ f k, h d = .func f → k < tb.arity f → live (d + 1 + k)

/-- A term read to its last cell: it is all there, and has no cycle. -/
inductive Rooted (tb : Tables) (h : Mem) (len : Nat) : Nat → Prop where
  | intro {a d : Nat} (leads : Leads h len a d)
      (args : ∀ f k, h d = .func f → k < tb.arity f → Rooted tb h len (d + 1 + k)) : Rooted tb h len a

/-- A relation between the cells of two memories that reading keeps: related cells lead to
variables that `π` pairs, or to the same cell with related arguments. -/
def Bisim (tb : Tables) (h : Mem) (len : Nat) (h' : Mem) (len' : Nat) (π R : Nat → Nat → Prop) : Prop :=
  ∀ a b, R a b → ∃ d d', Leads h len a d ∧ Leads h' len' b d' ∧
    ((h d = .ref d ∧ h' d' = .ref d' ∧ π d d') ∨
      ((h d).isRef = false ∧ h' d' = h d ∧
        ∀ f k, h d = .func f → k < tb.arity f → R (d + 1 + k) (d' + 1 + k)))

variable {tb : Tables} {h h' h'' : Mem} {len len' len'' : Nat} {π π' R R' : Nat → Nat → Prop}

theorem func_of_shape {c : Cell} {root : Label} {n k : Nat} (is : shape tb c = some (root, n)) (below : k < n) :
    ∃ f, c = .func f ∧ n = tb.arity f := by
  cases c with
  | func f =>
    simp only [shape, Option.some.injEq, Prod.mk.injEq] at is
    exact ⟨f, rfl, is.2.symm⟩
  | ref p => cases is
  | _ =>
    simp only [shape, Option.some.injEq, Prod.mk.injEq] at is
    omega

theorem rooted_whole (tb : Tables) (h : Mem) (len : Nat) : Whole tb h len (Rooted tb h len) := by
  intro a rooted
  cases rooted with
  | intro leads args => exact ⟨_, leads, args⟩

/-- What leads to the same end is as much there. -/
theorem Rooted.congr {a b d : Nat} (rooted : Rooted tb h len a) (leads : Leads h len a d) (leads' : Leads h len b d) :
    Rooted tb h len b := by
  cases rooted with
  | intro first args =>
    obtain rfl := first.unique leads
    exact .intro leads' args

theorem Rooted.mono {a : Nat} (rooted : Rooted tb h len a) (same : ∀ i < len, h' i = h i) (le : len ≤ len') :
    Rooted tb h' len' a := by
  induction rooted with
  | intro leads _ ih =>
    refine .intro (leads.mono same le) ?_
    intro f k cell
    rw [same _ leads.lt] at cell
    exact ih f k cell

namespace Bisim

/-- Marks the relation pairs. -/
def Pairs (π : Nat → Nat → Prop) : Option Mark → Option Mark → Prop
  | none, none => True
  | some (.var v), some (.var w) => π v w
  | some (.label l), some (.label l') => l = l'
  | _, _ => False

/-- Related cells have the same tree, up to the paired variables. -/
theorem pairs (bisim : Bisim tb h len h' len' π R) {a b : Nat} (related : R a b) (path : List Nat) :
    Pairs π (tree tb h len a path) (tree tb h' len' b path) := by
  induction path generalizing a b with
  | nil =>
    obtain ⟨d, d', leads, leads', held⟩ := bisim a b related
    simp only [tree, leads.deref, leads'.deref]
    rcases held with ⟨var, var', paired⟩ | ⟨held, same, -⟩
    · simp only [var, var', shape]
      exact paired
    · rw [same]
      cases is : shape tb (h d) with
      | none => exact absurd (shape_none.mp is) (by simp [held])
      | some node => exact rfl
  | cons k path ih =>
    obtain ⟨d, d', leads, leads', held⟩ := bisim a b related
    simp only [tree, leads.deref, leads'.deref]
    rcases held with ⟨var, var', -⟩ | ⟨held, same, args⟩
    · simp only [var, var', shape]
      exact trivial
    · rw [same]
      cases is : shape tb (h d) with
      | none => exact trivial
      | some node =>
        obtain ⟨root, n⟩ := node
        by_cases below : k < n
        · simp only [if_pos below]
          obtain ⟨f, cell, rfl⟩ := func_of_shape is below
          exact ih (args f k cell below)
        · simp only [if_neg below]
          exact trivial

theorem mono (bisim : Bisim tb h len h' len' π R) (le : ∀ v w, π v w → π' v w) :
    Bisim tb h len h' len' π' R := by
  intro a b related
  obtain ⟨d, d', leads, leads', held⟩ := bisim a b related
  refine ⟨d, d', leads, leads', held.imp ?_ id⟩
  rintro ⟨var, var', paired⟩
  exact ⟨var, var', le _ _ paired⟩

/-- One relation after the other. -/
theorem comp (one : Bisim tb h len h' len' π R) (two : Bisim tb h' len' h'' len'' π' R') :
    Bisim tb h len h'' len'' (fun v x => ∃ w, π v w ∧ π' w x) fun a c => ∃ b, R a b ∧ R' b c := by
  rintro a c ⟨b, ab, bc⟩
  obtain ⟨d, d', leads, leads', held⟩ := one a b ab
  obtain ⟨e, e', onward, onward', held'⟩ := two b c bc
  obtain rfl := leads'.unique onward
  refine ⟨d, e', leads, onward', ?_⟩
  rcases held with ⟨var, var', paired⟩ | ⟨held, same, args⟩
  · rcases held' with ⟨-, var'', paired'⟩ | ⟨held', -, -⟩
    · exact .inl ⟨var, var'', d', paired, paired'⟩
    · rw [var'] at held'
      cases held'
  · rcases held' with ⟨var', -, -⟩ | ⟨-, same', args'⟩
    · rw [← same, var'] at held
      cases held
    · refine .inr ⟨held, same'.trans same, ?_⟩
      intro f k cell below
      exact ⟨_, args f k cell below, args' f k (same.trans cell) below⟩

/-- A cell that leads where a related one does is as good. -/
theorem ends (bisim : Bisim tb h len h' len' π R) :
    Bisim tb h len h' len' π fun a y => ∃ a' e, R a' y ∧ Leads h len a e ∧ Leads h len a' e := by
  rintro a y ⟨a', e, related, leads, leads'⟩
  obtain ⟨d, d', reach, reach', held⟩ := bisim a' y related
  obtain rfl := leads'.unique reach
  refine ⟨e, d', leads, reach', held.imp id ?_⟩
  rintro ⟨held, same, args⟩
  refine ⟨held, same, ?_⟩
  intro f k cell below
  have child := args f k cell below
  obtain ⟨c, -, onward, -⟩ := bisim _ _ child
  exact ⟨_, c, child, onward, onward⟩

/-- The cells related to something are a set that reading never leaves. -/
theorem whole (bisim : Bisim tb h len h' len' π R) : Whole tb h' len' fun b => ∃ a, R a b := by
  rintro b ⟨a, related⟩
  obtain ⟨d, d', -, leads', held⟩ := bisim a b related
  refine ⟨d', leads', ?_⟩
  intro f k cell below
  rcases held with ⟨-, var', -⟩ | ⟨-, same, args⟩
  · rw [var'] at cell
    cases cell
  · exact ⟨_, args f k (same.symm.trans cell) below⟩

/-- Related terms are variants, when no variable is paired with two and none with an old one. -/
theorem variant (bisim : Bisim tb h len h' len' π R) {t t' new : Nat} (related : R t t')
    (one : ∀ v w w', π v w → π v w' → w = w') (own : ∀ v v' w, π v w → π v' w → v = v')
    (fresh : ∀ v w, π v w → new ≤ w) : Variant tb h len t h' len' t' new := by
  classical
  let σ : Nat → Nat := fun v => if paired : ∃ w, π v w then paired.choose else v
  have σ_spec : ∀ v w, π v w → σ v = w := by
    intro v w paired
    have some_ : ∃ w, π v w := ⟨w, paired⟩
    simp only [σ, dif_pos some_]
    exact one v _ _ some_.choose_spec paired
  have occurs : ∀ v, Occurs tb h len t v → π v (σ v) := by
    rintro v ⟨path, at_path⟩
    have pairs := bisim.pairs related path
    rw [at_path] at pairs
    cases is : tree tb h' len' t' path with
    | none => rw [is] at pairs; exact pairs.elim
    | some mark =>
      rw [is] at pairs
      cases mark with
      | label l => exact pairs.elim
      | var w =>
        have paired : π v w := pairs
        rwa [σ_spec v w paired]
  refine ⟨σ, ?_, ?_, ?_⟩
  · intro v w hv hw same
    exact own v w (σ v) (occurs v hv) (by rw [same]; exact occurs w hw)
  · intro v hv
    exact fresh v _ (occurs v hv)
  · intro path
    have pairs := bisim.pairs related path
    cases left : tree tb h len t path with
    | none =>
      rw [left] at pairs
      cases right : tree tb h' len' t' path with
      | none => rfl
      | some mark => rw [right] at pairs; exact pairs.elim
    | some mark =>
      rw [left] at pairs
      cases right : tree tb h' len' t' path with
      | none => rw [right] at pairs; cases mark <;> exact pairs.elim
      | some mark' =>
        rw [right] at pairs
        cases mark with
        | var v =>
          cases mark' with
          | var w =>
            have paired : π v w := pairs
            simp only [Option.map_some, Mark.rename, σ_spec v w paired]
          | label l => exact pairs.elim
        | label l =>
          cases mark' with
          | var w => exact pairs.elim
          | label l' =>
            have same : l = l' := pairs
            rw [same]
            rfl

end Bisim

/- Variables bound. -/

theorem Leads.bind_other {v b a d : Nat} (leads : Leads h len a d) (off : d ≠ v) (self : h v = .ref v) :
    Leads (Function.update h v (.ref b)) len a d := by
  induction leads with
  | stop inside ends =>
    refine .stop inside ?_
    unfold End
    rw [Function.update_of_ne off]
    exact ends
  | @step a p d inside cell ne rest ih =>
    have other : a ≠ v := by
      rintro rfl
      exact ne (Cell.ref.inj (cell.symm.trans self))
    exact .step inside (by rw [Function.update_of_ne other, cell]) ne (ih off)

theorem Leads.bind_self {v b a d x : Nat} (leads : Leads h len a x) (at_v : x = v) (self : h v = .ref v)
    (onward : Leads (Function.update h v (.ref b)) len b d) (off : b ≠ v) :
    Leads (Function.update h v (.ref b)) len a d := by
  induction leads with
  | stop inside _ =>
    subst at_v
    exact .step inside (Function.update_self ..) off onward
  | @step a p x inside cell ne rest ih =>
    have other : a ≠ v := by
      rintro rfl
      exact ne (Cell.ref.inj (cell.symm.trans self))
    exact .step inside (by rw [Function.update_of_ne other, cell]) ne (ih at_v)

/-- A variable bound to a term that reading does not take through it leaves every term
that had no cycle without one. -/
theorem Rooted.bind {v b : Nat} (self : h v = .ref v) (rooted_b : Rooted tb h len b) (off : b ≠ v)
    {Q : Nat → Prop} (free : Q b)
    (closed : ∀ a d, Q a → Leads h len a d → d ≠ v ∧ ∀ f k, h d = .func f → k < tb.arity f → Q (d + 1 + k))
    {a : Nat} (rooted : Rooted tb h len a) : Rooted tb (Function.update h v (.ref b)) len a := by
  have here : ∀ {x}, Rooted tb h len x → Q x → Rooted tb (Function.update h v (.ref b)) len x := by
    intro x rooted
    induction rooted with
    | intro leads _ ih =>
      intro in_q
      obtain ⟨not_v, args⟩ := closed _ _ in_q leads
      refine .intro (leads.bind_other not_v self) ?_
      intro f k cell below
      rw [Function.update_of_ne not_v] at cell
      exact ih f k cell below (args f k cell below)
  have bound := here rooted_b free
  induction rooted with
  | @intro a d leads _ ih =>
    by_cases at_v : d = v
    · cases bound with
      | intro onward args => exact .intro (leads.bind_self at_v self onward off) args
    · refine .intro (leads.bind_other at_v self) ?_
      intro f k cell below
      rw [Function.update_of_ne at_v] at cell
      exact ih f k cell below

/-- Paired variables bound to related terms, neither a variable, leave related cells related. -/
theorem Bisim.bind (bisim : Bisim tb h len h' len' π R) (own : ∀ v v' w, π v w → π v' w → v = v')
    (one : ∀ v w w', π v w → π v w' → w = w') {v w b c e e' : Nat} (paired : π v w) (related : R b c)
    (unbound : h v = .ref v) (unbound' : h' w = .ref w) (leads : Leads h len b e)
    (leads' : Leads h' len' c e') (held : (h e).isRef = false) :
    Bisim tb (Function.update h v (.ref b)) len (Function.update h' w (.ref c)) len'
      (fun x y => x ≠ v ∧ π x y) R := by
  obtain ⟨d, d', reach, reach', here⟩ := bisim b c related
  obtain rfl := leads.unique reach
  obtain rfl := leads'.unique reach'
  have same : h' e' = h e := by
    rcases here with ⟨var, -, -⟩ | ⟨-, same, -⟩
    · rw [var] at held
      cases held
    · exact same
  have args : ∀ f k, h e = .func f → k < tb.arity f → R (e + 1 + k) (e' + 1 + k) := by
    rcases here with ⟨var, -, -⟩ | ⟨-, -, args⟩
    · rw [var] at held
      cases held
    · exact args
  have e_v : e ≠ v := by
    rintro rfl
    rw [unbound] at held
    cases held
  have e'_w : e' ≠ w := by
    rintro rfl
    rw [← same, unbound'] at held
    cases held
  have b_v : b ≠ v := by
    rintro rfl
    exact e_v (leads.unique (.stop leads.source_lt (.inl unbound)))
  have c_w : c ≠ w := by
    rintro rfl
    exact e'_w (leads'.unique (.stop leads'.source_lt (.inl unbound')))
  have on := leads.bind_other (b := b) e_v unbound
  have on' := leads'.bind_other (b := c) e'_w unbound'
  intro x y xy
  obtain ⟨d, d', reach, reach', here⟩ := bisim x y xy
  by_cases at_v : d = v
  · -- both sides go on to what the variable is now bound to
    subst at_v
    have at_w : d' = w := by
      rcases here with ⟨-, -, paired'⟩ | ⟨held', -, -⟩
      · exact one d d' w paired' paired
      · rw [unbound] at held'
        cases held'
    subst at_w
    refine ⟨e, e', reach.bind_self rfl unbound on b_v, reach'.bind_self rfl unbound' on' c_w, .inr ?_⟩
    rw [Function.update_of_ne e_v, Function.update_of_ne e'_w]
    exact ⟨held, same, args⟩
  · have not_w : d' ≠ w := by
      rintro rfl
      rcases here with ⟨-, -, paired'⟩ | ⟨held', same', -⟩
      · exact at_v (own d v d' paired' paired)
      · rw [← same', unbound'] at held'
        cases held'
    refine ⟨d, d', reach.bind_other at_v unbound, reach'.bind_other not_w unbound', ?_⟩
    rw [Function.update_of_ne at_v, Function.update_of_ne not_w]
    refine here.imp ?_ id
    rintro ⟨var, var', paired'⟩
    exact ⟨var, var', at_v, paired'⟩

end Cocolog.Term
