import Mathlib.Data.List.Basic

/-! Labelled graphs whose nodes may pass on to one another, and the tree read from a
node, finite or not: what stands at the end of each path. Two graphs that agree under a
map of their nodes, on a set nothing leads out of, are read as the same trees. -/

set_option linter.all false

namespace Cocolog.Lib

variable {L : Type*}

/-- What stands at a node: the way on to another, or a label over children. -/
inductive Site (L : Type*) where
  | forward (p : Nat)
  | node (label : L) (children : List Nat)

namespace Site

/-- The site with its nodes and its label renamed. -/
def map (r : Nat → Nat) (ren : L → L) : Site L → Site L
  | forward p => forward (r p)
  | node label children => node (ren label) (children.map r)

/-- Where a site leads. -/
def targets : Site L → List Nat
  | forward p => [p]
  | node _ children => children

end Site

/-- The label at the end of a path from a node. -/
inductive Reads (site : Nat → Site L) : Nat → List Nat → L → Prop where
  | forward {i p : Nat} {path : List Nat} {l : L} (here : site i = .forward p)
      (on : Reads site p path l) : Reads site i path l
  | stop {i : Nat} {l : L} {children : List Nat} (here : site i = .node l children) :
      Reads site i [] l
  | child {i k c : Nat} {path : List Nat} {root l : L} {children : List Nat}
      (here : site i = .node root children) (at_ : children[k]? = some c)
      (on : Reads site c path l) : Reads site i (k :: path) l

variable {site site' : Nat → Site L} {r : Nat → Nat} {ren : L → L} {inside : Nat → Prop}

theorem Reads.moved (moves : ∀ i, inside i → site' (r i) = (site i).map r ren)
    (closed : ∀ i, inside i → ∀ c ∈ (site i).targets, inside c) {i : Nat} {path : List Nat} {l : L}
    (reads : Reads site i path l) (here : inside i) : Reads site' (r i) path (ren l) := by
  induction reads with
  | @forward i p path l at_ on ih =>
    have there := moves i here
    rw [at_] at there
    exact .forward there (ih (closed i here p (by rw [at_]; exact List.mem_singleton_self p)))
  | @stop i l children at_ =>
    have there := moves i here
    rw [at_] at there
    exact .stop there
  | @child i k c path root l children at_ kth on ih =>
    have there := moves i here
    rw [at_] at there
    have mem : c ∈ (site i).targets := by
      rw [at_]
      exact List.mem_of_getElem? kth
    refine .child there ?_ (ih (closed i here c mem))
    rw [List.getElem?_map, kth, Option.map_some]

theorem Reads.back (moves : ∀ i, inside i → site' (r i) = (site i).map r ren)
    (closed : ∀ i, inside i → ∀ c ∈ (site i).targets, inside c) {j : Nat} {path : List Nat} {l' : L}
    (reads : Reads site' j path l') {i : Nat} (from_ : j = r i) (here : inside i) :
    ∃ l, Reads site i path l ∧ l' = ren l := by
  induction reads generalizing i with
  | @forward j p path l at_ on ih =>
    rw [from_, moves i here] at at_
    cases now : site i with
    | forward q =>
      rw [now] at at_
      cases at_
      obtain ⟨l, reads, same⟩ := ih rfl (closed i here q (by rw [now]; exact List.mem_singleton_self q))
      exact ⟨l, .forward now reads, same⟩
    | node label children =>
      rw [now] at at_
      cases at_
  | @stop j l children at_ =>
    rw [from_, moves i here] at at_
    cases now : site i with
    | forward q =>
      rw [now] at at_
      cases at_
    | node label children =>
      rw [now] at at_
      cases at_
      exact ⟨label, .stop now, rfl⟩
  | @child j k c path root l children at_ kth on ih =>
    rw [from_, moves i here] at at_
    cases now : site i with
    | forward q =>
      rw [now] at at_
      cases at_
    | node label cs =>
      rw [now] at at_
      cases at_
      rw [List.getElem?_map, Option.map_eq_some_iff] at kth
      obtain ⟨d, kth, rfl⟩ := kth
      have mem : d ∈ (site i).targets := by
        rw [now]
        exact List.mem_of_getElem? kth
      obtain ⟨l, reads, same⟩ := ih rfl (closed i here d mem)
      exact ⟨l, .child now kth reads, same⟩

/-- Agreement of two graphs under a map is agreement of the trees read from them. -/
theorem reads_iff (moves : ∀ i, inside i → site' (r i) = (site i).map r ren)
    (closed : ∀ i, inside i → ∀ c ∈ (site i).targets, inside c) {i : Nat} (here : inside i)
    (path : List Nat) (l' : L) :
    Reads site' (r i) path l' ↔ ∃ l, Reads site i path l ∧ l' = ren l := by
  constructor
  · intro reads
    exact reads.back moves closed rfl here
  · rintro ⟨l, reads, rfl⟩
    exact reads.moved moves closed here

end Cocolog.Lib
