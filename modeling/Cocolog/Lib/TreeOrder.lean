import Cocolog.Lib.Trees
import Mathlib.Data.List.Lex
import Mathlib.Data.List.Basic

/-! Trees compared from the root down and from the left: the first place where they differ
decides. A finite tree keeps its place against another when the other's copies of it are
replaced by the other itself, for no such copy stands at or before that place. -/

set_option linter.all false

namespace Cocolog.Lib

/- Paths. -/

/-- A path walked `n` times. -/
def repeated (π : List Nat) : Nat → List Nat
  | 0 => []
  | n + 1 => π ++ repeated π n

theorem length_repeated {π : List Nat} (some_ : π ≠ []) (n : Nat) : n ≤ (repeated π n).length := by
  induction n with
  | zero => exact Nat.zero_le _
  | succ n ih =>
    have longer := List.length_pos_iff.mpr some_
    rw [repeated, List.length_append]
    omega

theorem lt_of_append_lt {π p q : List Nat} (less : π ++ p < π ++ q) : p < q := by
  induction π with
  | nil => exact less
  | cons k π ih =>
    rcases List.cons_lt_cons_iff.mp less with lt | ⟨-, rest⟩
    · exact absurd lt (Nat.lt_irrefl k)
    · exact ih rest

/-- Where two paths part before the end of the one, what follows it does not matter. -/
theorem append_lt_of_parts {π p q : List Nat} (parts : ¬ π <+: q) (less : π ++ p < q) (r : List Nat) :
    π ++ r < q := by
  induction π generalizing q with
  | nil => exact absurd List.nil_prefix parts
  | cons k π ih =>
    cases q with
    | nil => exact absurd less (List.not_lt_nil _)
    | cons j q =>
      rw [List.cons_append, List.cons_lt_cons_iff] at less ⊢
      rcases less with lt | ⟨rfl, rest⟩
      · exact .inl lt
      · exact .inr ⟨rfl, ih (fun more => parts (List.cons_prefix_cons.mpr ⟨rfl, more⟩)) rest⟩

/-- A path that comes after itself walked from `π` comes after every repetition of `π`. -/
theorem repeated_lt {π q : List Nat} (less : π ++ q < q) (n : Nat) : repeated π n < q := by
  have inhabited : ∀ q : List Nat, π ++ q < q → ([] : List Nat) < q := by
    intro q less
    cases q with
    | nil => exact absurd less (List.not_lt_nil _)
    | cons k q => exact List.nil_lt_cons k q
  induction n generalizing q with
  | zero => exact inhabited q less
  | succ n ih =>
    rw [repeated]
    by_cases more : π <+: q
    · obtain ⟨r, rfl⟩ := more
      exact List.append_left_lt (ih (lt_of_append_lt less))
    · exact append_lt_of_parts more less _

namespace PathTree

variable {K : Type*}

/-- No path is longer than some length. -/
def Finite (t : PathTree K) : Prop := ∃ n, ∀ path : List Nat, n ≤ path.length → t path = none

theorem Finite.leaf (root : K) : Finite (PathTree.leaf root) := by
  refine ⟨1, ?_⟩
  intro path long
  cases path with
  | nil => cases long
  | cons k path => rfl

theorem Finite.child {root : K} {n : Nat} {child : Nat → PathTree K} (finite : Finite (PathTree.node root n child))
    {k : Nat} (below : k < n) : Finite (child k) := by
  obtain ⟨bound, none_⟩ := finite
  refine ⟨bound, ?_⟩
  intro path long
  exact (node_cons path below).symm.trans (none_ (k :: path) (Nat.le_succ_of_le long))

/-- A finite tree ends along every path that is walked again and again. -/
theorem Finite.ends {t : PathTree K} (finite : Finite t) {π : List Nat} (some_ : π ≠ []) :
    ¬ ∀ n, t (repeated π n) ≠ none := by
  intro every
  obtain ⟨bound, none_⟩ := finite
  exact every bound (none_ _ (length_repeated some_ bound))

/-- A finite tree does not stand inside itself. -/
theorem Finite.not_inside {t : PathTree K} (finite : Finite t) (root : t [] ≠ none) {π : List Nat}
    (some_ : π ≠ []) : ¬ ∀ path, t (π ++ path) = t path := by
  intro inside
  apply finite.ends some_
  intro n
  induction n with
  | zero => exact root
  | succ n ih =>
    rw [repeated, inside]
    exact ih

/- The order. -/

variable {cmp : K → K → Ordering}

/-- How two trees are ordered: they are one, or the first place where they are not decides. -/
inductive Orders (cmp : K → K → Ordering) (t u : PathTree K) : Ordering → Prop
  | same (one : t = u) : Orders cmp t u .eq
  | first (path : List Nat) (x y : K) (before : ∀ earlier < path, t earlier = u earlier)
      (left : t path = some x) (right : u path = some y) (differ : cmp x y ≠ .eq) : Orders cmp t u (cmp x y)

/-- Two trees are ordered one way. -/
theorem Orders.unique [Std.ReflCmp cmp] {t u : PathTree K} {o o' : Ordering} (one : Orders cmp t u o)
    (two : Orders cmp t u o') : o = o' := by
  have apart : ∀ path x y, t path = some x → u path = some y → cmp x y ≠ .eq → t path ≠ u path := by
    intro path x y left right differ same
    rw [left, right] at same
    cases same
    exact differ Std.ReflCmp.compare_self
  cases one with
  | same equal =>
    cases two with
    | same => rfl
    | first path x y before left right differ => exact absurd (congrFun equal path) (apart path x y left right differ)
  | first path x y before left right differ =>
    cases two with
    | same equal => exact absurd (congrFun equal path) (apart path x y left right differ)
    | first path' x' y' before' left' right' differ' =>
      rcases lt_trichotomy path path' with less | rfl | more
      · exact absurd (before' path less) (apart path x y left right differ)
      · rw [left] at left'
        rw [right] at right'
        cases left'
        cases right'
        rfl
      · exact absurd (before path' more) (apart path' x' y' left' right' differ')

theorem Orders.swap (turned : ∀ x y, cmp y x = (cmp x y).swap) {t u : PathTree K} {o : Ordering}
    (orders : Orders cmp t u o) : Orders cmp u t o.swap := by
  cases orders with
  | same one => exact .same one.symm
  | first path x y before left right differ =>
    rw [← turned]
    refine .first path y x (fun earlier less => (before earlier less).symm) right left ?_
    rw [turned]
    exact fun is => differ (Ordering.swap_eq_eq.mp is)

theorem Orders.root {root root' : K} (n n' : Nat) (child child' : Nat → PathTree K) (differ : cmp root root' ≠ .eq) :
    Orders cmp (node root n child) (node root' n' child') (cmp root root') :=
  .first [] root root' (fun _ less => absurd less (List.not_lt_nil _)) rfl rfl differ

/-- The children before the `k`th are the same and the `k`th decides. -/
theorem Orders.child {root : K} {n k : Nat} {child child' : Nat → PathTree K} {o : Ordering} (below : k < n)
    (before : ∀ j < k, child j = child' j) (here : Orders cmp (child k) (child' k) o) (decides : o ≠ .eq) :
    Orders cmp (node root n child) (node root n child') o := by
  cases here with
  | same => exact absurd rfl decides
  | first path x y earlier left right differ =>
    refine .first (k :: path) x y ?_ ((node_cons path below).trans left) ((node_cons path below).trans right) differ
    intro q less
    cases q with
    | nil => rfl
    | cons j q =>
      rcases List.cons_lt_cons_iff.mp less with lt | ⟨rfl, rest⟩
      · rw [node_cons q (lt.trans below), node_cons q (lt.trans below), before j lt]
      · rw [node_cons q below, node_cons q below]
        exact earlier q rest

/-- The other tree with what it holds of the one replaced by itself. -/
def Grafted (t u u' : PathTree K) : Prop :=
  ∀ path, u' path = u path ∨
    ∃ π rest, π ≠ [] ∧ path = π ++ rest ∧ (∀ p, u (π ++ p) = t p) ∧ ∀ p, u' (π ++ p) = u' p

/-- A finite tree has no copy of itself inside to replace. -/
theorem Grafted.eq_of_same {t u' : PathTree K} (grafted : Grafted t t u') (finite : Finite t) (root : t [] ≠ none) :
    u' = t := by
  funext path
  rcases grafted path with same | ⟨π, rest, some_, -, inside, -⟩
  · exact same
  · exact absurd inside (finite.not_inside root some_)

/-- Up to the place that decides, the grafted tree is what it was. -/
theorem Grafted.eq_before {t u u' : PathTree K} (grafted : Grafted t u u') (finite : Finite t)
    (root : t [] ≠ none) {place : List Nat} (before : ∀ earlier < place, t earlier = u earlier) (path : List Nat)
    (le : path ≤ place) : u' path = u path := by
  -- by the path's length: what follows a copy is shorter, and comes before it or there is none
  induction size : path.length using Nat.strong_induction_on generalizing path with
  | _ size' ih =>
    subst size
    rcases grafted path with same | ⟨π, rest, some_, rfl, inside, again⟩
    · exact same
    have shorter : rest.length < (π ++ rest).length := by
      have longer := List.length_pos_iff.mpr some_
      rw [List.length_append]
      omega
    rcases lt_trichotomy rest (π ++ rest) with less | same | more
    · have early : rest < place := less.trans_le le
      rw [again, inside, before rest early]
      exact ih rest.length shorter rest early.le rfl
    · exact absurd (congrArg List.length same) shorter.ne
    · exfalso
      apply finite.ends some_
      intro n
      induction n with
      | zero => exact root
      | succ n ih' =>
        have early : π ++ repeated π n < place := (List.append_left_lt (repeated_lt more n)).trans_le le
        rw [repeated, before _ early, inside]
        exact ih'

/-- Grafting leaves the order as it was. -/
theorem Orders.graft {t u u' : PathTree K} {o : Ordering} (orders : Orders cmp t u o) (grafted : Grafted t u u')
    (finite : Finite t) (root : t [] ≠ none) : Orders cmp t u' o := by
  cases orders with
  | same one =>
    subst one
    exact .same (grafted.eq_of_same finite root).symm
  | first path x y before left right differ =>
    have upto := grafted.eq_before finite root before
    refine .first path x y ?_ left ((upto path le_rfl).trans right) differ
    intro earlier less
    rw [upto earlier less.le]
    exact before earlier less

/- Pairs of trees one after the other. -/

/-- The first of the pairs that differ decides; up to it the trees on the left are finite. -/
inductive Firsts (cmp : K → K → Ordering) : List (PathTree K × PathTree K) → Ordering → Prop
  | none : Firsts cmp [] .eq
  | same {t : PathTree K} {rest : List (PathTree K × PathTree K)} {o : Ordering} (finite : Finite t)
      (others : Firsts cmp rest o) : Firsts cmp ((t, t) :: rest) o
  | here {t u : PathTree K} {rest : List (PathTree K × PathTree K)} {o : Ordering} (finite : Finite t)
      (orders : Orders cmp t u o) (decides : o ≠ .eq) : Firsts cmp ((t, u) :: rest) o

/-- Pairs of the same trees decide nothing. -/
theorem Firsts.skip {ps rest : List (PathTree K × PathTree K)} {o : Ordering}
    (same : ∀ q ∈ ps, Finite q.1 ∧ q.1 = q.2) (others : Firsts cmp rest o) : Firsts cmp (ps ++ rest) o := by
  induction ps with
  | nil => exact others
  | cons q ps ih =>
    obtain ⟨t, u⟩ := q
    have finite : Finite t := (same (t, u) List.mem_cons_self).1
    have one : t = u := (same (t, u) List.mem_cons_self).2
    subst one
    exact .same finite (ih fun q mem => same q (List.mem_cons_of_mem _ mem))

/-- Two trees of one root are ordered by their children. -/
theorem Firsts.children [Std.ReflCmp cmp] {root : K} {n : Nat} {child child' : Nat → PathTree K}
    {rest : List (PathTree K × PathTree K)} {o : Ordering}
    (orders : Firsts cmp ((node root n child, node root n child') :: rest) o) :
    Firsts cmp ((List.range n).map (fun k => (child k, child' k)) ++ rest) o := by
  generalize left_ : node root n child = t at orders
  generalize right_ : node root n child' = u at orders
  cases orders with
  | same finite others =>
    apply Firsts.skip _ others
    intro q mem
    obtain ⟨k, below, rfl⟩ := List.mem_map.mp mem
    rw [List.mem_range] at below
    rw [← left_] at finite
    exact ⟨finite.child below, node_child (left_.trans right_.symm) below below⟩
  | here finite here decides =>
    subst left_ right_
    cases here with
    | same => exact absurd rfl decides
    | first path x y before left right differ =>
      cases path with
      | nil =>
        cases left
        cases right
        exact absurd Std.ReflCmp.compare_self differ
      | cons k path =>
        have below : k < n := by
          by_contra past
          rw [node, if_neg past] at left
          cases left
        have split : List.range n = List.range k ++ k :: List.map (fun j => k + (j + 1)) (List.range (n - k - 1)) := by
          obtain ⟨m, rfl⟩ : ∃ m, n = k + (m + 1) := ⟨n - k - 1, by omega⟩
          have size : k + (m + 1) - k - 1 = m := by omega
          rw [size, List.range_add, List.range_succ_eq_map, List.map_cons, List.map_map]
          rfl
        rw [split, List.map_append, List.map_cons, List.append_assoc]
        apply Firsts.skip
        · intro q mem
          obtain ⟨j, less, rfl⟩ := List.mem_map.mp mem
          rw [List.mem_range] at less
          refine ⟨finite.child (less.trans below), ?_⟩
          funext p
          have early := before (j :: p) (List.cons_lt_cons_iff.mpr (.inl less))
          rwa [node_cons p (less.trans below), node_cons p (less.trans below)] at early
        · refine .here (finite.child below) (.first path x y ?_ ?_ ?_ differ) decides
          · intro p less
            have early := before (k :: p) (List.cons_lt_cons_iff.mpr (.inr ⟨rfl, less⟩))
            rwa [node_cons p below, node_cons p below] at early
          · rwa [node_cons path below] at left
          · rwa [node_cons path below] at right

end PathTree

/- Finite trees. -/

/-- A root and its children, first to last. -/
inductive FinTree (L : Type*) where
  | node (root : L) (args : List (FinTree L))

namespace FinTree

variable {L K : Type*}

/-- The label at a path. -/
def at_ : List Nat → FinTree L → Option L
  | [], node root _ => some root
  | k :: path, node _ args => args[k]?.bind (at_ path)

mutual

/-- The order of two trees: by their roots, then by their children left to right. -/
def order (cmp : L → L → Ordering) : FinTree L → FinTree L → Ordering
  | node root args, node root' args' => (cmp root root').then (orderArgs cmp args args')

def orderArgs (cmp : L → L → Ordering) : List (FinTree L) → List (FinTree L) → Ordering
  | [], [] => .eq
  | [], _ :: _ => .lt
  | _ :: _, [] => .gt
  | t :: args, u :: args' => (order cmp t u).then (orderArgs cmp args args')

end

/-- Every root takes the children it has. -/
inductive Fits (takes : L → Nat → Prop) : FinTree L → Prop
  | node {root : L} {args : List (FinTree L)} (count : takes root args.length)
      (each : ∀ (k : Nat) (t : FinTree L), args[k]? = some t → Fits takes t) : Fits takes (FinTree.node root args)

/-- A tree is what stands at its paths. -/
theorem ext_at : ∀ t u : FinTree L, (∀ path, t.at_ path = u.at_ path) → t = u
  | node root args, node root' args', same => by
    have roots : root = root' := Option.some.inj (same [])
    have lists : args = args' := by
      apply List.ext_getElem?
      intro k
      have below : ∀ path, args[k]?.bind (at_ path) = args'[k]?.bind (at_ path) := fun path => same (k :: path)
      cases left : args[k]? with
      | none =>
        cases right : args'[k]? with
        | none => rfl
        | some u =>
          have root_ := below []
          rw [left, right] at root_
          cases u
          cases root_
      | some t =>
        cases right : args'[k]? with
        | none =>
          have root_ := below []
          rw [left, right] at root_
          cases t
          cases root_
        | some u =>
          rw [left, right] at below
          have smaller : sizeOf t < sizeOf args := List.sizeOf_lt_of_mem (List.mem_of_getElem? left)
          rw [ext_at t u below]
    rw [roots, lists]
termination_by t => sizeOf t
decreasing_by
  simp only [FinTree.node.sizeOf_spec]
  omega

theorem Fits.takes {takes : L → Nat → Prop} {t : FinTree L} (fits : Fits takes t) {path : List Nat} {x : L}
    (is : t.at_ path = some x) : ∃ n, takes x n := by
  induction fits generalizing path with
  | @node root args count each ih =>
    cases path with
    | nil =>
      cases is
      exact ⟨args.length, count⟩
    | cons k path =>
      rw [at_] at is
      obtain ⟨t, child, below⟩ := Option.bind_eq_some_iff.mp is
      exact ih k t child below

/-- What is seen of each label, by paths. -/
def paths (key : L → K) (t : FinTree L) : PathTree K := fun path => (t.at_ path).map key

/-- The children of a list of trees. -/
def child (key : L → K) (args : List (FinTree L)) (k : Nat) : PathTree K :=
  fun path => (args[k]?.bind (at_ path)).map key

theorem child_some {key : L → K} {args : List (FinTree L)} {k : Nat} {t : FinTree L} (is : args[k]? = some t) :
    child key args k = t.paths key := by
  funext path
  rw [child, is]
  rfl

theorem paths_node (key : L → K) (root : L) (args : List (FinTree L)) :
    (node root args).paths key = PathTree.node (key root) args.length (child key args) := by
  funext path
  cases path with
  | nil => rfl
  | cons k path =>
    by_cases below : k < args.length
    · rw [PathTree.node_cons path below]
      rfl
    · rw [PathTree.node, if_neg below, paths, at_, List.getElem?_eq_none (Nat.le_of_not_lt below)]
      rfl

theorem paths_finite {takes : L → Nat → Prop} {t : FinTree L} (fits : Fits takes t) (key : L → K) :
    (t.paths key).Finite := by
  induction fits with
  | @node root args count each ih =>
    -- one more than the deepest child
    have bound : ∀ m, ∃ n, ∀ k < m, ∀ path : List Nat, n ≤ path.length → child key args k path = none := by
      intro m
      induction m with
      | zero => exact ⟨0, fun k lt => absurd lt (Nat.not_lt_zero k)⟩
      | succ m step =>
        obtain ⟨n, deep⟩ := step
        have last : ∃ n', ∀ path : List Nat, n' ≤ path.length → child key args m path = none := by
          cases is : args[m]? with
          | none =>
            refine ⟨0, fun path _ => ?_⟩
            rw [child, is]
            rfl
          | some t =>
            rw [child_some is]
            exact ih m t is
        obtain ⟨n', deep'⟩ := last
        refine ⟨max n n', ?_⟩
        intro k lt path long
        rcases Nat.lt_succ_iff_lt_or_eq.mp lt with less | rfl
        · exact deep k less path (le_trans (le_max_left n n') long)
        · exact deep' path (le_trans (le_max_right n n') long)
    obtain ⟨n, deep⟩ := bound args.length
    refine ⟨n + 1, ?_⟩
    intro path long
    rw [paths_node]
    cases path with
    | nil => cases long
    | cons k path =>
      by_cases below : k < args.length
      · rw [PathTree.node_cons path below]
        exact deep k below path (Nat.le_of_succ_le_succ long)
      · rw [PathTree.node, if_neg below]

theorem child_succ (key : L → K) (t : FinTree L) (args : List (FinTree L)) (k : Nat) :
    child key (t :: args) (k + 1) = child key args k := by
  funext path
  rw [child, child, List.getElem?_cons_succ]

/-- Children that are ordered one by one: all the same, or a first that is not. -/
theorem orderArgs_spec {cmp : K → K → Ordering} {key : L → K} (as bs : List (FinTree L))
    (size : as.length = bs.length)
    (each : ∀ (k : Nat) (a b : FinTree L), as[k]? = some a → bs[k]? = some b →
      PathTree.Orders cmp (a.paths key) (b.paths key) (order (fun x y => cmp (key x) (key y)) a b)) :
    (orderArgs (fun x y => cmp (key x) (key y)) as bs = .eq ∧ ∀ k, child key as k = child key bs k) ∨
      ∃ k < as.length, (∀ j < k, child key as j = child key bs j) ∧
        PathTree.Orders cmp (child key as k) (child key bs k) (orderArgs (fun x y => cmp (key x) (key y)) as bs) ∧
        orderArgs (fun x y => cmp (key x) (key y)) as bs ≠ .eq := by
  induction as generalizing bs with
  | nil =>
    cases bs with
    | nil => exact .inl ⟨by rw [orderArgs], fun _ => rfl⟩
    | cons b bs => cases size
  | cons a as ih =>
    cases bs with
    | nil => cases size
    | cons b bs =>
      have first := each 0 a b rfl rfl
      have head : child key (a :: as) 0 = a.paths key := child_some rfl
      have head' : child key (b :: bs) 0 = b.paths key := child_some rfl
      rw [orderArgs]
      generalize order (fun x y => cmp (key x) (key y)) a b = o at first
      cases o with
      | eq =>
        have same : a.paths key = b.paths key := by
          generalize is : Ordering.eq = o at first
          cases first with
          | same one => exact one
          | first path x y before left right differ => exact absurd is.symm differ
        rw [Ordering.then]
        rcases ih bs (Nat.succ.inj size) fun k => each (k + 1) with ⟨all, children⟩ | ⟨k, below, before, here, decides⟩
        · refine .inl ⟨all, ?_⟩
          intro k
          cases k with
          | zero => rw [head, head', same]
          | succ k => rw [child_succ, child_succ, children k]
        · refine .inr ⟨k + 1, Nat.succ_lt_succ below, ?_, ?_, decides⟩
          · intro j less
            cases j with
            | zero => rw [head, head', same]
            | succ j => rw [child_succ, child_succ, before j (Nat.lt_of_succ_lt_succ less)]
          · rw [child_succ, child_succ]
            exact here
      | lt =>
        refine .inr ⟨0, Nat.succ_pos _, fun j less => absurd less (Nat.not_lt_zero j), ?_, nofun⟩
        rw [head, head']
        exact first
      | gt =>
        refine .inr ⟨0, Nat.succ_pos _, fun j less => absurd less (Nat.not_lt_zero j), ?_, nofun⟩
        rw [head, head']
        exact first

/-- The recursion finds the first place where the trees differ. -/
theorem order_spec {cmp : K → K → Ordering} {takes : L → Nat → Prop} {key : L → K}
    (lawful : ∀ x y m n, takes x m → takes y n → cmp (key x) (key y) = .eq → key x = key y ∧ m = n)
    {t : FinTree L} (fits : Fits takes t) {u : FinTree L} (fits' : Fits takes u) :
    PathTree.Orders cmp (t.paths key) (u.paths key) (order (fun x y => cmp (key x) (key y)) t u) := by
  induction fits generalizing u with
  | @node root args count each ih =>
    obtain @⟨root', args', count', each'⟩ := fits'
    rw [order, paths_node, paths_node]
    cases is : cmp (key root) (key root') with
    | eq =>
      obtain ⟨one, size⟩ := lawful _ _ _ _ count count' is
      rw [Ordering.then, one, size]
      rcases orderArgs_spec args args' size (fun k a b left right => ih k a left (each' k b right)) with
        ⟨all, children⟩ | ⟨k, below, before, here, decides⟩
      · rw [all, funext children]
        exact .same rfl
      · exact .child (size ▸ below) before here decides
    | lt =>
      have here := PathTree.Orders.root args.length args'.length (child key args) (child key args')
        (show cmp (key root) (key root') ≠ .eq by rw [is]; nofun)
      rwa [is] at here
    | gt =>
      have here := PathTree.Orders.root args.length args'.length (child key args) (child key args')
        (show cmp (key root) (key root') ≠ .eq by rw [is]; nofun)
      rwa [is] at here

end FinTree

end Cocolog.Lib
