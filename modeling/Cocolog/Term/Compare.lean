import Cocolog.Term.Order
import Cocolog.Term.Unify

/-! `coco_compare`. Pairs of cells wait in a list and the first that differs decides. A walk
that meets more pairs of like compounds than the heap has cells is made again from its first
pair, linked: each compound is pointed at the one it is compared with, so that a cycle is
gone round once. On finite terms the links never change the answer. -/

set_option linter.all false

namespace Cocolog.Term

open Cocolog.Lib

section Walks

variable (tb : Tables) (nm : Names) (len : Nat)

/-- The loop of `coco_compare`: an order, or nothing where the countdown came to 0. It starts
at the heap's length, which is not 0 when there are terms to compare. -/
def comparePlain (h : Mem) : Nat → Nat → List (Nat × Nat) → Option (Option Ordering)
  | 0, _, _ => none
  | _ + 1, _, [] => some (some .eq)
  | turns + 1, budget, (a, b) :: rest =>
    let a := deref h len a
    let b := deref h len b
    match ranked tb nm h a b with
    | .ordered .eq => comparePlain h turns budget rest
    | .ordered o => some (some o)
    | .alike n => if budget ≤ 1 then some none else comparePlain h turns (budget - 1) (argPairs a b n ++ rest)

/-- The loop of `coco_compare_linked`: the order, the memory and the compounds linked,
newest first. -/
def compareLinked : Nat → Mem → List Nat → List (Nat × Nat) → Option (Ordering × Mem × List Nat)
  | 0, _, _, _ => none
  | _ + 1, h, links, [] => some (.eq, h, links)
  | turns + 1, h, links, (a, b) :: rest =>
    let a := deref h len a
    let b := deref h len b
    match ranked tb nm h a b with
    | .ordered .eq => compareLinked turns h links rest
    | .ordered o => some (o, h, links)
    | .alike n =>
      compareLinked turns (Function.update h a (.ref b)) (a :: links) (argPairs a b n ++ rest)

/-- No walk takes more turns. -/
def compareTurns : Nat := 2 + (len + 1) * (len + 1)

/-- `coco_compare`: the order and the memory it leaves. -/
def termCompare (h : Mem) (a b : Nat) : Option (Ordering × Mem) :=
  match comparePlain tb nm len h (compareTurns len) len [(a, b)] with
  | none => none
  | some (some o) => some (o, h)
  | some none => (compareLinked tb nm len (compareTurns len) h [] [(a, b)]).map fun r => (r.1, undoLinks r.2.2 r.2.1)

end Walks

/- Trees of keys. -/

section Trees

variable (tb : Tables) (nm : Names) (len : Nat)

/-- What the order sees of the tree of a cell, each variable standing for itself. -/
def keyTree (h : Mem) (i : Nat) : PathTree Key :=
  fun path => (treeAt tb h len (fun v => PathTree.leaf (.pos v)) i path).map (Label.key tb nm)

variable {tb nm len} {h : Mem}

theorem keyTree_eq {i j : Nat}
    (same : treeAt tb h len (fun v => PathTree.leaf (.pos v)) i = treeAt tb h len (fun v => PathTree.leaf (.pos v)) j) :
    keyTree tb nm len h i = keyTree tb nm len h j := by
  funext path
  rw [keyTree, keyTree, same]

theorem keyTree_deref (sound : Sound tb h len) (turns i : Nat) :
    keyTree tb nm len h (deref h turns i) = keyTree tb nm len h i :=
  keyTree_eq ((sound.treeAt_admits _).deref turns i)

/-- The tree of a cell that is at the end of its chain. -/
theorem keyTree_end {i : Nat} (stop : End h i) :
    keyTree tb nm len h i = PathTree.node (keyAt tb nm h i) (keyAt tb nm h i).arity
      fun k => keyTree tb nm len h (i + 1 + k) := by
  rcases stop with self | held
  · funext path
    rw [keyTree, treeAt_var tb len _ self, keyAt_ref self]
    cases path with
    | nil => rfl
    | cons k path => rfl
  · obtain ⟨⟨root, n⟩, is⟩ := Option.ne_none_iff_exists'.mp fun none_ =>
      Bool.false_ne_true (held.symm.trans (shape_none.mp none_))
    have key : keyAt tb nm h i = root.key tb nm := by rw [keyAt, labelAt, is]
    have arity : (root.key tb nm).arity = n := shape_arity is
    funext path
    rw [keyTree, treeAt_node tb len _ held is, key, arity]
    cases path with
    | nil => rfl
    | cons k path =>
      simp only [PathTree.node]
      split
      · rfl
      · rfl

/-- What a chain leads to has its tree still when the end of another is pointed elsewhere. -/
theorem keyTree_link_deref {x y f : Nat} (cell : h x = .func f) (sound : Sound tb (Function.update h x (.ref y)) len)
    (turns i : Nat) :
    keyTree tb nm len (Function.update h x (.ref y)) (deref h turns i) =
      keyTree tb nm len (Function.update h x (.ref y)) i := by
  induction turns generalizing i with
  | zero => rfl
  | succ turns ih =>
    rw [deref_succ, ih]
    cases at_ : h i with
    | ref p =>
      have apart : i ≠ x := by
        rintro rfl
        rw [cell] at at_
        cases at_
      have here : Function.update h x (.ref y) i = .ref p := by rwa [Function.update_of_ne apart]
      rw [follow_ref at_]
      exact (keyTree_eq ((sound.treeAt_admits _).ref here)).symm
    | _ => rw [follow_end (.inr (by rw [at_]; rfl))]

/-- A compound linked to another: each tree is what it was, with the compound's own replaced
by the other's as it is now. -/
theorem keyTree_link (sound : Sound tb h len) {x y f : Nat} (cell : h x = .func f)
    (linked : Sound tb (Function.update h x (.ref y)) len) (i : Nat) (path : List Nat) :
    keyTree tb nm len (Function.update h x (.ref y)) i path = keyTree tb nm len h i path ∨
      ∃ π rest, path = π ++ rest ∧ (∀ p, keyTree tb nm len h i (π ++ p) = keyTree tb nm len h x p) ∧
        (∀ p, keyTree tb nm len (Function.update h x (.ref y)) i (π ++ p) =
          keyTree tb nm len (Function.update h x (.ref y)) y p) ∧
        (π = [] → deref h len i = x) := by
  have there : ∀ i, deref h len i = x → (∀ p, keyTree tb nm len h i p = keyTree tb nm len h x p) ∧
      ∀ p, keyTree tb nm len (Function.update h x (.ref y)) i p =
        keyTree tb nm len (Function.update h x (.ref y)) y p := by
    intro i is
    have target : Function.update h x (.ref y) x = .ref y := Function.update_self _ _ _
    have now := @keyTree_link_deref tb nm len h x y f cell linked len i
    rw [is, keyTree_eq ((linked.treeAt_admits _).ref target)] at now
    have before := @keyTree_deref tb nm len h sound len i
    rw [is] at before
    exact ⟨congrFun before.symm, congrFun now.symm⟩
  have elsewhere : ∀ i, deref h len i ≠ x → ∃ key,
      keyTree tb nm len h i = PathTree.node key key.arity
        (fun k => keyTree tb nm len h (deref h len i + 1 + k)) ∧
      keyTree tb nm len (Function.update h x (.ref y)) i = PathTree.node key key.arity
        (fun k => keyTree tb nm len (Function.update h x (.ref y)) (deref h len i + 1 + k)) := by
    intro i off
    have same : Function.update h x (.ref y) (deref h len i) = h (deref h len i) := Function.update_of_ne off _ _
    have stop := sound.stop i
    have stop' : End (Function.update h x (.ref y)) (deref h len i) := by
      unfold End
      rwa [same]
    have key : keyAt tb nm (Function.update h x (.ref y)) (deref h len i) = keyAt tb nm h (deref h len i) := by
      unfold keyAt labelAt
      rw [same]
    refine ⟨keyAt tb nm h (deref h len i), ?_, ?_⟩
    · rw [← keyTree_deref sound len i]
      exact keyTree_end stop
    · rw [← keyTree_link_deref cell linked len i, ← key]
      exact keyTree_end stop'
  induction path generalizing i with
  | nil =>
    by_cases at_x : deref h len i = x
    · obtain ⟨before, now⟩ := there i at_x
      exact .inr ⟨[], [], rfl, before, now, fun _ => at_x⟩
    · obtain ⟨key, before, now⟩ := elsewhere i at_x
      left
      rw [before, now]
      rfl
  | cons k path ih =>
    by_cases at_x : deref h len i = x
    · obtain ⟨before, now⟩ := there i at_x
      exact .inr ⟨[], k :: path, rfl, before, now, fun _ => at_x⟩
    · obtain ⟨key, before, now⟩ := elsewhere i at_x
      by_cases below : k < key.arity
      · rcases ih (deref h len i + 1 + k) with same | ⟨π, rest, is, inside, again, -⟩
        · left
          rw [before, now, PathTree.node_cons path below, PathTree.node_cons path below]
          exact same
        · right
          refine ⟨k :: π, rest, by rw [is]; rfl, ?_, ?_, fun none_ => nomatch none_⟩
          · intro p
            rw [before, List.cons_append, PathTree.node_cons _ below]
            exact inside p
          · intro p
            rw [now, List.cons_append, PathTree.node_cons _ below]
            exact again p
      · left
        rw [before, now, PathTree.node, PathTree.node, if_neg below, if_neg below]

/- A compound linked to the one it is compared with. -/

section Link

variable {x y f : Nat}

theorem link_grafted (sound : Sound tb h len) (cell : h x = .func f)
    (linked : Sound tb (Function.update h x (.ref y)) len) (off : x ≠ y) (stop : End h y) :
    PathTree.Grafted (keyTree tb nm len h x) (keyTree tb nm len h y)
      (keyTree tb nm len (Function.update h x (.ref y)) y) := by
  intro path
  rcases keyTree_link sound cell linked y path with same | ⟨π, rest, is, inside, again, start⟩
  · exact .inl same
  · refine .inr ⟨π, rest, ?_, is, inside, again⟩
    intro none_
    have here := start none_
    rw [deref_end stop] at here
    exact off here.symm

/-- Linked to its like, a finite compound leaves every tree as it was. -/
theorem link_same (sound : Sound tb h len) (cell : h x = .func f)
    (linked : Sound tb (Function.update h x (.ref y)) len) (off : x ≠ y) (stop : End h y)
    (one : keyTree tb nm len h x = keyTree tb nm len h y) (finite : (keyTree tb nm len h x).Finite)
    (root : keyTree tb nm len h x [] ≠ none) (i : Nat) :
    keyTree tb nm len (Function.update h x (.ref y)) i = keyTree tb nm len h i := by
  have grafted := @link_grafted tb nm len h x y f sound cell linked off stop
  rw [← one] at grafted
  have target := grafted.eq_of_same finite root
  funext path
  rcases keyTree_link sound cell linked i path with same | ⟨π, rest, rfl, inside, again, -⟩
  · exact same
  · rw [inside, again, target]

/-- Its arguments are as they were: it is not among their parts. -/
theorem link_args (sound : Sound tb h len) (cell : h x = .func f)
    (linked : Sound tb (Function.update h x (.ref y)) len) (finite : (keyTree tb nm len h x).Finite) {k : Nat}
    (below : k < tb.arity f) :
    keyTree tb nm len (Function.update h x (.ref y)) (x + 1 + k) = keyTree tb nm len h (x + 1 + k) := by
  have node_ := @keyTree_end tb nm len h x (.inr (by rw [cell]; rfl))
  have arity : (keyAt tb nm h x).arity = tb.arity f := by rw [keyAt_func cell]; rfl
  rw [arity] at node_
  funext path
  rcases keyTree_link sound cell linked (x + 1 + k) path with same | ⟨π, rest, -, inside, -, -⟩
  · exact same
  · exfalso
    apply finite.not_inside (by rw [node_]; nofun) (List.cons_ne_nil k π)
    intro p
    rw [List.cons_append]
    nth_rewrite 1 [node_]
    rw [PathTree.node_cons _ below]
    exact inside p

end Link

/-- The trees of the pairs that wait. -/
def keyTrees (tb : Tables) (nm : Names) (len : Nat) (h : Mem) (ps : List (Nat × Nat)) :
    List (PathTree Key × PathTree Key) :=
  ps.map fun q => (keyTree tb nm len h q.1, keyTree tb nm len h q.2)

theorem keyTrees_args (x y n : Nat) (rest : List (Nat × Nat)) :
    keyTrees tb nm len h (argPairs x y n ++ rest) =
      (List.range n).map (fun k => (keyTree tb nm len h (x + 1 + k), keyTree tb nm len h (y + 1 + k))) ++
        keyTrees tb nm len h rest := by
  rw [keyTrees, List.map_append, argPairs, List.map_map]
  rfl

/-- Two like compounds are ordered by their arguments. -/
theorem firsts_args (sound : Sound tb h len) {a b f g : Nat} {rest : List (Nat × Nat)} {o : Ordering}
    (cell : h (deref h len a) = .func f) (cell' : h (deref h len b) = .func g)
    (arity : tb.arity f = tb.arity g)
    (keys : keyAt tb nm h (deref h len a) = keyAt tb nm h (deref h len b))
    (orders : PathTree.Firsts Key.order (keyTrees tb nm len h ((a, b) :: rest)) o) :
    PathTree.Firsts Key.order
      (keyTrees tb nm len h (argPairs (deref h len a) (deref h len b) (tb.arity f) ++ rest)) o := by
  have takes : (keyAt tb nm h (deref h len b)).arity = tb.arity f := by
    rw [keyAt_func cell', arity]
    rfl
  rw [keyTrees, List.map_cons] at orders
  simp only at orders
  rw [← keyTree_deref sound len a, ← keyTree_deref sound len b,
    keyTree_end (.inr (by rw [cell]; rfl) : End h (deref h len a)),
    keyTree_end (.inr (by rw [cell']; rfl) : End h (deref h len b)), keys, takes] at orders
  rw [keyTrees_args]
  exact PathTree.Firsts.children orders

/-- And linked, by the same. -/
theorem firsts_link (sound : Sound tb h len) {a b f g : Nat} {rest : List (Nat × Nat)} {o : Ordering}
    (ha : a < len) (hb : b < len) (off : deref h len a ≠ deref h len b)
    (cell : h (deref h len a) = .func f) (cell' : h (deref h len b) = .func g)
    (arity : tb.arity f = tb.arity g)
    (keys : keyAt tb nm h (deref h len a) = keyAt tb nm h (deref h len b))
    (orders : PathTree.Firsts Key.order (keyTrees tb nm len h ((a, b) :: rest)) o) :
    PathTree.Firsts Key.order (keyTrees tb nm len (Function.update h (deref h len a) (.ref (deref h len b)))
      (argPairs (deref h len a) (deref h len b) (tb.arity f) ++ rest)) o := by
  have stop := sound.deref_end hb
  have linked := sound.redirect (sound.deref_lt ha len) (sound.deref_lt hb len) off stop
  have through := firsts_args sound cell cell' arity keys orders
  have left := @keyTree_deref tb nm len h sound len a
  have right := @keyTree_deref tb nm len h sound len b
  rw [keyTrees, List.map_cons] at orders
  simp only at orders
  rw [← left, ← right] at orders
  clear left right
  generalize deref h len a = x at *
  generalize deref h len b = y at *
  have takes : (keyAt tb nm h y).arity = tb.arity f := by
    rw [keyAt_func cell', arity]
    rfl
  have node_ := @keyTree_end tb nm len h x (.inr (by rw [cell]; rfl))
  rw [keys, takes] at node_
  have root : keyTree tb nm len h x [] ≠ none := by
    rw [node_]
    nofun
  generalize is : keyTree tb nm len h x = t at orders
  generalize is' : keyTree tb nm len h y = u at orders
  cases orders with
  | same finite others =>
    have every := @link_same tb nm len h x y f sound cell linked off stop (is.trans is'.symm) (is ▸ finite) root
    have trees : ∀ ps, keyTrees tb nm len (Function.update h x (.ref y)) ps = keyTrees tb nm len h ps := by
      intro ps
      simp only [keyTrees, every]
    rw [trees]
    exact through
  | here finite first decides =>
    subst is is'
    have same : Function.update h x (.ref y) y = h y := Function.update_of_ne (Ne.symm off) _ _
    have key : keyAt tb nm (Function.update h x (.ref y)) y = keyAt tb nm h y := by
      unfold keyAt labelAt
      rw [same]
    have right : keyTree tb nm len (Function.update h x (.ref y)) y =
        PathTree.node (keyAt tb nm h y) (tb.arity f)
          fun k => keyTree tb nm len (Function.update h x (.ref y)) (y + 1 + k) := by
      have here := @keyTree_end tb nm len (Function.update h x (.ref y)) y (by unfold End; rwa [same])
      rwa [key, takes] at here
    have left : keyTree tb nm len h x = PathTree.node (keyAt tb nm h y) (tb.arity f)
        fun k => keyTree tb nm len (Function.update h x (.ref y)) (x + 1 + k) :=
      node_.trans (PathTree.node_congr fun k below => (link_args sound cell linked finite below).symm)
    have grafted := first.graft (link_grafted sound cell linked off stop) finite root
    rw [keyTrees_args]
    rw [left] at finite
    rw [left, right] at grafted
    exact PathTree.Firsts.children (.here finite grafted decides)

/-- Roots that differ decide; roots that are the same and no compounds leave it to the rest. -/
theorem firsts_ordered (sound : Sound tb h len) (canonical : ∀ i, (h i).Canonical tb) {a b : Nat}
    {rest : List (Nat × Nat)} {o r : Ordering}
    (is : ranked tb nm h (deref h len a) (deref h len b) = .ordered r)
    (orders : PathTree.Firsts Key.order (keyTrees tb nm len h ((a, b) :: rest)) o) :
    if r = .eq then PathTree.Firsts Key.order (keyTrees tb nm len h rest) o else o = r := by
  rw [keyTrees, List.map_cons] at orders
  simp only at orders
  rw [← keyTree_deref sound len a, ← keyTree_deref sound len b] at orders
  have stop := sound.stop a
  have stop' := sound.stop b
  generalize deref h len a = x at *
  generalize deref h len b = y at *
  have verdict_ : PathTree.Orders Key.order (keyTree tb nm len h x) (keyTree tb nm len h y) r := by
    by_cases off : x = y
    · subst off
      rw [ranked, if_pos rfl] at is
      cases is
      exact .same rfl
    · by_cases equal : r = .eq
      · subst equal
        obtain ⟨keys, none_⟩ := ranked_eq off (sound.not_pos x) (sound.not_pos y) (canonical x) (canonical y) is
        rw [keyTree_end stop, keyTree_end stop', ← keys, none_]
        exact .same (PathTree.node_zero _ _ _)
      · rcases ranked_spec off (sound.not_pos x) (sound.not_pos y) with ordered | ⟨f, g, -, -, -, -, alike⟩
        · have found := Ranked.ordered.inj (ordered.symm.trans is)
          rw [keyTree_end stop, keyTree_end stop', ← found]
          exact .root _ _ _ _ (by rwa [found])
        · rw [is] at alike
          cases alike
  generalize left : keyTree tb nm len h x = t at *
  generalize right : keyTree tb nm len h y = u at *
  cases orders with
  | same finite others =>
    rw [PathTree.Orders.unique verdict_ (.same rfl), if_pos rfl]
    exact others
  | here finite first decides =>
    rw [PathTree.Orders.unique verdict_ first, if_neg decides]

/- The walks. -/

/-- The arguments of compounds that are there are there. -/
theorem args_inside (sound : Sound tb h len) {x y f g : Nat} (cell : h x = .func f) (cell' : h y = .func g)
    (arity : tb.arity f = tb.arity g) {rest : List (Nat × Nat)} (inside : ∀ q ∈ rest, q.1 < len ∧ q.2 < len) :
    ∀ q ∈ argPairs x y (tb.arity f) ++ rest, q.1 < len ∧ q.2 < len := by
  intro q mem
  rcases List.mem_append.mp mem with arg | old
  · obtain ⟨j, below, rfl⟩ := mem_argPairs.mp arg
    have here := sound.func_lt cell
    have there := sound.func_lt cell'
    constructor <;> simp only <;> omega
  · exact inside q old

/-- The two compounds of a pair found alike. -/
theorem alike_cells (sound : Sound tb h len) {a b n : Nat}
    (is : ranked tb nm h (deref h len a) (deref h len b) = .alike n) :
    deref h len a ≠ deref h len b ∧ ∃ f g, h (deref h len a) = .func f ∧ h (deref h len b) = .func g ∧
      tb.arity f = n ∧ tb.arity f = tb.arity g ∧
      keyAt tb nm h (deref h len a) = keyAt tb nm h (deref h len b) := by
  have off : deref h len a ≠ deref h len b := by
    intro same
    rw [ranked, if_pos same] at is
    cases is
  refine ⟨off, ?_⟩
  rcases ranked_spec off (sound.not_pos _) (sound.not_pos _) with ordered | ⟨f, g, cell, cell', arity, keys, alike⟩
  · rw [is] at ordered
    cases ordered
  · exact ⟨f, g, cell, cell', Ranked.alike.inj (alike.symm.trans is), arity, keys⟩

/-- What the plain walk decides is the order of the trees. -/
theorem comparePlain_order (sound : Sound tb h len) (canonical : ∀ i, (h i).Canonical tb) {o : Ordering}
    {turns budget : Nat} {ps : List (Nat × Nat)} (orders : PathTree.Firsts Key.order (keyTrees tb nm len h ps) o)
    {r : Ordering} (ran : comparePlain tb nm len h turns budget ps = some (some r)) : r = o := by
  induction turns generalizing budget ps with
  | zero => cases ran
  | succ turns ih =>
    cases ps with
    | nil =>
      cases ran
      cases orders
      rfl
    | cons q rest =>
      obtain ⟨a, b⟩ := q
      rw [comparePlain] at ran
      cases is : ranked tb nm h (deref h len a) (deref h len b) with
      | ordered v =>
        have spec := firsts_ordered sound canonical is orders
        simp only [is] at ran
        cases v with
        | eq => exact ih spec ran
        | lt => cases ran; exact spec.symm
        | gt => cases ran; exact spec.symm
      | alike n =>
        obtain ⟨-, f, g, cell, cell', rfl, arity, keys⟩ := alike_cells sound is
        simp only [is] at ran
        split at ran
        · cases ran
        · exact ih (firsts_args sound cell cell' arity keys orders) ran

/-- And so is what the linked walk decides. -/
theorem compareLinked_order {o : Ordering} {turns : Nat} {h : Mem} (sound : Sound tb h len)
    (canonical : ∀ i, (h i).Canonical tb) {links : List Nat} {ps : List (Nat × Nat)}
    (inside : ∀ q ∈ ps, q.1 < len ∧ q.2 < len)
    (orders : PathTree.Firsts Key.order (keyTrees tb nm len h ps) o) {r : Ordering × Mem × List Nat}
    (ran : compareLinked tb nm len turns h links ps = some r) : r.1 = o := by
  induction turns generalizing h links ps with
  | zero => cases ran
  | succ turns ih =>
    cases ps with
    | nil =>
      cases ran
      cases orders
      rfl
    | cons q rest =>
      obtain ⟨a, b⟩ := q
      obtain ⟨ha, hb⟩ := inside (a, b) List.mem_cons_self
      have others : ∀ q ∈ rest, q.1 < len ∧ q.2 < len := fun q mem => inside q (List.mem_cons_of_mem _ mem)
      rw [compareLinked] at ran
      cases is : ranked tb nm h (deref h len a) (deref h len b) with
      | ordered v =>
        have spec := firsts_ordered sound canonical is orders
        simp only [is] at ran
        cases v with
        | eq => exact ih sound canonical others spec ran
        | lt => cases ran; exact spec.symm
        | gt => cases ran; exact spec.symm
      | alike n =>
        obtain ⟨off, f, g, cell, cell', rfl, arity, keys⟩ := alike_cells sound is
        simp only [is] at ran
        have linked := sound.redirect (sound.deref_lt ha len) (sound.deref_lt hb len) off (sound.deref_end hb)
        refine ih linked ?_ (args_inside sound cell cell' arity others)
          (firsts_link sound ha hb off cell cell' arity keys orders) ran
        intro i
        by_cases at_ : i = deref h len a
        · rw [at_, Function.update_self]
          trivial
        · rw [Function.update_of_ne at_]
          exact canonical i

/-- The plain walk ends: each pair of compounds takes from the countdown. -/
theorem comparePlain_ends (sound : Sound tb h len) {turns budget : Nat} {ps : List (Nat × Nat)}
    (inside : ∀ q ∈ ps, q.1 < len ∧ q.2 < len) (enough : ps.length + budget * (len + 1) < turns) :
    ∃ r, comparePlain tb nm len h turns budget ps = some r := by
  induction turns generalizing budget ps with
  | zero => exact absurd enough (Nat.not_lt_zero _)
  | succ turns ih =>
    cases ps with
    | nil => exact ⟨_, rfl⟩
    | cons q rest =>
      obtain ⟨a, b⟩ := q
      have others : ∀ q ∈ rest, q.1 < len ∧ q.2 < len := fun q mem => inside q (List.mem_cons_of_mem _ mem)
      rw [List.length_cons] at enough
      rw [comparePlain]
      cases is : ranked tb nm h (deref h len a) (deref h len b) with
      | ordered v =>
        cases v with
        | eq => exact ih others (by omega)
        | lt => exact ⟨_, rfl⟩
        | gt => exact ⟨_, rfl⟩
      | alike n =>
        obtain ⟨-, f, g, cell, cell', rfl, arity, -⟩ := alike_cells sound is
        simp only
        split
        · exact ⟨_, rfl⟩
        · rename_i more
          apply ih (args_inside sound cell cell' arity others)
          have few := sound.func_lt cell
          obtain ⟨left, rfl⟩ : ∃ k, budget = k + 1 := ⟨budget - 1, by omega⟩
          rw [List.length_append, length_argPairs, Nat.add_sub_cancel]
          rw [Nat.succ_mul] at enough
          omega

/-- The linked walk ends: each pair of compounds takes one from those not linked yet. -/
theorem compareLinked_ends {turns : Nat} {h : Mem} (sound : Sound tb h len) {links : List Nat}
    {ps : List (Nat × Nat)} (inside : ∀ q ∈ ps, q.1 < len ∧ q.2 < len)
    (enough : ps.length + (compounds h len).card * (len + 1) < turns) :
    ∃ r, compareLinked tb nm len turns h links ps = some r := by
  induction turns generalizing h links ps with
  | zero => exact absurd enough (Nat.not_lt_zero _)
  | succ turns ih =>
    cases ps with
    | nil => exact ⟨_, rfl⟩
    | cons q rest =>
      obtain ⟨a, b⟩ := q
      obtain ⟨ha, hb⟩ : a < len ∧ b < len := inside (a, b) List.mem_cons_self
      have others : ∀ q ∈ rest, q.1 < len ∧ q.2 < len := fun q mem => inside q (List.mem_cons_of_mem _ mem)
      rw [List.length_cons] at enough
      rw [compareLinked]
      cases is : ranked tb nm h (deref h len a) (deref h len b) with
      | ordered v =>
        cases v with
        | eq => exact ih sound others (by omega)
        | lt => exact ⟨_, rfl⟩
        | gt => exact ⟨_, rfl⟩
      | alike n =>
        obtain ⟨off, f, g, cell, cell', rfl, arity, -⟩ := alike_cells sound is
        simp only
        have lt := sound.deref_lt ha len
        apply ih (sound.redirect lt (sound.deref_lt hb len) off (sound.deref_end hb))
          (args_inside sound cell cell' arity others)
        have few := sound.func_lt cell
        have fewer := card_compounds_link lt cell (deref h len b)
        have scaled := Nat.mul_le_mul_right (len + 1) fewer
        rw [Nat.succ_mul] at scaled
        rw [List.length_append, length_argPairs]
        omega

end Trees

/- Links and what is put back. -/

/-- Each cell was a compound when it was pointed at another that was one too. -/
def Joined (h : Mem) : List (Nat × Nat) → Prop
  | [] => True
  | (x, y) :: older =>
    (∃ f, bindAll older h x = .func f) ∧ (∃ g, bindAll older h y = .func g) ∧ x ≠ y ∧ Joined h older

theorem bindAll_func {h : Mem} {lk : List (Nat × Nat)} {i f : Nat} (cell : bindAll lk h i = .func f) :
    h i = .func f ∧ i ∉ lk.map Prod.fst := by
  induction lk with
  | nil => exact ⟨cell, nofun⟩
  | cons q older ih =>
    obtain ⟨x, y⟩ := q
    by_cases at_x : i = x
    · rw [bindAll, at_x, Function.update_self] at cell
      cases cell
    · rw [bindAll, Function.update_of_ne at_x] at cell
      obtain ⟨held, off⟩ := ih cell
      refine ⟨held, ?_⟩
      rw [List.map_cons, List.mem_cons]
      rintro (is | mem)
      · exact at_x is
      · exact off mem

theorem undoLinks_other {links : List Nat} {i : Nat} (off : i ∉ links) (h : Mem) : undoLinks links h i = h i := by
  induction links generalizing h with
  | nil => rfl
  | cons x older ih =>
    have apart : i ≠ x := fun is => off (is ▸ List.mem_cons_self)
    rw [undoLinks, ih fun mem => off (List.mem_cons_of_mem _ mem)]
    cases h x with
    | ref p => exact Function.update_of_ne apart _ _
    | _ => rfl

/-- Putting the headers back gives the memory exactly where each compound was joined to one of
its own functor. -/
theorem undoLinks_iff {h : Mem} {lk : List (Nat × Nat)} (joined : Joined h lk) :
    undoLinks (lk.map Prod.fst) (bindAll lk h) = h ↔ ∀ q ∈ lk, h q.1 = h q.2 := by
  induction lk with
  | nil => exact ⟨fun _ => nofun, fun _ => rfl⟩
  | cons q older ih =>
    obtain ⟨x, y⟩ := q
    obtain ⟨⟨f, cell⟩, ⟨g, cell'⟩, off, rest⟩ := joined
    have here : bindAll ((x, y) :: older) h x = .ref y := Function.update_self _ _ _
    have there : bindAll ((x, y) :: older) h y = .func g := by
      rw [bindAll, Function.update_of_ne off.symm, cell']
    have step : undoLinks (((x, y) :: older).map Prod.fst) (bindAll ((x, y) :: older) h) =
        undoLinks (older.map Prod.fst) (Function.update (bindAll older h) x (.func g)) := by
      rw [List.map_cons, undoLinks_cons _ here there, bindAll, Function.update_idem]
    obtain ⟨held, fresh⟩ := bindAll_func cell
    obtain ⟨held', -⟩ := bindAll_func cell'
    rw [step]
    by_cases same : f = g
    · subst same
      have back : Function.update (bindAll older h) x (.func f) = bindAll older h := by
        rw [← cell, Function.update_eq_self]
      rw [back, ih rest]
      constructor
      · intro all q mem
        rcases List.mem_cons.mp mem with rfl | old
        · exact held.trans held'.symm
        · exact all q old
      · exact fun all q mem => all q (List.mem_cons_of_mem _ mem)
    · constructor
      · intro back
        have at_x := congrFun back x
        rw [undoLinks_other fresh, Function.update_self, held] at at_x
        exact absurd (Cell.func.inj at_x).symm same
      · intro all
        have one := all (x, y) List.mem_cons_self
        simp only [held, held'] at one
        exact absurd (Cell.func.inj one) same

section Results

variable (tb : Tables) (nm : Names) (len : Nat)

/-- The linked walk over the pairs that wait joins the compound at `x` to the one at `y`. -/
inductive Joins : Mem → List (Nat × Nat) → Nat → Nat → Prop
  | here {h : Mem} {a b n : Nat} {rest : List (Nat × Nat)}
      (is : ranked tb nm h (deref h len a) (deref h len b) = .alike n) :
      Joins h ((a, b) :: rest) (deref h len a) (deref h len b)
  | onward {h : Mem} {a b n x y : Nat} {rest : List (Nat × Nat)}
      (is : ranked tb nm h (deref h len a) (deref h len b) = .alike n)
      (later : Joins (Function.update h (deref h len a) (.ref (deref h len b)))
        (argPairs (deref h len a) (deref h len b) n ++ rest) x y) : Joins h ((a, b) :: rest) x y
  | pass {h : Mem} {a b x y : Nat} {rest : List (Nat × Nat)}
      (is : ranked tb nm h (deref h len a) (deref h len b) = .ordered .eq)
      (later : Joins h rest x y) : Joins h ((a, b) :: rest) x y

/-- The terms hold more pairs of like compounds before they differ than the heap has cells,
and the walk made again joins two whose functors are not one: their names are the same only
as C strings. -/
def Mixes (h : Mem) (a b : Nat) : Prop :=
  comparePlain tb nm len h (compareTurns len) len [(a, b)] = some none ∧
    ∃ x y, Joins tb nm len h [(a, b)] x y ∧ h x ≠ h y

variable {tb nm len}

/-- The compounds a linked walk leaves linked are those it joined. -/
theorem compareLinked_joins {turns : Nat} {h : Mem} {lk : List (Nat × Nat)} (joined : Joined h lk)
    (sound : Sound tb (bindAll lk h) len) {ps : List (Nat × Nat)} (inside : ∀ q ∈ ps, q.1 < len ∧ q.2 < len)
    {r : Ordering × Mem × List Nat}
    (ran : compareLinked tb nm len turns (bindAll lk h) (lk.map Prod.fst) ps = some r) :
    ∃ lk', Joined h lk' ∧ r.2.1 = bindAll lk' h ∧ r.2.2 = lk'.map Prod.fst ∧
      ∀ q, q ∈ lk' ↔ q ∈ lk ∨ Joins tb nm len (bindAll lk h) ps q.1 q.2 := by
  induction turns generalizing lk ps with
  | zero => cases ran
  | succ turns ih =>
    cases ps with
    | nil =>
      cases ran
      refine ⟨lk, joined, rfl, rfl, ?_⟩
      intro q
      exact ⟨.inl, fun either => either.elim id fun none_ => nomatch none_⟩
    | cons p rest =>
      obtain ⟨a, b⟩ := p
      obtain ⟨ha, hb⟩ : a < len ∧ b < len := inside (a, b) List.mem_cons_self
      have others : ∀ q ∈ rest, q.1 < len ∧ q.2 < len := fun q mem => inside q (List.mem_cons_of_mem _ mem)
      rw [compareLinked] at ran
      cases is : ranked tb nm (bindAll lk h) (deref (bindAll lk h) len a) (deref (bindAll lk h) len b) with
      | ordered v =>
        simp only [is] at ran
        have decided : v ≠ .eq → (v, bindAll lk h, lk.map Prod.fst) = r → ∃ lk', Joined h lk' ∧
            r.2.1 = bindAll lk' h ∧ r.2.2 = lk'.map Prod.fst ∧
            ∀ q, q ∈ lk' ↔ q ∈ lk ∨ Joins tb nm len (bindAll lk h) ((a, b) :: rest) q.1 q.2 := by
          rintro off rfl
          refine ⟨lk, joined, rfl, rfl, ?_⟩
          rintro ⟨x, y⟩
          refine ⟨.inl, fun either => either.elim id fun more => ?_⟩
          simp only at more
          cases more with
          | here alike => cases is.symm.trans alike
          | onward alike => cases is.symm.trans alike
          | pass same => cases is.symm.trans same; exact absurd rfl off
        cases v with
        | eq =>
          obtain ⟨lk', joined', memory, links, mem⟩ := ih joined sound others ran
          refine ⟨lk', joined', memory, links, ?_⟩
          rintro ⟨x, y⟩
          rw [mem]
          refine or_congr_right ⟨.pass is, fun more => ?_⟩
          simp only at more
          cases more with
          | here alike => cases is.symm.trans alike
          | onward alike => cases is.symm.trans alike
          | pass _ later => exact later
        | lt => exact decided nofun (Option.some.inj ran)
        | gt => exact decided nofun (Option.some.inj ran)
      | alike n =>
        obtain ⟨off, f, g, cell, cell', rfl, arity, -⟩ := alike_cells sound is
        simp only [is] at ran
        have linked := sound.redirect (sound.deref_lt ha len) (sound.deref_lt hb len) off (sound.deref_end hb)
        have one : Joined h ((deref (bindAll lk h) len a, deref (bindAll lk h) len b) :: lk) :=
          ⟨⟨f, cell⟩, ⟨g, cell'⟩, off, joined⟩
        obtain ⟨lk', joined', memory, links, mem⟩ :=
          ih one linked (args_inside sound cell cell' arity others) ran
        refine ⟨lk', joined', memory, links, ?_⟩
        rintro ⟨x, y⟩
        rw [mem, List.mem_cons]
        simp only
        constructor
        · rintro ((new | old) | later)
          · cases new
            exact .inr (.here is)
          · exact .inl old
          · exact .inr (.onward is later)
        · rintro (old | more)
          · exact .inl (.inr old)
          · cases more with
            | here => exact .inl (.inl rfl)
            | onward alike later =>
              cases is.symm.trans alike
              exact .inr later
            | pass same => cases is.symm.trans same

/-- `coco_compare` ends, and leaves the memory as it was exactly where it joins no two
functors. -/
theorem termCompare_ends {h : Mem} (sound : Sound tb h len) {a b : Nat} (ha : a < len) (hb : b < len) :
    ∃ o h', termCompare tb nm len h a b = some (o, h') ∧ (h' = h ↔ ¬ Mixes tb nm len h a b) := by
  have inside : ∀ q ∈ [(a, b)], q.1 < len ∧ q.2 < len := by
    intro q mem
    rw [List.mem_singleton.mp mem]
    exact ⟨ha, hb⟩
  have enough : 1 + len * (len + 1) < compareTurns len := by
    unfold compareTurns
    rw [Nat.succ_mul]
    omega
  obtain ⟨r, ran⟩ := @comparePlain_ends tb nm len h sound (compareTurns len) len [(a, b)] inside enough
  unfold termCompare Mixes
  rw [ran]
  cases r with
  | some o => exact ⟨o, h, rfl, fun _ redone => (nomatch redone.1), fun _ => rfl⟩
  | none =>
    have few : (compounds h len).card ≤ len := (Finset.card_filter_le _ _).trans_eq (Finset.card_range len)
    have scaled := Nat.mul_le_mul_right (len + 1) few
    obtain ⟨⟨o, g, links⟩, again⟩ := @compareLinked_ends tb nm len (compareTurns len) h sound [] [(a, b)] inside
      (by rw [List.length_singleton]; omega)
    obtain ⟨lk, joined, memory, is, mem⟩ := @compareLinked_joins tb nm len (compareTurns len) h [] trivial sound _ inside _ again
    refine ⟨o, undoLinks links g, by rw [again]; rfl, ?_⟩
    simp only at memory is
    rw [memory, is, undoLinks_iff joined]
    simp only [List.not_mem_nil, false_or] at mem
    constructor
    · rintro all ⟨-, x, y, joins, apart⟩
      exact apart (all (x, y) ((mem (x, y)).mpr joins))
    · intro none_ q at_
      by_contra apart
      exact none_ ⟨rfl, q.1, q.2, (mem q).mp at_, apart⟩

/-- On finite terms `coco_compare` answers the order of their trees. -/
theorem termCompare_order {h : Mem} (sound : Sound tb h len) (canonical : ∀ i, (h i).Canonical tb) {a b : Nat}
    (ha : a < len) (hb : b < len) (finite : (keyTree tb nm len h a).Finite) {o : Ordering}
    (orders : PathTree.Orders Key.order (keyTree tb nm len h a) (keyTree tb nm len h b) o) {r : Ordering × Mem}
    (ran : termCompare tb nm len h a b = some r) : r.1 = o := by
  have inside : ∀ q ∈ [(a, b)], q.1 < len ∧ q.2 < len := by
    intro q mem
    rw [List.mem_singleton.mp mem]
    exact ⟨ha, hb⟩
  have first : PathTree.Firsts Key.order (keyTrees tb nm len h [(a, b)]) o := by
    show PathTree.Firsts Key.order [(keyTree tb nm len h a, keyTree tb nm len h b)] o
    generalize keyTree tb nm len h a = t at *
    generalize keyTree tb nm len h b = u at *
    cases orders with
    | same one =>
      subst one
      exact .same finite .none
    | first path x y before left right differ => exact .here finite (.first path x y before left right differ) differ
  unfold termCompare at ran
  cases plain : comparePlain tb nm len h (compareTurns len) len [(a, b)] with
  | none =>
    rw [plain] at ran
    cases ran
  | some decided =>
    rw [plain] at ran
    cases decided with
    | some v =>
      cases ran
      exact comparePlain_order sound canonical first plain
    | none =>
      obtain ⟨l, again, rfl⟩ := Option.map_eq_some_iff.mp ran
      exact compareLinked_order sound canonical inside first again

end Results

end Cocolog.Term
