import Cocolog.Term.Compare

/-! The standard order of finite terms. `coco_compare` answers the order of the two trees
whether its plain walk ends or not, but it compares names as C strings: two terms that
differ only past a NUL, or in which of the two `[]` names a compound, compare equal, do not
unify, and may be made one by a linked walk. -/

set_option linter.all false

namespace Cocolog.Term

open Cocolog.Lib

/-- The finite tree that stands at a cell, a variable as `pos` of its own cell. -/
inductive Reads (tb : Tables) (h : Mem) : Nat → FinTree Label → Prop
  | var {v : Nat} (unbound : h v = .ref v) : Reads tb h v (.node (.pos v) [])
  | ref {i p : Nat} {t : FinTree Label} (bound : h i = .ref p) (target : Reads tb h p t) : Reads tb h i t
  | node {i : Nat} {root : Label} {args : List (FinTree Label)} (held : shape tb (h i) = some (root, args.length))
      (each : ∀ (k : Nat) (t : FinTree Label), args[k]? = some t → Reads tb h (i + 1 + k) t) :
      Reads tb h i (.node root args)

/-- The standard order of two finite terms: class, arity, name, then the arguments left to
right. -/
def standard (tb : Tables) (nm : Names) (t u : FinTree Label) : Ordering :=
  FinTree.order (fun x y => (x.key tb nm).order (y.key tb nm)) t u

section Finite

variable {tb : Tables} {nm : Names} {h : Mem} {len : Nat}

/-- A root as the machine makes them, with its arguments. -/
def Takes (tb : Tables) (nm : Names) (x : Label) (n : Nat) : Prop := n = (x.key tb nm).arity ∧ (x.key tb nm).Proper

theorem Reads.fits (canonical : ∀ i, (h i).Canonical tb) {i : Nat} {t : FinTree Label} (reads : Reads tb h i t) :
    FinTree.Fits (Takes tb nm) t := by
  induction reads with
  | var unbound => exact .node ⟨rfl, trivial⟩ fun k t is => nomatch is
  | ref bound target ih => exact ih
  | @node i root args held each ih =>
    have key : keyAt tb nm h i = root.key tb nm := by rw [keyAt, labelAt, held]
    refine .node ⟨(shape_arity held).symm, ?_⟩ ih
    rw [← key]
    exact keyAt_proper (canonical i)

/-- What stands at a cell is the tree the memory has there. -/
theorem Reads.treeAt (sound : Sound tb h len) {i : Nat} {t : FinTree Label} (reads : Reads tb h i t) :
    treeAt tb h len (fun v => PathTree.leaf (.pos v)) i = t.paths id := by
  induction reads with
  | var unbound =>
    rw [treeAt_var tb len _ unbound, FinTree.paths_node]
    exact PathTree.node_zero _ _ _
  | ref bound target ih => rw [(sound.treeAt_admits _).ref bound, ih]
  | @node i root args held each ih =>
    have solid : (h i).isRef = false := by
      cases cell : h i <;> rw [cell] at held <;> first | rfl | cases held
    rw [treeAt_node tb len _ solid held, FinTree.paths_node]
    apply PathTree.node_congr
    intro k below
    have is : args[k]? = some args[k] := List.getElem?_eq_getElem below
    rw [ih k _ is, FinTree.child_some is]

theorem Reads.keyTree (sound : Sound tb h len) {i : Nat} {t : FinTree Label} (reads : Reads tb h i t) :
    keyTree tb nm len h i = t.paths (Label.key tb nm) := by
  funext path
  rw [Term.keyTree, reads.treeAt sound, FinTree.paths, Option.map_id, id]
  rfl

theorem standard_orders {t u : FinTree Label} (fits : FinTree.Fits (Takes tb nm) t)
    (fits' : FinTree.Fits (Takes tb nm) u) :
    PathTree.Orders Key.order (t.paths (Label.key tb nm)) (u.paths (Label.key tb nm)) (standard tb nm t u) := by
  apply FinTree.order_spec _ fits fits'
  rintro x y m n ⟨rfl, proper⟩ ⟨rfl, proper'⟩ same
  have keys := Key.eq_of_order proper proper' same
  exact ⟨keys, by rw [keys]⟩

/-- `coco_compare` of two finite terms is their standard order. -/
theorem termCompare_standard (sound : Sound tb h len) (canonical : ∀ i, (h i).Canonical tb) {a b : Nat}
    (ha : a < len) (hb : b < len) {t u : FinTree Label} (left : Reads tb h a t) (right : Reads tb h b u)
    {r : Ordering × Mem} (ran : termCompare tb nm len h a b = some r) : r.1 = standard tb nm t u := by
  have fits := @Reads.fits tb nm h canonical _ _ left
  have fits' := @Reads.fits tb nm h canonical _ _ right
  have orders := standard_orders fits fits'
  rw [← left.keyTree sound, ← right.keyTree sound] at orders
  refine termCompare_order sound canonical ha hb ?_ orders ran
  rw [left.keyTree sound]
  exact FinTree.paths_finite fits _

end Finite

/-- What comparing two cells should do: answer the standard order of two finite terms and
leave every cell as it was. -/
def Compares (tb : Tables) (nm : Names) (len : Nat) (h : Mem) (a b : Nat) : Prop :=
  ∃ o, termCompare tb nm len h a b = some (o, h) ∧
    ∀ t u, Reads tb h a t → Reads tb h b u → o = standard tb nm t u

/-- `coco_compare` always ends, and on finite terms answers their standard order. It leaves
the cells as they were exactly where no two functors are joined. -/
theorem compares_iff (tb : Tables) (nm : Names) (len : Nat) (h : Mem) (a b : Nat) (sound : Sound tb h len)
    (canonical : ∀ i, (h i).Canonical tb) (ha : a < len) (hb : b < len) :
    (∃ o h', termCompare tb nm len h a b = some (o, h') ∧
      ∀ t u, Reads tb h a t → Reads tb h b u → o = standard tb nm t u) ∧
    (Compares tb nm len h a b ↔ ¬ Mixes tb nm len h a b) := by
  obtain ⟨o, h', ran, unchanged⟩ := @termCompare_ends tb nm len h sound a b ha hb
  have right : ∀ t u, Reads tb h a t → Reads tb h b u → o = standard tb nm t u :=
    fun t u left right => termCompare_standard sound canonical ha hb left right ran
  refine ⟨⟨o, h', ran, right⟩, ?_⟩
  rw [← unchanged]
  constructor
  · rintro ⟨o', same, -⟩
    rw [ran] at same
    exact congrArg Prod.snd (Option.some.inj same)
  · rintro rfl
    exact ⟨o, ran, right⟩

/-- `X = '[]'(X)` and `Y = [](Y)`: two functors, for the two atoms of one name. -/
def twins : Mem := fun i => if i = 0 then .func 1 else if i = 1 then .ref 0 else if i = 2 then .func 0 else
  if i = 3 then .ref 2 else .ref i

def twinTables : Tables := { functors := fun f => ⟨f, 1⟩ }

/-- The list's end is the first of the two atoms. -/
def twinNames : Names := { text := fun _ => [91, 93], nil := 0 }

theorem twins_sound : Sound twinTables twins 4 where
  inside := by decide
  ends := by
    have near : ∀ i < 4, End twins (deref twins 1 i) := by decide
    exact fun i lt => ⟨1, near i lt⟩
  beyond := by
    intro i past
    simp only [twins]
    rw [if_neg (by omega), if_neg (by omega), if_neg (by omega), if_neg (by omega)]

theorem twins_canonical (i : Nat) : (twins i).Canonical twinTables := by
  unfold twins
  split_ifs <;> trivial

theorem twins_joined : ¬ Compares twinTables twinNames 4 twins 0 2 := by
  rintro ⟨o, ran, -⟩
  have header : (termCompare twinTables twinNames 4 twins 0 2).map (fun r => r.2 0) = some (.func 0) := by decide
  rw [ran] at header
  have same : twins 0 = .func 0 := Option.some.inj header
  exact absurd same (by decide)

/-- Comparing the two makes `'[]'(X)` into `[](X)`. -/
theorem compares_twins : Sound twinTables twins 4 ∧ (∀ i, (twins i).Canonical twinTables) ∧
    ¬ Compares twinTables twinNames 4 twins 0 2 := ⟨twins_sound, twins_canonical, twins_joined⟩

/-- The linked walk joins the two functors. -/
theorem compares_iff_twins : Mixes twinTables twinNames 4 twins 0 2 :=
  by_contra fun none_ => twins_joined ((compares_iff twinTables twinNames 4 twins 0 2 twins_sound twins_canonical
    (by decide) (by decide)).2.mpr none_)

/- Identity and unification. -/

section Identity

variable {tb : Tables} {nm : Names} {h : Mem} {len : Nat}

/-- Finite terms compare equal exactly where the order sees one tree. -/
theorem termCompare_eq_iff (sound : Sound tb h len) (canonical : ∀ i, (h i).Canonical tb) {a b : Nat}
    (ha : a < len) (hb : b < len) {t u : FinTree Label} (left : Reads tb h a t) (right : Reads tb h b u) :
    (termCompare tb nm len h a b).map Prod.fst = some .eq ↔
      t.paths (Label.key tb nm) = u.paths (Label.key tb nm) := by
  obtain ⟨o, h', ran, -⟩ := @termCompare_ends tb nm len h sound a b ha hb
  have answer : o = standard tb nm t u := termCompare_standard sound canonical ha hb left right ran
  have orders := standard_orders (@Reads.fits tb nm h canonical _ _ left) (@Reads.fits tb nm h canonical _ _ right)
  rw [ran, Option.map_some, Option.some_inj, answer]
  constructor
  · intro equal
    simp only at equal
    rw [equal] at orders
    generalize is : Ordering.eq = o at orders
    cases orders with
    | same one => exact one
    | first path x y before l r differ => exact absurd is.symm differ
  · intro one
    exact PathTree.Orders.unique orders (.same one)

/-- A variable is not bound into a chain that ends at it. -/
theorem not_bound_round {binds : List (Nat × Nat)} (made : Binds len h binds)
    (sound : Sound tb (bindAll binds h) len) {v t : Nat} (bound : bindAll binds h v = .ref t) (hv : v < len)
    (off : v ≠ t) (n : Nat) : deref h n t ≠ v := by
  intro round
  -- what leads to `v` before the bindings goes on to lead there
  have next : ∀ m i, deref h m i = v → ∃ p, bindAll binds h i = .ref p ∧ p ≠ i ∧ ∃ k, deref h k p = v := by
    intro m i leads
    by_cases at_v : i = v
    · subst at_v
      exact ⟨t, bound, off.symm, n, round⟩
    · have open_ : ¬ End h i := by
        intro stop
        rw [deref_end stop] at leads
        exact at_v leads
      cases cell : h i with
      | ref p =>
        have self : p ≠ i := by
          rintro rfl
          exact open_ (.inl cell)
        have held : h i ≠ .ref i := by
          rw [cell]
          exact fun same => self (Cell.ref.inj same)
        refine ⟨p, (bindAll_held made held).trans cell, self, m - 1, ?_⟩
        cases m with
        | zero => exact absurd leads at_v
        | succ m =>
          rw [deref_succ, follow_ref cell] at leads
          exact leads
      | _ => exact absurd (.inr (by rw [cell]; rfl)) open_
  have leads : ∀ k i, (∃ m, deref h m i = v) → ∃ m, deref h m (deref (bindAll binds h) k i) = v := by
    intro k
    induction k with
    | zero => exact fun i leads => leads
    | succ k ih =>
      rintro i ⟨m, leads⟩
      obtain ⟨p, cell, -, further⟩ := next m i leads
      rw [deref_succ, follow_ref cell]
      exact ih p further
  obtain ⟨k, stop⟩ := sound.ends v hv
  obtain ⟨m, back⟩ := leads k v ⟨0, rfl⟩
  obtain ⟨p, cell, self, -⟩ := next m _ back
  rcases stop with same | held
  · rw [cell] at same
    exact self (Cell.ref.inj same)
  · rw [cell] at held
    cases held

/-- Finite terms unify with nothing bound exactly where they are one tree. -/
theorem unify_same_iff (sound : Sound tb h len) {a b : Nat} (ha : a < len) (hb : b < len) (budget : Nat)
    {t u : FinTree Label} (left : Reads tb h a t) (right : Reads tb h b u) :
    ((unify tb len budget h a b).ok = true ∧ (unify tb len budget h a b).binds = []) ↔ t = u := by
  have spec := unify_spec sound ha hb budget
  have admits := sound.treeAt_admits fun v => PathTree.leaf (.pos v)
  generalize unify tb len budget h a b = r at spec
  constructor
  · rintro ⟨yes, none_⟩
    have same : r.heap = h := by
      rw [spec.heap, none_]
      rfl
    have one := ((spec.yes yes (treeAt tb h len fun v => PathTree.leaf (.pos v))).mp (by rwa [same])).2
    rw [left.treeAt sound, right.treeAt sound] at one
    apply FinTree.ext_at
    intro path
    simpa [FinTree.paths] using congrFun one path
  · rintro rfl
    have one : treeAt tb h len (fun v => PathTree.leaf (.pos v)) a =
        treeAt tb h len (fun v => PathTree.leaf (.pos v)) b := by
      rw [left.treeAt sound, right.treeAt sound]
    have yes : r.ok = true := by
      by_contra no
      exact spec.no (Bool.eq_false_iff.mpr no) _ admits one
    refine ⟨yes, ?_⟩
    have still := (spec.yes yes _).mpr ⟨admits, one⟩
    have made := spec.made
    have whole := spec.sound
    rw [spec.heap] at still whole
    cases binds : r.binds with
    | nil => rfl
    | cons q older =>
      -- the newest binding's variable stands for itself, and its target for something else
      exfalso
      rw [binds] at still made whole
      obtain ⟨v, w⟩ := q
      obtain ⟨unbound, off, hv, -, -⟩ := made.1
      have before : h v = .ref v := bindAll_unbound made.2 unbound
      have bound : bindAll ((v, w) :: older) h v = .ref w := Function.update_self _ _ _
      have equal := still.ref bound
      rw [treeAt_var tb len _ before, ← admits.deref len w] at equal
      rcases sound.stop w with self | held
      · rw [treeAt_var tb len _ self] at equal
        have roots := congrFun equal []
        rw [PathTree.leaf_nil, PathTree.leaf_nil] at roots
        have round := Label.pos.inj (Option.some.inj roots)
        exact not_bound_round made whole bound hv off len round.symm
      · obtain ⟨⟨root, n⟩, is⟩ := Option.ne_none_iff_exists'.mp fun none_ =>
          Bool.false_ne_true (held.symm.trans (shape_none.mp none_))
        rw [admits.node is] at equal
        have roots := congrFun equal []
        rw [PathTree.leaf_nil, PathTree.node_nil] at roots
        cases Option.some.inj roots
        have none_ := sound.not_pos (deref h len w)
        cases cell : h (deref h len w) <;> rw [cell] at is <;> cases is
        exact none_ _ cell

end Identity

/-- Two finite terms compare equal exactly when they unify with nothing bound, or not: the
one follows from the other exactly where the terms are one or the order tells them apart. -/
theorem identity_iff (tb : Tables) (nm : Names) (len budget : Nat) (h : Mem) (a b : Nat) (t u : FinTree Label)
    (sound : Sound tb h len) (canonical : ∀ i, (h i).Canonical tb) (ha : a < len) (hb : b < len)
    (left : Reads tb h a t) (right : Reads tb h b u) :
    ((termCompare tb nm len h a b).map Prod.fst = some .eq ↔
      (unify tb len budget h a b).ok = true ∧ (unify tb len budget h a b).binds = []) ↔
    t = u ∨ t.paths (Label.key tb nm) ≠ u.paths (Label.key tb nm) := by
  rw [termCompare_eq_iff sound canonical ha hb left right, unify_same_iff sound ha hb budget left right]
  constructor
  · intro agree
    by_cases seen : t.paths (Label.key tb nm) = u.paths (Label.key tb nm)
    · exact .inl (agree.mp seen)
    · exact .inr seen
  · rintro (one | apart)
    · exact ⟨fun _ => one, fun _ => by rw [one]⟩
    · exact ⟨fun seen => absurd seen apart, fun one => absurd (by rw [one]) apart⟩

/-- `f(1)` as `'[]'(1)` and as `[](1)`, and the atoms of the names `a`, NUL, `b` and `a`,
NUL, `c`. -/
def lookalikes : Mem := fun i => if i = 0 then .func 1 else if i = 1 then .int 1 else if i = 2 then .func 0 else
  if i = 3 then .int 1 else if i = 4 then .atom 2 else if i = 5 then .atom 3 else .ref i

def lookalikeNames : Names :=
  { text := fun a => if a < 2 then [91, 93] else if a = 2 then [97, 0, 98] else [97, 0, 99], nil := 0 }

theorem lookalikes_sound : Sound twinTables lookalikes 6 where
  inside := by decide
  ends := by
    have near : ∀ i < 6, End lookalikes (deref lookalikes 0 i) := by decide
    exact fun i lt => ⟨0, near i lt⟩
  beyond := by
    intro i past
    simp only [lookalikes]
    rw [if_neg (by omega), if_neg (by omega), if_neg (by omega), if_neg (by omega), if_neg (by omega),
      if_neg (by omega)]

theorem lookalikes_canonical (i : Nat) : (lookalikes i).Canonical twinTables := by
  unfold lookalikes
  split_ifs <;> trivial

theorem lookalikes_read :
    Reads twinTables lookalikes 0 (.node (.func 1) [.node (.int 1) []]) ∧
    Reads twinTables lookalikes 2 (.node (.func 0) [.node (.int 1) []]) ∧
    Reads twinTables lookalikes 4 (.node (.atom 2) []) ∧ Reads twinTables lookalikes 5 (.node (.atom 3) []) := by
  have one : ∀ i, lookalikes i = .int 1 → Reads twinTables lookalikes i (.node (.int 1) []) := by
    intro i cell
    exact .node (by rw [cell]; rfl) fun k t is => nomatch is
  have only : ∀ i, lookalikes (i + 1 + 0) = .int 1 → ∀ (k : Nat) (t : FinTree Label),
      [FinTree.node (Label.int 1) []][k]? = some t → Reads twinTables lookalikes (i + 1 + k) t := by
    intro i cell k t is
    cases k with
    | zero =>
      cases is
      exact one _ cell
    | succ k => cases is
  exact ⟨.node rfl (only 0 rfl), .node rfl (only 2 rfl), .node rfl fun k t is => (nomatch is),
    .node rfl fun k t is => (nomatch is)⟩

/-- The two compounds compare equal and do not unify; nor do the two atoms, which compare
equal too. -/
theorem identity_lookalikes :
    (Sound twinTables lookalikes 6 ∧ (∀ i, (lookalikes i).Canonical twinTables) ∧
      (∃ t, Reads twinTables lookalikes 0 t) ∧ (∃ t, Reads twinTables lookalikes 2 t) ∧
      (∃ t, Reads twinTables lookalikes 4 t) ∧ ∃ t, Reads twinTables lookalikes 5 t) ∧
    ((termCompare twinTables lookalikeNames 6 lookalikes 0 2).map Prod.fst = some .eq ∧
      (unify twinTables 6 1048576 lookalikes 0 2).ok = false) ∧
    (termCompare twinTables lookalikeNames 6 lookalikes 4 5).map Prod.fst = some .eq ∧
      (unify twinTables 6 1048576 lookalikes 4 5).ok = false := by
  obtain ⟨first, second, third, fourth⟩ := lookalikes_read
  refine ⟨⟨lookalikes_sound, lookalikes_canonical, ⟨_, first⟩, ⟨_, second⟩, ⟨_, third⟩, ⟨_, fourth⟩⟩, ?_, ?_⟩
  · decide +kernel
  · decide +kernel

/-- `'[]'(1)` and 1 are told apart by both. -/
theorem identity_iff_apart :
    ¬ (termCompare twinTables lookalikeNames 6 lookalikes 0 1).map Prod.fst = some .eq := by
  have one : Reads twinTables lookalikes 1 (.node (.int 1) []) := .node rfl fun k t is => (nomatch is)
  have differ : (FinTree.node (Label.func 1) [.node (Label.int 1) []]).paths (Label.key twinTables lookalikeNames) ≠
      (FinTree.node (Label.int 1) []).paths (Label.key twinTables lookalikeNames) :=
    fun same => absurd (congrFun same []) (by decide)
  have agree := (identity_iff twinTables lookalikeNames 6 2 lookalikes 0 1 _ _ lookalikes_sound lookalikes_canonical
    (by decide) (by decide) lookalikes_read.1 one).mpr (.inr differ)
  rw [agree]
  decide

end Cocolog.Term
