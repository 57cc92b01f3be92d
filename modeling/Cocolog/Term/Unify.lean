import Cocolog.Term.Memory

/-! `coco_unify`. Pairs of cells wait in a list; a pair of compounds puts its arguments on
it. Past the machine's budget the walk goes on linked: the one compound is pointed at the
other until the walk ends, so a cyclic term is gone round once. What the walk binds is
what every instance of both terms needs, and a clash means they have none in common. -/

set_option linter.all false

namespace Cocolog.Term

open Cocolog.Lib

/-- What two cells, both at the end of their chains, ask of the walk. -/
inductive Meet where
  | same
  | clash
  | bind (v t : Nat)
  | args (f : Nat)
deriving Repr, DecidableEq

/-- The body of the loop: the younger of two variables is bound to the older, a variable
to what is none, and what is no variable is compared by tag and content. -/
def meet (tb : Tables) (h : Mem) (a b : Nat) : Meet :=
  if a = b then .same
  else match h a, h b with
    | .ref _, .ref _ => if b < a then .bind a b else .bind b a
    | .ref _, _ => .bind a b
    | _, .ref _ => .bind b a
    | .func f, .func g => if f = g then .args f else .clash
    | .pos _, .pos _ => .clash
    | c, d => if shape tb c = shape tb d then .same else .clash

/-- The walk: the pairs that wait, newest first, the bindings made and the compounds
linked, newest first, and the machine's countdown. -/
structure Walk where
  heap : Mem
  pairs : List (Nat × Nat)
  binds : List (Nat × Nat) := []
  links : List Nat := []
  linked : Bool := false
  budget : Nat

/-- The arguments of two compounds, the first on top. -/
def argPairs (a b n : Nat) : List (Nat × Nat) := (List.range n).map fun j => (a + 1 + j, b + 1 + j)

/-- One pair of `coco_unify` or of `coco_unify_linked`; nothing on a clash. Armed at 2^20
or more, the countdown is never 0 here. -/
def Walk.turn (tb : Tables) (len : Nat) (w : Walk) (a b : Nat) (rest : List (Nat × Nat)) : Option Walk :=
  let a := deref w.heap len a
  let b := deref w.heap len b
  match meet tb w.heap a b with
  | .same => some { w with pairs := rest }
  | .clash => none
  | .bind v t =>
    some { w with heap := Function.update w.heap v (.ref t), pairs := rest, binds := (v, t) :: w.binds }
  | .args f =>
    if w.linked then
      some { w with
        heap := Function.update w.heap a (.ref b)
        pairs := argPairs a b (tb.arity f) ++ rest
        links := a :: w.links }
    else if w.budget ≤ 1 then
      -- the same pair again, linked from here on
      some { w with pairs := (a, b) :: rest, linked := true, budget := max len 1048576 }
    else some { w with pairs := argPairs a b (tb.arity f) ++ rest, budget := w.budget - 1 }

/-- The loop, to the last pair or to a clash. -/
def Walk.go (tb : Tables) (len : Nat) : Nat → Walk → Option (Bool × Walk)
  | 0, _ => none
  | turns + 1, w =>
    match w.pairs with
    | [] => some (true, w)
    | (a, b) :: rest =>
      match w.turn tb len a b rest with
      | none => some (false, w)
      | some w => Walk.go tb len turns w

/-- `coco_links_undo`: each header is its target's again, newest first. -/
def undoLinks : List Nat → Mem → Mem
  | [], h => h
  | x :: older, h =>
    undoLinks older (match h x with
      | .ref p => Function.update h x (h p)
      | _ => h)

/-- The walk `coco_unify` begins with. -/
def Walk.start (budget : Nat) (h : Mem) (a b : Nat) : Walk := { heap := h, pairs := [(a, b)], budget := budget }

/-- What `coco_unify` answers and leaves: the memory, what it bound, newest first, and the
countdown. -/
structure Unified where
  ok : Bool
  heap : Mem
  binds : List (Nat × Nat)
  budget : Nat

/-- No walk takes more turns: each pair of compounds takes from the countdown or from the
compounds not linked yet, and puts fewer pairs on the list than the memory has cells. -/
def unifyTurns (len budget : Nat) : Nat := 2 + (budget + len + 1) * (len + 1)

def unify (tb : Tables) (len budget : Nat) (h : Mem) (a b : Nat) : Unified :=
  match Walk.go tb len (unifyTurns len budget) (Walk.start budget h a b) with
  | some (ok, w) => ⟨ok, undoLinks w.links w.heap, w.binds, w.budget⟩
  | none => ⟨false, h, [], budget⟩

/- What the cells ask. -/

variable {tb : Tables} {h : Mem} {len : Nat} {ρ : Nat → PathTree Label}

theorem shape_leaf (tb : Tables) {c : Cell} (noRef : ∀ p, c ≠ .ref p) (noFunc : ∀ f, c ≠ .func f) :
    ∃ root, shape tb c = some (root, 0) ∧ ∀ f, root ≠ .func f := by
  cases c with
  | ref p => exact absurd rfl (noRef p)
  | func f => exact absurd rfl (noFunc f)
  | _ => exact ⟨_, rfl, fun _ => Label.noConfusion⟩

theorem eq_func_of_shape {c : Cell} {f n : Nat} (is : shape tb c = some (.func f, n)) : c = .func f := by
  cases c <;> cases is
  rfl

theorem meet_same {a b : Nat} (is : meet tb h a b = .same) :
    a = b ∨ ∃ root, shape tb (h a) = some (root, 0) ∧ shape tb (h b) = some (root, 0) := by
  unfold meet at is
  split at is
  · rename_i one
    exact .inl one
  right
  split at is
  · split at is
    · cases is
    · cases is
  · cases is
  · cases is
  · split at is
    · cases is
    · cases is
  · cases is
  · rename_i noRef _ _ noFuncs _
    split at is
    · rename_i same
      by_cases func : ∃ f, h a = .func f
      · obtain ⟨f, func⟩ := func
        rw [func] at same
        exact (noFuncs f f func (eq_func_of_shape same.symm)).elim
      · obtain ⟨root, leaf, _⟩ := shape_leaf tb noRef (not_exists.mp func)
        exact ⟨root, leaf, same.symm.trans leaf⟩
    · cases is

theorem meet_clash {a b : Nat} (is : meet tb h a b = .clash) (none_ : ∀ w, h a ≠ .pos w) :
    ∃ root n root' n', shape tb (h a) = some (root, n) ∧ shape tb (h b) = some (root', n') ∧
      root ≠ root' := by
  unfold meet at is
  split at is
  · cases is
  split at is
  · split at is
    · cases is
    · cases is
  · cases is
  · cases is
  · rename_i f g one two
    split at is
    · cases is
    · rename_i differ
      rw [one, two]
      exact ⟨_, _, _, _, rfl, rfl, fun same => differ (Label.func.inj same)⟩
  · rename_i w _ one _
    exact absurd one (none_ w)
  · rename_i noRef noRef' _ noFuncs _
    split at is
    · cases is
    rename_i differ
    by_cases func : ∃ f, h a = .func f
    · obtain ⟨f, func⟩ := func
      obtain ⟨root, leaf, other⟩ := shape_leaf tb noRef' fun g => noFuncs f g func
      rw [func, leaf]
      exact ⟨_, _, _, _, rfl, rfl, (other f).symm⟩
    obtain ⟨root, leaf, other⟩ := shape_leaf tb noRef (not_exists.mp func)
    by_cases func' : ∃ g, h b = .func g
    · obtain ⟨g, func'⟩ := func'
      rw [func', leaf]
      exact ⟨_, _, _, _, rfl, rfl, other g⟩
    · obtain ⟨root', leaf', _⟩ := shape_leaf tb noRef' (not_exists.mp func')
      refine ⟨root, 0, root', 0, leaf, leaf', fun same => differ ?_⟩
      rw [leaf, leaf', same]

theorem meet_bind {a b v t : Nat} (is : meet tb h a b = .bind v t) :
    a ≠ b ∧ (v = a ∧ t = b ∨ v = b ∧ t = a) ∧ (h v).isRef = true ∧
      ((h t).isRef = true → t < v) := by
  unfold meet at is
  split at is
  · cases is
  · rename_i off
    refine ⟨off, ?_⟩
    cases ha : h a <;> cases hb : h b <;> simp only [ha, hb] at is <;> (try split at is) <;>
      cases is <;> simp_all [Cell.isRef]
    omega

theorem meet_args {a b f : Nat} (is : meet tb h a b = .args f) :
    a ≠ b ∧ h a = .func f ∧ h b = .func f := by
  unfold meet at is
  split at is
  · cases is
  · rename_i off
    refine ⟨off, ?_⟩
    cases ha : h a <;> cases hb : h b <;> simp only [ha, hb] at is <;> (try split at is) <;>
      cases is <;> simp_all

/- Trees and bindings. -/

theorem Admits.update (admits : Admits tb h ρ) {a b : Nat} (same : ρ a = ρ b) :
    Admits tb (Function.update h a (.ref b)) ρ := by
  intro i
  by_cases at_a : i = a
  · subst at_a
    rw [Function.update_self]
    exact fun _ => same
  · rw [Function.update_of_ne at_a]
    exact admits i

/-- A binding taken back asks for less. -/
theorem Admits.unbind {v t : Nat} (unbound : h v = .ref v)
    (admits : Admits tb (Function.update h v (.ref t)) ρ) : Admits tb h ρ := by
  intro i
  by_cases at_v : i = v
  · subst at_v
    rw [unbound]
    exact fun off => absurd rfl off
  · have here := admits i
    rwa [Function.update_of_ne at_v] at here

/-- Some bindings made, newest first. -/
def bindAll : List (Nat × Nat) → Mem → Mem
  | [], h => h
  | (v, t) :: older, h => Function.update (bindAll older h) v (.ref t)

/-- Each bound a variable that was unbound then, to something else in the first `len` cells,
and to an older one if to a variable. -/
def Binds (len : Nat) (h : Mem) : List (Nat × Nat) → Prop
  | [] => True
  | (v, t) :: older =>
    (bindAll older h v = .ref v ∧ v ≠ t ∧ v < len ∧ t < len ∧ (bindAll older h t = .ref t → t < v)) ∧
      Binds len h older

theorem Admits.unbindAll {binds : List (Nat × Nat)} (made : Binds len h binds)
    (admits : Admits tb (bindAll binds h) ρ) : Admits tb h ρ := by
  induction binds with
  | nil => exact admits
  | cons q older ih => exact ih made.2 (Admits.unbind made.1.1 admits)

theorem bindAll_unbound {binds : List (Nat × Nat)} (made : Binds len h binds) {v : Nat}
    (unbound : bindAll binds h v = .ref v) : h v = .ref v := by
  induction binds with
  | nil => exact unbound
  | cons q older ih =>
    obtain ⟨x, t⟩ := q
    apply ih made.2
    by_cases at_x : v = x
    · subst at_x
      exact made.1.1
    · rwa [bindAll, Function.update_of_ne at_x] at unbound

/-- What held something still holds it. -/
theorem bindAll_held {binds : List (Nat × Nat)} (made : Binds len h binds) {i : Nat}
    (held : h i ≠ .ref i) : bindAll binds h i = h i := by
  induction binds with
  | nil => rfl
  | cons q older ih =>
    obtain ⟨x, t⟩ := q
    have here := ih made.2
    by_cases at_x : i = x
    · subst at_x
      exact absurd (here.symm.trans made.1.1) held
    · rw [bindAll, Function.update_of_ne at_x, here]

/- Links. -/

/-- Each cell of the list, newest first, is a compound pointed at another of the same
functor. -/
def Linked : List Nat → Mem → Prop
  | [], _ => True
  | x :: older, h =>
    ∃ p f, h x = .ref p ∧ p ≠ x ∧ h p = .func f ∧ Linked older (Function.update h x (.func f))

theorem undoLinks_cons {x p f : Nat} (older : List Nat) (cell : h x = .ref p) (target : h p = .func f) :
    undoLinks (x :: older) h = undoLinks older (Function.update h x (.func f)) := by
  rw [undoLinks, cell]
  simp only [target]

/-- What is no bound reference is no link. -/
theorem Linked.fixed {links : List Nat} (linked : Linked links h) {v : Nat} (stop : End h v) :
    undoLinks links h v = h v := by
  induction links generalizing h with
  | nil => rfl
  | cons x older ih =>
    obtain ⟨p, f, cell, off, target, rest⟩ := linked
    have apart : v ≠ x := by
      rintro rfl
      rcases stop with self | held
      · rw [cell] at self
        exact off (Cell.ref.inj self)
      · rw [cell] at held
        cases held
    have same : Function.update h x (.func f) v = h v := Function.update_of_ne apart _ _
    have still : End (Function.update h x (.func f)) v := by
      unfold End
      rw [same]
      exact stop
    rw [undoLinks_cons older cell target, ih rest still, same]

/-- A variable bound while compounds are linked is bound when they are put back. -/
theorem Linked.bind {links : List Nat} (linked : Linked links h) {v : Nat} (unbound : h v = .ref v)
    (t : Nat) :
    Linked links (Function.update h v (.ref t)) ∧
      undoLinks links (Function.update h v (.ref t)) = Function.update (undoLinks links h) v (.ref t) := by
  induction links generalizing h with
  | nil => exact ⟨trivial, rfl⟩
  | cons x older ih =>
    obtain ⟨p, f, cell, off, target, rest⟩ := linked
    have apart : x ≠ v := by
      rintro rfl
      rw [cell] at unbound
      exact off (Cell.ref.inj unbound)
    have apart' : p ≠ v := by
      rintro rfl
      rw [target] at unbound
      cases unbound
    have swap : Function.update (Function.update h v (.ref t)) x (.func f) =
        Function.update (Function.update h x (.func f)) v (.ref t) := Function.update_comm apart.symm _ _ _
    have still : Function.update h x (.func f) v = .ref v := by
      rw [Function.update_of_ne apart.symm]
      exact unbound
    have cell' : Function.update h v (.ref t) x = .ref p := by rwa [Function.update_of_ne apart]
    have target' : Function.update h v (.ref t) p = .func f := by rwa [Function.update_of_ne apart']
    obtain ⟨made, undone⟩ := ih rest still
    refine ⟨⟨p, f, cell', off, target', by rwa [swap]⟩, ?_⟩
    rw [undoLinks_cons older cell' target', undoLinks_cons older cell target, swap, undone]

/-- One compound more linked. -/
theorem Linked.link {links : List Nat} (linked : Linked links h) {a b f : Nat} (off : a ≠ b)
    (cell : h a = .func f) (cell' : h b = .func f) :
    Linked (a :: links) (Function.update h a (.ref b)) ∧
      undoLinks (a :: links) (Function.update h a (.ref b)) = undoLinks links h := by
  have here : Function.update h a (.ref b) a = .ref b := Function.update_self _ _ _
  have there : Function.update h a (.ref b) b = .func f := by rwa [Function.update_of_ne off.symm]
  have back : Function.update (Function.update h a (.ref b)) a (.func f) = h := by
    rw [Function.update_idem, ← cell, Function.update_eq_self]
  refine ⟨⟨b, f, here, off.symm, there, by rwa [back]⟩, ?_⟩
  rw [undoLinks_cons links here there, back]

/-- A reference is one of the plain memory, or a link. -/
theorem Linked.ref {links : List Nat} (linked : Linked links h) {x p : Nat} (cell : h x = .ref p) :
    undoLinks links h x = .ref p ∨ x ∈ links := by
  induction links generalizing h with
  | nil => exact .inl cell
  | cons y older ih =>
    obtain ⟨q, f, cell', _, target, rest⟩ := linked
    by_cases at_y : x = y
    · exact .inr (at_y ▸ List.mem_cons_self)
    · have same : Function.update h y (.func f) x = .ref p := by rwa [Function.update_of_ne at_y]
      rw [undoLinks_cons older cell' target]
      exact (ih rest same).imp_right (List.mem_cons_of_mem y)

theorem Linked.mem {links : List Nat} (linked : Linked links h) {x : Nat} (mem : x ∈ links) :
    ∃ p, h x = .ref p ∧ p ≠ x := by
  induction links generalizing h with
  | nil => cases mem
  | cons y older ih =>
    obtain ⟨q, f, cell, off, _, rest⟩ := linked
    by_cases at_y : x = y
    · exact ⟨q, at_y ▸ cell, at_y ▸ off⟩
    · rcases List.mem_cons.mp mem with same | old
      · exact absurd same at_y
      · obtain ⟨p, cell', off'⟩ := ih rest old
        rw [Function.update_of_ne at_y] at cell'
        exact ⟨p, cell', off'⟩

/- Arguments. -/

theorem mem_argPairs {a b n : Nat} {q : Nat × Nat} :
    q ∈ argPairs a b n ↔ ∃ j < n, q = (a + 1 + j, b + 1 + j) := by
  simp only [argPairs, List.mem_map, List.mem_range, eq_comm]

theorem Admits.args (admits : Admits tb h ρ) {a b f : Nat} (cell : h a = .func f) (cell' : h b = .func f)
    (same : ρ a = ρ b) {q : Nat × Nat} (mem : q ∈ argPairs a b (tb.arity f)) : ρ q.1 = ρ q.2 := by
  obtain ⟨j, below, rfl⟩ := mem_argPairs.mp mem
  have root : ∀ i, h i = .func f → shape tb (h i) = some (.func f, tb.arity f) := by
    intro i is
    rw [is]
    rfl
  rw [admits.node (root a cell), admits.node (root b cell')] at same
  exact PathTree.node_child same below below

theorem Admits.agreeTo (admits : Admits tb h ρ) {a b f n : Nat} (cell : h a = .func f)
    (cell' : h b = .func f)
    (args : ∀ q ∈ argPairs a b (tb.arity f), PathTree.AgreeTo n (ρ q.1) (ρ q.2)) :
    PathTree.AgreeTo (n + 1) (ρ a) (ρ b) := by
  have root : ∀ i, h i = .func f → shape tb (h i) = some (.func f, tb.arity f) := by
    intro i is
    rw [is]
    rfl
  rw [admits.node (root a cell), admits.node (root b cell')]
  apply PathTree.AgreeTo.node
  intro j below
  exact args _ (mem_argPairs.mpr ⟨j, below, rfl⟩)

/- The walk keeps what it has to do and what it has done equal to the question. -/

/-- To depth `n` the trees of the linked compounds are those of their targets. -/
def LinksAgree (ρ : Nat → PathTree Label) (n : Nat) (links : List Nat) (h : Mem) : Prop :=
  ∀ x ∈ links, ∀ p, h x = .ref p → PathTree.AgreeTo n (ρ x) (ρ p)

/-- Where the walk stands, from the memory `h` and the cells `a` and `b` it was asked. -/
structure Standing (tb : Tables) (len : Nat) (h : Mem) (a b : Nat) (w : Walk) : Prop where
  sound : Sound tb w.heap len
  linked : Linked w.links w.heap
  unlinked : w.linked = false → w.links = []
  inside : ∀ q ∈ w.pairs, q.1 < len ∧ q.2 < len
  made : Binds len h w.binds
  plain : undoLinks w.links w.heap = bindAll w.binds h
  whole : Sound tb (bindAll w.binds h) len
  forth : ∀ ρ, Admits tb h ρ → ρ a = ρ b →
    Admits tb w.heap ρ ∧ Admits tb (bindAll w.binds h) ρ ∧ ∀ q ∈ w.pairs, ρ q.1 = ρ q.2
  agrees : ∀ ρ, Admits tb (bindAll w.binds h) ρ → ∀ n, LinksAgree ρ n w.links w.heap →
    (∀ q ∈ w.pairs, PathTree.AgreeTo n (ρ q.1) (ρ q.2)) →
    PathTree.AgreeTo n (ρ a) (ρ b) ∧ LinksAgree ρ (n + 1) w.links w.heap

namespace Standing

variable {a b : Nat} {w w' : Walk}

/-- To depth `n` a chain's tree is its end's. -/
theorem agreeTo_deref (standing : Standing tb len h a b w) (admits : Admits tb (bindAll w.binds h) ρ)
    {n : Nat} (links : LinksAgree ρ n w.links w.heap) (turns t : Nat) :
    PathTree.AgreeTo n (ρ t) (ρ (deref w.heap turns t)) := by
  induction turns generalizing t with
  | zero => exact .of_eq rfl
  | succ turns ih =>
    rw [deref_succ]
    refine PathTree.AgreeTo.trans ?_ (ih (follow w.heap t))
    unfold follow
    split
    · rename_i p cell
      rcases standing.linked.ref cell with plain | link
      · rw [standing.plain] at plain
        exact .of_eq (admits.ref plain)
      · exact links t link p cell
    · exact .of_eq rfl

/-- The pair on top replaced by pairs that ask for no less. -/
theorem replace (standing : Standing tb len h a b w) {x y : Nat} {rest pairs : List (Nat × Nat)}
    (top : w.pairs = (x, y) :: rest) (linked : Bool) (budget : Nat)
    (still : linked = false → w.links = [])
    (inside : ∀ q ∈ pairs, q.1 < len ∧ q.2 < len)
    (forth : ∀ ρ, Admits tb w.heap ρ → ρ x = ρ y → (∀ q ∈ rest, ρ q.1 = ρ q.2) → ∀ q ∈ pairs, ρ q.1 = ρ q.2)
    (agrees : ∀ ρ, Admits tb (bindAll w.binds h) ρ → ∀ n, LinksAgree ρ n w.links w.heap →
      (∀ q ∈ pairs, PathTree.AgreeTo n (ρ q.1) (ρ q.2)) →
      PathTree.AgreeTo n (ρ x) (ρ y) ∧ ∀ q ∈ rest, PathTree.AgreeTo n (ρ q.1) (ρ q.2)) :
    Standing tb len h a b { w with pairs := pairs, linked := linked, budget := budget } := by
  refine { standing with unlinked := still, inside := inside, forth := ?_, agrees := ?_ }
  · intro ρ admits same
    obtain ⟨here, plain, equal⟩ := standing.forth ρ admits same
    rw [top] at equal
    exact ⟨here, plain, forth ρ here (equal _ List.mem_cons_self)
      fun q mem => equal q (List.mem_cons_of_mem _ mem)⟩
  · intro ρ admits n links agree
    obtain ⟨first, others⟩ := agrees ρ admits n links agree
    apply standing.agrees ρ admits n links
    rw [top]
    intro q mem
    rcases List.mem_cons.mp mem with rfl | mem
    · exact first
    · exact others q mem

/-- A variable bound. -/
theorem bind (standing : Standing tb len h a b w) {x y v t : Nat} {rest : List (Nat × Nat)}
    (top : w.pairs = (x, y) :: rest)
    (is : v = deref w.heap len x ∧ t = deref w.heap len y ∨ v = deref w.heap len y ∧ t = deref w.heap len x)
    (off : v ≠ t) (unbound : w.heap v = .ref v) (older : w.heap t = .ref t → t < v) :
    Standing tb len h a b { w with
      heap := Function.update w.heap v (.ref t), pairs := rest, binds := (v, t) :: w.binds } := by
  obtain ⟨hx, hy⟩ := standing.inside (x, y) (by rw [top]; exact List.mem_cons_self)
  have place : v < len ∧ t < len ∧ End w.heap t := by
    have endx := standing.sound.deref_end hx
    have endy := standing.sound.deref_end hy
    have ltx := standing.sound.deref_lt hx len
    have lty := standing.sound.deref_lt hy len
    rcases is with ⟨rfl, rfl⟩ | ⟨rfl, rfl⟩
    · exact ⟨ltx, lty, endy⟩
    · exact ⟨lty, ltx, endx⟩
  obtain ⟨hv, ht, stop⟩ := place
  have plain : bindAll w.binds h v = .ref v := by
    rw [← standing.plain, standing.linked.fixed (.inl unbound), unbound]
  have target : bindAll w.binds h t = w.heap t := by rw [← standing.plain, standing.linked.fixed stop]
  have stop' : End (bindAll w.binds h) t := by
    unfold End
    rw [target]
    exact stop
  obtain ⟨linked, undone⟩ := standing.linked.bind unbound t
  refine
    { sound := standing.sound.redirect hv ht off stop
      linked := linked
      unlinked := standing.unlinked
      inside := fun q mem => standing.inside q (by rw [top]; exact List.mem_cons_of_mem _ mem)
      made := ⟨⟨plain, off, hv, ht, by rwa [target]⟩, standing.made⟩
      plain := by rw [undone, standing.plain]; rfl
      whole := standing.whole.redirect hv ht off stop'
      forth := ?_
      agrees := ?_ }
  · intro ρ admits same
    obtain ⟨here, whole, equal⟩ := standing.forth ρ admits same
    rw [top] at equal
    have one : ρ v = ρ t := by
      have first := equal (x, y) List.mem_cons_self
      rw [← here.deref len x, ← here.deref len y] at first
      rcases is with ⟨rfl, rfl⟩ | ⟨rfl, rfl⟩
      · exact first
      · exact first.symm
    exact ⟨here.update one, whole.update one, fun q mem => equal q (List.mem_cons_of_mem _ mem)⟩
  · intro ρ admits n links agree
    have before : Admits tb (bindAll w.binds h) ρ := Admits.unbind plain admits
    have one : ρ v = ρ t := admits.ref (Function.update_self _ _ _)
    have apart : ∀ z ∈ w.links, z ≠ v := by
      rintro z mem rfl
      obtain ⟨p, cell, ne⟩ := standing.linked.mem mem
      rw [unbound] at cell
      exact ne (Cell.ref.inj cell).symm
    have same : ∀ n, LinksAgree ρ n w.links (Function.update w.heap v (.ref t)) ↔
        LinksAgree ρ n w.links w.heap := by
      intro n
      constructor
      · intro agree z mem p cell
        exact agree z mem p (by rwa [Function.update_of_ne (apart z mem)])
      · intro agree z mem p cell
        rw [Function.update_of_ne (apart z mem)] at cell
        exact agree z mem p cell
    have old : LinksAgree ρ n w.links w.heap := (same n).mp links
    obtain ⟨first, deeper⟩ := standing.agrees ρ before n old (by
      rw [top]
      intro q mem
      rcases List.mem_cons.mp mem with rfl | mem
      · have left := standing.agreeTo_deref before old len x
        have right := standing.agreeTo_deref before old len y
        have middle : ρ (deref w.heap len x) = ρ (deref w.heap len y) := by
          rcases is with ⟨rfl, rfl⟩ | ⟨rfl, rfl⟩
          · exact one
          · exact one.symm
        exact left.trans ((PathTree.AgreeTo.of_eq middle).trans right.symm)
      · exact agree q mem)
    exact ⟨first, (same (n + 1)).mpr deeper⟩

/-- A compound linked to another. -/
theorem link (standing : Standing tb len h a b w) {x y f : Nat} {rest : List (Nat × Nat)}
    (top : w.pairs = (x, y) :: rest) (on : w.linked = true)
    (off : deref w.heap len x ≠ deref w.heap len y)
    (cell : w.heap (deref w.heap len x) = .func f) (cell' : w.heap (deref w.heap len y) = .func f) :
    Standing tb len h a b { w with
      heap := Function.update w.heap (deref w.heap len x) (.ref (deref w.heap len y))
      pairs := argPairs (deref w.heap len x) (deref w.heap len y) (tb.arity f) ++ rest
      links := deref w.heap len x :: w.links } := by
  obtain ⟨hx, hy⟩ := standing.inside (x, y) (by rw [top]; exact List.mem_cons_self)
  have left : ∀ ρ, Admits tb (bindAll w.binds h) ρ → ∀ n, LinksAgree ρ n w.links w.heap →
      PathTree.AgreeTo n (ρ x) (ρ (deref w.heap len x)) :=
    fun ρ admits n links => standing.agreeTo_deref admits links len x
  have right : ∀ ρ, Admits tb (bindAll w.binds h) ρ → ∀ n, LinksAgree ρ n w.links w.heap →
      PathTree.AgreeTo n (ρ y) (ρ (deref w.heap len y)) :=
    fun ρ admits n links => standing.agreeTo_deref admits links len y
  have forward : ∀ ρ, Admits tb w.heap ρ →
      ρ (deref w.heap len x) = ρ x ∧ ρ (deref w.heap len y) = ρ y :=
    fun ρ admits => ⟨admits.deref len x, admits.deref len y⟩
  have ltx := standing.sound.deref_lt hx len
  have lty := standing.sound.deref_lt hy len
  have stop := standing.sound.deref_end hy
  have stop' := standing.sound.deref_end hx
  generalize deref w.heap len x = c at *
  generalize deref w.heap len y = d at *
  obtain ⟨linked, undone⟩ := standing.linked.link off cell cell'
  have plain : bindAll w.binds h c = .func f := by
    rw [← standing.plain, standing.linked.fixed stop', cell]
  have plain' : bindAll w.binds h d = .func f := by
    rw [← standing.plain, standing.linked.fixed stop, cell']
  have apart : ∀ z ∈ w.links, z ≠ c := by
    rintro z mem rfl
    obtain ⟨p, is, -⟩ := standing.linked.mem mem
    rw [cell] at is
    cases is
  refine
    { sound := standing.sound.redirect ltx lty off stop
      linked := linked
      unlinked := fun is => absurd (on.symm.trans is) Bool.noConfusion
      inside := ?_
      made := standing.made
      plain := undone.trans standing.plain
      whole := standing.whole
      forth := ?_
      agrees := ?_ }
  · intro q mem
    rcases List.mem_append.mp mem with arg | old
    · obtain ⟨j, below, rfl⟩ := mem_argPairs.mp arg
      have here := standing.sound.func_lt cell
      have there := standing.sound.func_lt cell'
      constructor <;> simp only <;> omega
    · exact standing.inside q (by rw [top]; exact List.mem_cons_of_mem _ old)
  · intro ρ admits same
    obtain ⟨here, whole, equal⟩ := standing.forth ρ admits same
    rw [top] at equal
    have one : ρ c = ρ d := by
      obtain ⟨first, second⟩ := forward ρ here
      rw [first, second]
      exact equal (x, y) List.mem_cons_self
    refine ⟨here.update one, whole, ?_⟩
    intro q mem
    rcases List.mem_append.mp mem with arg | old
    · exact here.args cell cell' one arg
    · exact equal q (List.mem_cons_of_mem _ old)
  · intro ρ admits n links agree
    have old : LinksAgree ρ n w.links w.heap := by
      intro z mem p is
      exact links z (List.mem_cons_of_mem _ mem) p ((Function.update_of_ne (apart z mem) _ _).trans is)
    have one : PathTree.AgreeTo n (ρ c) (ρ d) :=
      links c List.mem_cons_self d (Function.update_self _ _ _)
    obtain ⟨first, deeper⟩ := standing.agrees ρ admits n old (by
      rw [top]
      intro q mem
      rcases List.mem_cons.mp mem with rfl | mem
      · exact (left ρ admits n old).trans (one.trans (right ρ admits n old).symm)
      · exact agree q (List.mem_append_right _ mem))
    refine ⟨first, ?_⟩
    intro z mem p is
    rcases List.mem_cons.mp mem with rfl | mem
    · cases (Function.update_self _ _ _).symm.trans is
      exact admits.agreeTo plain plain' fun q arg => agree q (List.mem_append_left _ arg)
    · exact deeper z mem p ((Function.update_of_ne (apart z mem) _ _).symm.trans is)

/-- Whatever a pair asks, the walk stands as it stood. -/
theorem turn (standing : Standing tb len h a b w) {x y : Nat} {rest : List (Nat × Nat)}
    (top : w.pairs = (x, y) :: rest) (next : w.turn tb len x y rest = some w') :
    Standing tb len h a b w' := by
  obtain ⟨hx, hy⟩ := standing.inside (x, y) (by rw [top]; exact List.mem_cons_self)
  have others : ∀ q ∈ rest, q.1 < len ∧ q.2 < len :=
    fun q mem => standing.inside q (by rw [top]; exact List.mem_cons_of_mem _ mem)
  have endx := standing.sound.deref_end hx
  have endy := standing.sound.deref_end hy
  cases is : meet tb w.heap (deref w.heap len x) (deref w.heap len y) with
  | same =>
    simp only [Walk.turn, is] at next
    cases next
    apply standing.replace top w.linked w.budget standing.unlinked others
    · exact fun ρ _ _ equal => equal
    · intro ρ admits n links agree
      refine ⟨?_, agree⟩
      have left := standing.agreeTo_deref admits links len x
      have right := standing.agreeTo_deref admits links len y
      have middle : ρ (deref w.heap len x) = ρ (deref w.heap len y) := by
        rcases meet_same is with same | ⟨root, here, there⟩
        · rw [same]
        · rw [← standing.linked.fixed endx, standing.plain] at here
          rw [← standing.linked.fixed endy, standing.plain] at there
          rw [admits.node here, admits.node there]
          exact PathTree.node_zero root _ _
      exact left.trans ((PathTree.AgreeTo.of_eq middle).trans right.symm)
  | clash =>
    simp only [Walk.turn, is] at next
    cases next
  | bind v t =>
    simp only [Walk.turn, is] at next
    cases next
    obtain ⟨off, which, ref, older⟩ := meet_bind is
    have unbound : w.heap v = .ref v := by
      have stop : End w.heap v := by
        rcases which with ⟨rfl, -⟩ | ⟨rfl, -⟩
        · exact endx
        · exact endy
      rcases stop with self | held
      · exact self
      · rw [ref] at held
        cases held
    have apart : v ≠ t := by
      rcases which with ⟨rfl, rfl⟩ | ⟨rfl, rfl⟩
      · exact off
      · exact off.symm
    exact standing.bind top which apart unbound fun self => older (by rw [self]; rfl)
  | args f =>
    simp only [Walk.turn, is] at next
    obtain ⟨off, cell, cell'⟩ := meet_args is
    have here := standing.sound.func_lt cell
    have there := standing.sound.func_lt cell'
    have plain : bindAll w.binds h (deref w.heap len x) = .func f := by
      rw [← standing.plain, standing.linked.fixed endx, cell]
    have plain' : bindAll w.binds h (deref w.heap len y) = .func f := by
      rw [← standing.plain, standing.linked.fixed endy, cell']
    split at next
    · rename_i on
      cases next
      exact standing.link top on off cell cell'
    · rename_i notLinked
      split at next
      · cases next
        apply standing.replace top true (max len 1048576) (fun is => absurd is Bool.noConfusion)
        · intro q mem
          rcases List.mem_cons.mp mem with rfl | mem
          · exact ⟨standing.sound.deref_lt hx len, standing.sound.deref_lt hy len⟩
          · exact others q mem
        · intro ρ admits same equal q mem
          rcases List.mem_cons.mp mem with rfl | mem
          · simp only [admits.deref, same]
          · exact equal q mem
        · intro ρ admits n links agree
          have left := standing.agreeTo_deref admits links len x
          have right := standing.agreeTo_deref admits links len y
          exact ⟨left.trans ((agree _ List.mem_cons_self).trans right.symm),
            fun q mem => agree q (List.mem_cons_of_mem _ mem)⟩
      · cases next
        apply standing.replace top w.linked (w.budget - 1) standing.unlinked
        · intro q mem
          rcases List.mem_append.mp mem with arg | old
          · obtain ⟨j, below, rfl⟩ := mem_argPairs.mp arg
            constructor <;> simp only <;> omega
          · exact others q old
        · intro ρ admits same equal q mem
          rcases List.mem_append.mp mem with arg | old
          · exact admits.args cell cell' (by rw [admits.deref, admits.deref, same]) arg
          · exact equal q old
        · intro ρ admits n links agree
          have left := standing.agreeTo_deref admits links len x
          have right := standing.agreeTo_deref admits links len y
          have middle : PathTree.AgreeTo n (ρ (deref w.heap len x)) (ρ (deref w.heap len y)) :=
            (admits.agreeTo plain plain' fun q arg => agree q (List.mem_append_left _ arg)).le (Nat.le_succ n)
          exact ⟨left.trans (middle.trans right.symm), fun q mem => agree q (List.mem_append_right _ mem)⟩

/-- A clash leaves the two terms no tree in common. -/
theorem clash (standing : Standing tb len h a b w) {x y : Nat} {rest : List (Nat × Nat)}
    (top : w.pairs = (x, y) :: rest) (next : w.turn tb len x y rest = none)
    (admits : Admits tb h ρ) : ρ a ≠ ρ b := by
  intro same
  obtain ⟨here, -, equal⟩ := standing.forth ρ admits same
  rw [top] at equal
  have one := equal (x, y) List.mem_cons_self
  rw [← here.deref len x, ← here.deref len y] at one
  cases is : meet tb w.heap (deref w.heap len x) (deref w.heap len y) with
  | same =>
    simp only [Walk.turn, is] at next
    cases next
  | clash =>
    obtain ⟨root, n, root', n', held, held', different⟩ := meet_clash is (standing.sound.not_pos _)
    rw [here.node held, here.node held'] at one
    exact different (Option.some.inj (congrFun one []))
  | bind v t =>
    simp only [Walk.turn, is] at next
    cases next
  | args f =>
    simp only [Walk.turn, is] at next
    split at next
    · cases next
    · split at next <;> cases next

/-- With no pair left the two terms are one wherever the bindings hold. -/
theorem finished (standing : Standing tb len h a b w) (over_ : w.pairs = [])
    (admits : Admits tb (bindAll w.binds h) ρ) : ρ a = ρ b := by
  have none_ : ∀ n, ∀ q ∈ w.pairs, PathTree.AgreeTo n (ρ q.1) (ρ q.2) := by
    rw [over_]
    intro n q mem
    cases mem
  have links : ∀ n, LinksAgree ρ n w.links w.heap := by
    intro n
    induction n with
    | zero => exact fun x _ p _ => PathTree.AgreeTo.zero _ _
    | succ n ih => exact (standing.agrees ρ admits n ih (none_ n)).2
  apply PathTree.eq_of_agreeTo
  intro n
  exact (standing.agrees ρ admits n (links n) (none_ n)).1

end Standing

/- The walk ends. -/

/-- The compounds there are. -/
def compounds (h : Mem) (len : Nat) : Finset Nat :=
  (Finset.range len).filter fun i => (h i matches .func _) = true

theorem mem_compounds {i : Nat} : i ∈ compounds h len ↔ i < len ∧ ∃ f, h i = .func f := by
  rw [compounds, Finset.mem_filter, Finset.mem_range]
  cases h i <;> simp

theorem compounds_ref (h : Mem) (len a b : Nat) :
    compounds (Function.update h a (.ref b)) len ⊆ compounds h len := by
  intro i mem
  rw [mem_compounds] at mem ⊢
  obtain ⟨lt, f, cell⟩ := mem
  by_cases at_a : i = a
  · rw [at_a, Function.update_self] at cell
    cases cell
  · rw [Function.update_of_ne at_a] at cell
    exact ⟨lt, f, cell⟩

/-- A compound pointed elsewhere is one less. -/
theorem card_compounds_link {a f : Nat} (lt : a < len) (cell : h a = .func f) (b : Nat) :
    (compounds (Function.update h a (.ref b)) len).card < (compounds h len).card := by
  apply Finset.card_lt_card
  rw [Finset.ssubset_iff_of_subset (compounds_ref h len a b)]
  refine ⟨a, mem_compounds.mpr ⟨lt, f, cell⟩, ?_⟩
  rw [mem_compounds, Function.update_self]
  rintro ⟨-, g, is⟩
  cases is

theorem length_argPairs (a b n : Nat) : (argPairs a b n).length = n := by
  rw [argPairs, List.length_map, List.length_range]

/-- What the walk has left to spend on pairs of compounds. -/
def Walk.spare (len : Nat) (w : Walk) : Nat :=
  if w.linked then (compounds w.heap len).card else w.budget + len + 1

theorem Standing.spends {a b : Nat} {w w' : Walk} (standing : Standing tb len h a b w) {x y : Nat}
    {rest : List (Nat × Nat)} (top : w.pairs = (x, y) :: rest)
    (next : w.turn tb len x y rest = some w') :
    w'.pairs.length + w'.spare len * (len + 1) < w.pairs.length + w.spare len * (len + 1) := by
  obtain ⟨hx, hy⟩ := standing.inside (x, y) (by rw [top]; exact List.mem_cons_self)
  have size : w.pairs.length = rest.length + 1 := by rw [top]; rfl
  have few : ∀ g : Mem, (compounds g len).card ≤ len := by
    intro g
    exact (Finset.card_filter_le _ _).trans_eq (Finset.card_range len)
  have less : ∀ m n : Nat, m < n → m * (len + 1) + (len + 1) ≤ n * (len + 1) := by
    intro m n lt
    calc m * (len + 1) + (len + 1) = (m + 1) * (len + 1) := (Nat.succ_mul m (len + 1)).symm
      _ ≤ n * (len + 1) := Nat.mul_le_mul_right _ lt
  cases is : meet tb w.heap (deref w.heap len x) (deref w.heap len y) with
  | same =>
    simp only [Walk.turn, is] at next
    cases next
    simp only [Walk.spare, size]
    omega
  | clash =>
    simp only [Walk.turn, is] at next
    cases next
  | bind v t =>
    simp only [Walk.turn, is] at next
    cases next
    have fewer := Finset.card_le_card (compounds_ref w.heap len v t)
    have scaled := Nat.mul_le_mul_right (len + 1) fewer
    simp only [Walk.spare, size]
    split <;> omega
  | args f =>
    simp only [Walk.turn, is] at next
    obtain ⟨off, cell, cell'⟩ := meet_args is
    have here := standing.sound.func_lt cell
    have count := length_argPairs (deref w.heap len x) (deref w.heap len y) (tb.arity f)
    split at next
    · rename_i on
      cases next
      have lt : deref w.heap len x < len := standing.sound.deref_lt hx len
      have fewer := card_compounds_link lt cell (deref w.heap len y)
      have scaled := less _ _ fewer
      simp only [Walk.spare, size, on, if_true, List.length_append, count]
      omega
    · rename_i notLinked
      have plain : w.linked = false := by simpa using notLinked
      split at next
      · cases next
        have fewer := few w.heap
        have scaled := less (compounds w.heap len).card (w.budget + len + 1) (by omega)
        simp only [Walk.spare, size, plain, if_true, List.length_cons]
        simp only [Bool.false_eq_true, if_false]
        omega
      · rename_i more
        cases next
        have scaled := less (w.budget - 1 + len + 1) (w.budget + len + 1) (by omega)
        simp only [Walk.spare, size, plain, List.length_append, count]
        simp only [Bool.false_eq_true, if_false]
        omega

/-- The walk ends, and what it answers is so. -/
theorem Walk.go_spec {a b : Nat} {turns : Nat} {w : Walk} (standing : Standing tb len h a b w)
    (enough : w.pairs.length + w.spare len * (len + 1) < turns) :
    ∃ ok w', Walk.go tb len turns w = some (ok, w') ∧ Standing tb len h a b w' ∧
      (if ok then w'.pairs = [] else ∀ ρ, Admits tb h ρ → ρ a ≠ ρ b) := by
  induction turns generalizing w with
  | zero => exact absurd enough (Nat.not_lt_zero _)
  | succ turns ih =>
    rw [Walk.go]
    cases top : w.pairs with
    | nil => exact ⟨true, w, rfl, standing, top⟩
    | cons q rest =>
      obtain ⟨x, y⟩ := q
      cases next : w.turn tb len x y rest with
      | none => exact ⟨false, w, by simp only [next], standing, fun ρ admits => standing.clash top next admits⟩
      | some w' =>
        have less := standing.spends top next
        obtain ⟨ok, last, ran, stands, answer⟩ := ih (standing.turn top next) (by omega)
        exact ⟨ok, last, by simp only [next, ran], stands, answer⟩

/-- More turns change nothing. -/
theorem Walk.go_more {turns : Nat} {w : Walk} {r : Bool × Walk} (done : Walk.go tb len turns w = some r)
    {more : Nat} (le : turns ≤ more) : Walk.go tb len more w = some r := by
  induction turns generalizing w more with
  | zero => cases done
  | succ turns ih =>
    obtain ⟨more, rfl⟩ : ∃ k, more = k + 1 := ⟨more - 1, by omega⟩
    rw [Walk.go] at done ⊢
    cases top : w.pairs with
    | nil =>
      simp only [top] at done ⊢
      exact done
    | cons q rest =>
      simp only [top] at done ⊢
      cases next : w.turn tb len q.1 q.2 rest with
      | none =>
        simp only [next] at done ⊢
        exact done
      | some w' =>
        simp only [next] at done ⊢
        exact ih done (by omega)

/-- What `coco_unify` does to a memory: it binds variables that were unbound, and with all
of them bound the memory's trees are those of before in which the two terms are one; where
it answers no, there is none. -/
structure Unifies (tb : Tables) (len : Nat) (h : Mem) (a b : Nat) (u : Unified) : Prop where
  made : Binds len h u.binds
  heap : u.heap = bindAll u.binds h
  sound : Sound tb u.heap len
  yes : u.ok = true → ∀ ρ, Admits tb u.heap ρ ↔ Admits tb h ρ ∧ ρ a = ρ b
  no : u.ok = false → ∀ ρ, Admits tb h ρ → ρ a ≠ ρ b

/-- The walk ends whatever the countdown, and the answer is the loop's. -/
theorem Walk.start_spec (sound : Sound tb h len) {a b : Nat} (ha : a < len) (hb : b < len) (budget : Nat) :
    ∃ ok w, Walk.go tb len (unifyTurns len budget) (Walk.start budget h a b) = some (ok, w) ∧
      Standing tb len h a b w ∧ (if ok then w.pairs = [] else ∀ ρ, Admits tb h ρ → ρ a ≠ ρ b) := by
  have start : Standing tb len h a b (Walk.start budget h a b) := by
    refine
      { sound := sound, linked := trivial, unlinked := fun _ => rfl, inside := ?_, made := trivial
        plain := rfl, whole := sound, forth := ?_, agrees := ?_ }
    · intro q mem
      rw [List.mem_singleton.mp mem]
      exact ⟨ha, hb⟩
    · intro ρ admits same
      refine ⟨admits, admits, ?_⟩
      intro q mem
      rw [List.mem_singleton.mp mem]
      exact same
    · intro ρ _ n _ agree
      refine ⟨agree (a, b) (List.mem_singleton_self _), ?_⟩
      intro x mem
      cases mem
  have enough : 1 + (budget + len + 1) * (len + 1) < unifyTurns len budget := by
    unfold unifyTurns
    omega
  exact Walk.go_spec start enough

theorem unify_spec (sound : Sound tb h len) {a b : Nat} (ha : a < len) (hb : b < len) (budget : Nat) :
    Unifies tb len h a b (unify tb len budget h a b) := by
  obtain ⟨ok, w, ran, standing, answer⟩ := Walk.start_spec sound ha hb budget
  have result : unify tb len budget h a b = ⟨ok, undoLinks w.links w.heap, w.binds, w.budget⟩ := by
    rw [unify, ran]
  rw [result]
  refine
    { made := standing.made, heap := standing.plain
      sound := by simp only [standing.plain]; exact standing.whole, yes := ?_, no := ?_ }
  · intro yes ρ
    simp only at yes
    simp only [standing.plain]
    rw [yes] at answer
    constructor
    · intro admits
      exact ⟨Admits.unbindAll standing.made admits, standing.finished answer admits⟩
    · rintro ⟨admits, same⟩
      exact (standing.forth ρ admits same).2.1
  · intro no ρ admits
    simp only at no
    rw [no] at answer
    exact answer ρ admits

/-- `coco_unify` answers yes exactly where the two terms have a tree in common. -/
theorem unify_ok_iff (sound : Sound tb h len) {a b : Nat} (ha : a < len) (hb : b < len) (budget : Nat) :
    (unify tb len budget h a b).ok = true ↔ ∃ ρ, Admits tb h ρ ∧ ρ a = ρ b := by
  have spec := unify_spec sound ha hb budget
  constructor
  · intro yes
    exact ⟨_, (spec.yes yes _).mp (spec.sound.treeAt_admits fun _ => PathTree.leaf (.atom 0))⟩
  · rintro ⟨ρ, admits, same⟩
    by_contra no
    exact spec.no (Bool.eq_false_iff.mpr no) ρ admits same

end Cocolog.Term
