import Cocolog.Copy.Meetings
import Cocolog.Copy.RoundTrip
import Mathlib.Data.List.Chain

/-! The answers the two searches of a term give are exact: whether a path through it comes
back to a compound it is inside, and whether an unbound variable is in it. -/

set_option linter.all false

namespace Cocolog.Copy

open Cocolog.Lib Cocolog.Term Cocolog.Store Relation

/-- A turn of the quick walk of `coco_occurs`: the stack, top first, the compounds it may
still meet, and the answer once there is one: found, or left to the other walk. -/
structure Search where
  stk : List Nat
  budget : Nat
  found : Bool
  given : Bool

/-- A turn of the quick walk of `coco_occurs`. -/
def searchStep (tb : Tables) (h : Heap) (v : Nat) (q : Search) : Option Search :=
  match q.stk with
  | [] => none
  | t :: rest =>
    let a := h.deref t
    if a = v then some { q with stk := [], found := true }
    else
      match h.cells a with
      | .func f =>
        if q.budget = 0 ∨ 64 < rest.length + tb.arity f then some { q with stk := [], given := true }
        else some { q with stk := (argsOf a (tb.arity f)).reverse ++ rest, budget := q.budget - 1 }
      | _ => some { q with stk := rest }

/-- `coco_occurs`. -/
def occurs (tb : Tables) (h : Heap) (fuel v t : Nat) : Option Bool :=
  (loop (searchStep tb h v) fuel ⟨[t], 64, false, false⟩).bind fun q =>
    if q.found then some true else if q.given then holds tb h fuel v t else some false

/-- The cells a term is read through, references followed. -/
inductive Within (tb : Tables) (h : Heap) (t : Nat) : Nat → Prop where
  | root : Within tb h t (h.deref t)
  | arg {c f k : Nat} (there : Within tb h t c) (cell : h.cells c = .func f) (below : k < tb.arity f) :
      Within tb h t (h.deref (c + 1 + k))

/-- Compound `c'` is an argument of compound `c`. -/
def Child (tb : Tables) (h : Heap) (c c' : Nat) : Prop :=
  (∃ f k, h.cells c = .func f ∧ k < tb.arity f ∧ h.deref (c + 1 + k) = c') ∧ ∃ f, h.cells c' = .func f

/-- A path through the term returns to a compound it is inside. -/
def Returns (tb : Tables) (h : Heap) (t : Nat) : Prop := ∃ c, Within tb h t c ∧ TransGen (Child tb h) c c

variable {tb : Tables} {h : Heap} {live : Nat → Prop} {t v : Nat}

/- Cycles. -/

/-- The term of a compound as the reading sees it. -/
theorem deref_within (whole : Whole tb h.cells h.len live) (alive : live t) {c : Nat} (within : Within tb h t c) :
    Leads h.cells h.len c c ∧ ∀ f k, h.cells c = .func f → k < tb.arity f → live (c + 1 + k) := by
  have at_ : ∀ {a}, live a → Leads h.cells h.len (h.deref a) (h.deref a) ∧
      ∀ f k, h.cells (h.deref a) = .func f → k < tb.arity f → live (h.deref a + 1 + k) := by
    intro a alive
    obtain ⟨d, leads, args⟩ := whole a alive
    have is : h.deref a = d := leads.deref
    rw [is]
    exact ⟨leads.last, args⟩
  induction within with
  | root => exact at_ alive
  | arg _ cell below ih => exact at_ (ih.2 _ _ cell below)

theorem itemAt_within {c f : Nat} (cell : h.cells c = .func f) : itemAt h.cells h.len c = .comp c f := by
  have same : h.deref c = c := Term.deref_end (.inr (by rw [cell]; rfl)) _
  rw [itemAt_eq, same]
  simp only [cell]

/-- Inside a finite term every compound is finite. -/
theorem finite_within {c f : Nat} (finite : Finite tb (itemAt h.cells h.len) t) (within : Within tb h t c)
    (cell : h.cells c = .func f) : Finite tb (itemAt h.cells h.len) c := by
  have whole : ∀ {a}, Finite tb (itemAt h.cells h.len) a → ∀ {f}, h.cells (h.deref a) = .func f →
      Finite tb (itemAt h.cells h.len) (h.deref a) := by
    intro a finite f cell
    exact finite.congr (by rw [itemAt_within cell, itemAt_of_func cell])
  induction within generalizing f with
  | root => exact whole finite cell
  | arg _ cell' below ih =>
    have above := ih cell'
    cases above with
    | intro args => exact whole (args _ _ _ (itemAt_within cell') below) cell

/-- A finite compound is not under itself. -/
theorem not_returns (finite : Finite tb (itemAt h.cells h.len) t) : ¬ Returns tb h t := by
  rintro ⟨c, within, cycle⟩
  have no : ∀ {a}, Finite tb (itemAt h.cells h.len) a → ∀ s f, itemAt h.cells h.len a = .comp s f →
      ¬ TransGen (Child tb h) s s := by
    intro a finite
    induction finite with
    | @intro a _ ih =>
      intro s f is cycle
      obtain ⟨c', first, rest⟩ : ∃ c', Child tb h s c' ∧ ReflTransGen (Child tb h) c' s := by
        rw [TransGen.head'_iff] at cycle
        exact cycle
      have first' := first
      obtain ⟨⟨f', k, cell, below, at_⟩, f'', cell'⟩ := first
      have same : h.cells s = .func f := by
        rw [itemAt_eq] at is
        split at is
        · cases is
        · rename_i g held
          obtain ⟨rfl, rfl⟩ := Item.comp.inj is
          exact held
        · cases is
      rw [same] at cell
      obtain rfl := Cell.func.inj cell
      refine ih s f k is below c' f'' ?_ (TransGen.tail' rest first')
      rw [itemAt_eq, at_]
      simp only [cell']
  obtain ⟨c', ⟨⟨f, k, cell, -⟩, -⟩, -⟩ := TransGen.head'_iff.mp cycle
  exact no (finite_within finite within cell) c f (itemAt_within cell) cycle

/-- The frames are a path through the term, and hold every compound that is on the path. -/
structure OnPath (tb : Tables) (h : Heap) (t : Nat) (v : Visit) : Prop where
  within : ∀ fr ∈ v.frames, Within tb h t fr.src ∧ ∃ f, h.cells fr.src = .func f ∧ fr.n = tb.arity f
  chain : v.frames.IsChain fun fr fr' => Child tb h fr'.src fr.src
  states : ∀ {a}, v.vm.lookup a = some 1 → ∃ fr ∈ v.frames, fr.src = a
  cycle : v.ok = false → Returns tb h t

theorem chain_path {frames : List Frame} {fr : Frame} {top : Frame}
    (chain : (top :: frames).IsChain fun fr fr' => Child tb h fr'.src fr.src) (mem : fr ∈ top :: frames) :
    ReflTransGen (Child tb h) fr.src top.src := by
  induction frames generalizing top with
  | nil =>
    rw [List.mem_singleton] at mem
    rw [mem]
  | cons next rest ih =>
    rw [List.isChain_cons_cons] at chain
    rcases List.mem_cons.mp mem with rfl | mem
    · exact .refl
    · exact (ih chain.2 mem).tail chain.1

theorem OnPath.step {v v' : Visit} (before : OnPath tb h t v) (next : acyclicStep tb h v = some v') :
    OnPath tb h t v' := by
  obtain ⟨within, chain, states, cycle⟩ := before
  unfold acyclicStep at next
  split at next
  · cases next
  rename_i going
  have ok : v.ok = true := by simpa using going
  cases frames : v.frames with
  | nil =>
    simp only [frames] at next
    cases next
  | cons fr rest =>
    simp only [frames] at next
    rw [frames] at within chain states
    obtain ⟨here, f, cell, n⟩ := within fr List.mem_cons_self
    by_cases last : fr.n ≤ fr.i
    · simp only [if_pos last, Option.some.injEq] at next
      subst next
      refine ⟨fun fr' mem => within fr' (List.mem_cons_of_mem _ mem), chain.tail, ?_, fun no => cycle no⟩
      intro a found
      by_cases at_ : a = fr.src
      · rw [at_, lookup_cons_self] at found
        cases found
      · rw [lookup_cons_of_ne at_] at found
        obtain ⟨fr', mem, src⟩ := states found
        rcases List.mem_cons.mp mem with rfl | mem
        · exact absurd src.symm at_
        · exact ⟨fr', mem, src⟩
    · simp only [if_neg last] at next
      have below : fr.i < fr.n := Nat.lt_of_not_le last
      have at_ : fr.src + (fr.i + 1) = fr.src + 1 + fr.i := by omega
      rw [at_] at next
      have down : Within tb h t (h.deref (fr.src + 1 + fr.i)) := here.arg cell (by omega)
      -- the frame moved on is the same frame to the path
      have within' : ∀ fr' ∈ ({ fr with i := fr.i + 1 } : Frame) :: rest,
          Within tb h t fr'.src ∧ ∃ f, h.cells fr'.src = .func f ∧ fr'.n = tb.arity f := by
        intro fr' mem
        rcases List.mem_cons.mp mem with rfl | mem
        · exact ⟨here, f, cell, n⟩
        · exact within fr' (List.mem_cons_of_mem _ mem)
      have chain' : (({ fr with i := fr.i + 1 } : Frame) :: rest).IsChain
          fun fr fr' => Child tb h fr'.src fr.src := by
        cases rest with
        | nil => exact .singleton _
        | cons top rest =>
          rw [List.isChain_cons_cons] at chain ⊢
          exact chain
      have states' : ∀ {a}, v.vm.lookup a = some 1 →
          ∃ fr' ∈ ({ fr with i := fr.i + 1 } : Frame) :: rest, fr'.src = a := by
        intro a found
        obtain ⟨fr', mem, src⟩ := states found
        rcases List.mem_cons.mp mem with rfl | mem
        · exact ⟨_, List.mem_cons_self, src⟩
        · exact ⟨fr', List.mem_cons_of_mem _ mem, src⟩
      cases at_arg : h.cells (h.deref (fr.src + 1 + fr.i)) with
      | func f' =>
        simp only [at_arg] at next
        have child : Child tb h fr.src (h.deref (fr.src + 1 + fr.i)) :=
          ⟨⟨f, fr.i, cell, by omega, rfl⟩, f', at_arg⟩
        cases found : v.vm.lookup (h.deref (fr.src + 1 + fr.i)) with
        | some st =>
          simp only [found] at next
          split at next
          · rename_i one
            rw [one] at found
            obtain rfl := Option.some.inj next
            refine ⟨within', chain', states', fun _ => ?_⟩
            obtain ⟨fr', mem, src⟩ := states found
            have up := chain_path chain mem
            rw [src] at up
            exact ⟨_, down, .tail' up child⟩
          · obtain rfl := Option.some.inj next
            exact ⟨within', chain', states', cycle⟩
        | none =>
          simp only [found] at next
          obtain rfl := Option.some.inj next
          refine ⟨?_, ?_, ?_, cycle⟩
          · intro fr' mem
            rcases List.mem_cons.mp mem with rfl | mem
            · exact ⟨down, f', at_arg, rfl⟩
            · exact within' fr' mem
          · exact List.isChain_cons_cons.mpr ⟨child, chain'⟩
          · intro a found'
            by_cases new : a = h.deref (fr.src + 1 + fr.i)
            · exact ⟨_, List.mem_cons_self, new.symm⟩
            · rw [lookup_cons_of_ne new] at found'
              obtain ⟨fr', mem, src⟩ := states' found'
              exact ⟨fr', List.mem_cons_of_mem _ mem, src⟩
      | _ =>
        simp only [at_arg] at next
        obtain rfl := Option.some.inj next
        exact ⟨within', chain', states', cycle⟩

theorem OnPath.start {f : Nat} (cell : h.cells (h.deref t) = .func f) :
    OnPath tb h t ⟨[(h.deref t, 1)], [⟨h.deref t, 0, 0, tb.arity f⟩], true⟩ := by
  refine ⟨?_, .singleton _, ?_, fun no => (nomatch no)⟩
  · intro fr mem
    rw [List.mem_singleton] at mem
    rw [mem]
    exact ⟨.root, f, cell, rfl⟩
  · intro a found
    by_cases at_ : a = h.deref t
    · exact ⟨_, List.mem_cons_self, at_.symm⟩
    · rw [lookup_cons_of_ne at_] at found
      cases found

/-- A no is right: the path comes back. -/
theorem acyclic_no {fuel : Nat} (no : acyclic tb h fuel t = some false) : Returns tb h t := by
  unfold acyclic at no
  cases cell : h.cells (h.deref t) with
  | func f =>
    simp only [cell] at no
    obtain ⟨quick, -, rest⟩ := Option.bind_eq_some_iff.mp no
    cases quick with
    | true => cases rest
    | false =>
      obtain ⟨e, ran, ok⟩ := Option.map_eq_some_iff.mp rest
      have path := (loop_reaches ran).1.invariant (fun v v' before next => before.step next) (OnPath.start cell)
      exact path.cycle ok
  | _ =>
    simp only [cell] at no
    cases no

/- Variables. -/

/-- A term is what it leads to. -/
theorem tree_deref {a : Nat} (again : h.deref (h.deref a) = h.deref a) (path : List Nat) :
    tree tb h.cells h.len a path = tree tb h.cells h.len (h.deref a) path := by
  have again' : Term.deref h.cells h.len (h.deref a) = h.deref a := again
  cases path with
  | nil =>
    simp only [tree, again']
    rfl
  | cons k path =>
    simp only [tree, again']
    rfl

theorem within_of_tree {a : Nat} {path : List Nat} (within : Within tb h t (h.deref a))
    (at_path : tree tb h.cells h.len a path = some (.var v)) : Within tb h t v := by
  induction path generalizing a with
  | nil =>
    simp only [tree] at at_path
    split at at_path
    · cases at_path
      exact within
    · cases at_path
  | cons k path ih =>
    simp only [tree] at at_path
    split at at_path
    · cases at_path
    · rename_i root n is
      split at at_path
      · rename_i below
        obtain ⟨f, cell, rfl⟩ := func_of_shape is below
        exact ih (within.arg cell below) at_path
      · cases at_path

theorem tree_of_within (whole : Whole tb h.cells h.len live) (alive : live t) {c : Nat}
    (within : Within tb h t c) :
    ∃ path, ∀ rest, tree tb h.cells h.len t (path ++ rest) = tree tb h.cells h.len c rest := by
  induction within with
  | root => exact ⟨[], fun rest => tree_deref (deref_within whole alive .root).1.deref rest⟩
  | @arg c f k there cell below ih =>
    obtain ⟨path, same⟩ := ih
    refine ⟨path ++ [k], ?_⟩
    intro rest
    have at_c : Term.deref h.cells h.len c = c := (deref_within whole alive there).1.deref
    have at_arg := (deref_within whole alive (there.arg cell below)).1.deref
    rw [List.append_assoc, same, List.singleton_append, ← tree_deref at_arg]
    simp only [tree, at_c, cell, shape, if_pos below]

/-- The variables of a term are the unbound cells it is read through. -/
theorem occurs_iff (whole : Whole tb h.cells h.len live) (alive : live t) (unbound : h.cells v = .ref v) :
    Term.Occurs tb h.cells h.len t v ↔ Within tb h t v := by
  constructor
  · rintro ⟨path, at_path⟩
    exact within_of_tree .root at_path
  · intro within
    obtain ⟨path, same⟩ := tree_of_within whole alive within
    have at_v : Term.deref h.cells h.len v = v := (deref_within whole alive within).1.deref
    refine ⟨path ++ [], (same []).trans ?_⟩
    simp only [tree, at_v, unbound, shape]

/-- Everything on a list of cells is read in the term. -/
def Inside (tb : Tables) (h : Heap) (t : Nat) (cells : List Nat) : Prop := ∀ a ∈ cells, Within tb h t (h.deref a)

theorem Inside.args {a f : Nat} {rest : List Nat} (inside : Inside tb h t (a :: rest))
    (cell : h.cells (h.deref a) = .func f) :
    Inside tb h t ((argsOf (h.deref a) (tb.arity f)).reverse ++ rest) := by
  intro b mem
  rcases List.mem_append.mp mem with mem | mem
  · rw [List.mem_reverse, mem_argsOf] at mem
    obtain ⟨k, below, rfl⟩ := mem
    exact (inside a List.mem_cons_self).arg cell below
  · exact inside b (List.mem_cons_of_mem _ mem)

/-- A yes of `coco_factor_holds` is right. -/
theorem holds_yes {fuel : Nat} (yes : holds tb h fuel v t = some true) : Within tb h t v := by
  obtain ⟨e, ran, found⟩ := Option.map_eq_some_iff.mp yes
  have keeps : ∀ q q', (Inside tb h t q.wl ∧ (q.found = true → Within tb h t v)) → holdsStep tb h v q = some q' →
      Inside tb h t q'.wl ∧ (q'.found = true → Within tb h t v) := by
    rintro q q' ⟨inside, seen⟩ next
    unfold holdsStep at next
    split at next
    · cases next
    split at next
    · cases next
    · rename_i x rest wl
      rw [wl] at inside
      have below : Inside tb h t rest := fun a mem => inside a (List.mem_cons_of_mem _ mem)
      simp only at next
      split at next
      · rename_i at_v
        obtain rfl := Option.some.inj next
        exact ⟨below, fun _ => at_v ▸ inside x List.mem_cons_self⟩
      · split at next
        · rename_i f cell
          split at next
          · obtain rfl := Option.some.inj next
            exact ⟨below, seen⟩
          · obtain rfl := Option.some.inj next
            exact ⟨inside.args cell, seen⟩
        · obtain rfl := Option.some.inj next
          exact ⟨below, seen⟩
  have start : Inside tb h t [t] := by
    intro a mem
    rw [List.mem_singleton.mp mem]
    exact .root
  exact ((loop_reaches ran).1.invariant keeps ⟨start, fun no => (nomatch no)⟩).2 found

/-- `coco_factor_holds` finds the variable exactly when it is in the term. -/
theorem holds_exact (whole : Whole tb h.cells h.len live) (alive : live t) (v : Nat) :
    ∃ b, Settles (fun fuel => holds tb h fuel v t) b ∧ (b = true ↔ Within tb h t v) := by
  obtain ⟨b, settles, no⟩ := holds_spec whole alive v
  refine ⟨b, settles, ?_, ?_⟩
  · rintro rfl
    obtain ⟨enough, gives⟩ := settles
    exact holds_yes (gives enough le_rfl)
  · intro within
    by_contra not_true
    obtain ⟨Q, root, closed⟩ := no (by simpa using not_true)
    -- what the closed set has is never led to the variable
    have kept : ∀ {c}, Within tb h t c → ∃ a, Q a ∧ Leads h.cells h.len a c := by
      intro c within
      induction within with
      | root =>
        obtain ⟨d, leads, -⟩ := whole t alive
        have is : h.deref t = d := leads.deref
        exact ⟨t, root, is ▸ leads⟩
      | arg there cell below ih =>
        obtain ⟨a, in_q, leads⟩ := ih
        obtain ⟨d, leads', -⟩ := whole _ ((deref_within whole alive there).2 _ _ cell below)
        have is : h.deref _ = d := leads'.deref
        exact ⟨_, (closed _ _ in_q leads).2 _ _ cell below, is ▸ leads'⟩
    obtain ⟨a, in_q, leads⟩ := kept within
    exact (closed a v in_q leads).1 rfl

/-- The quick walk: what is on the stack is in the term, and what the term has of the
variable is under the stack. -/
structure SearchInv (tb : Tables) (h : Heap) (t v : Nat) (q : Search) : Prop where
  inside : Inside tb h t q.stk
  found : q.found = true → Within tb h t v
  missed : q.found = false → q.given = false → Within tb h t v → ∃ a ∈ q.stk, Within tb h a v

/-- The variable is at the end, or inside an argument. -/
theorem within_cases {a : Nat} (within : Within tb h a v) :
    h.deref a = v ∨ ∃ f k, h.cells (h.deref a) = .func f ∧ k < tb.arity f ∧ Within tb h (h.deref a + 1 + k) v := by
  induction within with
  | root => exact .inl rfl
  | @arg c f k there cell below ih =>
    right
    rcases ih with here | ⟨f', k', cell', below', rest⟩
    · subst here
      exact ⟨f, k, cell, below, .root⟩
    · exact ⟨f', k', cell', below', rest.arg cell below⟩

theorem SearchInv.step {q q' : Search} (before : SearchInv tb h t v q) (next : searchStep tb h v q = some q') :
    SearchInv tb h t v q' ∧ Lower (q'.budget, q'.stk.length) (q.budget, q.stk.length) := by
  obtain ⟨inside, found, missed⟩ := before
  cases stk : q.stk with
  | nil =>
    simp only [searchStep, stk] at next
    cases next
  | cons a rest =>
    rw [stk] at inside missed
    have less : rest.length < (a :: rest).length := Nat.lt_succ_self _
    have below : Inside tb h t rest := fun b mem => inside b (List.mem_cons_of_mem _ mem)
    have empty : Inside tb h t [] := fun _ mem => (nomatch mem)
    simp only [searchStep, stk] at next
    split at next
    · rename_i at_v
      obtain rfl := Option.some.inj next
      exact ⟨⟨empty, fun _ => at_v ▸ inside a List.mem_cons_self, fun no => (nomatch no)⟩,
        lower_of (.inr ⟨le_rfl, Nat.succ_pos _⟩)⟩
    · rename_i off
      -- a variable that was under this cell is under one of its arguments
      have onward : ∀ {new : List Nat}, (∀ f k, h.cells (h.deref a) = .func f → k < tb.arity f →
          h.deref a + 1 + k ∈ new) → q.found = false → q.given = false → Within tb h t v →
          ∃ b ∈ new ++ rest, Within tb h b v := by
        intro new args not_found not_given within
        obtain ⟨b, mem, under⟩ := missed not_found not_given within
        rcases List.mem_cons.mp mem with rfl | mem
        · obtain ⟨f, k, cell, lt, under⟩ := (within_cases under).resolve_left off
          exact ⟨_, List.mem_append_left _ (args f k cell lt), under⟩
        · exact ⟨b, List.mem_append_right _ mem, under⟩
      cases cell : h.cells (h.deref a) with
      | func f =>
        simp only [cell] at next
        split at next
        · obtain rfl := Option.some.inj next
          exact ⟨⟨empty, found, fun _ no => (nomatch no)⟩, lower_of (.inr ⟨le_rfl, Nat.succ_pos _⟩)⟩
        · rename_i room
          obtain rfl := Option.some.inj next
          refine ⟨⟨inside.args cell, found, onward ?_⟩, lower_of (.inl (by simp only; omega))⟩
          intro f' k cell' lt
          rw [cell] at cell'
          obtain rfl := Cell.func.inj cell'
          rw [List.mem_reverse]
          exact mem_argsOf.mpr ⟨k, lt, rfl⟩
      | _ =>
        simp only [cell] at next
        obtain rfl := Option.some.inj next
        refine ⟨⟨below, found, @onward [] ?_⟩, lower_of (.inr ⟨le_rfl, less⟩)⟩
        intro f k cell'
        rw [cell] at cell'
        cases cell'

theorem searchStep_stopped {q : Search} (stopped : searchStep tb h v q = none) : q.stk = [] := by
  cases stk : q.stk with
  | nil => rfl
  | cons a rest =>
    simp only [searchStep, stk] at stopped
    split at stopped
    · cases stopped
    · split at stopped
      · split at stopped <;> cases stopped
      · cases stopped

/-- `coco_occurs` finds the variable exactly when it is in the term. -/
theorem occurs_exact (whole : Whole tb h.cells h.len live) (alive : live t) (v : Nat) :
    ∃ b, Settles (fun fuel => occurs tb h fuel v t) b ∧ (b = true ↔ Within tb h t v) := by
  have start : SearchInv tb h t v ⟨[t], 64, false, false⟩ := by
    refine ⟨?_, fun no => (nomatch no), fun _ _ within => ⟨t, List.mem_cons_self, within⟩⟩
    intro a mem
    rw [List.mem_singleton.mp mem]
    exact .root
  obtain ⟨e, settles, inv, stopped⟩ := loop_settles lower_wf (fun q : Search => (q.budget, q.stk.length))
    (fun q q' before next => before.step next) start
  have none_ := searchStep_stopped stopped
  have decided : ∀ {b}, Settles (fun fuel => if e.found then some true else if e.given then holds tb h fuel v t
      else some false) b → Settles (fun fuel => occurs tb h fuel v t) b := by
    intro b answer
    exact settles.bind (g := fun q fuel => if q.found then some true else if q.given then holds tb h fuel v t
      else some false) answer
  cases found : e.found with
  | true =>
    refine ⟨true, decided (Settles.of_eq fun _ => by rw [if_pos found]), ?_⟩
    exact ⟨fun _ => inv.found found, fun _ => rfl⟩
  | false =>
    have not_found : ¬ e.found = true := by simp [found]
    cases given : e.given with
    | true =>
      obtain ⟨b, answer, exact_⟩ := holds_exact whole alive v
      refine ⟨b, decided (answer.congr fun fuel => ?_), exact_⟩
      simp only [if_neg not_found, if_pos given]
    | false =>
      have not_given : ¬ e.given = true := by simp [given]
      refine ⟨false, decided (Settles.of_eq fun _ => by simp only [if_neg not_found, if_neg not_given]), ?_⟩
      constructor
      · exact fun no => (nomatch no)
      · intro within
        obtain ⟨a, mem, -⟩ := inv.missed found given within
        rw [none_] at mem
        cases mem

/-- The question whether a term comes back to itself is answered right either way, the
quick walk never says yes of one that does, and an unbound variable is found in a term
exactly when it is one of its variables. -/
theorem acyclic_and_occurs (tb : Tables) (h : Heap) (live : Nat → Prop) (t : Nat)
    (whole : Whole tb h.cells h.len live) (alive : live t) :
    (∃ b, Settles (fun fuel => acyclic tb h fuel t) b ∧ (b = true ↔ ¬ Returns tb h t)) ∧
    (∃ b, Settles (fun fuel => acyclicQuick tb h fuel t) b ∧ (b = true → ¬ Returns tb h t)) ∧
    ∀ v, h.cells v = .ref v →
      ∃ b, Settles (fun fuel => occurs tb h fuel v t) b ∧ (b = true ↔ Term.Occurs tb h.cells h.len t v) := by
  refine ⟨?_, ?_, ?_⟩
  · obtain ⟨b, settles, yes⟩ := acyclic_spec whole alive
    refine ⟨b, settles, fun true_ => not_returns (yes true_), ?_⟩
    intro none_
    by_contra not_true
    have false_ : b = false := by simpa using not_true
    obtain ⟨enough, gives⟩ := settles
    exact none_ (acyclic_no ((gives enough le_rfl).trans (congrArg some false_)))
  · obtain ⟨b, settles, yes⟩ := acyclicQuick_spec tb h t
    exact ⟨b, settles, fun true_ => not_returns (yes true_)⟩
  · intro v unbound
    obtain ⟨b, settles, exact_⟩ := occurs_exact whole alive v
    exact ⟨b, settles, exact_.trans (occurs_iff whole alive unbound).symm⟩

/-- `X = f(X, Y)` comes back to itself, and has `Y` in it. -/
theorem knot_returns_and_occurs :
    knotBank.heap.cells 2 = .ref 2 ∧
    (∃ b, Settles (fun fuel => acyclic knotTables knotBank.heap fuel 0) b ∧
      (b = true ↔ ¬ Returns knotTables knotBank.heap 0)) ∧
    (∃ b, Settles (fun fuel => acyclicQuick knotTables knotBank.heap fuel 0) b ∧
      (b = true → ¬ Returns knotTables knotBank.heap 0)) ∧
    ∀ v, knotBank.heap.cells v = .ref v →
      ∃ b, Settles (fun fuel => occurs knotTables knotBank.heap fuel v 0) b ∧
        (b = true ↔ Term.Occurs knotTables knotBank.heap.cells 3 0 v) :=
  ⟨rfl, acyclic_and_occurs knotTables knotBank.heap (· < 3) 0 knot_whole (by decide)⟩

end Cocolog.Copy
