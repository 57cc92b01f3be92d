import Cocolog.Copy.Meetings
import Mathlib.Data.List.Forall2

/-! The factors of a term stand for the term: with every factor's variable bound to its
term, the template is the term over again. The factors that were kept are unbound in what
is stored, and it has no cycle. -/

set_option linter.all false

namespace Cocolog.Copy

open Cocolog.Lib Cocolog.Term Cocolog.Store

variable {tb : Tables} {h : Heap} {live : Nat → Prop} {d t v : Nat} {sh vs : List Nat}
  {C : Nat → Nat → Nat → Prop} {w w' : Walk} {m : Meeting}

/-- A variable of the term is itself, and factor `j` the `j`-th variable made for it. -/
def FactorVar (h : Heap) (sh : List Nat) (v x : Nat) : Prop :=
  (v < h.len ∧ h.cells v = .ref v ∧ x = v) ∨ ∃ j, sh[j]? = some v ∧ x = h.len + j

/-- The variables made for `n` factors. -/
def factorVars (h : Heap) (n : Nat) : List Nat := (List.range n).map (h.len + ·)

/-- The heap with the variables made, at the start of the copies. -/
def factorStart (h : Heap) (m : Meeting) : Walk := Walk.reserve ⟨h.cells, h.len, m.vm, [], none⟩ m.sh.length

theorem cutItem_leads {a c : Nat} (leads : Leads h.cells h.len a c) :
    cutItem h sh a =
      match h.cells c with
      | .ref _ => .var c
      | .func f => if c ∈ sh then .var c else .comp c f
      | cell => .atomic cell := by
  have is : h.deref a = c := leads.deref
  unfold cutItem
  rw [itemAt_eq, is]
  cases h.cells c <;> rfl

/-- The walk sees the term as it was. -/
structure Sees (h : Heap) (m : Meeting) (w : Walk) : Prop where
  same : ∀ i < h.len, w.cells i = h.cells i
  le : h.len ≤ w.len
  vars : w.vars = m.vm

theorem Sees.leads (sees : Sees h m w) {a c : Nat} (leads : Leads h.cells h.len a c) :
    deref w.cells w.len a = c ∧ w.cells c = h.cells c :=
  ⟨(leads.mono sees.same sees.le).deref, sees.same c leads.lt⟩

theorem factorStruct_eq (sees : Sees h m w) {c f : Nat} (inside : c < h.len) (cell : h.cells c = .func f) :
    factorStruct tb c w =
      (w.len, (w.pushStruct (.func f) (tb.arity f)).owe c (w.len + 1) (tb.arity f)) := by
  have some_ : w.len ≠ 0 := by
    have := sees.le
    omega
  simp only [factorStruct, sees.same c inside, cell, arityAt, if_neg some_]

theorem factorNode_leaf (meets : Meets tb h live d m) (sees : Sees h m w) {a c : Nat}
    (leads : Leads h.cells h.len a c) (leaf : ∀ s f, cutItem h m.sh a ≠ .comp s f) :
    ∃ x, factorNode tb (factorVars h m.sh.length) a w = (x, w) ∧
      Image (cutItem h m.sh) (FactorVar h m.sh) C w.cells w.len a x := by
  obtain ⟨at_, same⟩ := sees.leads leads
  have is : cutItem h m.sh a = _ := cutItem_leads leads
  have lt := leads.lt
  have le := sees.le
  cases cell : h.cells c with
  | func f =>
    simp only [cell] at is
    split at is
    · rename_i factor
      obtain ⟨j, at_j⟩ := List.getElem?_of_mem factor
      have below : j < m.sh.length := (List.getElem?_eq_some_iff.mp at_j).1
      have found := meets.numbered at_j
      refine ⟨h.len + j, ?_, ?_⟩
      · simp only [factorNode, at_, same, cell, sees.vars, found, if_pos (Nat.le_add_left 2 j),
          Nat.add_sub_cancel, factorVars]
        rw [List.getD_eq_getElem?_getD, List.getElem?_map, List.getElem?_range below]
        rfl
      · simp only [Image, is]
        exact .inr ⟨j, at_j, rfl⟩
    · exact absurd is (leaf _ _)
  | ref p =>
    simp only [cell] at is
    have self : h.cells c = .ref c := by
      rcases leads.ends with self | held
      · exact self
      · rw [cell] at held
        cases held
    refine ⟨c, by simp only [factorNode, at_, same, cell], ?_⟩
    simp only [Image, is]
    exact .inl ⟨lt, self, rfl⟩
  | _ =>
    simp only [cell] at is
    refine ⟨c, by simp only [factorNode, at_, same, cell], ?_⟩
    simp only [Image, is]
    exact ⟨same.trans cell, by omega, rfl⟩

theorem factorNode_comp (meets : Meets tb h live d m) (sees : Sees h m w) {a c s f : Nat}
    (leads : Leads h.cells h.len a c) (is : cutItem h m.sh a = .comp s f) :
    s = c ∧ h.cells c = .func f ∧ factorNode tb (factorVars h m.sh.length) a w =
      (w.len, (w.pushStruct (.func f) (tb.arity f)).owe s (w.len + 1) (tb.arity f)) := by
  obtain ⟨at_, same⟩ := sees.leads leads
  rw [cutItem_leads leads] at is
  split at is
  · cases is
  · rename_i f' cell
    split at is
    · cases is
    · rename_i not_factor
      obtain ⟨rfl, rfl⟩ := Item.comp.inj is
      refine ⟨rfl, cell, ?_⟩
      have struct_ : factorStruct tb c w = _ := factorStruct_eq sees leads.lt cell
      simp only [factorNode, at_, same, cell, sees.vars]
      split
      · rename_i st found
        rcases meets.factor found with rfl | ⟨-, at_j⟩
        · rw [if_neg (by omega)]
          exact struct_
        · exact absurd (List.mem_of_getElem? at_j) not_factor
      · exact struct_
  · cases is

/-- The copies so far: the template's root, and a term for every factor whose turn came. -/
structure Copies (tb : Tables) (h : Heap) (live : Nat → Prop) (m : Meeting) (t tmpl : Nat) (done bodies : List Nat)
    (C : Nat → Nat → Nat → Prop) (w : Walk) : Prop where
  built : Built True tb (cutItem h m.sh) (FactorVar h m.sh) C (factorStart h m).cells (factorStart h m).len w
  vars : w.vars = m.vm
  root : Image (cutItem h m.sh) (FactorVar h m.sh) C w.cells w.len t tmpl
  bodies : List.Forall₂ (fun s b => ∃ f, h.cells s = .func f ∧ C s f b) done bodies
  alive : ∀ fr ∈ w.frames, ∀ k < fr.n, live (fr.src + 1 + k)

theorem factorStart_cells (h : Heap) (m : Meeting) {i : Nat} (lt : i < h.len) :
    (factorStart h m).cells i = h.cells i := if_neg (by simp only; omega)

theorem factorStart_var (h : Heap) (m : Meeting) {j : Nat} (lt : j < m.sh.length) :
    (factorStart h m).cells (h.len + j) = .ref (h.len + j) := if_pos (by simp only; omega)

theorem factorStart_len (h : Heap) (m : Meeting) : (factorStart h m).len = h.len + m.sh.length := rfl

theorem Copies.sees {tmpl : Nat} {done bodies : List Nat} (copies : Copies tb h live m t tmpl done bodies C w) :
    Sees h m w := by
  have grown := copies.built.grown
  rw [factorStart_len] at grown
  refine ⟨?_, by omega, copies.vars⟩
  intro i lt
  rw [copies.built.kept i (by rw [factorStart_len]; omega), factorStart_cells h m lt]

/-- A turn of the filling loop. -/
theorem Copies.turn {tmpl : Nat} {done bodies : List Nat} {fr : Frame} {rest : List Frame}
    (whole : Whole tb h.cells h.len live) (meets : Meets tb h live d m)
    (copies : Copies tb h live m t tmpl done bodies C w) (frames : w.frames = fr :: rest) (below : fr.i < fr.n) :
    ∃ w', fillStep (factorNode tb (factorVars h m.sh.length)) w = some w' ∧
      (w'.frames = advance fr rest ∨ ∃ s f, cutItem h m.sh (fr.src + 1 + fr.i) = .comp s f ∧
        w'.frames = (({ w with frames := advance fr rest } : Walk).owe s (w.len + 1) (tb.arity f)).frames) ∧
      ∃ C', Copies tb h live m t tmpl done bodies C' w' := by
  obtain ⟨w', next⟩ : ∃ w', fillStep (factorNode tb (factorVars h m.sh.length)) w = some w' := by
    simp only [fillStep, frames, if_neg (Nat.not_le_of_lt below)]
    exact ⟨_, rfl⟩
  refine ⟨w', next, ?_⟩
  have at_ : fr.src + (fr.i + 1) = fr.src + 1 + fr.i := by omega
  have sees := copies.sees
  have sees' : Sees h m { w with frames := advance fr rest } := ⟨sees.same, sees.le, sees.vars⟩
  have alive := copies.alive
  rw [frames] at alive
  have alive' : ∀ fr' ∈ advance fr rest, ∀ k < fr'.n, live (fr'.src + 1 + k) :=
    frames_advance alive (alive fr List.mem_cons_self)
  obtain ⟨c, leads, args⟩ := whole _ (alive fr List.mem_cons_self fr.i below)
  by_cases comp : ∃ s f, cutItem h m.sh (fr.src + 1 + fr.i) = .comp s f
  · obtain ⟨s, f, is⟩ := comp
    obtain ⟨rfl, cell, node⟩ := factorNode_comp meets sees' leads is
    rw [← at_] at node
    obtain ⟨⟨vars, -, -, moved⟩, C', placed, more, images⟩ := copies.built.turn_comp frames below is node next
    refine ⟨.inr ⟨s, f, is, moved⟩, C', placed, vars.trans copies.vars, images _ _ copies.root, ?_, ?_⟩
    · refine copies.bodies.imp ?_
      rintro s b ⟨f, cell, block⟩
      exact ⟨f, cell, more s f b block⟩
    · rw [moved]
      intro fr' mem
      rcases owe_frames { w with frames := advance fr rest } s (w.len + 1) (tb.arity f) with same | pushed
      · rw [same] at mem
        exact alive' fr' mem
      · rw [pushed] at mem
        rcases List.mem_cons.mp mem with rfl | mem
        · exact fun k lt => args f k cell lt
        · exact alive' fr' mem
  · have leaf : ∀ s f, cutItem h m.sh (fr.src + 1 + fr.i) ≠ .comp s f := fun s f is => comp ⟨s, f, is⟩
    obtain ⟨x, node, image⟩ := factorNode_leaf (C := C) meets sees' leads leaf
    rw [← at_] at node
    obtain ⟨rfl, placed, images⟩ := copies.built.turn_leaf frames below node rfl (fun _ _ => rfl) le_rfl
      (fun _ _ h => h) (fun _ _ h => .inl h) image (fun _ => leaf) next
    exact ⟨.inl rfl, C, placed, copies.vars, images _ _ copies.root, copies.bodies, alive'⟩

/-- A factor's term laid down. -/
theorem Copies.lay {tmpl s f : Nat} {done bodies : List Nat} (copies : Copies tb h live m t tmpl done bodies C w)
    (inside : s < h.len) (cell : h.cells s = .func f) (alive : ∀ k < tb.arity f, live (s + 1 + k)) :
    (factorStruct tb s w).1 = w.len ∧ (∀ fr ∈ (factorStruct tb s w).2.frames,
        fr ∈ w.frames ∨ (fr.src = s ∧ fr.n = tb.arity f)) ∧
      ∃ C', Copies tb h live m t tmpl (done ++ [s]) (bodies ++ [w.len]) C' (factorStruct tb s w).2 := by
  rw [factorStruct_eq copies.sees inside cell]
  have frames : ∀ fr ∈ ((w.pushStruct (.func f) (tb.arity f)).owe s (w.len + 1) (tb.arity f)).frames,
      fr ∈ w.frames ∨ (fr.src = s ∧ fr.n = tb.arity f) := by
    intro fr mem
    rcases owe_frames (w.pushStruct (.func f) (tb.arity f)) s (w.len + 1) (tb.arity f) with same | pushed
    · rw [same] at mem
      exact .inl mem
    · rw [pushed] at mem
      rcases List.mem_cons.mp mem with rfl | mem
      · exact .inr ⟨rfl, rfl⟩
      · exact .inl mem
  refine ⟨rfl, frames, _, copies.built.lay s f, (Walk.owe_vars ..).trans copies.vars, ?_, ?_, ?_⟩
  · rw [Walk.owe_cells, Walk.owe_len, Walk.pushStruct_len]
    exact copies.root.mono (fun _ _ h => h) (fun _ _ _ h => .inl h)
      (fun i lt _ => w.pushStruct_old _ _ lt) (by omega)
  · refine List.rel_append ?_ ?_
    · exact copies.bodies.imp fun s b ⟨f, cell, block⟩ => ⟨f, cell, .inl block⟩
    · exact .cons ⟨f, cell, .inr ⟨rfl, rfl, rfl⟩⟩ .nil
  · intro fr mem k lt
    rcases frames fr mem with old | ⟨src, n⟩
    · exact copies.alive fr old k lt
    · rw [src]
      exact alive k (by omega)

/-- Every factor's term laid down. -/
theorem Copies.layAll {tmpl : Nat} {rest done bodies : List Nat} (meets : Meets tb h live d m)
    (factors : ∀ s ∈ rest, s ∈ m.sh) (copies : Copies tb h live m t tmpl done bodies C w) :
    (∀ fr ∈ (factorBodies tb rest w).2.frames, fr ∈ w.frames ∨
        ∃ f, m.vm.lookup fr.src ≠ none ∧ h.cells fr.src = .func f ∧ fr.n = tb.arity f) ∧
      ∃ C', Copies tb h live m t tmpl (done ++ rest) (bodies ++ (factorBodies tb rest w).1) C'
        (factorBodies tb rest w).2 := by
  induction rest generalizing done bodies C w with
  | nil =>
    simp only [factorBodies, List.append_nil]
    exact ⟨fun _ mem => .inl mem, C, copies⟩
  | cons s rest ih =>
    obtain ⟨j, at_j⟩ := List.getElem?_of_mem (factors s List.mem_cons_self)
    have found := meets.numbered at_j
    obtain ⟨inside, ⟨f, cell⟩, alive⟩ := meets.met found
    obtain ⟨first, frames, C', laid⟩ := copies.lay inside cell fun k => alive f k cell
    obtain ⟨frames', C'', all⟩ := ih (fun s' mem => factors s' (List.mem_cons_of_mem _ mem)) laid
    simp only [factorBodies]
    refine ⟨?_, C'', ?_⟩
    · intro fr mem
      rcases frames' fr mem with old | new_
      · rcases frames fr old with old | ⟨src, n⟩
        · exact .inl old
        · exact .inr ⟨f, by rw [src, found]; simp, by rw [src]; exact cell, n⟩
      · exact .inr new_
    · rw [first]
      simpa only [List.append_assoc, List.singleton_append] using all

/-- The template's root. -/
theorem Copies.start (whole : Whole tb h.cells h.len live) (alive : live t) (meets : Meets tb h live (h.deref t) m)
    {f : Nat} (cell : h.cells (h.deref t) = .func f) :
    (∀ fr ∈ (factorNode tb (factorVars h m.sh.length) (h.deref t) (factorStart h m)).2.frames,
        m.vm.lookup fr.src ≠ none ∧ h.cells fr.src = .func f ∧ fr.n = tb.arity f) ∧
      ∃ C, Copies tb h live m t (factorNode tb (factorVars h m.sh.length) (h.deref t) (factorStart h m)).1 [] [] C
        (factorNode tb (factorVars h m.sh.length) (h.deref t) (factorStart h m)).2 := by
  obtain ⟨c, leads, args⟩ := whole t alive
  have is : h.deref t = c := leads.deref
  rw [is] at meets cell ⊢
  have sees : Sees h m (factorStart h m) :=
    ⟨fun i lt => factorStart_cells h m lt, by rw [factorStart_len]; omega, rfl⟩
  have built : Built True tb (cutItem h m.sh) (FactorVar h m.sh) (fun _ _ _ => False) (factorStart h m).cells
      (factorStart h m).len (factorStart h m) := by
    apply Built.start _ rfl
    intro v y mapped
    rcases mapped with ⟨lt, self, rfl⟩ | ⟨j, at_j, rfl⟩
    · exact ⟨by rw [factorStart_cells h m lt, self], by rw [factorStart_len]; omega⟩
    · have below : j < m.sh.length := (List.getElem?_eq_some_iff.mp at_j).1
      exact ⟨factorStart_var h m below, by rw [factorStart_len]; omega⟩
  -- the root's cell and the term lead to the same compound
  have same : cutItem h m.sh t = cutItem h m.sh c := by
    rw [cutItem_leads leads, cutItem_leads leads.last]
  by_cases comp : ∃ s f, cutItem h m.sh c = .comp s f
  · obtain ⟨s, f', comp⟩ := comp
    obtain ⟨rfl, cell', node⟩ := factorNode_comp meets sees leads.last comp
    rw [cell] at cell'
    obtain rfl := Cell.func.inj cell'
    rw [node]
    have frames : ∀ fr ∈ (((factorStart h m).pushStruct (.func f) (tb.arity f)).owe s
        ((factorStart h m).len + 1) (tb.arity f)).frames, fr.src = s ∧ fr.n = tb.arity f := by
      intro fr mem
      rcases owe_frames ((factorStart h m).pushStruct (.func f) (tb.arity f)) s ((factorStart h m).len + 1)
        (tb.arity f) with old | pushed
      · rw [old] at mem
        cases mem
      · rw [pushed] at mem
        rcases List.mem_cons.mp mem with rfl | mem
        · exact ⟨rfl, rfl⟩
        · cases mem
    refine ⟨?_, _, built.lay s f, Walk.owe_vars .., ?_, .nil, ?_⟩
    · intro fr mem
      obtain ⟨src, n⟩ := frames fr mem
      rw [src]
      exact ⟨meets.root, cell, n⟩
    · simp only [Image, same, comp]
      exact .inr ⟨trivial, trivial, trivial⟩
    · intro fr mem k lt
      obtain ⟨src, n⟩ := frames fr mem
      rw [src]
      exact args f k cell (by omega)
  · have leaf : ∀ s f, cutItem h m.sh c ≠ .comp s f := fun s f is => comp ⟨s, f, is⟩
    obtain ⟨x, node, image⟩ := factorNode_leaf (C := fun _ _ _ => False) meets sees leads.last leaf
    rw [node]
    refine ⟨fun fr mem => (by cases mem), _, built, rfl, ?_, .nil, fun fr mem => by cases mem⟩
    unfold Image at image ⊢
    rw [same]
    exact image

/-- The template and the factors' terms, all copied. -/
theorem copies_spec (whole : Whole tb h.cells h.len live) (alive : live t) (meets : Meets tb h live (h.deref t) m)
    {f : Nat} (cell : h.cells (h.deref t) = .func f) :
    let tmpl := factorNode tb (factorVars h m.sh.length) (h.deref t) (factorStart h m)
    let bodies := factorBodies tb m.sh tmpl.2
    ∃ w C, Settles (fun fuel => loop (fillStep (factorNode tb (factorVars h m.sh.length))) fuel bodies.2) w ∧
      Copies tb h live m t tmpl.1 m.sh bodies.1 C w ∧ w.frames = [] := by
  intro tmpl bodies
  obtain ⟨first, C₀, start⟩ := Copies.start whole alive meets cell
  obtain ⟨frames, C₁, laid⟩ := start.layAll meets (fun s mem => mem)
  simp only [List.nil_append] at laid
  have turns : Turns tb (cutItem h m.sh) (fillStep (factorNode tb (factorVars h m.sh.length)))
      fun w => ∃ C, Copies tb h live m t tmpl.1 m.sh bodies.1 C w := by
    refine ⟨?_, ?_, ?_⟩
    · rintro w w' ⟨C, copies⟩ next
      cases top : w.frames with
      | nil =>
        rw [fillStep_nil top] at next
        cases next
      | cons fr rest =>
        by_cases done : fr.n ≤ fr.i
        · rw [fillStep_drop top done, Option.some.injEq] at next
          subst next
          refine ⟨C, copies.built.drop top done, copies.vars, copies.root, copies.bodies, ?_⟩
          intro fr' mem
          exact copies.alive fr' (by rw [top]; exact List.mem_cons_of_mem _ mem)
        · obtain ⟨w'', next', -, more⟩ := copies.turn whole meets top (Nat.lt_of_not_le done)
          obtain rfl := Option.some.inj (next.symm.trans next')
          exact more
    · rintro w fr rest ⟨C, copies⟩ top done
      exact ⟨_, fillStep_drop top done, rfl⟩
    · rintro w fr rest ⟨C, copies⟩ top below
      obtain ⟨w', next, moved, -⟩ := copies.turn whole meets top below
      refine ⟨w', next, ?_⟩
      rcases moved with moved | ⟨s, f', is, moved⟩
      · exact .inr (.inl moved)
      · rcases owe_frames { w with frames := advance fr rest } s (w.len + 1) (tb.arity f') with same | pushed
        · exact .inr (.inl (moved.trans same))
        · exact .inr (.inr ⟨s, f', w.len + 1, is, moved.trans pushed⟩)
  -- every frame at the start is of a compound that was met
  obtain ⟨w, reached, ⟨C, copies⟩, none_⟩ := turns.out ⟨C₁, laid⟩ (by
    intro fr mem k _ lt
    rcases frames fr mem with old | ⟨f', met, cell', n⟩
    · obtain ⟨met, cell', n⟩ := first fr old
      exact meets.cut met cell' (by omega)
    · exact meets.cut met cell' (by omega))
  exact ⟨w, C, loop_steps reached (loop_stop (fillStep_nil none_)), copies, none_⟩

end Cocolog.Copy
