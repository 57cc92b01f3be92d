import Cocolog.Copy.RoundTrip

/-! A heap term copied on the heap. The walk that keeps no compound is tried first, under
a ceiling; past it the term is copied by the walk that has every compound in the map
beside the variables, so that a compound met again is the copy already made. That walk
ends on every term, a cyclic one too, and leaves the term over again. -/

set_option linter.all false

namespace Cocolog.Copy

open Cocolog.Lib Cocolog.Term Cocolog.Store

/-- `coco_new_var` and `coco_varmap_intern`: a variable met again gives the new cell back. -/
def copyVar (t : Nat) (w : Walk) : Nat × Walk :=
  match w.vars.lookup t with
  | some v => (v, { w.push (.ref w.len) with len := w.len })
  | none => (w.len, { w.push (.ref w.len) with vars := (t, w.len) :: w.vars })

/-- `coco_copy_node`. -/
def copyNode (tb : Tables) (t : Nat) (w : Walk) : Nat × Walk :=
  let t := Term.deref w.cells w.len t
  match w.cells t with
  | .ref _ => copyVar t w
  | .func f =>
    if past w.wceil w.len then (w.len, { w.push (.func f) with wceil := some 0, frames := [] })
    else (w.len, (w.pushStruct (.func f) (tb.arity f)).owe t (w.len + 1) (tb.arity f))
  | c => (w.len, w.push c)

/-- `coco_copy_walk`. -/
def copyWalk (tb : Tables) (fuel t : Nat) (w : Walk) : Option (Nat × Walk) :=
  (loop (fillStep (copyNode tb)) fuel (copyNode tb t w).2).map fun w' => ((copyNode tb t w).1, w')

/-- `coco_copy_shared_node`. -/
def copySharedNode (tb : Tables) (t : Nat) (w : Walk) : Nat × Walk :=
  let t := Term.deref w.cells w.len t
  match w.cells t with
  | .ref _ => copyVar t w
  | .func f =>
    match w.vars.lookup t with
    | some b => (b, w)
    | none =>
      (w.len, { (w.pushStruct (.func f) (tb.arity f)).owe t (w.len + 1) (tb.arity f) with
        vars := (t, w.len) :: w.vars })
  | c => (w.len, w.push c)

/-- `coco_copy_shared`. -/
def copyShared (tb : Tables) (fuel t : Nat) (h : Heap) : Option (Nat × Heap) :=
  (loop (fillStep (copySharedNode tb)) fuel (copySharedNode tb t (.over_ h none)).2).map fun w =>
    ((copySharedNode tb t (.over_ h none)).1, ⟨w.cells, w.len⟩)

/-- The ceiling of a copy. -/
def ceiling (h : Heap) : Nat := h.len * 3 + 64

/-- `coco_copy`. -/
def copy (tb : Tables) (fuel t : Nat) (h : Heap) : Option (Nat × Heap) :=
  (copyWalk tb fuel t (.over_ h (some (ceiling h)))).bind fun r =>
    if r.2.wceil = some 0 then copyShared tb fuel t ⟨r.2.cells, h.len⟩
    else some (r.1, ⟨r.2.cells, r.2.len⟩)

/-- A walk over a heap it has left as it was. -/
def Reads (h : Heap) (w : Walk) : Prop := (∀ i < h.len, w.cells i = h.cells i) ∧ h.len ≤ w.len

variable {tb : Tables} {h : Heap} {live : Nat → Prop} {t r : Nat} {w w' : Walk}

/-- The walk sees the term as it was. -/
theorem Reads.deref (reads : Reads h w) (whole : Whole tb h.cells h.len live) {a : Nat} (alive : live a) :
    Term.deref w.cells w.len a = h.deref a ∧ w.cells (h.deref a) = h.cells (h.deref a) := by
  obtain ⟨d, leads, -⟩ := whole a alive
  have is : h.deref a = d := leads.deref
  rw [is]
  exact ⟨(leads.mono reads.1 reads.2).deref, reads.1 d leads.lt⟩

/-- The arguments the frames have to fill are live. -/
def Awaits (live : Nat → Prop) (frames : List Frame) : Prop :=
  ∀ fr ∈ frames, ∀ k < fr.n, live (fr.src + 1 + k)

theorem Awaits.advance {fr : Frame} {rest : List Frame} (awaits : Awaits live (fr :: rest)) :
    Awaits live (advance fr rest) := by
  intro fr' mem
  unfold Copy.advance at mem
  split at mem
  · exact awaits fr' (List.mem_cons_of_mem _ mem)
  · rcases List.mem_cons.mp mem with rfl | mem
    · exact awaits fr List.mem_cons_self
    · exact awaits fr' (List.mem_cons_of_mem _ mem)

theorem Awaits.owe {src dst n : Nat} (awaits : Awaits live w.frames) (args : ∀ k < n, live (src + 1 + k)) :
    Awaits live (w.owe src dst n).frames := by
  intro fr mem
  rcases owe_frames w src dst n with same | more
  · rw [same] at mem
    exact awaits fr mem
  · rw [more] at mem
    rcases List.mem_cons.mp mem with rfl | mem
    · exact args
    · exact awaits fr mem

/-- The arguments of a compound of a live term are live. -/
theorem live_args (whole : Whole tb h.cells h.len live) {a s f : Nat} (alive : live a)
    (is : itemAt h.cells h.len a = .comp s f) :
    s < h.len ∧ h.cells s = .func f ∧ ∀ k < tb.arity f, live (s + 1 + k) := by
  obtain ⟨d, leads, args⟩ := whole a alive
  obtain ⟨rfl, cell⟩ := itemAt_func leads is
  exact ⟨leads.lt, cell, fun k lt => args f k cell lt⟩

/- The walk that keeps its compounds. -/

/-- The variables of the map. -/
def MetVar (h : Heap) (w : Walk) (v y : Nat) : Prop := Met w v y ∧ (h.cells v).isRef = true

/-- The compounds of the map. -/
def MetComp (h : Heap) (w : Walk) (s f b : Nat) : Prop := Met w s b ∧ h.cells s = .func f

/-- The walk so far: what is in the map is laid down, and the root has its image. -/
structure Sharing (tb : Tables) (h : Heap) (live : Nat → Prop) (t r : Nat) (w : Walk) : Prop where
  built : Built False tb (itemAt h.cells h.len) (MetVar h w) (MetComp h w) h.cells h.len w
  root : Image (itemAt h.cells h.len) (MetVar h w) (MetComp h w) w.cells w.len t r
  own : Own w h.len
  inside : ∀ {v y}, Met w v y → y < w.len
  awaits : Awaits live w.frames

theorem metVar_congr (vars : w'.vars = w.vars) : MetVar h w' = MetVar h w ∧ MetComp h w' = MetComp h w := by
  unfold MetVar MetComp
  rw [met_congr vars]
  exact ⟨rfl, rfl⟩

/-- A compound entered in the map. -/
theorem metComp_cons {s f b : Nat} (cell : h.cells s = .func f) (new : w.vars.lookup s = none)
    (vars : w'.vars = (s, b) :: w.vars) :
    MetVar h w' = MetVar h w ∧
      MetComp h w' = fun s' f' b' => MetComp h w s' f' b' ∨ (s' = s ∧ f' = f ∧ b' = b) := by
  have met : ∀ v y, Met w' v y ↔ Met w v y ∨ (v = s ∧ y = b) := by
    intro v y
    unfold Met
    rw [vars]
    exact met_cons new
  constructor
  · funext v y
    simp only [MetVar, met, eq_iff_iff]
    constructor
    · rintro ⟨old | ⟨rfl, -⟩, ref⟩
      · exact ⟨old, ref⟩
      · rw [cell] at ref
        cases ref
    · exact fun ⟨old, ref⟩ => ⟨.inl old, ref⟩
  · funext s' f' b'
    simp only [MetComp, met, eq_iff_iff]
    constructor
    · rintro ⟨old | ⟨rfl, rfl⟩, cell'⟩
      · exact .inl ⟨old, cell'⟩
      · rw [cell] at cell'
        exact .inr ⟨rfl, (Cell.func.inj cell').symm, rfl⟩
    · rintro (⟨old, cell'⟩ | ⟨rfl, rfl, rfl⟩)
      · exact ⟨.inl old, cell'⟩
      · exact ⟨.inr ⟨rfl, rfl⟩, cell⟩

/-- What a node that is no compound leaves, and its image. -/
theorem sharedNode_leaf {C : Nat → Nat → Nat → Prop} {a : Nat} (whole : Whole tb h.cells h.len live)
    (alive : live a) (reads : Reads h w) (own : Own w h.len) (inside : ∀ {v y}, Met w v y → y < w.len)
    (leaf : ∀ s f, itemAt h.cells h.len a ≠ .comp s f) :
    ∃ x w', copySharedNode tb a w = (x, w') ∧ w'.frames = w.frames ∧ w.len ≤ w'.len ∧
      (∀ i < w.len, w'.cells i = w.cells i) ∧ (∀ v y, MetVar h w v y → MetVar h w' v y) ∧
      (∀ v y, MetVar h w' v y → MetVar h w v y ∨ (w.len ≤ y ∧ y < w'.len ∧ w'.cells y = .ref y)) ∧
      MetComp h w' = MetComp h w ∧ Image (itemAt h.cells h.len) (MetVar h w') C w'.cells w'.len a x ∧
      Own w' h.len ∧ (∀ {v y}, Met w' v y → y < w'.len) ∧ unmet h.len w'.vars ≤ unmet h.len w.vars := by
  obtain ⟨at_a, same⟩ := reads.deref whole alive
  have is := itemAt_eq h a
  cases cell : h.cells (h.deref a) with
  | func f =>
    simp only [cell] at is
    exact absurd is (leaf _ _)
  | ref p =>
    simp only [cell] at is
    have node : copySharedNode tb a w = copyVar (h.deref a) w := by
      simp only [copySharedNode, at_a, same, cell]
    cases found : w.vars.lookup (h.deref a) with
    | some v =>
      have met : Met { w.push (.ref w.len) with len := w.len } = Met w := met_congr rfl
      refine ⟨v, { w.push (.ref w.len) with len := w.len }, ?_, rfl, le_rfl, fun i lt => w.push_old _ lt, ?_, ?_, ?_,
        ?_, own.congr rfl, inside, le_rfl⟩
      · rw [node]
        simp only [copyVar, found]
      · exact fun v y old => old
      · exact fun v y old => .inl old
      · exact (metVar_congr rfl).2
      · simp only [Image, is]
        exact ⟨found, by rw [cell]; rfl⟩
    | none =>
      have met : ∀ v y, Met { w.push (.ref w.len) with vars := (h.deref a, w.len) :: w.vars } v y ↔
          Met w v y ∨ (v = h.deref a ∧ y = w.len) := fun v y => met_cons found
      refine ⟨w.len, { w.push (.ref w.len) with vars := (h.deref a, w.len) :: w.vars }, ?_, rfl, Nat.le_succ _,
        fun i lt => w.push_old _ lt, fun v y old => ⟨(met v y).mpr (.inl old.1), old.2⟩, ?_, ?_, ?_, ?_, ?_,
        unmet_le ..⟩
      · rw [node]
        simp only [copyVar, found]
      · rintro v y ⟨mapped, ref⟩
        rcases (met v y).mp mapped with old | ⟨-, rfl⟩
        · exact .inl ⟨old, ref⟩
        · exact .inr ⟨le_rfl, Nat.lt_succ_self _, w.push_new _⟩
      · funext s f b
        simp only [MetComp, met, eq_iff_iff]
        constructor
        · rintro ⟨old | ⟨rfl, -⟩, cell'⟩
          · exact ⟨old, cell'⟩
          · rw [cell] at cell'
            cases cell'
        · rintro ⟨old, cell'⟩
          exact ⟨.inl old, cell'⟩
      · simp only [Image, is]
        exact ⟨(met _ _).mpr (.inr ⟨rfl, rfl⟩), by rw [cell]; rfl⟩
      · exact own.cons found (fun v' mapped => Nat.lt_irrefl _ (inside mapped)) reads.2 rfl
      · intro v y mapped
        rcases (met v y).mp mapped with old | ⟨-, rfl⟩
        · exact Nat.lt_succ_of_lt (inside old)
        · exact Nat.lt_succ_self _
  | _ =>
    simp only [cell] at is
    refine ⟨w.len, w.push (h.cells (h.deref a)), ?_, rfl, Nat.le_succ _, fun i lt => w.push_old _ lt,
      fun _ _ h => h, fun _ _ h => .inl h, (metVar_congr rfl).2, ?_, own.congr rfl,
      fun mapped => Nat.lt_succ_of_lt (inside mapped), le_rfl⟩
    · simp only [copySharedNode, at_a, same, cell]
    · simp only [Image, is]
      refine ⟨?_, Nat.lt_succ_self _, rfl⟩
      rw [w.push_new, cell]

theorem sharedNode_comp {a s f : Nat} (whole : Whole tb h.cells h.len live) (alive : live a) (reads : Reads h w)
    (is : itemAt h.cells h.len a = .comp s f) :
    copySharedNode tb a w =
      match w.vars.lookup s with
      | some b => (b, w)
      | none =>
        (w.len, { (w.pushStruct (.func f) (tb.arity f)).owe s (w.len + 1) (tb.arity f) with
          vars := (s, w.len) :: w.vars }) := by
  obtain ⟨at_a, same⟩ := reads.deref whole alive
  rw [itemAt_eq] at is
  split at is
  · cases is
  · rename_i f' cell
    obtain ⟨rfl, rfl⟩ := Item.comp.inj is
    simp only [copySharedNode, at_a, same, cell]
  · cases is

theorem Sharing.reads (sharing : Sharing tb h live t r w) : Reads h w := ⟨sharing.built.kept, sharing.built.grown⟩

/-- What a turn that places an argument does. -/
theorem Sharing.turn {fr : Frame} {rest : List Frame} (whole : Whole tb h.cells h.len live)
    (sharing : Sharing tb h live t r w) (frames : w.frames = fr :: rest) (below : fr.i < fr.n)
    (next : fillStep (copySharedNode tb) w = some w') :
    Sharing tb h live t r w' ∧ Lower (unmet h.len w'.vars, work w'.frames) (unmet h.len w.vars, work w.frames) := by
  have reads := sharing.reads
  obtain ⟨built, root, own, inside, awaits⟩ := sharing
  have at_ : fr.src + (fr.i + 1) = fr.src + 1 + fr.i := by omega
  rw [frames] at awaits ⊢
  have alive := awaits fr List.mem_cons_self fr.i below
  have later := awaits.advance
  have reads' : Reads h { w with frames := advance fr rest } := reads
  by_cases comp : ∃ s f, itemAt h.cells h.len (fr.src + 1 + fr.i) = .comp s f
  · obtain ⟨s, f, is⟩ := comp
    obtain ⟨in_heap, cell, args⟩ := live_args whole alive is
    have node := sharedNode_comp whole alive reads' is
    cases found : w.vars.lookup s with
    | some b =>
      -- the copy already made
      simp only [found] at node
      rw [← at_] at node
      have image : Image (itemAt h.cells h.len) (MetVar h w) (MetComp h w) w.cells w.len (fr.src + 1 + fr.i) b := by
        simp only [Image, is]
        exact ⟨found, cell⟩
      obtain ⟨rfl, placed, images⟩ := built.turn_leaf frames below node rfl (fun _ _ => rfl) le_rfl
        (fun _ _ h => h) (fun _ _ h => .inl h) image (fun no => no.elim) next
      exact ⟨⟨placed, images t r root, own.congr rfl, inside, later⟩, lower_of (.inr ⟨le_rfl, work_advance fr rest⟩)⟩
    | none =>
      simp only [found] at node
      simp only [fillStep, frames, if_neg (Nat.not_le_of_lt below), at_, node, Option.some.injEq] at next
      have vars : w'.vars = (s, w.len) :: w.vars := by
        rw [← next]
        rfl
      have len : w'.len = w.len + 1 + tb.arity f := by
        rw [← next]
        simp only [Walk.setArg, Walk.owe_len, Walk.pushStruct_len]
      have cells : w'.cells =
          Function.update (w.pushStruct (.func f) (tb.arity f)).cells (fr.dst + fr.i) (.ref w.len) := by
        rw [← next]
        simp only [Walk.setArg, Walk.owe_cells]
        rfl
      have moved : w'.frames =
          (({ w with frames := advance fr rest } : Walk).owe s (w.len + 1) (tb.arity f)).frames := by
        rw [← next]
        unfold Walk.owe Walk.setArg
        split <;> rfl
      obtain ⟨vars_same, comps⟩ := metComp_cons cell found vars
      refine ⟨⟨?_, ?_, ?_, ?_, ?_⟩, lower_of (.inl ?_)⟩
      · rw [vars_same, comps]
        exact built.comp frames below is cells len moved
      · rw [vars_same, comps, cells, len]
        refine root.mono (fun _ _ h => h) (fun _ _ _ h => .inl h) ?_ (by omega)
        exact built.held frames below (fun i lt => w.pushStruct_old _ _ lt) _
      · exact own.cons found (fun v' mapped => Nat.lt_irrefl _ (inside mapped)) reads.2 vars
      · intro v y mapped
        unfold Met at mapped
        rw [vars] at mapped
        rcases (met_cons found).mp mapped with old | ⟨-, rfl⟩
        · exact Nat.lt_of_lt_of_le (inside old) (by omega)
        · omega
      · rw [moved]
        exact later.owe args
      · rw [vars]
        exact unmet_lt _ in_heap found
  · have leaf : ∀ s f, itemAt h.cells h.len (fr.src + 1 + fr.i) ≠ .comp s f := fun s f is => comp ⟨s, f, is⟩
    obtain ⟨x, w₁, node, same_frames, le, same, older, newer, comps, image, own', inside', fewer⟩ :=
      sharedNode_leaf (C := MetComp h w) whole alive reads' (own.congr rfl) inside leaf
    rw [← at_] at node
    obtain ⟨rfl, placed, images⟩ := built.turn_leaf frames below node same_frames same le older newer image
      (fun no => no.elim) next
    have same_vars : MetComp h (w₁.setArg (fr.dst + fr.i) x) = MetComp h w := comps
    refine ⟨⟨?_, ?_, own'.congr rfl, inside', ?_⟩, lower_of (.inr ⟨fewer, ?_⟩)⟩
    · rw [same_vars]
      exact placed
    · rw [same_vars]
      exact images t r root
    · have moved : (w₁.setArg (fr.dst + fr.i) x).frames = advance fr rest := same_frames
      rw [moved]
      exact later
    · have moved : (w₁.setArg (fr.dst + fr.i) x).frames = advance fr rest := same_frames
      rw [moved]
      exact work_advance fr rest

theorem Sharing.step (whole : Whole tb h.cells h.len live) (sharing : Sharing tb h live t r w)
    (next : fillStep (copySharedNode tb) w = some w') :
    Sharing tb h live t r w' ∧ Lower (unmet h.len w'.vars, work w'.frames) (unmet h.len w.vars, work w.frames) := by
  cases frames : w.frames with
  | nil =>
    rw [fillStep_nil frames] at next
    cases next
  | cons fr rest =>
    by_cases done : fr.n ≤ fr.i
    · rw [fillStep_drop frames done, Option.some.injEq] at next
      subst next
      obtain ⟨built, root, own, inside, awaits⟩ := sharing
      rw [frames] at awaits
      refine ⟨⟨built.drop frames done, root, own.congr rfl, inside, ?_⟩, lower_of (.inr ⟨le_rfl, ?_⟩)⟩
      · exact fun fr' mem => awaits fr' (List.mem_cons_of_mem _ mem)
      · simp only [work, List.map_cons, List.sum_cons]
        omega
    · rw [← frames]
      exact sharing.turn whole frames (Nat.lt_of_not_le done) next

/-- The walk's first node. -/
theorem Sharing.start (whole : Whole tb h.cells h.len live) (alive : live t) {g : Mem}
    (kept : ∀ i < h.len, g i = h.cells i) :
    Sharing tb h live t (copySharedNode tb t (.over_ ⟨g, h.len⟩ none)).1
      (copySharedNode tb t (.over_ ⟨g, h.len⟩ none)).2 := by
  have reads : Reads h (.over_ ⟨g, h.len⟩ none) := ⟨kept, le_rfl⟩
  have own : Own (.over_ ⟨g, h.len⟩ none) h.len := ⟨fun mapped => (by cases mapped), fun mapped => (by cases mapped)⟩
  have inside : ∀ {v y}, Met (.over_ ⟨g, h.len⟩ none) v y → y < h.len := fun mapped => by cases mapped
  have none_ : MetComp h (.over_ ⟨g, h.len⟩ none) = fun _ _ _ => False := by
    funext s f b
    simp [MetComp, Met, Walk.over_]
  have built : Built False tb (itemAt h.cells h.len) (MetVar h (.over_ ⟨g, h.len⟩ none)) (fun _ _ _ => False)
      h.cells h.len (.over_ ⟨g, h.len⟩ none) := by
    have start : Built False tb (itemAt h.cells h.len) (MetVar h (.over_ ⟨g, h.len⟩ none)) (fun _ _ _ => False) g
        h.len (.over_ ⟨g, h.len⟩ none) :=
      Built.start (Walk.over_ ⟨g, h.len⟩ none) rfl fun mapped => by cases mapped.1
    exact ⟨start.laid, start.apart, start.within, fun block => block.elim, kept, start.grown⟩
  have empty : Awaits live (Walk.over_ ⟨g, h.len⟩ none).frames := fun _ mem => by cases mem
  by_cases comp : ∃ s f, itemAt h.cells h.len t = .comp s f
  · obtain ⟨s, f, is⟩ := comp
    obtain ⟨-, cell, args⟩ := live_args whole alive is
    have new : (Walk.over_ ⟨g, h.len⟩ none).vars.lookup s = none := rfl
    have node := sharedNode_comp whole alive reads is
    simp only [new] at node
    have entered : (copySharedNode tb t (.over_ ⟨g, h.len⟩ none)).2.vars =
        (s, h.len) :: (Walk.over_ ⟨g, h.len⟩ none).vars := by
      rw [node]
      rfl
    obtain ⟨vars_same, comps⟩ := metComp_cons cell new entered
    rw [node] at vars_same comps ⊢
    rw [none_] at comps
    refine ⟨?_, ?_, own.cons new (fun v' mapped => by cases mapped) le_rfl rfl, ?_,
      @Awaits.owe live ((Walk.over_ ⟨g, h.len⟩ none).pushStruct (.func f) (tb.arity f)) _ _ _ empty args⟩
    · rw [vars_same, comps]
      have laid := built.lay s f
      exact ⟨laid.laid, laid.apart, laid.within, fun block => laid.low block, laid.kept, laid.grown⟩
    · simp only [Image, is]
      exact ⟨lookup_cons_self .., cell⟩
    · intro v y mapped
      rcases (met_cons new).mp mapped with old | ⟨-, rfl⟩
      · cases old
      · simp only [Walk.owe_len, Walk.pushStruct_len]
        omega
  · have leaf : ∀ s f, itemAt h.cells h.len t ≠ .comp s f := fun s f is => comp ⟨s, f, is⟩
    obtain ⟨x, w₁, node, frames, le, same, older, newer, comps, image, own', inside', -⟩ :=
      sharedNode_leaf (C := fun _ _ _ => False) whole alive reads own inside leaf
    rw [node]
    rw [none_] at comps
    refine ⟨?_, ?_, own', inside', ?_⟩
    · rw [comps]
      exact built.grow same le frames older newer
    · rw [comps]
      exact image
    · rw [frames]
      exact empty

/-- A walk over the heap that has nothing left to fill leaves a variant. -/
theorem variant_of_laid {o : Prop} {V : Nat → Nat → Prop} {C : Nat → Nat → Nat → Prop}
    (whole : Whole tb h.cells h.len live) (alive : live t)
    (laid : Laid o tb (itemAt h.cells h.len) V C (fun _ _ _ => False) w.cells w.len)
    (root : Image (itemAt h.cells h.len) V C w.cells w.len t r) (own : Own w h.len) (met : ∀ v y, V v y → Met w v y) :
    Variant tb h.cells h.len t w.cells w.len r h.len := by
  have related : live t ∧ ∃ x, Image (itemAt h.cells h.len) V C w.cells w.len t x ∧ Leads w.cells w.len r x :=
    ⟨alive, r, root, laid.image_leads root⟩
  refine (laid.bisim whole).variant related ?_ ?_ ?_
  · intro v y y' one two
    exact Option.some.inj ((met v y one).symm.trans (met v y' two))
  · exact fun v v' y one two => own.own (met v y one) (met v' y two)
  · exact fun v y one => own.low (met v y one)

/-- Any term is copied by the walk that keeps its compounds. -/
theorem copyShared_spec (whole : Whole tb h.cells h.len live) (alive : live t) {g : Mem}
    (kept : ∀ i < h.len, g i = h.cells i) :
    ∃ r h', Settles (fun fuel => copyShared tb fuel t ⟨g, h.len⟩) (r, h') ∧
      Variant tb h.cells h.len t h'.cells h'.len r h.len ∧ (∀ i < h.len, h'.cells i = h.cells i) ∧
      h.len ≤ h'.len := by
  obtain ⟨e, settles, sharing, stopped⟩ := loop_settles lower_wf
    (fun w : Walk => (unmet h.len w.vars, work w.frames)) (fun w w' before next => before.step whole next)
    (Sharing.start whole alive kept)
  refine ⟨_, _, settles.map _, ?_, sharing.built.kept, sharing.built.grown⟩
  exact variant_of_laid whole alive (sharing.built.done (fillStep_stopped stopped)) sharing.root sharing.own
    fun v y mapped => mapped.1

end Cocolog.Copy
