import Cocolog.Copy.Build
import Cocolog.Store.Keys

/-! A heap term put into the store. The walk runs under a ceiling, the last index a
compound may take, and gives up past it; if it does not give up, what it leaves is the
term over again, with a variable of the store for each of the term's. -/

set_option linter.all false

namespace Cocolog.Copy

open Cocolog.Lib Cocolog.Term Cocolog.Store

/-- Whether index `h` is over the ceiling. -/
def past : Option Nat → Nat → Bool
  | none, _ => false
  | some top, h => decide (top < h)

/-- `coco_store_put_node`. -/
def putNode (tb : Tables) (h : Heap) (t : Nat) (w : Walk) : Nat × Walk :=
  let t := h.deref t
  match h.cells t with
  | .ref _ =>
    match w.vars.lookup t with
    | some v => (v, w)
    | none => (w.len, { w.push (.ref w.len) with vars := (t, w.len) :: w.vars })
  | .func f =>
    -- asked before the slots are reserved; the walk is left without a frame
    if past w.wceil w.len then (w.len, { w.push (.func f) with wceil := some 0, frames := [] })
    else (w.len, (w.pushStruct (.func f) (tb.arity f)).owe t (w.len + 1) (tb.arity f))
  | c => (w.len, w.push c)

/-- `coco_store_put_walk`. -/
def putWalk (tb : Tables) (h : Heap) (fuel t : Nat) (w : Walk) : Option (Nat × Walk) :=
  (loop (fillStep (putNode tb h)) fuel (putNode tb h t w).2).map fun w' => ((putNode tb h t w).1, w')

/-- The store at the start of a walk. -/
def Walk.over_ (s : Heap) (wceil : Option Nat) : Walk := ⟨s.cells, s.len, [], [], wceil⟩

/-- The variables met, as a relation. -/
def Met (w : Walk) (v y : Nat) : Prop := w.vars.lookup v = some y

/-- No two variables have one cell, and each has a new one. -/
structure Own (w : Walk) (base : Nat) : Prop where
  own : ∀ {v v' y}, Met w v y → Met w v' y → v = v'
  low : ∀ {v y}, Met w v y → base ≤ y

variable {tb : Tables} {h : Heap} {s : Heap} {top : Option Nat} {t r : Nat} {w w' : Walk}

theorem met_cons {w : Walk} {v y v' y' : Nat} (new : w.vars.lookup v = none) :
    (List.lookup v' ((v, y) :: w.vars) = some y') ↔ Met w v' y' ∨ (v' = v ∧ y' = y) := by
  rw [List.lookup_cons]
  by_cases at_ : v' = v
  · subst at_
    simp [Met, new, eq_comm]
  · have off : (v' == v) = false := by simp [at_]
    simp [Met, off, at_]

theorem Own.cons {base v y : Nat} (own : Own w base) (new : w.vars.lookup v = none) (fresh : ∀ v', ¬ Met w v' y)
    (low : base ≤ y) (vars : w'.vars = (v, y) :: w.vars) : Own w' base := by
  have met : ∀ v' y', Met w' v' y' ↔ Met w v' y' ∨ (v' = v ∧ y' = y) := by
    intro v' y'
    unfold Met
    rw [vars]
    exact met_cons new
  constructor
  · intro v1 v2 y' one two
    rcases (met v1 y').mp one with one | ⟨at1, rfl⟩
    · rcases (met v2 y').mp two with two | ⟨-, rfl⟩
      · exact own.own one two
      · exact absurd one (fresh v1)
    · rcases (met v2 y').mp two with two | ⟨at2, -⟩
      · exact absurd two (fresh v2)
      · rw [at1, at2]
  · intro v' y' mapped
    rcases (met v' y').mp mapped with old | ⟨-, rfl⟩
    · exact own.low old
    · exact low

theorem met_congr (vars : w'.vars = w.vars) : Met w' = Met w := by
  unfold Met
  rw [vars]

theorem Own.congr {base : Nat} (own : Own w base) (vars : w'.vars = w.vars) : Own w' base := by
  constructor
  · rw [met_congr vars]
    exact own.own
  · rw [met_congr vars]
    exact own.low

/-- The walk so far: the term's root has its image, and what is laid down is right. -/
structure Putting (tb : Tables) (h s : Heap) (t r : Nat) (C : Nat → Nat → Nat → Prop) (w : Walk) : Prop where
  built : Built True tb (itemAt h.cells h.len) (Met w) C s.cells s.len w
  root : Image (itemAt h.cells h.len) (Met w) C w.cells w.len t r
  own : Own w s.len

/-- The walk goes on, or it gave up with the store's own cells as they were. -/
def PutInv (tb : Tables) (h s : Heap) (top : Option Nat) (t r : Nat) (w : Walk) : Prop :=
  (w.wceil = top ∧ ∃ C, Putting tb h s t r C w) ∨
    (top ≠ none ∧ w.wceil = some 0 ∧ w.frames = [] ∧ ∀ i < s.len, w.cells i = s.cells i)

theorem itemAt_eq (h : Heap) (a : Nat) :
    itemAt h.cells h.len a =
      match h.cells (h.deref a) with
      | .ref _ => .var (h.deref a)
      | .func f => .comp (h.deref a) f
      | c => .atomic c := rfl

/-- The memory and the variables a node that is no compound leaves, and its image. -/
theorem putNode_leaf {C : Nat → Nat → Nat → Prop} {P : Nat → Nat → Nat → Prop} {base a : Nat}
    (laid : Laid True tb (itemAt h.cells h.len) (Met w) C P w.cells w.len) (own : Own w base) (grown : base ≤ w.len)
    (leaf : ∀ s f, itemAt h.cells h.len a ≠ .comp s f) :
    ∃ x w', putNode tb h a w = (x, w') ∧ w'.frames = w.frames ∧ w'.wceil = w.wceil ∧ w.len ≤ w'.len ∧
      (∀ i < w.len, w'.cells i = w.cells i) ∧ (∀ v y, Met w v y → Met w' v y) ∧
      (∀ v y, Met w' v y → Met w v y ∨ (w.len ≤ y ∧ y < w'.len ∧ w'.cells y = .ref y)) ∧
      Image (itemAt h.cells h.len) (Met w') C w'.cells w'.len a x ∧ Own w' base := by
  have is := itemAt_eq h a
  cases cell : h.cells (h.deref a) with
  | func f =>
    simp only [cell] at is
    exact absurd is (leaf _ _)
  | ref p =>
    simp only [cell] at is
    cases found : w.vars.lookup (h.deref a) with
    | some v =>
      refine ⟨v, w, ?_, rfl, rfl, le_rfl, fun _ _ => rfl, fun _ _ h => h, fun _ _ h => .inl h, ?_, own⟩
      · simp only [putNode, cell, found]
      · simp only [Image, is]
        exact found
    | none =>
      have met : ∀ v y, Met { w.push (.ref w.len) with vars := (h.deref a, w.len) :: w.vars } v y ↔
          Met w v y ∨ (v = h.deref a ∧ y = w.len) := fun v y => met_cons found
      refine ⟨w.len, { w.push (.ref w.len) with vars := (h.deref a, w.len) :: w.vars }, ?_, rfl, rfl,
        Nat.le_succ _, fun i lt => w.push_old _ lt, fun v y old => (met v y).mpr (.inl old), ?_, ?_, ?_⟩
      · simp only [putNode, cell, found]
      · intro v y mapped
        rcases (met v y).mp mapped with old | ⟨-, rfl⟩
        · exact .inl old
        · exact .inr ⟨le_rfl, Nat.lt_succ_self _, w.push_new _⟩
      · simp only [Image, is]
        exact (met _ _).mpr (.inr ⟨rfl, rfl⟩)
      · refine own.cons found ?_ grown rfl
        intro v' mapped
        exact Nat.lt_irrefl _ (laid.var mapped).2.1
  | _ =>
    simp only [cell] at is
    refine ⟨w.len, w.push (h.cells (h.deref a)), ?_, rfl, rfl, Nat.le_succ _, fun i lt => w.push_old _ lt,
      fun _ _ h => h, fun _ _ h => .inl h, ?_, ⟨own.own, own.low⟩⟩
    · simp only [putNode, cell]
    · simp only [Image, is]
      refine ⟨?_, Nat.lt_succ_self _, rfl⟩
      rw [w.push_new, cell]

theorem putNode_comp {a src f : Nat} (is : itemAt h.cells h.len a = .comp src f) :
    putNode tb h a w =
      if past w.wceil w.len then (w.len, { w.push (.func f) with wceil := some 0, frames := [] })
      else (w.len, (w.pushStruct (.func f) (tb.arity f)).owe src (w.len + 1) (tb.arity f)) := by
  rw [itemAt_eq] at is
  split at is
  · cases is
  · rename_i f' cell
    obtain ⟨rfl, rfl⟩ := Item.comp.inj is
    simp only [putNode, cell]
  · cases is

/-- A turn that drops a frame. -/
theorem fillStep_drop {node : Nat → Walk → Nat × Walk} {fr : Frame} {rest : List Frame}
    (frames : w.frames = fr :: rest) (done : fr.n ≤ fr.i) :
    fillStep node w = some { w with frames := rest } := by
  simp only [fillStep, frames, if_pos done]

theorem fillStep_nil {node : Nat → Walk → Nat × Walk} (frames : w.frames = []) : fillStep node w = none := by
  simp only [fillStep, frames]

/-- Over the ceiling nothing of the store was written. -/
theorem Putting.give_up {C : Nat → Nat → Nat → Prop} {fr : Frame} {rest : List Frame} {src f : Nat}
    (putting : Putting tb h s t r C w) (frames : w.frames = fr :: rest) (below : fr.i < fr.n)
    (is : itemAt h.cells h.len (fr.src + 1 + fr.i) = .comp src f) (over_ : past w.wceil w.len = true)
    (next : fillStep (putNode tb h) w = some w') :
    w'.wceil = some 0 ∧ w'.frames = [] ∧ w'.len = w.len + 1 ∧ ∀ i < s.len, w'.cells i = s.cells i := by
  have at_ : fr.src + (fr.i + 1) = fr.src + 1 + fr.i := by omega
  simp only [fillStep, frames, if_neg (Nat.not_le_of_lt below), at_, putNode_comp is, if_pos over_,
    Option.some.injEq] at next
  obtain ⟨-, slot, low⟩ := putting.built.next frames below
  have grown := putting.built.grown
  rw [← next]
  refine ⟨rfl, rfl, rfl, ?_⟩
  intro i lt
  refine (Function.update_of_ne (by omega) ..).trans ?_
  exact (w.push_old (.func f) (by omega)).trans (putting.built.kept i lt)

/-- What a turn of the walk does: it drops a frame, places an argument, lays a compound
down, or gives up. -/
theorem Putting.turn {C : Nat → Nat → Nat → Prop} {fr : Frame} {rest : List Frame}
    (putting : Putting tb h s t r C w) (frames : w.frames = fr :: rest) (below : fr.i < fr.n) :
    ∃ w', fillStep (putNode tb h) w = some w' ∧ w.len ≤ w'.len ∧
      ((w'.frames = advance fr rest ∧ w'.wceil = w.wceil ∧ ∃ C, Putting tb h s t r C w') ∨
        (∃ src f, itemAt h.cells h.len (fr.src + 1 + fr.i) = .comp src f ∧ past w.wceil w.len = false ∧
          w.len < w'.len ∧ w'.wceil = w.wceil ∧
          w'.frames = (({ w with frames := advance fr rest } : Walk).owe src (w.len + 1) (tb.arity f)).frames ∧
          ∃ C, Putting tb h s t r C w') ∨
        (past w.wceil w.len = true ∧ w'.wceil = some 0 ∧ w'.frames = [] ∧ ∀ i < s.len, w'.cells i = s.cells i)) := by
  obtain ⟨w', next⟩ : ∃ w', fillStep (putNode tb h) w = some w' := by
    simp only [fillStep, frames, if_neg (Nat.not_le_of_lt below)]
    exact ⟨_, rfl⟩
  refine ⟨w', next, ?_⟩
  have at_ : fr.src + (fr.i + 1) = fr.src + 1 + fr.i := by omega
  obtain ⟨built, root, own⟩ := putting
  by_cases comp : ∃ src f, itemAt h.cells h.len (fr.src + 1 + fr.i) = .comp src f
  · obtain ⟨src, f, is⟩ := comp
    have node : putNode tb h (fr.src + 1 + fr.i) { w with frames := advance fr rest } = _ := putNode_comp is
    by_cases over_ : past w.wceil w.len = true
    · obtain ⟨wceil, none_, len, kept⟩ := Putting.give_up ⟨built, root, own⟩ frames below is over_ next
      exact ⟨by omega, .inr (.inr ⟨over_, wceil, none_, kept⟩)⟩
    · rw [if_neg over_, ← at_] at node
      obtain ⟨⟨vars, wceil, len, moved⟩, C', placed, -, images⟩ := built.turn_comp frames below is node next
      have same := met_congr vars
      refine ⟨by omega, .inr (.inl ⟨src, f, is, by simpa using over_, by omega, wceil, moved, C', ?_, ?_, ?_⟩)⟩
      · rw [same]
        exact placed
      · rw [same]
        exact images t r root
      · exact own.congr vars
  · have leaf : ∀ src f, itemAt h.cells h.len (fr.src + 1 + fr.i) ≠ .comp src f := fun src f is => comp ⟨src, f, is⟩
    obtain ⟨x, w₁, node, same_frames, wceil, le, same, older, newer, image, own'⟩ :=
      putNode_leaf (w := { w with frames := advance fr rest }) built.laid ⟨own.own, own.low⟩ built.grown leaf
    rw [← at_] at node
    obtain ⟨rfl, placed, images⟩ :=
      built.turn_leaf frames below node same_frames same le older newer image (fun _ => leaf) next
    exact ⟨le, .inl ⟨same_frames, wceil, C, placed, images t r root, own'.own, own'.low⟩⟩

theorem PutInv.step (before : PutInv tb h s top t r w) (next : fillStep (putNode tb h) w = some w') :
    PutInv tb h s top t r w' := by
  rcases before with ⟨ceil, C, putting⟩ | ⟨-, -, none_, -⟩
  · cases frames : w.frames with
    | nil =>
      rw [fillStep_nil frames] at next
      cases next
    | cons fr rest =>
      by_cases done : fr.n ≤ fr.i
      · rw [fillStep_drop frames done, Option.some.injEq] at next
        subst next
        exact .inl ⟨ceil, C, putting.built.drop frames done, putting.root, putting.own.own, putting.own.low⟩
      · obtain ⟨w'', next', -, cases_⟩ := putting.turn frames (Nat.lt_of_not_le done)
        obtain rfl := Option.some.inj (next.symm.trans next')
        rcases cases_ with ⟨-, same, more⟩ | ⟨-, -, -, -, -, same, -, more⟩ | ⟨over_, given, none_, kept⟩
        · exact .inl ⟨same.trans ceil, more⟩
        · exact .inl ⟨same.trans ceil, more⟩
        · refine .inr ⟨?_, given, none_, kept⟩
          rintro rfl
          simp [past, ceil] at over_
  · rw [fillStep_nil none_] at next
    cases next

/-- The walk's first node. -/
theorem PutInv.start (tb : Tables) (h s : Heap) (top : Option Nat) (t : Nat) :
    PutInv tb h s top t (putNode tb h t (.over_ s top)).1 (putNode tb h t (.over_ s top)).2 := by
  have built : Built True tb (itemAt h.cells h.len) (Met (.over_ s top)) (fun _ _ _ => False) s.cells s.len
      (.over_ s top) := Built.start (Walk.over_ s top) rfl fun mapped => (nomatch mapped)
  have own : Own (.over_ s top) s.len := ⟨fun mapped => (nomatch mapped), fun mapped => (nomatch mapped)⟩
  by_cases comp : ∃ src f, itemAt h.cells h.len t = .comp src f
  · obtain ⟨src, f, is⟩ := comp
    rw [putNode_comp is]
    split
    · rename_i over_
      refine .inr ⟨?_, rfl, rfl, ?_⟩
      · rintro rfl
        simp [past, Walk.over_] at over_
      · intro i lt
        exact (Walk.over_ s top).push_old (.func f) lt
    · have vars : (((Walk.over_ s top).pushStruct (.func f) (tb.arity f)).owe src (s.len + 1) (tb.arity f)).vars =
          (Walk.over_ s top).vars := Walk.owe_vars ..
      refine .inl ⟨Walk.owe_wceil .., fun s' f' b => False ∨ (s' = src ∧ f' = f ∧ b = s.len), ?_, ?_, own.congr vars⟩
      · have laid := built.lay src f
        rw [← met_congr vars] at laid
        exact laid
      · simp [Image, is, Walk.over_]
  · have leaf : ∀ src f, itemAt h.cells h.len t ≠ .comp src f := fun src f is => comp ⟨src, f, is⟩
    obtain ⟨x, w₁, node, frames, wceil, le, same, older, newer, image, own'⟩ :=
      putNode_leaf (a := t) built.laid own le_rfl leaf
    rw [node]
    exact .inl ⟨wceil, _, built.grow same le frames older newer, image, own'⟩

/- The walk ends. -/

/-- The slots the frames have left, and the frames. -/
def work (frames : List Frame) : Nat := (frames.map fun fr => fr.n - fr.i + 1).sum

theorem work_advance (fr : Frame) (rest : List Frame) :
    work (advance fr rest) < work (fr :: rest) := by
  unfold advance work
  split
  · simp only [List.map_cons, List.sum_cons]
    omega
  · simp only [List.map_cons, List.sum_cons]
    omega

/-- Every turn under a ceiling lays a compound down below it, or leaves less to do. -/
theorem PutInv.lessens {ceil : Nat} (before : PutInv tb h s (some ceil) t r w)
    (next : fillStep (putNode tb h) w = some w') :
    Lower (ceil + 1 - w'.len, work w'.frames) (ceil + 1 - w.len, work w.frames) := by
  cases frames : w.frames with
  | nil =>
    rw [fillStep_nil frames] at next
    cases next
  | cons fr rest =>
    have some_ : 0 < work (fr :: rest) := by
      simp only [work, List.map_cons, List.sum_cons]
      omega
    rcases before with ⟨ceil_is, C, putting⟩ | ⟨-, -, none_, -⟩
    · by_cases done : fr.n ≤ fr.i
      · rw [fillStep_drop frames done, Option.some.injEq] at next
        subst next
        refine lower_of (.inr ⟨le_rfl, ?_⟩)
        simp only [work, List.map_cons, List.sum_cons]
        omega
      · obtain ⟨w'', next', le, cases_⟩ := putting.turn frames (Nat.lt_of_not_le done)
        obtain rfl := Option.some.inj (next.symm.trans next')
        rcases cases_ with ⟨moved, -, -⟩ | ⟨-, -, -, under, lt, -, -, -⟩ | ⟨-, -, none_, -⟩
        · rw [moved]
          exact lower_of (.inr ⟨by omega, work_advance fr rest⟩)
        · simp only [past, ceil_is, decide_eq_false_iff_not, Nat.not_lt] at under
          exact lower_of (.inl (by omega))
        · rw [none_]
          exact lower_of (.inr ⟨by omega, some_⟩)
    · rw [frames] at none_
      cases none_

theorem fillStep_stopped {node : Nat → Walk → Nat × Walk} (done : fillStep node w = none) : w.frames = [] := by
  cases frames : w.frames with
  | nil => rfl
  | cons fr rest =>
    simp only [fillStep, frames] at done
    split at done <;> cases done

/-- Under a ceiling the walk ends, whatever the term. -/
theorem putWalk_under (tb : Tables) (h s : Heap) (t ceil : Nat) :
    ∃ r w, Settles (fun fuel => putWalk tb h fuel t (.over_ s (some ceil))) (r, w) ∧
      PutInv tb h s (some ceil) t r w ∧ w.frames = [] := by
  have keeps : ∀ w w', PutInv tb h s (some ceil) t (putNode tb h t (.over_ s (some ceil))).1 w →
      fillStep (putNode tb h) w = some w' →
      PutInv tb h s (some ceil) t (putNode tb h t (.over_ s (some ceil))).1 w' ∧
        Lower (ceil + 1 - w'.len, work w'.frames) (ceil + 1 - w.len, work w.frames) :=
    fun w w' before next => ⟨before.step next, before.lessens next⟩
  obtain ⟨e, settles, inv, stopped⟩ := loop_settles lower_wf (fun w : Walk => (ceil + 1 - w.len, work w.frames)) keeps
    (PutInv.start tb h s (some ceil) t)
  exact ⟨_, e, settles.map _, inv, fillStep_stopped stopped⟩

theorem owe_frames (w : Walk) (src dst n : Nat) :
    (w.owe src dst n).frames = w.frames ∨ (w.owe src dst n).frames = ⟨src, dst, 0, n⟩ :: w.frames := by
  unfold Walk.owe
  split
  · exact .inr rfl
  · exact .inl rfl

theorem put_turns (tb : Tables) (h s : Heap) (top : Option Nat) (t r : Nat) :
    Turns tb (itemAt h.cells h.len) (fillStep (putNode tb h)) (PutInv tb h s top t r) := by
  refine ⟨fun w w' before next => before.step next, ?_, ?_⟩
  · intro w fr rest _ frames done
    exact ⟨_, fillStep_drop frames done, rfl⟩
  · rintro w fr rest (⟨-, C, putting⟩ | ⟨-, -, none_, -⟩) frames below
    · obtain ⟨w', next, -, cases_⟩ := putting.turn frames below
      refine ⟨w', next, ?_⟩
      rcases cases_ with ⟨moved, -⟩ | ⟨src, f, is, -, -, -, moved, -⟩ | ⟨-, -, none_, -⟩
      · exact .inr (.inl moved)
      · rcases owe_frames { w with frames := advance fr rest } src (w.len + 1) (tb.arity f) with same | more
        · exact .inr (.inl (moved.trans same))
        · exact .inr (.inr ⟨src, f, w.len + 1, is, moved.trans more⟩)
      · exact .inl none_
    · rw [frames] at none_
      cases none_

/-- The frames the first node leaves are of the term's own compound. -/
theorem putNode_frames {fr : Frame} (none_ : w.frames = []) (mem : fr ∈ (putNode tb h t w).2.frames) :
    ∃ f, itemAt h.cells h.len t = .comp fr.src f ∧ fr.n = tb.arity f := by
  by_cases comp : ∃ src f, itemAt h.cells h.len t = .comp src f
  · obtain ⟨src, f, is⟩ := comp
    rw [putNode_comp is] at mem
    split at mem
    · cases mem
    · rcases owe_frames (w.pushStruct (.func f) (tb.arity f)) src (w.len + 1) (tb.arity f) with same | more
      · rw [same, Walk.pushStruct_frames, none_] at mem
        cases mem
      · rw [more, Walk.pushStruct_frames, none_, List.mem_singleton] at mem
        rw [mem]
        exact ⟨f, is, rfl⟩
  · -- anything else leaves the frames alone
    exfalso
    have is := itemAt_eq h t
    simp only [putNode] at mem
    cases cell : h.cells (h.deref t) with
    | func f => exact comp ⟨_, f, by simpa only [cell] using is⟩
    | ref p =>
      simp only [cell] at mem
      split at mem
      · rw [none_] at mem
        cases mem
      · simp only [Walk.push_frames, none_] at mem
        cases mem
    | _ =>
      simp only [cell, Walk.push_frames, none_] at mem
      cases mem

/-- A term without a cycle is walked out. -/
theorem putWalk_finite (tb : Tables) (h s : Heap) (top : Option Nat) {t : Nat}
    (finite : Finite tb (itemAt h.cells h.len) t) :
    ∃ r w, Settles (fun fuel => putWalk tb h fuel t (.over_ s top)) (r, w) ∧
      PutInv tb h s top t r w ∧ w.frames = [] := by
  have start := PutInv.start tb h s top t
  obtain ⟨w', reached, inv, none_⟩ := (put_turns tb h s top t _).out start (by
    intro fr mem k _ high
    obtain ⟨f, is, n⟩ := putNode_frames rfl mem
    cases finite with
    | intro args => exact args fr.src f k is (by omega))
  exact ⟨_, w', (loop_steps reached (loop_stop (fillStep_nil none_))).map _, inv, none_⟩

end Cocolog.Copy
