import Cocolog.Copy.Mend

/-! A store term read back onto the heap, and a term in factors made cyclic again. A
variable met first lives in its slot; met again, its slot is pointed there. -/

set_option linter.all false

namespace Cocolog.Copy

open Cocolog.Lib Cocolog.Term Cocolog.Store

/-- A turn of the loop in `coco_store_get_vm`. -/
def getStep (tb : Tables) (st : Heap) (w : Walk) : Option Walk :=
  match w.frames with
  | [] => none
  | fr :: rest =>
    if fr.n ≤ fr.i then some { w with frames := rest }
    else
      let src := st.deref (fr.src + (fr.i + 1))
      let slot := fr.dst + fr.i
      let w := { w with frames := advance fr rest }
      match st.cells src with
      | .ref _ =>
        match w.vars.lookup src with
        | some v => some (w.setArg slot v)
        | none => some { w with vars := (src, slot) :: w.vars }
      | .func f =>
        some (((w.pushStruct (.func f) (tb.arity f)).setArg slot w.len).owe src (w.len + 1) (tb.arity f))
      | c => some ((w.push c).setArg slot w.len)

/-- `coco_store_get_vm`: a root variable met before gives its new cell back. -/
def storeGetVm (tb : Tables) (st : Heap) (fuel t : Nat) (w : Walk) : Option (Nat × Walk) :=
  let t := st.deref t
  match st.cells t with
  | .ref _ =>
    match w.vars.lookup t with
    | some v => some (v, { w.push (.ref w.len) with len := w.len })
    | none => some (w.len, { w.push (.ref w.len) with vars := (t, w.len) :: w.vars })
  | .func f =>
    (loop (getStep tb st) fuel ((w.pushStruct (.func f) (tb.arity f)).owe t (w.len + 1) (tb.arity f))).map
      fun w' => (w.len, w')
  | c => some (w.len, w.push c)

/-- `coco_store_get`. -/
def storeGet (tb : Tables) (st : Heap) (fuel t : Nat) (h : Heap) : Option (Nat × Heap) :=
  (storeGetVm tb st fuel t (.over_ h none)).map fun r => (r.1, ⟨r.2.cells, r.2.len⟩)

variable {tb : Tables} {st s : Heap} {t r : Nat} {w w' : Walk} {C : Nat → Nat → Nat → Prop}

/-- A variable met first lives in its slot. -/
theorem Putting.first_met {fr : Frame} {rest : List Frame} {v : Nat} (putting : Putting tb st s t r C w)
    (frames : w.frames = fr :: rest) (below : fr.i < fr.n)
    (is : itemAt st.cells st.len (fr.src + 1 + fr.i) = .var v) (new : w.vars.lookup v = none)
    (cells : w'.cells = w.cells) (len : w'.len = w.len) (frames' : w'.frames = advance fr rest)
    (vars : w'.vars = (v, fr.dst + fr.i) :: w.vars) : Putting tb st s t r C w' := by
  obtain ⟨built, root, own⟩ := putting
  obtain ⟨pending, slot, low⟩ := built.next frames below
  have met : ∀ v' y, Met w' v' y ↔ Met w v' y ∨ (v' = v ∧ y = fr.dst + fr.i) := by
    intro v' y
    unfold Met
    rw [vars]
    exact met_cons new
  have same : (fun v' y => Met w v' y ∨ (v' = v ∧ y = fr.dst + fr.i)) = Met w' := by
    funext v' y
    exact propext (met v' y).symm
  have placed := built.own frames below is cells len frames'
  rw [same] at placed
  refine ⟨placed, ?_, ?_⟩
  · rw [cells, len]
    exact root.mono (fun v y old => (met v y).mpr (.inl old)) (fun _ _ _ h => h) (fun _ _ _ => rfl) le_rfl
  · refine own.cons new ?_ (by omega) vars
    intro v' mapped
    exact (built.laid.var mapped).2.2 pending slot

/-- What a turn of the loop does. -/
theorem Putting.get_turn {fr : Frame} {rest : List Frame} (putting : Putting tb st s t r C w)
    (frames : w.frames = fr :: rest) (below : fr.i < fr.n) :
    ∃ w', getStep tb st w = some w' ∧
      (w'.frames = advance fr rest ∨ ∃ src f, itemAt st.cells st.len (fr.src + 1 + fr.i) = .comp src f ∧
        w'.frames = (({ w with frames := advance fr rest } : Walk).owe src (w.len + 1) (tb.arity f)).frames) ∧
      ∃ C, Putting tb st s t r C w' := by
  obtain ⟨built, root, own⟩ := putting
  have at_ : fr.src + (fr.i + 1) = fr.src + 1 + fr.i := by omega
  have is := itemAt_eq st (fr.src + 1 + fr.i)
  simp only [getStep, frames, if_neg (Nat.not_le_of_lt below), at_]
  cases cell : st.cells (st.deref (fr.src + 1 + fr.i)) with
  | ref p =>
    simp only [cell] at is ⊢
    have leaf : ∀ src f, itemAt st.cells st.len (fr.src + 1 + fr.i) ≠ .comp src f := by
      intro src f comp
      rw [is] at comp
      cases comp
    cases found : w.vars.lookup (st.deref (fr.src + 1 + fr.i)) with
    | some v =>
      have image : Image (itemAt st.cells st.len) (Met w) C w.cells w.len (fr.src + 1 + fr.i) v := by
        simp only [Image, is]
        exact found
      refine ⟨_, rfl, .inl rfl, C, ?_, ?_, ⟨own.own, own.low⟩⟩
      · exact built.point frames below (fun _ _ => rfl) le_rfl (fun _ _ h => h) (fun _ _ h => .inl h) image
          (fun _ => leaf) rfl rfl rfl
      · exact root.mono (fun _ _ h => h) (fun _ _ _ h => h) (built.held frames below (fun _ _ => rfl) _) le_rfl
    | none =>
      exact ⟨_, rfl, .inl rfl, C, Putting.first_met ⟨built, root, own⟩ frames below is found rfl rfl rfl rfl⟩
  | func f =>
    simp only [cell] at is ⊢
    have cells : ((({ w with frames := advance fr rest } : Walk).pushStruct (.func f) (tb.arity f)).setArg
        (fr.dst + fr.i) w.len).owe (st.deref (fr.src + 1 + fr.i)) (w.len + 1) (tb.arity f) =
        { w with cells := Function.update (w.pushStruct (.func f) (tb.arity f)).cells (fr.dst + fr.i) (.ref w.len),
                 len := w.len + 1 + tb.arity f,
                 frames := (({ w with frames := advance fr rest } : Walk).owe (st.deref (fr.src + 1 + fr.i))
                   (w.len + 1) (tb.arity f)).frames } := by
      unfold Walk.owe
      split <;> rfl
    refine ⟨_, rfl, .inr ⟨_, f, is, ?_⟩, fun s' f' b => C s' f' b ∨
      (s' = st.deref (fr.src + 1 + fr.i) ∧ f' = f ∧ b = w.len), ?_, ?_, ?_⟩
    · rw [cells]
    · rw [cells]
      exact built.comp frames below is rfl rfl rfl
    · rw [cells]
      refine root.mono (fun _ _ h => h) (fun _ _ _ h => .inl h) ?_ (by simp only; omega)
      exact built.held frames below (fun i lt => w.pushStruct_old _ _ lt) _
    · rw [cells]
      exact ⟨own.own, own.low⟩
  | _ =>
    simp only [cell] at is ⊢
    have leaf : ∀ src f, itemAt st.cells st.len (fr.src + 1 + fr.i) ≠ .comp src f := by
      intro src f comp
      rw [is] at comp
      cases comp
    have image : Image (itemAt st.cells st.len) (Met w) C (w.push (st.cells (st.deref (fr.src + 1 + fr.i)))).cells
        (w.len + 1) (fr.src + 1 + fr.i) w.len := by
      simp only [Image, is]
      exact ⟨by rw [w.push_new, cell], Nat.lt_succ_self _, rfl⟩
    rw [cell] at image
    refine ⟨_, rfl, .inl rfl, C, ?_, ?_, ⟨own.own, own.low⟩⟩
    · exact built.point frames below (fun i lt => w.push_old _ lt) (Nat.le_succ _) (fun _ _ h => h)
        (fun _ _ h => .inl h) image (fun _ => leaf) rfl rfl rfl
    · exact root.mono (fun _ _ h => h) (fun _ _ _ h => h)
        (built.held frames below (fun i lt => w.push_old _ lt) _) (Nat.le_succ _)

theorem getStep_nil (frames : w.frames = []) : getStep tb st w = none := by
  simp only [getStep, frames]

theorem getStep_drop {fr : Frame} {rest : List Frame} (frames : w.frames = fr :: rest) (done : fr.n ≤ fr.i) :
    getStep tb st w = some { w with frames := rest } := by
  simp only [getStep, frames, if_pos done]

theorem get_turns (tb : Tables) (st s : Heap) (t r : Nat) :
    Turns tb (itemAt st.cells st.len) (getStep tb st) fun w => ∃ C, Putting tb st s t r C w := by
  refine ⟨?_, ?_, ?_⟩
  · rintro w w' ⟨C, putting⟩ next
    cases top : w.frames with
    | nil =>
      rw [getStep_nil top] at next
      cases next
    | cons fr rest =>
      by_cases done : fr.n ≤ fr.i
      · rw [getStep_drop top done, Option.some.injEq] at next
        subst next
        exact ⟨C, putting.built.drop top done, putting.root, putting.own.own, putting.own.low⟩
      · obtain ⟨w'', next', -, more⟩ := putting.get_turn top (Nat.lt_of_not_le done)
        obtain rfl := Option.some.inj (next.symm.trans next')
        exact more
  · intro w fr rest _ top done
    exact ⟨_, getStep_drop top done, rfl⟩
  · rintro w fr rest ⟨C, putting⟩ top below
    obtain ⟨w', next, moved, -⟩ := putting.get_turn top below
    refine ⟨w', next, ?_⟩
    rcases moved with moved | ⟨src, f, is, moved⟩
    · exact .inr (.inl moved)
    · rcases owe_frames { w with frames := advance fr rest } src (w.len + 1) (tb.arity f) with same | more
      · exact .inr (.inl (moved.trans same))
      · exact .inr (.inr ⟨src, f, w.len + 1, is, moved.trans more⟩)

/-- A walk that has finished: what it left is the source's term over again. -/
def Copied (tb : Tables) (src old : Heap) (t r : Nat) (w : Walk) : Prop :=
  w.frames = [] ∧ ∃ C, Putting tb src old t r C w

/-- Reading a store term that is all there gives it back on the heap. -/
theorem storeGetVm_spec (tb : Tables) (st s : Heap) {t : Nat} (finite : Finite tb (itemAt st.cells st.len) t) :
    ∃ r w, Settles (fun fuel => storeGetVm tb st fuel t (.over_ s none)) (r, w) ∧ Copied tb st s t r w := by
  have is := itemAt_eq st t
  have start : PutInv tb st s none t _ _ := PutInv.start tb st s none t
  -- the first node is the put's own
  rcases start with ⟨-, C, putting⟩ | ⟨no, -⟩
  swap
  · exact absurd rfl no
  cases cell : st.cells (st.deref t) with
  | func f =>
    simp only [cell] at is
    have node : putNode tb st t (.over_ s none) = _ := putNode_comp is
    rw [if_neg (by simp [past, Walk.over_])] at node
    rw [node] at putting
    obtain ⟨w', reached, ⟨C', done⟩, none_⟩ := (get_turns tb st s t _).out ⟨C, putting⟩ (by
      intro fr mem k _ high
      have there : fr ∈ (putNode tb st t (.over_ s none)).2.frames := by
        rw [node]
        exact mem
      obtain ⟨f', is', n⟩ := putNode_frames rfl there
      cases finite with
      | intro args => exact args fr.src f' k is' (by omega))
    refine ⟨_, w', ?_, none_, C', done⟩
    refine ((loop_steps reached (loop_stop (getStep_nil none_))).map fun w' => ((Walk.over_ s none).len, w')).congr ?_
    intro fuel
    simp only [storeGetVm, cell]
  | ref p =>
    have node : putNode tb st t (.over_ s none) =
        (s.len, { (Walk.over_ s none).push (.ref s.len) with vars := [(st.deref t, s.len)] }) := by
      simp only [putNode, cell]
      rfl
    rw [node] at putting
    refine ⟨_, _, Settles.of_eq fun fuel => ?_, rfl, C, putting⟩
    simp only [storeGetVm, cell]
    rfl
  | _ =>
    have node : putNode tb st t (.over_ s none) =
        (s.len, (Walk.over_ s none).push (st.cells (st.deref t))) := by
      simp only [putNode, cell]
      rfl
    rw [node] at putting
    refine ⟨_, _, Settles.of_eq fun fuel => ?_, rfl, C, putting⟩
    simp only [storeGetVm, cell]
    rfl

/-- The relation a finished walk leaves between the source's cells and its own. -/
theorem Copied.bisim {src old : Heap} {live : Nat → Prop} (whole : Whole tb src.cells src.len live) (alive : live t)
    (copied : Copied tb src old t r w) :
    (∃ R : Nat → Nat → Prop, Bisim tb src.cells src.len w.cells w.len (Met w) R ∧ R t r ∧
        ∀ d, Leads w.cells w.len r d → R t d) ∧
      Rooted tb w.cells w.len r ∧ Own w old.len ∧ (∀ i < old.len, w.cells i = old.cells i) ∧ old.len ≤ w.len := by
  obtain ⟨none_, C, putting⟩ := copied
  have laid := putting.built.done none_
  have here := laid.image_leads putting.root
  refine ⟨⟨_, laid.bisim whole, ⟨alive, r, putting.root, here⟩, ?_⟩, laid.rooted putting.root, putting.own,
    putting.built.kept, putting.built.grown⟩
  intro d leads
  obtain rfl := leads.unique here
  exact ⟨alive, d, putting.root, here⟩

/- A term in factors made cyclic again. -/

/-- `coco_is_cons`, of a dereferenced cell. -/
def isCons (ws : Words tb) (c : Cell) : Bool := c = .func ws.consF

/-- A compound of two arguments with this name. -/
def isNamed (tb : Tables) (name : Nat) : Cell → Bool
  | .func f => tb.arity f = 2 ∧ (tb.functors f).name = name
  | _ => false

/-- The list is one of equations with unbound left sides. -/
def checkFactors (ws : Words tb) (h : Heap) : Nat → Nat → Option Bool
  | 0, _ => none
  | fuel + 1, l =>
    if isCons ws (h.cells l) then
      let p := h.deref (l + 1)
      if isNamed tb ws.eq (h.cells p) then
        if (h.cells (h.deref (p + 1))).isRef then checkFactors ws h fuel (h.deref (l + 2)) else some false
      else some false
    else some (h.cells l = .atom ws.nil)

/-- Every left side bound to its right side's cell, while it is unbound. -/
def bindFactors (ws : Words tb) : Nat → Nat → Heap → Option Heap
  | 0, _, _ => none
  | fuel + 1, l, h =>
    if isCons ws (h.cells l) then
      let p := h.deref (l + 1)
      let v := h.deref (p + 1)
      let h := if (h.cells v).isRef then { h with cells := Function.update h.cells v (.ref (p + 2)) } else h
      bindFactors ws fuel (h.deref (l + 2)) h
    else some h

/-- `coco_unfactor`. -/
def unfactor (ws : Words tb) (fuel t : Nat) (h : Heap) : Option (Nat × Heap) :=
  let t := h.deref t
  if isNamed tb ws.cyclic (h.cells t) then
    (checkFactors ws h fuel (h.deref (t + 2))).bind fun ok =>
      if ok then (bindFactors ws fuel (h.deref (t + 2)) h).map fun h' => (t + 1, h') else some (t, h)
  else some (t, h)

end Cocolog.Copy
