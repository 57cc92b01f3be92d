import Cocolog.Compact.Walks

/-! A copy whose owners have not run out of memory at its end never had, and while every
variable map may grow it is the copy of the walks without growths. -/

set_option linter.all false

namespace Cocolog.Compact

open Cocolog.Lib Cocolog.Term Cocolog.Store Cocolog.Copy

/-- Every growth of a variable map is given. -/
def Answers.Mapped (a : Answers) : Prop := ∀ k, a.maps k = true

theorem Answers.Mapped.laterMap {a : Answers} (mapped : a.Mapped) : a.laterMap.Mapped := fun k => mapped (k + 1)

namespace Fill

/-- From `f` to `f'` the walk became `w`, if memory held out. -/
structure Granted (f f' : Fill) (w : Copy.Walk) : Prop where
  mapped : f.answers.Mapped → f'.answers.Mapped
  oom : f'.oom = false → f.oom = false
  walk : f.answers.Mapped → f'.oom = false → f'.walk = w

variable {tb : Tables} {f f' f'' : Fill} {h : Heap} {w : Copy.Walk}

theorem Granted.refl (f : Fill) : Granted f f f.walk := ⟨id, id, fun _ _ => rfl⟩

theorem Granted.of_walk (f : Fill) (w : Copy.Walk) : Granted f { f with walk := w } w := ⟨id, id, fun _ _ => rfl⟩

/-- One operation after the other. -/
theorem Granted.trans {w₂ w' : Copy.Walk} (one : Granted f f' w) (two : Granted f' f'' w₂) (same : f'.walk = w → w₂ = w') :
    Granted f f'' w' :=
  ⟨fun m => two.mapped (one.mapped m), fun ok => one.oom (two.oom ok),
    fun m ok => (two.walk (one.mapped m) ok).trans (same (one.walk m (two.oom ok)))⟩

theorem grow_granted (f : Fill) (need : Nat) :
    Granted f (f.grow need).2 f.walk ∧ ((f.grow need).2.oom = false → (f.grow need).1 = true) := by
  unfold grow
  split
  · exact ⟨.refl f, fun _ => rfl⟩
  · split
    · exact ⟨⟨id, fun ok => absurd ok (by simp), fun _ ok => absurd ok (by simp)⟩, fun ok => absurd ok (by simp)⟩
    · exact ⟨⟨id, id, fun _ _ => rfl⟩, fun _ => rfl⟩
    · exact ⟨⟨id, id, fun _ _ => rfl⟩, fun _ => rfl⟩

theorem push_granted (f : Fill) (c : Cell) :
    Granted f (f.push c).2 (f.walk.push c) ∧ ((f.push c).2.oom = false → (f.push c).1 = f.walk.len) := by
  obtain ⟨⟨mapped, oom, walk⟩, given⟩ := grow_granted f (f.walk.len + 1)
  unfold push
  dsimp only
  split
  · exact ⟨⟨mapped, oom, fun _ _ => rfl⟩, fun _ => rfl⟩
  · rename_i no
    exact ⟨⟨mapped, oom, fun _ ok => absurd (given ok) no⟩, fun ok => absurd (given ok) no⟩

theorem newVar_granted (f : Fill) :
    Granted f f.newVar.2 (f.walk.push (.ref f.walk.len)) ∧ (f.newVar.2.oom = false → f.newVar.1 = f.walk.len) := by
  obtain ⟨⟨mapped, oom, walk⟩, index⟩ := push_granted f (.ref 0)
  refine ⟨⟨mapped, oom, ?_⟩, index⟩
  intro m ok
  have at_ : (f.push (.ref 0)).1 = f.walk.len := index ok
  have pushed : (f.push (.ref 0)).2.walk = f.walk.push (.ref 0) := walk m ok
  simp only [newVar, at_, pushed, Copy.Walk.setArg, Copy.Walk.push, Function.update_idem]

theorem reserve_zero (w : Copy.Walk) : w.reserve 0 = w := by
  have none_ : (fun i => if w.len ≤ i ∧ i < w.len + 0 then Cell.ref i else w.cells i) = w.cells := by
    funext i
    exact if_neg (by omega)
  unfold Copy.Walk.reserve
  rw [none_]
  rfl

/-- The slots reserved one by one. -/
theorem reserve_succ (w : Copy.Walk) (n : Nat) : w.reserve (n + 1) = (w.push (.ref w.len)).reserve n := by
  have cells : (w.reserve (n + 1)).cells = ((w.push (.ref w.len)).reserve n).cells := by
    funext i
    show (if w.len ≤ i ∧ i < w.len + (n + 1) then Cell.ref i else w.cells i) =
      if w.len + 1 ≤ i ∧ i < w.len + 1 + n then Cell.ref i else Function.update w.cells w.len (.ref w.len) i
    by_cases first : i = w.len
    · rw [first, if_pos (by omega), if_neg (by omega), Function.update_self]
    · rw [Function.update_of_ne first]
      congr 1
      simp only [eq_iff_iff]
      omega
  have len : (w.reserve (n + 1)).len = ((w.push (.ref w.len)).reserve n).len := by
    simp only [Copy.Walk.reserve, Copy.Walk.push]
    omega
  exact Copy.Walk.mk.injEq .. ▸ ⟨cells, len, rfl, rfl, rfl⟩

theorem newVars_granted (n : Nat) (f : Fill) : Granted f (newVars n f) (f.walk.reserve n) := by
  induction n generalizing f with
  | zero =>
    rw [reserve_zero]
    exact .refl f
  | succ n ih =>
    refine (newVar_granted f).1.trans (ih f.newVar.2) ?_
    intro walk
    rw [walk, reserve_succ]

theorem pushStruct_granted (f : Fill) (c : Cell) (n : Nat) :
    Granted f (f.pushStruct c n).2 (f.walk.pushStruct c n) ∧
      ((f.pushStruct c n).2.oom = false → (f.pushStruct c n).1 = f.walk.len) := by
  obtain ⟨⟨mapped, oom, walk⟩, given⟩ := grow_granted f (f.walk.len + (n + 1))
  unfold pushStruct
  dsimp only
  split
  · exact ⟨⟨mapped, oom, fun _ _ => rfl⟩, fun _ => rfl⟩
  · rename_i no
    exact ⟨⟨mapped, oom, fun _ ok => absurd (given ok) no⟩, fun ok => absurd (given ok) no⟩

theorem owe_granted (f : Fill) (src dst n : Nat) : Granted f (f.owe src dst n) (f.walk.owe src dst n) := by
  unfold owe
  split
  · rename_i none_
    subst none_
    exact .refl f
  split
  · exact .of_walk f _
  split
  · exact ⟨id, fun ok => absurd ok (by simp), fun _ ok => absurd ok (by simp)⟩
  · exact ⟨id, id, fun _ _ => rfl⟩

theorem mapRoom_granted (f : Fill) :
    Granted f f.mapRoom.2 f.walk ∧ (f.answers.Mapped → f.mapRoom.1 = true) := by
  unfold mapRoom
  split
  · exact ⟨.refl f, fun _ => rfl⟩
  split
  · exact ⟨⟨.laterMap, id, fun _ _ => rfl⟩, fun _ => rfl⟩
  · rename_i no
    exact ⟨⟨.laterMap, id, fun _ _ => rfl⟩, fun mapped => absurd (mapped 0) no⟩

theorem enter_granted (f : Fill) (v x : Nat) :
    Granted f (f.enter v x) { f.walk with vars := (v, x) :: f.walk.vars } := by
  obtain ⟨⟨mapped, oom, walk⟩, room⟩ := mapRoom_granted f
  unfold enter
  dsimp only
  split
  · exact ⟨mapped, oom, fun _ _ => rfl⟩
  · rename_i no
    exact ⟨mapped, oom, fun m _ => absurd (room m) no⟩

/-- A node of the put is the walk's. -/
theorem putNode_granted (tb : Tables) (h : Heap) (t : Nat) (f : Fill) :
    Granted f (f.putNode tb h t).2 (Copy.putNode tb h t f.walk).2 ∧
      ((f.putNode tb h t).2.oom = false → (f.putNode tb h t).1 = (Copy.putNode tb h t f.walk).1) := by
  unfold putNode Copy.putNode
  dsimp only
  cases cell : h.cells (h.deref t) with
  | ref p =>
    dsimp only
    cases found : f.walk.vars.lookup (h.deref t) with
    | some v => exact ⟨.refl f, fun _ => rfl⟩
    | none =>
      obtain ⟨made, index⟩ := newVar_granted f
      have entered := enter_granted f.newVar.2 (h.deref t) f.newVar.1
      refine ⟨⟨fun m => entered.mapped (made.mapped m), fun ok => made.oom (entered.oom ok), ?_⟩,
        fun ok => index (entered.oom ok)⟩
      intro m ok
      have ok' := entered.oom ok
      rw [entered.walk (made.mapped m) ok, made.walk m ok', index ok']
      rfl
  | func fn =>
    dsimp only
    obtain ⟨made, index⟩ := push_granted f (.func fn)
    have slots := newVars_granted (tb.arity fn) (f.push (.func fn)).2
    have framed := owe_granted (newVars (tb.arity fn) (f.push (.func fn)).2) (h.deref t) ((f.push (.func fn)).1 + 1)
      (tb.arity fn)
    -- with the header given, the ceiling is asked about the same index
    have asked : f.answers.Mapped → (f.push (.func fn)).2.oom = false →
        past (f.push (.func fn)).2.walk.wceil (f.push (.func fn)).1 = past f.walk.wceil f.walk.len := by
      intro m ok
      rw [made.walk m ok, index ok]
      rfl
    split
    · rename_i over_
      refine ⟨⟨made.mapped, made.oom, ?_⟩, fun ok => ?_⟩
      · intro m ok
        rw [if_pos ((asked m ok).symm.trans over_), made.walk m ok]
      · rw [index ok]
        split <;> rfl
    · rename_i under
      refine ⟨⟨fun m => framed.mapped (slots.mapped (made.mapped m)),
        fun ok => made.oom (slots.oom (framed.oom ok)), ?_⟩, fun ok => ?_⟩
      · intro m ok
        have ok₁ := slots.oom (framed.oom ok)
        rw [if_neg (fun over_ => under ((asked m ok₁).trans over_)), framed.walk (slots.mapped (made.mapped m)) ok,
          slots.walk (made.mapped m) (framed.oom ok), made.walk m ok₁, index ok₁]
        rfl
      · rw [index (slots.oom (framed.oom ok))]
        split <;> rfl
  | _ => exact push_granted f _

/-- A turn of the put is the walk's. -/
theorem putStep_granted (next : putStep tb h f = some f') :
    Granted f f' f'.walk ∧ (f.answers.Mapped → f'.oom = false → fillStep (Copy.putNode tb h) f.walk = some f'.walk) := by
  unfold putStep at next
  unfold fillStep
  cases frames : f.walk.frames with
  | nil =>
    simp only [frames] at next
    cases next
  | cons fr rest =>
  simp only [frames] at next ⊢
  split at next
  · rename_i done
    cases next
    exact ⟨.of_walk f _, fun _ _ => if_pos done⟩
  · rename_i more
    obtain ⟨placed, index⟩ :=
      putNode_granted tb h (fr.src + (fr.i + 1)) { f with walk := { f.walk with frames := advance fr rest } }
    cases next
    refine ⟨⟨placed.mapped, placed.oom, fun _ _ => rfl⟩, ?_⟩
    intro m ok
    rw [if_neg more]
    simp only [setArg, index ok, placed.walk m ok]

theorem putStep_stopped (stopped : putStep tb h f = none) : fillStep (Copy.putNode tb h) f.walk = none := by
  unfold putStep at stopped
  split at stopped
  · rename_i none_
    exact fillStep_nil none_
  · split at stopped <;> cases stopped

theorem mapRoom_walk (f : Fill) : f.mapRoom.2.walk = f.walk := by
  unfold mapRoom
  split
  · rfl
  split <;> rfl

/-- The value found, or the variable entered, is the walk's. -/
theorem intern_granted (f : Fill) (v x : Nat) :
    Granted f (f.intern v x).2 (f.intern v x).2.walk ∧ (f.answers.Mapped →
      (f.intern v x).1 = f.walk.vars.lookup v ∧ (f.intern v x).2.walk =
        if f.walk.vars.lookup v = none then { f.walk with vars := (v, x) :: f.walk.vars } else f.walk) := by
  obtain ⟨⟨mapped, oom, -⟩, room⟩ := mapRoom_granted f
  unfold intern
  dsimp only
  split
  · cases found : f.walk.vars.lookup v with
    | some old => exact ⟨⟨mapped, oom, fun _ _ => rfl⟩, fun _ => ⟨rfl, mapRoom_walk f⟩⟩
    | none => exact ⟨⟨mapped, oom, fun _ _ => rfl⟩, fun _ => ⟨rfl, rfl⟩⟩
  · rename_i no
    exact ⟨⟨mapped, oom, fun _ _ => rfl⟩, fun m => absurd (room m) no⟩

/-- A turn of the get is the walk's. -/
theorem getStep_granted {st : Heap} (next : getStep tb st f = some f') :
    Granted f f' f'.walk ∧ (f.answers.Mapped → f'.oom = false → Copy.getStep tb st f.walk = some f'.walk) := by
  unfold getStep at next
  unfold Copy.getStep
  cases frames : f.walk.frames with
  | nil =>
    simp only [frames] at next
    cases next
  | cons fr rest =>
  simp only [frames] at next ⊢
  split at next
  · rename_i done
    cases next
    exact ⟨.of_walk f _, fun _ _ => if_pos done⟩
  rename_i more
  simp only [if_neg more]
  -- the same walk with the argument issued
  generalize issued : ({ f with walk := { f.walk with frames := advance fr rest } } : Fill) = g at next
  have walk_g : ({ f.walk with frames := advance fr rest } : Copy.Walk) = g.walk := by rw [← issued]
  have answers_g : g.answers = f.answers := by rw [← issued]
  have oom_g : g.oom = f.oom := by rw [← issued]
  have len_g : f.walk.len = g.walk.len := by rw [← issued]
  rw [walk_g, len_g, ← answers_g]
  have onward : Granted g f' f'.walk → Granted f f' f'.walk := by
    rintro ⟨mapped, oom, walk⟩
    rw [answers_g] at mapped walk
    rw [oom_g] at oom
    exact ⟨mapped, oom, walk⟩
  cases cell : st.cells (st.deref (fr.src + (fr.i + 1))) with
  | ref p =>
    simp only [cell] at next ⊢
    obtain ⟨granted, is⟩ := intern_granted g (st.deref (fr.src + (fr.i + 1))) (fr.dst + fr.i)
    generalize g.intern (st.deref (fr.src + (fr.i + 1))) (fr.dst + fr.i) = interned at granted is next
    obtain ⟨o, f₁⟩ := interned
    cases o with
    | some v =>
      cases next
      refine ⟨onward ⟨granted.mapped, granted.oom, fun _ _ => rfl⟩, fun m _ => ?_⟩
      obtain ⟨found, walk⟩ := is m
      simp only at found walk
      rw [← found, if_neg (by simp)] at walk
      subst issued
      have found' : f.walk.vars.lookup (st.deref (fr.src + (fr.i + 1))) = some v := found.symm
      simp only [found', setArg, walk]
    | none =>
      cases next
      refine ⟨onward ⟨granted.mapped, granted.oom, fun _ _ => rfl⟩, fun m _ => ?_⟩
      obtain ⟨found, walk⟩ := is m
      simp only at found walk
      rw [← found, if_pos rfl] at walk
      subst issued
      have found' : f.walk.vars.lookup (st.deref (fr.src + (fr.i + 1))) = none := found.symm
      simp only [found', walk]
  | func fn =>
    simp only [cell] at next ⊢
    cases next
    obtain ⟨made, index⟩ := pushStruct_granted g (.func fn) (tb.arity fn)
    have framed := owe_granted ((g.pushStruct (.func fn) (tb.arity fn)).2.setArg (fr.dst + fr.i)
      (g.pushStruct (.func fn) (tb.arity fn)).1) (st.deref (fr.src + (fr.i + 1)))
      ((g.pushStruct (.func fn) (tb.arity fn)).1 + 1) (tb.arity fn)
    refine ⟨onward ⟨fun m => framed.mapped (made.mapped m), fun ok => made.oom (framed.oom ok), fun _ _ => rfl⟩, ?_⟩
    intro m ok
    have ok₁ := framed.oom ok
    rw [framed.walk (made.mapped m) ok]
    simp only [setArg, made.walk m ok₁, index ok₁]
  | _ =>
    simp only [cell] at next ⊢
    cases next
    obtain ⟨made, index⟩ := push_granted g (st.cells (st.deref (fr.src + (fr.i + 1))))
    rw [cell] at made index
    refine ⟨onward ⟨made.mapped, made.oom, fun _ _ => rfl⟩, ?_⟩
    intro m ok
    simp only [setArg, made.walk m ok, index ok]

theorem getStep_stopped {st : Heap} (stopped : getStep tb st f = none) : Copy.getStep tb st f.walk = none := by
  unfold getStep at stopped
  split at stopped
  · rename_i none_
    exact getStep_nil none_
  · split at stopped
    · cases stopped
    · dsimp only at stopped
      split at stopped
      · split at stopped <;> cases stopped
      · cases stopped
      · cases stopped

/-- A loop of turns that are the walk's. -/
theorem loop_granted {step : Fill → Option Fill} {step' : Copy.Walk → Option Copy.Walk}
    (turn : ∀ {f f'}, step f = some f' → Granted f f' f'.walk ∧
      (f.answers.Mapped → f'.oom = false → step' f.walk = some f'.walk))
    (stop : ∀ {f}, step f = none → step' f.walk = none) {fuel : Nat} (ran : loop step fuel f = some f') :
    Granted f f' f'.walk ∧ (f.answers.Mapped → f'.oom = false → loop step' fuel f.walk = some f'.walk) := by
  induction fuel generalizing f with
  | zero => cases ran
  | succ fuel ih =>
    simp only [loop] at ran ⊢
    cases next : step f with
    | none =>
      rw [next] at ran
      cases ran
      exact ⟨.refl _, fun _ _ => by rw [stop next]⟩
    | some f₁ =>
      rw [next] at ran
      obtain ⟨one, first⟩ := turn next
      obtain ⟨all, more⟩ := ih ran
      refine ⟨one.trans all fun _ => rfl, ?_⟩
      intro m ok
      rw [first m (all.oom ok)]
      exact more (one.mapped m) ok

/-- A get is the walk's. -/
theorem getVm_granted {st : Heap} {fuel t r : Nat} (ran : f.getVm tb st fuel t = some (r, f')) :
    Granted f f' f'.walk ∧
      (f.answers.Mapped → f'.oom = false → storeGetVm tb st fuel t f.walk = some (r, f'.walk)) := by
  unfold getVm at ran
  unfold storeGetVm
  dsimp only at ran ⊢
  cases cell : st.cells (st.deref t) with
  | ref p =>
    simp only [cell] at ran ⊢
    obtain ⟨made, index⟩ := newVar_granted f
    obtain ⟨granted, is⟩ := intern_granted f.newVar.2 (st.deref t) f.newVar.1
    generalize f.newVar.2.intern (st.deref t) f.newVar.1 = interned at granted is ran
    obtain ⟨o, f₁⟩ := interned
    cases o with
    | some v =>
      cases ran
      refine ⟨⟨fun m => granted.mapped (made.mapped m), fun ok => made.oom (granted.oom ok), fun _ _ => rfl⟩, ?_⟩
      intro m ok
      have ok₁ := granted.oom ok
      obtain ⟨found, walk⟩ := is (made.mapped m)
      simp only at found walk
      rw [← found, if_neg (by simp), made.walk m ok₁] at walk
      have found' : f.walk.vars.lookup (st.deref t) = some r := by
        rw [found, made.walk m ok₁]
        rfl
      simp only [found', walk, index ok₁]
    | none =>
      cases ran
      refine ⟨⟨fun m => granted.mapped (made.mapped m), fun ok => made.oom (granted.oom ok), fun _ _ => rfl⟩, ?_⟩
      intro m ok
      have ok₁ := granted.oom ok
      obtain ⟨found, walk⟩ := is (made.mapped m)
      simp only at found walk
      rw [← found, if_pos rfl, made.walk m ok₁, index ok₁] at walk
      have found' : f.walk.vars.lookup (st.deref t) = none := by
        rw [found, made.walk m ok₁]
        rfl
      simp only [found', walk, index ok₁]
      rfl
  | func fn =>
    simp only [cell] at ran ⊢
    obtain ⟨f₁, looped, is⟩ := Option.map_eq_some_iff.mp ran
    cases is
    obtain ⟨made, index⟩ := pushStruct_granted f (.func fn) (tb.arity fn)
    have framed := owe_granted (f.pushStruct (.func fn) (tb.arity fn)).2 (st.deref t)
      ((f.pushStruct (.func fn) (tb.arity fn)).1 + 1) (tb.arity fn)
    obtain ⟨all, same⟩ := loop_granted getStep_granted getStep_stopped looped
    refine ⟨⟨fun m => all.mapped (framed.mapped (made.mapped m)),
      fun ok => made.oom (framed.oom (all.oom ok)), fun _ _ => rfl⟩, ?_⟩
    intro m ok
    have ok₁ := framed.oom (all.oom ok)
    have ran' := same (framed.mapped (made.mapped m)) ok
    rw [framed.walk (made.mapped m) (all.oom ok), made.walk m ok₁, index ok₁] at ran'
    rw [ran', index ok₁]
    rfl
  | _ =>
    simp only [cell] at ran ⊢
    obtain ⟨made, index⟩ := push_granted f (st.cells (st.deref t))
    rw [cell] at made index
    have pair := Option.some.inj ran
    obtain rfl := congrArg Prod.fst pair
    obtain rfl := congrArg Prod.snd pair
    refine ⟨⟨made.mapped, made.oom, fun _ _ => rfl⟩, ?_⟩
    intro m ok
    rw [made.walk m ok, index ok]

end Fill

namespace Copying

/-- What came of a copy has no more memory than what went into it. -/
structure Onward (s s' : Copying) : Prop where
  mapped : s.answers.Mapped → s'.answers.Mapped
  tmp : s'.tmp.oom = false → s.tmp.oom = false
  m : s'.m.oom = false → s.m.oom = false

variable {tb : Tables} {s s' s'' : Copying} {fuel t r : Nat}

theorem Onward.refl (s : Copying) : Onward s s := ⟨id, id, id⟩

theorem Onward.trans (one : Onward s s') (two : Onward s' s'') : Onward s s'' :=
  ⟨fun h => two.mapped (one.mapped h), fun h => one.tmp (two.tmp h), fun h => one.m (two.m h)⟩

/-- A get is the walk's, and leaves the store that is filled alone. -/
theorem get_granted {st : Heap} (ran : s.get tb st fuel t = some (r, s')) :
    Onward s s' ∧ s'.tmp = s.tmp ∧ (s.answers.Mapped → s'.m.oom = false →
      ∃ w, storeGetVm tb st fuel t (.over_ s.m.heap none) = some (r, w) ∧ s'.m.heap = ⟨w.cells, w.len⟩) := by
  obtain ⟨⟨r', f⟩, got, is⟩ := Option.map_eq_some_iff.mp ran
  cases is
  obtain ⟨⟨mapped, oom, -⟩, same⟩ := Fill.getVm_granted got
  exact ⟨⟨mapped, id, oom⟩, rfl, fun m ok => ⟨f.walk, same m ok, rfl⟩⟩

/-- A put's walk is the walk's, and leaves the heap alone. -/
theorem putWalk_granted {top : Option Nat} {over_ : Bool} (ran : s.putWalk tb fuel t top = some (r, over_, s')) :
    Onward s s' ∧ s'.m.heap = s.m.heap ∧ (s.answers.Mapped → s'.tmp.oom = false →
      ∃ w, Copy.putWalk tb s.m.heap fuel t (.over_ s.tmp.cells top) = some (r, w) ∧
        over_ = (w.wceil == some 0) ∧ s'.tmp.cells = ⟨w.cells, w.len⟩) := by
  unfold putWalk at ran
  dsimp only at ran
  obtain ⟨f, looped, is⟩ := Option.map_eq_some_iff.mp ran
  obtain ⟨placed, index⟩ := Fill.putNode_granted tb s.m.heap t
    ⟨.over_ s.tmp.cells top, s.tmp.cap, 0, s.tmp.oom, s.m.wframesCap, s.m.vmapCap, s.answers⟩
  obtain ⟨all, same⟩ := Fill.loop_granted Fill.putStep_granted Fill.putStep_stopped looped
  cases is
  refine ⟨⟨fun m => all.mapped (placed.mapped m), fun ok => placed.oom (all.oom ok), id⟩, rfl, ?_⟩
  intro m ok
  have ok₁ := all.oom ok
  have ran' := same (placed.mapped m) ok
  rw [placed.walk m ok₁] at ran'
  refine ⟨f.walk, ?_, rfl, rfl⟩
  rw [Copy.putWalk, ran', index ok₁]
  rfl

theorem get_cycPuts {st : Heap} (ran : s.get tb st fuel t = some (r, s')) : s'.m.cycPuts = s.m.cycPuts := by
  obtain ⟨_, -, is⟩ := Option.map_eq_some_iff.mp ran
  cases is
  rfl

theorem putWalk_cycPuts {top : Option Nat} {over_ : Bool} (ran : s.putWalk tb fuel t top = some (r, over_, s')) :
    s'.m.cycPuts = s.m.cycPuts := by
  obtain ⟨_, -, is⟩ := Option.map_eq_some_iff.mp ran
  cases is
  rfl

theorem acyclicTerm_onward {tree : Bool} (ran : s.acyclicTerm tb fuel t = some (tree, s')) : Onward s s' := by
  obtain ⟨_, -, is⟩ := Option.map_eq_some_iff.mp ran
  cases is
  exact ⟨id, id, id⟩

theorem factors_onward {ws : Words tb} {root : Option Nat} (ran : s.factors ws fuel t = some (root, s')) :
    Onward s s' := by
  unfold factors at ran
  split at ran
  · cases ran
    exact ⟨id, id, fun ok => absurd ok (by simp)⟩
  · obtain ⟨_, -, is⟩ := Option.map_eq_some_iff.mp ran
    cases is
    exact ⟨id, id, id⟩

theorem cyclicAtom_onward (ws : Words tb) (s : Copying) : Onward s (s.cyclicAtom ws).2 := by
  obtain ⟨⟨mapped, oom, -⟩, -⟩ := Fill.push_granted
    ⟨.over_ s.m.heap none, s.m.heapCap, s.m.slimit, s.m.oom, s.m.wframesCap, s.m.vmapCap, s.answers⟩ (.atom ws.cyclic)
  exact ⟨mapped, id, oom⟩

theorem putOver_onward {ws : Words tb} {base : Nat} (ran : s.putOver ws fuel t base = some (r, s')) :
    Onward s s' := by
  unfold putOver at ran
  simp only [Option.bind_eq_some_iff] at ran
  obtain ⟨⟨tree, s₁⟩, asked, ran⟩ := ran
  have one : Onward s s₁ := (⟨id, id, id⟩ : Onward s (s.windTmp base)).trans (acyclicTerm_onward asked)
  dsimp only at ran
  split at ran
  · obtain ⟨⟨r', over_, s₂⟩, put, is⟩ := Option.map_eq_some_iff.mp ran
    cases is
    exact one.trans (putWalk_granted put).1
  · simp only [Option.bind_eq_some_iff, Option.map_eq_some_iff] at ran
    obtain ⟨⟨root, s₂⟩, built, ⟨r', over_, s₃⟩, put, is⟩ := ran
    cases is
    have two := one.trans (factors_onward built)
    -- the heap wound back and the cycle counted change neither
    obtain ⟨mapped, tmp, m⟩ : Onward s s₃ := by
      refine Onward.trans ?_ (putWalk_granted put).1
      cases root with
      | some f => exact two
      | none => exact two.trans (cyclicAtom_onward ws s₂)
    exact ⟨mapped, tmp, m⟩

theorem put_onward {ws : Words tb} (ran : s.put ws fuel t = some (r, s')) : Onward s s' := by
  simp only [put, Option.bind_eq_some_iff] at ran
  obtain ⟨⟨r', over_, s₁⟩, put, ran⟩ := ran
  have one := (putWalk_granted put).1
  dsimp only at ran
  split at ran
  · exact one.trans (putOver_onward ran)
  · cases ran
    exact one

end Copying

end Cocolog.Compact
