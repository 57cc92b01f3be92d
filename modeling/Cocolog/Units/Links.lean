import Cocolog.Units.Numbering

/-! Where each unit goes next. The walk over the units' parts ends, since a part is numbered after
its unit, and gives each a unit of the body to go to and a condition slot of the body to cut to. -/

set_option linter.all false

namespace Cocolog.Units

/-- Every unit of a body is linked and complete. -/
def Sound (us : Nat → Egoal) (nu nterm nslot : Nat) : Prop :=
  ∀ i, 0 < i → i ≤ nu → (us i).Linked i nu nslot ∧ (us i).Complete nterm nslot

section

variable {us : Nat → Egoal} {nu nterm nslot u after bctx : Nat}

/-- The first writes of `cc_ulink`. -/
def linkTo (us : Nat → Egoal) (u after bctx : Nat) : Nat → Egoal :=
  fun i => if i = u then { us i with next := after, bslot := bctx } else us i

theorem Sound.linkTo (h : Sound us nu nterm nslot) (next : after ≤ nu) (slot : bctx ≤ nslot) :
    Sound (linkTo us u after bctx) nu nterm nslot := by
  intro i some low
  unfold Units.linkTo
  split
  · obtain ⟨linked, whole⟩ := h i some low
    exact ⟨{ linked with next := next, bslot := slot },
      ⟨whole.conj, whole.disj, whole.ite, whole.root, whole.height⟩⟩
  · exact h i some low

/-- A unit's part, where there is one. -/
theorem After.within {v : Nat} (h : After u nu v) (there : v ≠ 0) : 0 < v ∧ v ≤ nu ∧ u < v :=
  have ⟨past, low⟩ := h.resolve_left there
  ⟨Nat.pos_of_ne_zero there, low, past⟩

theorem ulink_succ (turns : Nat) (us : Nat → Egoal) (u after bctx : Nat) :
    ulink (turns + 1) us u after bctx =
      let us := linkTo us u after bctx
      match (us u).kind with
      | .conj => ulinkItems turns us (us u).a after bctx
      | .ite =>
        ulink turns (ulink turns (ulink turns (ulink turns us (us u).a (us u).d ((us u).tslot + 1))
          (us u).d (us u).b bctx) (us u).b after bctx) (us u).c after bctx
      | .disj => ulink turns (ulink turns us (us u).a after bctx) (us u).b after bctx
      | _ => us := rfl

theorem ulinkItems_none (turns : Nat) (us : Nat → Egoal) (after bctx : Nat) :
    ulinkItems turns us 0 after bctx = us := by
  cases turns with
  | zero => rfl
  | succ turns => exact if_pos rfl

theorem ulinkItems_succ {v : Nat} (there : v ≠ 0) (turns : Nat) (us : Nat → Egoal)
    (after bctx : Nat) :
    ulinkItems (turns + 1) us v after bctx =
      ulinkItems turns (ulink turns us v (if (us v).sib ≠ 0 then (us v).sib else after) bctx)
        (us v).sib after bctx := if_neg there

mutual

theorem ulink_sound {us : Nat → Egoal} {u after bctx : Nat} : ∀ turns,
    Sound us nu nterm nslot → 0 < u → u ≤ nu → after ≤ nu → bctx ≤ nslot →
      Sound (ulink turns us u after bctx) nu nterm nslot
  | 0, h, _, _, _, _ => h
  | turns + 1, h, pos, low, next, slot => by
    have h' := h.linkTo (u := u) next slot
    obtain ⟨linked, whole⟩ := h' u pos low
    rw [ulink_succ]
    dsimp only
    split
    · exact ulinkItems_sound turns h' (fun there => (linked.a.within there).2.1) next slot
    · next kind =>
      obtain ⟨a, b, c, d⟩ := whole.ite kind
      obtain ⟨aPos, aLow, -⟩ := linked.a.within a
      obtain ⟨bPos, bLow, -⟩ := linked.b.within b
      obtain ⟨cPos, cLow, -⟩ := linked.c.within c
      obtain ⟨dPos, dLow, -⟩ := linked.d.within d
      have cond := ulink_sound turns h' aPos aLow dLow (whole.height (.inl kind))
      have cut := ulink_sound turns cond dPos dLow bLow slot
      have yes := ulink_sound turns cut bPos bLow next slot
      exact ulink_sound turns yes cPos cLow next slot
    · next kind =>
      obtain ⟨a, b⟩ := whole.disj kind
      obtain ⟨aPos, aLow, -⟩ := linked.a.within a
      obtain ⟨bPos, bLow, -⟩ := linked.b.within b
      exact ulink_sound turns (ulink_sound turns h' aPos aLow next slot) bPos bLow next slot
    · exact h'
termination_by structural turns => turns

theorem ulinkItems_sound {us : Nat → Egoal} {v after bctx : Nat} : ∀ turns,
    Sound us nu nterm nslot → (v ≠ 0 → v ≤ nu) → after ≤ nu → bctx ≤ nslot →
      Sound (ulinkItems turns us v after bctx) nu nterm nslot
  | 0, h, _, _, _ => h
  | turns + 1, h, low, next, slot => by
    unfold ulinkItems
    split
    · exact h
    · next there =>
      have pos := Nat.pos_of_ne_zero there
      have linked := (h v pos (low there)).1.sib
      have within : (us v).sib ≤ nu := linked.elim (fun none_ => none_ ▸ Nat.zero_le _) And.right
      refine ulinkItems_sound turns (ulink_sound turns h pos (low there) ?_ slot)
        (fun _ => within) next slot
      split
      · exact within
      · exact next
termination_by structural turns => turns

end

mutual

/-- The walk ends: past two turns for each unit still to come, more change nothing. -/
theorem ulink_ends {us : Nat → Egoal} {u after bctx : Nat} : ∀ turns turns',
    2 * (nu - u) < turns → 2 * (nu - u) < turns' → Sound us nu nterm nslot → 0 < u → u ≤ nu →
      after ≤ nu → bctx ≤ nslot → ulink turns us u after bctx = ulink turns' us u after bctx
  | 0, _, enough, _, _, _, _, _, _ => absurd enough (Nat.not_lt_zero _)
  | _ + 1, 0, _, enough, _, _, _, _, _ => absurd enough (Nat.not_lt_zero _)
  | turns + 1, turns' + 1, enough, enough', h, pos, low, next, slot => by
    have h' := h.linkTo (u := u) next slot
    obtain ⟨linked, whole⟩ := h' u pos low
    have less {v : Nat} (past : u < v) (within : v ≤ nu) :
        2 * (nu - v) < turns ∧ 2 * (nu - v) < turns' := by omega
    rw [ulink_succ, ulink_succ]
    dsimp only
    split
    · rcases Nat.eq_zero_or_pos (linkTo us u after bctx u).a with none_ | there
      · rw [none_, ulinkItems_none, ulinkItems_none]
      · obtain ⟨_, aLow, aPast⟩ := linked.a.within (Nat.ne_of_gt there)
        exact ulinkItems_ends turns turns' (by omega) (by omega) h' there aLow next slot
    · next kind =>
      obtain ⟨a, b, c, d⟩ := whole.ite kind
      obtain ⟨aPos, aLow, aPast⟩ := linked.a.within a
      obtain ⟨bPos, bLow, bPast⟩ := linked.b.within b
      obtain ⟨cPos, cLow, cPast⟩ := linked.c.within c
      obtain ⟨dPos, dLow, dPast⟩ := linked.d.within d
      have height := whole.height (.inl kind)
      have cond := ulink_sound turns' h' aPos aLow dLow height
      have cut := ulink_sound turns' cond dPos dLow bLow slot
      have yes := ulink_sound turns' cut bPos bLow next slot
      rw [ulink_ends turns turns' (less aPast aLow).1 (less aPast aLow).2 h' aPos aLow dLow height,
        ulink_ends turns turns' (less dPast dLow).1 (less dPast dLow).2 cond dPos dLow bLow slot,
        ulink_ends turns turns' (less bPast bLow).1 (less bPast bLow).2 cut bPos bLow next slot,
        ulink_ends turns turns' (less cPast cLow).1 (less cPast cLow).2 yes cPos cLow next slot]
    · next kind =>
      obtain ⟨a, b⟩ := whole.disj kind
      obtain ⟨aPos, aLow, aPast⟩ := linked.a.within a
      obtain ⟨bPos, bLow, bPast⟩ := linked.b.within b
      have left := ulink_sound turns' h' aPos aLow next slot
      rw [ulink_ends turns turns' (less aPast aLow).1 (less aPast aLow).2 h' aPos aLow next slot,
        ulink_ends turns turns' (less bPast bLow).1 (less bPast bLow).2 left bPos bLow next slot]
    · rfl
termination_by structural turns => turns

theorem ulinkItems_ends {us : Nat → Egoal} {v after bctx : Nat} : ∀ turns turns',
    2 * (nu - v) + 1 < turns → 2 * (nu - v) + 1 < turns' → Sound us nu nterm nslot → 0 < v →
      v ≤ nu → after ≤ nu → bctx ≤ nslot →
      ulinkItems turns us v after bctx = ulinkItems turns' us v after bctx
  | 0, _, enough, _, _, _, _, _, _ => absurd enough (Nat.not_lt_zero _)
  | _ + 1, 0, _, enough, _, _, _, _, _ => absurd enough (Nat.not_lt_zero _)
  | turns + 1, turns' + 1, enough, enough', h, pos, low, next, slot => by
    have sib := (h v pos low).1.sib
    have within : (us v).sib ≤ nu := sib.elim (fun none_ => none_ ▸ Nat.zero_le _) And.right
    have goes : (if (us v).sib ≠ 0 then (us v).sib else after) ≤ nu := by
      split
      · exact within
      · exact next
    rw [ulinkItems_succ (Nat.ne_of_gt pos), ulinkItems_succ (Nat.ne_of_gt pos),
      ulink_ends turns turns' (by omega) (by omega) h pos low goes slot]
    rcases Nat.eq_zero_or_pos (us v).sib with none_ | there
    · rw [none_, ulinkItems_none, ulinkItems_none]
    · obtain ⟨_, xLow, xPast⟩ := sib.within (Nat.ne_of_gt there)
      exact ulinkItems_ends turns turns' (by omega) (by omega)
        (ulink_sound turns' h pos low goes slot) there xLow next slot
termination_by structural turns => turns

end

variable {bus : List Nat}

theorem ulinkBody_sound (h : Sound us nu nterm nslot) (within : ∀ u ∈ bus, 0 < u ∧ u ≤ nu)
    (turns : Nat) : Sound (ulinkBody turns us bus) nu nterm nslot := by
  induction bus generalizing us with
  | nil => exact h
  | cons u rest ih =>
    obtain ⟨pos, low⟩ := within u (.head _)
    cases rest with
    | nil => exact ulink_sound turns h pos low (Nat.zero_le _) (Nat.zero_le _)
    | cons v rest =>
      exact ih (ulink_sound turns h pos low (within v (.tail _ (.head _))).2 (Nat.zero_le _))
        fun w member => within w (.tail _ member)

/-- The turns the body's walk is given are enough. -/
theorem ulinkBody_ends (h : Sound us nu nterm nslot) (within : ∀ u ∈ bus, 0 < u ∧ u ≤ nu)
    {turns : Nat} (enough : 2 * nu < turns) :
    ulinkBody turns us bus = ulinkBody (2 * nu + 2) us bus := by
  induction bus generalizing us with
  | nil => rfl
  | cons u rest ih =>
    obtain ⟨pos, low⟩ := within u (.head _)
    have same {after : Nat} (next : after ≤ nu) :
        ulink turns us u after 0 = ulink (2 * nu + 2) us u after 0 :=
      ulink_ends turns _ (by omega) (by omega) h pos low next (Nat.zero_le _)
    cases rest with
    | nil => exact same (Nat.zero_le _)
    | cons v rest =>
      have next := (within v (.tail _ (.head _))).2
      show ulinkBody turns (ulink turns us u v 0) _ = ulinkBody _ (ulink _ us u v 0) _
      rw [same next]
      exact ih (ulink_sound _ h pos low next (Nat.zero_le _)) fun w member =>
        within w (.tail _ member)

end

theorem compileGoals_spec {s : Site} {ngd : Nat} : ∀ {goals : List Tm} {count : Nat} {uc uc' : Comp}
    {bus : List Nat} {ehand : Bool},
    compileGoals s ngd count goals uc = some (bus, ehand, uc') →
      Grown uc uc' 0 (goalUnits s ngd count goals) ∧ ∀ u ∈ bus, 0 < u ∧ u ≤ uc'.nu
  | [], count, uc, uc', bus, ehand, made => by
    cases made
    exact ⟨Grown.refl _ 0, fun u member => by cases member⟩
  | g :: rest, count, uc, uc', bus, ehand, made => by
    unfold compileGoals at made
    unfold goalUnits
    split at made
    · next handed =>
      simp only [Option.bind_eq_bind, Option.bind_eq_some_iff] at made
      obtain ⟨uc₁, asked, w, _, made⟩ := made
      cases ask_eq asked
      rw [if_pos handed]
      obtain ⟨grown, within⟩ := compileGoals_spec made
      have before : Grown uc { uc with asks := uc.asks + 1, vm := w.vm, nvars := w.nvars } 0 0 :=
        (Grown.refl uc 0).renew rfl rfl (le_refl _) rfl id
      exact ⟨before.then_ grown, within⟩
    · next taken =>
      simp only [Option.bind_eq_bind, Option.bind_eq_some_iff] at made
      obtain ⟨⟨u, uc₁⟩, unit, ⟨bus', hand, uc₂⟩, others, made⟩ := made
      cases made
      rw [if_neg taken]
      have m := ubranch_spec s 64 _ _ _ _ unit
      obtain ⟨grown, within⟩ := compileGoals_spec others
      refine ⟨m.grown.then_ grown, fun v member => ?_⟩
      rcases List.mem_cons.mp member with here | later
      · have one := m.grown.nu
        have more := grown.nu
        have root := m.root
        have pos := m.some
        dsimp only at one more root ⊢
        omega
      · exact within v later

/-- What `cc_compile_env` has of a body it takes: `bus` its units, from `uc`. -/
structure Taken (s : Site) (ngd : Nat) (body : Tm) (uc : Comp) (bus : List Nat) : Prop where
  nu : uc.nu = bodyUnits s ngd body
  sound : Sound uc.us uc.nu uc.nterm uc.nslot
  within : ∀ u ∈ bus, 0 < u ∧ u ≤ uc.nu
  begins : bus ≠ []
  terms : uc.nterm ≤ 64
  slots : uc.nslot ≤ uc.nu
  vars : uc.einit.length ≤ 2 ^ 24

theorem compileEnv_taken {s : Site} {head : Walk} {nvars ngd : Nat} {body : Tm} {cd : Code}
    (made : compileEnv s head nvars ngd body = some (some cd)) :
    ∃ uc bus ehand, cd = settle uc bus ehand ∧ Taken s ngd body uc bus := by
  unfold compileEnv at made
  split at made
  · cases made
  · simp only [Option.bind_eq_bind, Option.bind_eq_some_iff] at made
    obtain ⟨uc₀, asked, ⟨bus, ehand, uc⟩, goals, made⟩ := made
    cases ask_eq asked
    split at made
    · cases made
    · next taken =>
      obtain ⟨uc₁, asked, made⟩ := Option.bind_eq_some_iff.mp made
      cases ask_eq asked
      cases made
      obtain ⟨grown, within⟩ := compileGoals_spec goals
      simp only [not_or, not_not, Nat.not_lt] at taken
      refine ⟨_, bus, ehand, rfl, ?_, fun i pos low => ?_, within, ?_, taken.2.2.1, ?_, ?_⟩
      · exact grown.nu.trans (Nat.zero_add _)
      · exact ⟨grown.linked i pos low, grown.complete i pos low (Nat.ne_of_gt pos)⟩
      · intro none_
        rw [none_] at taken
        exact taken.2.1 rfl
      · have := grown.few
        dsimp only at this ⊢
        omega
      · exact (grown.slots ⟨List.nodup_nil, fun k member => by cases member⟩).few

end Cocolog.Units
