import Cocolog.Units.Model
import Mathlib.Data.Finset.Card

/-! What compiling a body's units leaves: how many there are, where each one's parts are, and the
slots they read. A unit's parts are numbered after it. -/

set_option linter.all false

namespace Cocolog.Units

open Cocolog.Term

section

variable (count : Tm → Nat)

/-- The units of a construct's part: its own, where it is not written. -/
def partUnits : Option Tm → Nat
  | some t => count t
  | none => 1

/-- Of a construct. -/
def constructUnits : Construct → Nat
  | .disj l r => 1 + count l + count r
  | .ite _ c t e => 1 + count c + partUnits count t + partUnits count e + 1

/-- Of the items of a conjunction. -/
def itemUnits : Nat → Tm → Nat
  | left + 1, .app .comma [l, r] => count l + itemUnits left r
  | _, g => count g

/-- Of a goal that is no conjunction. -/
def unitUnits (s : Site) (t : Tm) : Nat :=
  match atomKind t with
  | some _ => 1
  | none => ((uform s t).map (constructUnits count)).getD 1

end

/-- How many units a goal makes. -/
def units (s : Site) : Nat → Tm → Nat
  | 0, _ => 1
  | deep + 1, .app .comma [l, r] => 1 + itemUnits (units s deep) 63 (.app .comma [l, r])
  | deep + 1, t => unitUnits (units s deep) s t

/-- How many the goals of a body make, from number `count`. -/
def goalUnits (s : Site) (ngd : Nat) : Nat → List Tm → Nat
  | _, [] => 0
  | count, g :: rest =>
    (if count < ngd ∨ count = ngd ∧ ufirst s g = false then 0 else units s 64 g) +
      goalUnits s ngd (count + 1) rest

/-- How many units a body makes past its `ngd` guards. -/
def bodyUnits (s : Site) (ngd : Nat) (body : Tm) : Nat := goalUnits s ngd 0 (bodyGoals 63 body)

/-- A part's number: none, or past its unit's and a unit's. -/
def After (i nu v : Nat) : Prop := v = 0 ∨ i < v ∧ v ≤ nu

/-- Unit `i`'s links are to units after it. -/
structure Egoal.Linked (x : Egoal) (i nu nslot : Nat) : Prop where
  a : After i nu x.a
  b : After i nu x.b
  c : After i nu x.c
  d : After i nu x.d
  sib : After i nu x.sib
  next : x.next ≤ nu
  bslot : x.bslot ≤ nslot

/-- It has what its kind needs. -/
structure Egoal.Complete (x : Egoal) (nterm nslot : Nat) : Prop where
  conj : x.kind = .conj → x.a ≠ 0
  disj : x.kind = .disj → x.a ≠ 0 ∧ x.b ≠ 0
  ite : x.kind = .ite → x.a ≠ 0 ∧ x.b ≠ 0 ∧ x.c ≠ 0 ∧ x.d ≠ 0
  root : x.kind = .term ∨ x.kind = .builtin → x.tslot < nterm
  height : x.kind = .ite ∨ x.kind = .cutc → x.tslot < nslot

/-- The variable slots are of different variables, their K of 24 bits. -/
structure Slots (einit : List Nat) : Prop where
  apart : einit.Nodup
  narrow : ∀ k ∈ einit, k < 2 ^ 24

/-- From `uc` to `uc'` come `n` units, each linked, and complete but for `u`. -/
structure Grown (uc uc' : Comp) (u n : Nat) : Prop where
  nu : uc'.nu = uc.nu + n
  same : ∀ i ≤ uc.nu, uc'.us i = uc.us i
  linked : ∀ i, uc.nu < i → i ≤ uc'.nu → (uc'.us i).Linked i uc'.nu uc'.nslot
  complete : ∀ i, uc.nu < i → i ≤ uc'.nu → i ≠ u → (uc'.us i).Complete uc'.nterm uc'.nslot
  nterm : uc.nterm ≤ uc'.nterm
  nslot : uc.nslot ≤ uc'.nslot
  few : uc'.nslot + uc.nu ≤ uc.nslot + uc'.nu
  slots : Slots uc.einit → Slots uc'.einit

theorem After.mono {i nu nu' v : Nat} (h : After i nu v) (more : nu ≤ nu') : After i nu' v :=
  h.imp id fun ⟨past, low⟩ => ⟨past, low.trans more⟩

theorem Egoal.Linked.mono {x : Egoal} {i nu nslot nu' nslot' : Nat} (h : x.Linked i nu nslot)
    (units : nu ≤ nu') (slots : nslot ≤ nslot') : x.Linked i nu' nslot' :=
  ⟨h.a.mono units, h.b.mono units, h.c.mono units, h.d.mono units, h.sib.mono units,
    h.next.trans units, h.bslot.trans slots⟩

theorem Egoal.Complete.mono {x : Egoal} {nterm nslot nterm' nslot' : Nat}
    (h : x.Complete nterm nslot) (terms : nterm ≤ nterm') (slots : nslot ≤ nslot') :
    x.Complete nterm' nslot' :=
  ⟨h.conj, h.disj, h.ite, fun kind => (h.root kind).trans_le terms,
    fun kind => (h.height kind).trans_le slots⟩

/-- A unit as it is made is linked to nothing. -/
theorem linked_new (kind : Kind) (tslot i nu nslot : Nat) :
    ({ kind := kind, tslot := tslot } : Egoal).Linked i nu nslot :=
  ⟨.inl rfl, .inl rfl, .inl rfl, .inl rfl, .inl rfl, Nat.zero_le _, Nat.zero_le _⟩

/-- A unit with no parts is complete as it is made. -/
theorem complete_new {kind : Kind} {tslot nterm nslot : Nat}
    (single : kind ≠ .conj ∧ kind ≠ .disj ∧ kind ≠ .ite)
    (root : kind = .term ∨ kind = .builtin → tslot < nterm) (height : kind = .cutc → tslot < nslot) :
    ({ kind := kind, tslot := tslot } : Egoal).Complete nterm nslot :=
  ⟨fun h => absurd h single.1, fun h => absurd h single.2.1, fun h => absurd h single.2.2, root,
    fun h => height (h.resolve_left single.2.2)⟩

namespace Grown

variable {uc uc' uc'' : Comp} {u v n m : Nat}

theorem refl (uc : Comp) (u : Nat) : Grown uc uc u 0 :=
  ⟨rfl, fun _ _ => rfl, fun _ past low => absurd past (by omega),
    fun _ past low _ => absurd past (by omega), le_refl _, le_refl _, le_refl _, id⟩

/-- Units that are whole come after. -/
theorem then_ (g : Grown uc uc' u n) (h : Grown uc' uc'' 0 m) : Grown uc uc'' u (n + m) where
  nu := by rw [h.nu, g.nu, Nat.add_assoc]
  same i low := by
    have before := g.nu
    rw [h.same i (by omega), g.same i low]
  linked i past low := by
    rcases Nat.lt_or_ge uc'.nu i with new | old
    · exact h.linked i new low
    · rw [h.same i old]
      exact (g.linked i past old).mono (by have := h.nu; omega) h.nslot
  complete i past low other := by
    rcases Nat.lt_or_ge uc'.nu i with new | old
    · exact h.complete i new low (by omega)
    · rw [h.same i old]
      exact (g.complete i past old other).mono h.nterm h.nslot
  nterm := g.nterm.trans h.nterm
  nslot := g.nslot.trans h.nslot
  few := by have := g.few; have := h.few; omega
  slots ok := h.slots (g.slots ok)

/-- A unit's members are set. -/
theorem set (g : Grown uc uc' u n) (f : Egoal → Egoal) (past : uc.nu < v)
    (linked : (f (uc'.us v)).Linked v uc'.nu uc'.nslot)
    (complete : v ≠ u → (f (uc'.us v)).Complete uc'.nterm uc'.nslot) :
    Grown uc (uc'.set v f) u n where
  nu := g.nu
  same i low := by
    show (if i = v then _ else _) = _
    rw [if_neg (by omega), g.same i low]
  linked i new low := by
    show (if i = v then _ else _ : Egoal).Linked _ _ _
    split
    · next here =>
      subst here
      exact linked
    · exact g.linked i new low
  complete i new low other := by
    show (if i = v then _ else _ : Egoal).Complete _ _
    split
    · next here =>
      subst here
      exact complete other
    · exact g.complete i new low other
  nterm := g.nterm
  nslot := g.nslot
  few := g.few
  slots := g.slots

/-- The unit left open is whole now. -/
theorem close (g : Grown uc uc' u n)
    (complete : uc.nu < u → u ≤ uc'.nu → (uc'.us u).Complete uc'.nterm uc'.nslot) :
    Grown uc uc' 0 n :=
  { g with
    complete := fun i past low _ => by
      rcases eq_or_ne i u with here | other
      · subst here
        exact complete past low
      · exact g.complete i past low other }

theorem renew (g : Grown uc uc' u n) (us : uc''.us = uc'.us) (nu : uc''.nu = uc'.nu)
    (nterm : uc'.nterm ≤ uc''.nterm) (nslot : uc''.nslot = uc'.nslot)
    (slots : Slots uc'.einit → Slots uc''.einit) : Grown uc uc'' u n where
  nu := nu.trans g.nu
  same i low := by rw [us, g.same i low]
  linked i past low := by
    rw [us, nu, nslot]
    exact g.linked i past (nu ▸ low)
  complete i past low other := by
    rw [us, nslot]
    exact (g.complete i past (nu ▸ low) other).mono nterm (le_refl _)
  nterm := g.nterm.trans nterm
  nslot := nslot ▸ g.nslot
  few := by rw [nu, nslot]; exact g.few
  slots ok := slots (g.slots ok)

end Grown

theorem ask_eq {s : Site} {uc uc' : Comp} (asked : uc.ask s = some uc') :
    uc' = { uc with asks := uc.asks + 1 } := by
  unfold Comp.ask at asked
  split at asked
  · exact (Option.some.inj asked).symm
  · contradiction

/-- What `unew` makes, with whatever room the table has. -/
theorem unew_eq {s : Site} {uc uc' : Comp} {kind : Kind} {u : Nat}
    (made : uc.unew s kind = some (u, uc')) :
    u = uc.nu + 1 ∧ ∃ ucap asks, uc' = { (uc.push kind).2 with ucap := ucap, asks := asks } := by
  unfold Comp.unew at made
  split at made
  · cases made
    exact ⟨rfl, uc.ucap, uc.asks, rfl⟩
  · generalize (if uc.ucap = 0 then 16 else uc.ucap * 2 % 2 ^ 32) = ncap at made
    dsimp only at made
    split at made
    · contradiction
    · simp only [Option.bind_eq_bind, Option.bind_eq_some_iff] at made
      obtain ⟨uc₁, asked, made⟩ := made
      cases ask_eq asked
      cases made
      exact ⟨rfl, _, _, rfl⟩

/-- What `unew` leaves: one unit more, yet to be completed. -/
structure Opened (uc uc' : Comp) (kind : Kind) (u : Nat) : Prop where
  root : u = uc.nu + 1
  grown : Grown uc uc' u 1
  unit : uc'.us u = { kind := kind }
  nterm : uc'.nterm = uc.nterm
  nslot : uc'.nslot = uc.nslot

theorem unew_spec {s : Site} {uc uc' : Comp} {kind : Kind} {u : Nat}
    (made : uc.unew s kind = some (u, uc')) : Opened uc uc' kind u := by
  obtain ⟨root, ucap, asks, rfl⟩ := unew_eq made
  subst root
  refine ⟨rfl, ⟨rfl, ?_, ?_, ?_, le_refl _, le_refl _, ?_, id⟩, if_pos rfl, rfl, rfl⟩
  · intro i low
    show (if i = uc.nu + 1 then _ else _) = _
    rw [if_neg (by omega)]
  · intro i past low
    have here : i = uc.nu + 1 := Nat.le_antisymm low past
    subst here
    show (if uc.nu + 1 = uc.nu + 1 then _ else _ : Egoal).Linked _ _ _
    rw [if_pos rfl]
    exact linked_new kind 0 _ _ _
  · intro i past low other
    exact absurd (Nat.le_antisymm low past) other
  · show uc.nslot + uc.nu ≤ uc.nslot + (uc.nu + 1)
    omega

/-- A unit with no parts is whole at once. -/
theorem Opened.single {uc uc' : Comp} {kind : Kind} {u : Nat} (o : Opened uc uc' kind u)
    (single : kind ≠ .conj ∧ kind ≠ .disj ∧ kind ≠ .ite)
    (plain : kind ≠ .term ∧ kind ≠ .builtin ∧ kind ≠ .cutc) : Grown uc uc' 0 1 := by
  refine o.grown.close fun _ _ => ?_
  rw [o.unit]
  exact complete_new single (fun h => (h.elim plain.1 plain.2.1).elim)
    fun h => absurd h plain.2.2

/-! ## A goal that is no construct -/

/-- A goal's words keep 24 bits of a variable's number. -/
def Walk.Narrow (w : Walk) : Prop := ∀ x ∈ w.words, x.k < 2 ^ 24

theorem Walk.Narrow.var {w : Walk} (h : w.Narrow) (v : Nat) : (w.var v).Narrow := by
  intro x member
  unfold Walk.var at member
  split at member <;>
  · rcases List.mem_append.mp member with old | new
    · exact h x old
    · rw [List.mem_singleton.mp new]
      exact Nat.mod_lt _ (by decide)

mutual

theorem argWord_narrow {off : Nat} {w w' : Walk} : ∀ t, argWord off w t = some w' → w.Narrow →
    w'.Narrow
  | .var v, done, h => by
    unfold argWord at done
    split at done
    · contradiction
    · cases done
      exact h.var v
  | .app f args, done, h => by
    unfold argWord at done
    split at done
    · contradiction
    · exact argWords_narrow args done h
  | .atom a, done, h => by
    unfold argWord at done
    split at done
    · contradiction
    · cases done
      exact h
  | .const c, done, h => by
    unfold argWord at done
    split at done
    · contradiction
    · cases done
      exact h

theorem argWords_narrow {off : Nat} {w w' : Walk} : ∀ ts, argWords off w ts = some w' → w.Narrow →
    w'.Narrow
  | [], done, h => by
    cases done
    exact h
  | t :: ts, done, h => by
    unfold argWords at done
    simp only [Option.bind_eq_bind, Option.bind_eq_some_iff] at done
    obtain ⟨w₁, one, rest⟩ := done
    exact argWords_narrow ts rest (argWord_narrow t one h)

end

theorem compileGoal_narrow {vm : List (Nat × Nat)} {nvars : Nat} {w : Walk} {t : Tm}
    (done : compileGoal { vm := vm, nvars := nvars } t = some w) : w.Narrow := by
  have start : ({ vm := vm, nvars := nvars } : Walk).Narrow := fun x member => by cases member
  cases t with
  | var v =>
    cases done
    exact start.var v
  | app f args => exact argWords_narrow args done fun x member => by cases member
  | atom a =>
    cases done
    exact start
  | const c =>
    cases done
    exact start

theorem uslots_slots {nemap : Nat} {bycell fits : Bool} {words : List Occurrence}
    (narrow : ∀ x ∈ words, x.k < 2 ^ 24) {einit einit' : List Nat} {nf : Nat}
    (done : uslots nemap bycell words einit nf = some (fits, einit')) (ok : Slots einit) :
    Slots einit' := by
  induction words generalizing einit nf with
  | nil =>
    cases done
    exact ok
  | cons x xs ih =>
    unfold uslots at done
    split at done
    · contradiction
    · split at done
      · cases done
        exact ok
      · refine ih (fun y member => narrow y (.tail _ member)) done ?_
        split
        · exact ok
        · next fresh =>
          refine ⟨List.nodup_append.mpr ⟨ok.apart, List.nodup_singleton _, ?_⟩, ?_⟩
          · intro k old k' new same
            exact fresh (List.mem_singleton.mp new ▸ same ▸ old)
          · intro k member
            rcases List.mem_append.mp member with old | new
            · exact ok.narrow k old
            · rw [List.mem_singleton.mp new]
              exact narrow x (.head _)

/-- The slots are no more than K can tell apart. -/
theorem Slots.few {einit : List Nat} (ok : Slots einit) : einit.length ≤ 2 ^ 24 := by
  have within : einit.toFinset ⊆ Finset.range (2 ^ 24) := fun k member =>
    Finset.mem_range.mpr (ok.narrow k (List.mem_toFinset.mp member))
  calc einit.length = einit.toFinset.card := (List.toFinset_card_of_nodup ok.apart).symm
    _ ≤ (Finset.range (2 ^ 24)).card := Finset.card_le_card within
    _ = 2 ^ 24 := Finset.card_range _

/-- What a goal's compile leaves: its units, whole, from the root on. -/
structure Made (uc uc' : Comp) (u n : Nat) : Prop where
  root : u = uc.nu + 1
  some : 0 < n
  grown : Grown uc uc' 0 n

theorem termUnit_spec {s : Site} {uc uc' : Comp} {kind : Kind} {u : Nat}
    (term : kind = .term ∨ kind = .builtin) (made : termUnit s uc kind = some (u, uc')) :
    Made uc uc' u 1 := by
  simp only [termUnit, Option.bind_eq_bind, Option.bind_eq_some_iff] at made
  obtain ⟨⟨v, uc₁⟩, new, uc₂, asked, made⟩ := made
  obtain ⟨rfl, rfl⟩ := Prod.mk.inj (Option.some.inj made)
  have opened := unew_spec new
  have unit : (uc₁.set v fun x => { x with tslot := uc₁.nterm }).us v =
      { kind := kind, tslot := uc₁.nterm } := by
    show (if v = v then _ else _) = _
    rw [if_pos rfl, opened.unit]
  have slotted := opened.grown.set (fun x => { x with tslot := uc₁.nterm })
    (opened.root ▸ Nat.lt_succ_self _) (by rw [opened.unit]; exact linked_new kind _ _ _ _)
    fun other => absurd rfl other
  rw [ask_eq asked]
  refine ⟨opened.root, Nat.one_pos, Grown.close (u := v) ?_ fun _ _ => ?_⟩
  · exact slotted.renew rfl rfl (Nat.le_succ _) rfl id
  show (Comp.us _ v).Complete (uc₁.nterm + 1) _
  rw [unit]
  rcases term with rfl | rfl
  · exact complete_new (by decide) (fun _ => Nat.lt_succ_self _) fun h => nomatch h
  · exact complete_new (by decide) (fun _ => Nat.lt_succ_self _) fun h => nomatch h

/-- A goal tried in place, its variables given slots: a unit of its kind, or a term. -/
theorem placed_spec {s : Site} {uc uc' : Comp} {u : Nat} {kind : Kind} {fits : Bool}
    (single : kind ≠ .conj ∧ kind ≠ .disj ∧ kind ≠ .ite)
    (plain : kind ≠ .term ∧ kind ≠ .builtin ∧ kind ≠ .cutc)
    (made : (if fits then uc.unew s kind else termUnit s uc .term) = some (u, uc')) :
    Made uc uc' u 1 := by
  split at made
  · have opened := unew_spec made
    exact ⟨opened.root, Nat.one_pos, opened.single single plain⟩
  · exact termUnit_spec (.inl rfl) made

theorem uleafAs_spec {s : Site} {uc uc' : Comp} {u : Nat} {words : List Occurrence}
    (narrow : ∀ x ∈ words, x.k < 2 ^ 24) {place : Option Placed}
    (made : uleafAs s uc words place = some (u, uc')) : Made uc uc' u 1 := by
  -- the slots come first, then the unit
  have slotted {bycell fits einit uc₁} (kind : Kind)
      (slots : uslots uc.nemap bycell words uc.einit 0 = some (fits, einit))
      (asked : Comp.ask s { uc with einit := einit } = some uc₁)
      (single : kind ≠ .conj ∧ kind ≠ .disj ∧ kind ≠ .ite)
      (plain : kind ≠ .term ∧ kind ≠ .builtin ∧ kind ≠ .cutc)
      (made : (if fits then uc₁.unew s kind else termUnit s uc₁ .term) = some (u, uc')) :
      Made uc uc' u 1 := by
    cases ask_eq asked
    have before : Grown uc { uc with einit := einit, asks := uc.asks + 1 } 0 0 :=
      (Grown.refl uc 0).renew rfl rfl (le_refl _) rfl (uslots_slots narrow slots)
    have m := placed_spec single plain made
    exact ⟨m.root, m.some, Nat.zero_add 1 ▸ before.then_ m.grown⟩
  cases place with
  | none =>
    simp only [uleafAs, Option.bind_eq_bind, Option.bind_eq_some_iff] at made
    obtain ⟨⟨fits, einit⟩, slots, uc₁, asked, made⟩ := made
    exact slotted _ slots asked (by decide) (by decide) made
  | some p =>
    cases p with
    | sides =>
      simp only [uleafAs, Option.bind_eq_bind, Option.bind_eq_some_iff] at made
      obtain ⟨⟨fits, einit⟩, slots, uc₁, asked, made⟩ := made
      exact slotted _ slots asked (by decide) (by decide) made
    | guard vars fused =>
      simp only [uleafAs, Option.bind_eq_bind, Option.bind_eq_some_iff] at made
      obtain ⟨⟨fits, einit⟩, slots, uc₁, asked, made⟩ := made
      refine slotted (if fused then .guardx else .guard) slots asked ?_ ?_ ?_
      · cases fused <;> decide
      · cases fused <;> decide
      · cases fits with
        | false => exact made
        | true =>
          simp only [if_true] at made ⊢
          split at made
          · exact made
          · contradiction
    | builtin => exact termUnit_spec (.inr rfl) made
    | term => exact termUnit_spec (.inl rfl) made

theorem uleaf_spec {s : Site} {t : Tm} {uc uc' : Comp} {u : Nat}
    (made : uleaf s t uc = some (u, uc')) : Made uc uc' u 1 := by
  simp only [uleaf, Option.bind_eq_bind, Option.bind_eq_some_iff] at made
  obtain ⟨uc₁, asked, w, done, made⟩ := made
  cases ask_eq asked
  have m := uleafAs_spec (compileGoal_narrow done) made
  have before : Grown uc { uc with asks := uc.asks + 1, vm := w.vm, nvars := w.nvars } 0 0 :=
    (Grown.refl uc 0).renew rfl rfl (le_refl _) rfl id
  exact ⟨m.root, m.some, Nat.zero_add 1 ▸ before.then_ m.grown⟩

/-! ## A construct -/

/-- What compiles a goal makes as many units as `count` says. -/
def Compiles (branch : Tm → Comp → Option (Nat × Comp)) (count : Tm → Nat) : Prop :=
  ∀ t uc u uc', branch t uc = some (u, uc') → Made uc uc' u (count t)

/-- With unit `u` open, a part: its number is after `u`, and `u` is as it was. -/
theorem Grown.part {uc uc₁ uc₂ : Comp} {u x n m : Nat} (g : Grown uc uc₁ u n) (low : u ≤ uc₁.nu)
    (made : Made uc₁ uc₂ x m) :
    Grown uc uc₂ u (n + m) ∧ u < x ∧ x ≤ uc₂.nu ∧ u ≤ uc₂.nu ∧ uc₂.us u = uc₁.us u ∧
      uc₁.nslot ≤ uc₂.nslot := by
  have more := made.grown.nu
  have some := made.some
  have root := made.root
  exact ⟨g.then_ made.grown, by omega, by omega, by omega, made.grown.same u low,
    made.grown.nslot⟩

section

variable {s : Site} {branch : Tm → Comp → Option (Nat × Comp)} {count : Tm → Nat}

theorem part_spec (compiles : Compiles branch count) {kind : Kind}
    (single : kind ≠ .conj ∧ kind ≠ .disj ∧ kind ≠ .ite)
    (plain : kind ≠ .term ∧ kind ≠ .builtin ∧ kind ≠ .cutc) {t : Option Tm} {uc uc' : Comp}
    {u : Nat} (made : part s branch kind t uc = some (u, uc')) :
    Made uc uc' u (partUnits count t) := by
  cases t with
  | none =>
    have opened := unew_spec made
    exact ⟨opened.root, Nat.one_pos, opened.single single plain⟩
  | some t => exact compiles t uc u uc' made

@[simp] theorem set_self (uc : Comp) (u : Nat) (f : Egoal → Egoal) :
    (uc.set u f).us u = f (uc.us u) := if_pos rfl

theorem set_other (uc : Comp) {u i : Nat} (f : Egoal → Egoal) (other : i ≠ u) :
    (uc.set u f).us i = uc.us i := if_neg other

theorem disj_spec (compiles : Compiles branch count) {l r : Tm} {uc uc' : Comp} {u : Nat}
    (made : construct s branch uc (.disj l r) = some (u, uc')) :
    Made uc uc' u (1 + count l + count r) := by
  simp only [construct, Option.bind_eq_bind, Option.bind_eq_some_iff] at made
  obtain ⟨⟨v, uc₁⟩, new, ⟨x, uc₂⟩, left, ⟨y, uc₃⟩, right, made⟩ := made
  obtain ⟨rfl, rfl⟩ := Prod.mk.inj (Option.some.inj made)
  dsimp only at left right ⊢
  have opened := unew_spec new
  have past : uc.nu < v := opened.root ▸ Nat.lt_succ_self _
  have low : v ≤ uc₁.nu := by have := opened.grown.nu; have := opened.root; omega
  obtain ⟨g₂, aPast, aLow, low₂, keep₂, -⟩ := opened.grown.part low (compiles _ _ _ _ left)
  have g₂ := g₂.set (fun g => { g with a := x }) past
    { g₂.linked v past low₂ with a := .inr ⟨aPast, aLow⟩ } fun other => absurd rfl other
  obtain ⟨g₃, bPast, bLow, low₃, keep₃, -⟩ := g₂.part low₂ (compiles _ _ _ _ right)
  have g₃ := g₃.set (fun g => { g with b := y }) past
    { g₃.linked v past low₃ with b := .inr ⟨bPast, bLow⟩ } fun other => absurd rfl other
  have whole := g₃.close fun _ _ => by
    rw [set_self, keep₃, set_self, keep₂, opened.unit]
    exact ⟨fun h => (nomatch h), fun _ => ⟨Nat.ne_of_gt (Nat.zero_lt_of_lt aPast),
      Nat.ne_of_gt (Nat.zero_lt_of_lt bPast)⟩, fun h => (nomatch h), fun h => by simp at h,
      fun h => by simp at h⟩
  exact ⟨opened.root, by omega, whole.renew rfl rfl (le_refl _) rfl id⟩

theorem ite_spec (compiles : Compiles branch count) {form : Nat} {c : Tm} {t e : Option Tm}
    {uc uc' : Comp} {u : Nat} (made : construct s branch uc (.ite form c t e) = some (u, uc')) :
    Made uc uc' u (1 + count c + partUnits count t + partUnits count e + 1) := by
  simp only [construct, Option.bind_eq_bind, Option.bind_eq_some_iff] at made
  obtain ⟨⟨v, uc₁⟩, new, ⟨x, uc₂⟩, cond, ⟨y, uc₃⟩, yes, ⟨z, uc₄⟩, no, ⟨d, uc₅⟩, cut, made⟩ := made
  obtain ⟨rfl, rfl⟩ := Prod.mk.inj (Option.some.inj made)
  dsimp only at cond yes no cut ⊢
  have opened := unew_spec new
  have past : uc.nu < v := opened.root ▸ Nat.lt_succ_self _
  have low : v ≤ uc₁.nu := by have := opened.grown.nu; have := opened.root; omega
  -- its condition slot
  have g₁ : Grown uc { uc₁.set v fun x => { x with tslot := uc₁.nslot } with
      nslot := uc₁.nslot + 1 } v 1 := by
    have g := opened.grown.set (fun x => { x with tslot := uc₁.nslot }) past
      (by rw [opened.unit]; exact linked_new .ite _ _ _ _) fun other => absurd rfl other
    refine ⟨g.nu, g.same, fun i new low => (g.linked i new low).mono (le_refl _) (Nat.le_succ _),
      fun i new low other => (g.complete i new low other).mono (le_refl _) (Nat.le_succ _),
      g.nterm, g.nslot.trans (Nat.le_succ _), ?_, g.slots⟩
    have one := opened.grown.nu
    have same := opened.nslot
    show uc₁.nslot + 1 + uc.nu ≤ uc.nslot + uc₁.nu
    omega
  obtain ⟨g₂, aPast, aLow, low₂, keep₂, slot₂⟩ := g₁.part low (compiles _ _ _ _ cond)
  have g₂ := g₂.set (fun g => { g with a := x }) past
    { g₂.linked v past low₂ with a := .inr ⟨aPast, aLow⟩ } fun other => absurd rfl other
  have thenPart := part_spec compiles (by split <;> decide) (by split <;> decide) yes
  obtain ⟨g₃, bPast, bLow, low₃, keep₃, slot₃⟩ := g₂.part low₂ thenPart
  have g₃ := g₃.set (fun g => { g with b := y }) past
    { g₃.linked v past low₃ with b := .inr ⟨bPast, bLow⟩ } fun other => absurd rfl other
  have elsePart := part_spec compiles (by split <;> decide) (by split <;> decide) no
  obtain ⟨g₄, cPast, cLow, low₄, keep₄, slot₄⟩ := g₃.part low₃ elsePart
  have g₄ := g₄.set (fun g => { g with c := z }) past
    { g₄.linked v past low₄ with c := .inr ⟨cPast, cLow⟩ } fun other => absurd rfl other
  -- the cut after the condition
  have cutc := unew_spec cut
  have slot : uc₁.nslot < uc₅.nslot := by
    have := cutc.nslot
    change uc₅.nslot = uc₄.nslot at this
    change uc₁.nslot + 1 ≤ uc₂.nslot at slot₂
    change uc₂.nslot ≤ uc₃.nslot at slot₃
    change uc₃.nslot ≤ uc₄.nslot at slot₄
    omega
  have dRoot : d = uc₄.nu + 1 := cutc.root
  have whole : Made (uc₄.set v fun g => { g with c := z })
      (uc₅.set d fun g => { g with tslot := uc₁.nslot }) d 1 := by
    have set := cutc.grown.set (fun g => { g with tslot := uc₁.nslot })
      (dRoot ▸ Nat.lt_succ_self _) (by rw [cutc.unit]; exact linked_new .cutc _ _ _ _)
      fun other => absurd rfl other
    refine ⟨cutc.root, Nat.one_pos, set.close fun _ _ => ?_⟩
    rw [set_self, cutc.unit]
    exact complete_new (by decide) (fun h => nomatch h) fun _ => slot
  obtain ⟨g₅, dPast, dLow, low₅, keep₅, -⟩ := g₄.part low₄ whole
  have g₅ := g₅.set (fun g => { g with d := d }) past
    { g₅.linked v past low₅ with d := .inr ⟨dPast, dLow⟩ } fun other => absurd rfl other
  have nonzero {w : Nat} (h : v < w) : w ≠ 0 := Nat.ne_of_gt (Nat.zero_lt_of_lt h)
  have unit : ({ uc₁.set v fun x => { x with tslot := uc₁.nslot } with
      nslot := uc₁.nslot + 1 } : Comp).us v = { kind := .ite, tslot := uc₁.nslot } :=
    (set_self uc₁ v fun x => { x with tslot := uc₁.nslot }).trans (by rw [opened.unit])
  have whole := g₅.close fun _ _ => by
    rw [set_self, keep₅, set_self, keep₄, set_self, keep₃, set_self, keep₂, unit]
    exact ⟨fun h => (nomatch h), fun h => (nomatch h),
      fun _ => ⟨nonzero aPast, nonzero bPast, nonzero cPast, nonzero dPast⟩, fun h => by simp at h,
      fun _ => slot⟩
  exact ⟨opened.root, by omega, whole.renew rfl rfl (le_refl _) rfl id⟩

/-- A conjunction's items being joined: `u` is open, and `last` the one joined last. -/
structure Joining (base uc : Comp) (u n last : Nat) : Prop where
  grown : Grown base uc u n
  past : base.nu < u
  low : u ≤ uc.nu
  kind : (uc.us u).kind = .conj
  last : last = 0 ∨ u < last ∧ last ≤ uc.nu ∧ (uc.us u).a ≠ 0

theorem Joining.join {base uc uc₁ : Comp} {u n last x m : Nat} (j : Joining base uc u n last)
    (made : Made uc uc₁ x m) : Joining base (join uc₁ u last x) u (n + m) x := by
  obtain ⟨g, xPast, xLow, low, keep, -⟩ := j.grown.part j.low made
  have some : x ≠ 0 := Nat.ne_of_gt (Nat.zero_lt_of_lt xPast)
  have kind : (uc₁.us u).kind = .conj := keep ▸ j.kind
  unfold Units.join
  split
  · next first =>
    refine ⟨g.set (fun g => { g with a := x }) j.past
      { g.linked u j.past low with a := .inr ⟨xPast, xLow⟩ } fun other => absurd rfl other,
      j.past, low, ?_, .inr ⟨xPast, xLow, ?_⟩⟩
    · rw [set_self]
      exact kind
    · rw [set_self]
      exact some
  · next later =>
    obtain ⟨lPast, lLow, begun⟩ := j.last.resolve_left later
    have within : last ≤ uc₁.nu := by have := made.grown.nu; omega
    have before : last < x := made.root ▸ Nat.lt_succ_of_le lLow
    have other : u ≠ last := Nat.ne_of_lt lPast
    have past := j.past.trans lPast
    refine ⟨g.set (fun g => { g with sib := x }) past
      { g.linked last past within with sib := .inr ⟨before, xLow⟩ } fun other => ?_,
      j.past, low, ?_, .inr ⟨xPast, xLow, ?_⟩⟩
    · have whole := g.complete last past within other
      exact ⟨whole.conj, whole.disj, whole.ite, whole.root, whole.height⟩
    · rw [set_other _ _ other]
      exact kind
    · rw [set_other _ _ other, keep]
      exact begun

/-- A term that is no conjunction. -/
def Tm.Plain (g : Tm) : Prop := ∀ l r, g ≠ .app .comma [l, r]

theorem items_last {u left : Nat} {g : Tm} {last : Nat} {uc : Comp} (plain : g.Plain ∨ left = 0) :
    items branch u left g last uc =
      (branch g uc).bind fun p => some (join p.2 u last p.1) := by
  unfold items
  split
  · rcases plain with plain | none_
    · exact absurd rfl (plain _ _)
    · cases none_
  · rfl

theorem itemUnits_last {left : Nat} {g : Tm} (plain : g.Plain ∨ left = 0) :
    itemUnits count left g = count g := by
  unfold itemUnits
  split
  · rcases plain with plain | none_
    · exact absurd rfl (plain _ _)
    · cases none_
  · rfl

theorem Tm.conj_or_plain (g : Tm) : (∃ l r, g = .app .comma [l, r]) ∨ g.Plain := by
  by_cases conj : ∃ l r, g = .app .comma [l, r]
  · exact .inl conj
  · exact .inr fun l r same => conj ⟨l, r, same⟩

theorem items_spec (compiles : Compiles branch count) {base : Comp} {u left : Nat} {g : Tm}
    {last n : Nat} {uc uc' : Comp} (j : Joining base uc u n last)
    (made : items branch u left g last uc = some uc') :
    ∃ last', last' ≠ 0 ∧ Joining base uc' u (n + itemUnits count left g) last' := by
  -- what is left is one item
  have final {g : Tm} {left n last : Nat} {uc : Comp} (j : Joining base uc u n last)
      (plain : g.Plain ∨ left = 0) (made : items branch u left g last uc = some uc') :
      ∃ last', last' ≠ 0 ∧ Joining base uc' u (n + itemUnits count left g) last' := by
    rw [items_last plain] at made
    obtain ⟨⟨x, uc₁⟩, item, made⟩ := Option.bind_eq_some_iff.mp made
    cases made
    have m := compiles _ _ _ _ item
    exact ⟨x, m.root ▸ Nat.succ_ne_zero _, (@itemUnits_last count left g plain).symm ▸ j.join m⟩
  induction left generalizing g last n uc with
  | zero => exact final j (.inr rfl) made
  | succ left ih =>
    rcases g.conj_or_plain with ⟨l, r, rfl⟩ | plain
    · obtain ⟨⟨x, uc₁⟩, item, rest⟩ := Option.bind_eq_some_iff.mp made
      obtain ⟨last', some, joined⟩ := ih (j.join (compiles _ _ _ _ item)) rest
      exact ⟨last', some, by rw [Nat.add_assoc] at joined; exact joined⟩
    · exact final j (.inl plain) made

/-- A cut, `true` or `fail` is one unit. -/
theorem atom_spec {t : Tm} {kind : Kind} (told : atomKind t = some kind) {uc uc' : Comp} {u : Nat}
    (made : uc.unew s kind = some (u, uc')) : Made uc uc' u 1 := by
  have opened := unew_spec made
  refine ⟨opened.root, Nat.one_pos, opened.single ?_ ?_⟩ <;>
  · unfold atomKind at told
    split at told <;> cases told <;> decide

theorem unit_spec (compiles : Compiles branch count) :
    Compiles (unit s branch) (unitUnits count s) := by
  intro t uc u uc' made
  unfold unit at made
  unfold unitUnits
  cases told : atomKind t with
  | some kind =>
    simp only [told] at made
    exact atom_spec told made
  | none =>
    simp only [told] at made
    cases form : uform s t with
    | some con =>
      simp only [form] at made
      cases con with
      | disj l r => exact disj_spec compiles made
      | ite n c t e => exact ite_spec compiles made
    | none =>
      simp only [form] at made
      exact uleaf_spec made

end

theorem ubranch_plain (s : Site) (deep : Nat) {t : Tm} (plain : t.Plain) (uc : Comp) :
    ubranch s (deep + 1) t uc = unit s (ubranch s deep) t uc := by
  unfold ubranch
  split
  · next none_ => cases none_
  · exact absurd rfl (plain _ _)
  · next same _ => cases same; rfl

theorem units_plain (s : Site) (deep : Nat) {t : Tm} (plain : t.Plain) :
    units s (deep + 1) t = unitUnits (units s deep) s t := by
  unfold units
  split
  · next none_ => cases none_
  · exact absurd rfl (plain _ _)
  · next same _ => cases same; rfl

theorem ubranch_spec (s : Site) (deep : Nat) : Compiles (ubranch s deep) (units s deep) := by
  induction deep with
  | zero =>
    intro t uc u uc' made
    unfold ubranch at made
    unfold units
    cases told : atomKind t with
    | some kind =>
      simp only [told] at made
      exact atom_spec told made
    | none =>
      simp only [told] at made
      exact uleaf_spec made
  | succ deep ih =>
    intro t uc u uc' made
    rcases t.conj_or_plain with ⟨l, r, rfl⟩ | plain
    · simp only [ubranch, Option.bind_eq_bind, Option.bind_eq_some_iff] at made
      obtain ⟨⟨v, uc₁⟩, new, uc₂, joined, made⟩ := made
      obtain ⟨rfl, rfl⟩ := Prod.mk.inj (Option.some.inj made)
      dsimp only at joined ⊢
      have opened := unew_spec new
      have low : v ≤ uc₁.nu := by have := opened.grown.nu; have := opened.root; omega
      have begun : Joining uc uc₁ v 1 0 :=
        ⟨opened.grown, opened.root ▸ Nat.lt_succ_self _, low, by rw [opened.unit], .inl rfl⟩
      obtain ⟨last, some, j⟩ := items_spec ih begun joined
      have whole := j.grown.close fun _ _ =>
        ⟨fun _ => (j.last.resolve_left some).2.2, fun h => by simp [j.kind] at h,
          fun h => by simp [j.kind] at h, fun h => by simp [j.kind] at h,
          fun h => by simp [j.kind] at h⟩
      exact ⟨opened.root, by unfold units; omega, whole.renew rfl rfl (le_refl _) rfl id⟩
    · rw [ubranch_plain s deep plain] at made
      rw [units_plain s deep plain]
      exact unit_spec ih t uc u uc' made

end Cocolog.Units
