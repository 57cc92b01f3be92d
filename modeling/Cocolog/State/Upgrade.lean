import Cocolog.State.WellFormed
import Cocolog.Lib.Words

/-! What a heap of the three-bit layout means after `coco_thaw_upgrade`. Every cell means
what it meant, and an integer too wide for a cell is boxed behind the entries that are there. -/

set_option linter.all false

namespace Cocolog.State

open Cocolog.Lib.Words

/-- What a cell stands for: what it names, or the number itself. -/
inductive Meaning where
  | ref (p : Nat)
  | atom (a : Nat)
  | func (f : Nat)
  | flt (k : Nat)
  | str (k : Nat)
  | pos (w : Nat)
  | int (v : Int)
  | rat (nd : Int64 × Int64)
deriving DecidableEq

/-- The meaning of a cell beside the tables of integers and of rationals. A boxed number
past the end of its table means nothing. -/
def meaning (bigs : List Int64) (rats : List (Int64 × Int64)) : Term.Cell → Option Meaning
  | .ref p => some (.ref p)
  | .atom a => some (.atom a)
  | .int v => some (.int v)
  | .func f => some (.func f)
  | .flt k => some (.flt k)
  | .str k => some (.str k)
  | .pos w => some (.pos w)
  | .big k => bigs[k]?.map fun v => .int v.toInt
  | .rat k => rats[k]?.map .rat

/-- A value the 60 bits of a cell hold. -/
def Narrow (v : Int) : Prop := -2 ^ 59 ≤ v ∧ v < 2 ^ 59

instance (v : Int) : Decidable (Narrow v) := inferInstanceAs (Decidable (_ ∧ _))

/-- An integer is in its cell exactly when it is narrow. -/
def CanonicalCell (bigs : List Int64) : Term.Cell → Prop
  | .int v => Narrow v
  | .big k => ∀ v, bigs[k]? = some v → ¬ Narrow v.toInt
  | _ => True

/-- `coco_thaw_upgrade` where `grants n` says that `realloc` gives the table of integers
room for `n` entries: 0 when an integer cannot be boxed. -/
def thawUpgradeIn (grants : Nat → Bool) : List Int64 → List UInt64 → Option (List Int64 × List UInt64)
  | bigs, [] => some (bigs, [])
  | bigs, w :: ws =>
    if boxes w && !grants (bigs.length + 1) then none
    else (upgradeWord bigs w).bind fun r => (thawUpgradeIn grants r.1 ws).map fun s => (s.1, r.2 :: s.2)

/-- With memory for every entry it is the upgrade of a thaw. -/
theorem thawUpgradeIn_granted (bigs : List Int64) (ws : List UInt64) :
    thawUpgradeIn (fun _ => true) bigs ws = upgradeWords bigs ws := by
  induction ws generalizing bigs with
  | nil => rfl
  | cons w ws ih =>
    have open_ : ¬ (boxes w && !true) = true := by simp
    rw [thawUpgradeIn, upgradeWords, if_neg open_]
    simp only [ih]

/- Signed words. -/

theorem toInt_shiftRight_four (x : Int64) : (x >>> 4).toInt = x.toInt / 16 := toInt_shiftRight (by decide) (by decide)

/-- A word's cell read back: the 60 bits that are kept, signed. -/
theorem payload_cell (v : UInt64) :
    ((cell 2 v).toInt64 >>> 4).toInt = (v.toNat % 2 ^ 60 : Nat) ∧ v.toNat % 2 ^ 60 < 2 ^ 59 ∨
      ((cell 2 v).toInt64 >>> 4).toInt = (v.toNat % 2 ^ 60 : Nat) - 2 ^ 60 ∧ 2 ^ 59 ≤ v.toNat % 2 ^ 60 := by
  have word := @cell_toNat 2 (by decide) v
  have two : (2 : UInt64).toNat = 2 := rfl
  have signed := toInt_toInt64 (cell 2 v)
  rw [toInt_shiftRight_four]
  rw [word, two] at signed
  omega

theorem fitsCell_iff (v : Int64) : fitsCell v = true ↔ Narrow v.toInt := by
  have word : (v.toUInt64 <<< 4).toNat = v.toUInt64.toNat % 2 ^ 60 * 16 := by
    rw [UInt64.toNat_shiftLeft]
    simp only [UInt64.reduceToNat, Nat.reduceMod, Nat.shiftLeft_eq]
    omega
  have shifted := toInt_toInt64 (v.toUInt64 <<< 4)
  have value := toInt_eq_toNat v
  rw [fitsCell, beq_iff_eq, ← Int64.toInt_inj, toInt_shiftRight_four, Narrow]
  rw [word] at shifted
  omega

theorem payload_of_fits {v : Int64} (fits : fitsCell v = true) :
    ((cell 2 v.toUInt64).toInt64 >>> 4).toInt = v.toInt := by
  obtain ⟨low, high⟩ := (fitsCell_iff v).mp fits
  have value := toInt_eq_toNat v
  have payload := payload_cell v.toUInt64
  omega

theorem narrow_payload (v : UInt64) : Narrow ((cell 2 v).toInt64 >>> 4).toInt := by
  have payload := payload_cell v
  unfold Narrow
  omega

/- One word. -/

variable {bigs bigs' : List Int64} {rats : List (Int64 × Int64)} {w nw : UInt64} {ws nws : List UInt64}

theorem meaning_grows (front : bigs <+: bigs') {c : Term.Cell} {x : Meaning} (means : meaning bigs rats c = some x) :
    meaning bigs' rats c = some x := by
  cases c with
  | big k =>
    obtain ⟨v, at_, is⟩ := Option.map_eq_some_iff.mp means
    have inside : k < bigs.length := (List.getElem?_eq_some_iff.mp at_).1
    rw [meaning, getElem?_of_prefixed front inside, at_, Option.map_some, is]
  | _ => exact means

theorem cellOf3_ne_int (other : w &&& 7 ≠ 2) (v : Int) : cellOf3 w ≠ .int v := by
  have tag : (w &&& 7).toNat ≠ 2 := fun same => other (UInt64.toNat_inj.mp same)
  unfold cellOf3
  dsimp only
  split <;> first | contradiction | (split <;> exact Term.Cell.noConfusion) | exact Term.Cell.noConfusion

/-- What a word becomes: the table only grows, by integers that are not narrow; the cell of
an integer is its value or the place of its value, and any other cell is the cell it was. -/
theorem upgradeWord_cases (up : upgradeWord bigs w = some (bigs', nw)) :
    (∃ v : Int64, cellOf3 w = .int v.toInt ∧ Narrow v.toInt ∧ bigs' = bigs ∧ cellOf nw = .int v.toInt) ∨
    (∃ v : Int64, cellOf3 w = .int v.toInt ∧ ¬ Narrow v.toInt ∧ boxes w = true ∧ bigs' = bigs ++ [v] ∧
      cellOf nw = .big (bigs.length % 2 ^ 64 % 2 ^ 60)) ∨
    ((∀ v, cellOf3 w ≠ .int v) ∧ bigs' = bigs ∧ cellOf nw = cellOf3 w) := by
  unfold upgradeWord at up
  simp only at up
  split at up
  · rename_i int
    have old := cellOf3_int int
    split at up
    · rename_i fits
      cases up
      refine .inl ⟨w.toInt64 >>> 3, old, (fitsCell_iff _).mp fits, rfl, ?_⟩
      rw [cellOf_int, payload_of_fits fits]
    · rename_i wide_
      cases up
      refine .inr (.inl ⟨w.toInt64 >>> 3, old, mt (fitsCell_iff _).mpr wide_, by simp [boxes, int, wide_], rfl, ?_⟩)
      rw [cellOf_big, UInt64.toNat_ofNat']
  · rename_i int
    have other := fun v => cellOf3_ne_int int v
    split at up
    · rename_i box
      split at up
      · rename_i clear
        cases up
        exact .inr (.inr ⟨other, rfl, (cellOf_boxed box).1 clear⟩)
      · rename_i set_
        cases up
        exact .inr (.inr ⟨other, rfl, (cellOf_boxed box).2 set_⟩)
    · rename_i plain
      split at up
      · cases up
      · rename_i room
        cases up
        have room : (w >>> 3).toNat < 2 ^ 60 := by
          have most : (1152921504606846975 : UInt64).toNat = 1152921504606846975 := rfl
          have below := UInt64.le_iff_toNat_le.mp (UInt64.not_lt.mp room)
          rw [most] at below
          omega
        exact .inr (.inr ⟨other, rfl, cellOf_kept plain int room⟩)

/- The whole heap. -/

/-- A cell beside what it was: an integer in its cell or boxed by its width, anything else
the same cell. -/
inductive Upgraded (bigs' : List Int64) : Term.Cell → Term.Cell → Prop
  | kept {c : Term.Cell} (other : ∀ v, c ≠ .int v) : Upgraded bigs' c c
  | int {v : Int64} (narrow : Narrow v.toInt) : Upgraded bigs' (.int v.toInt) (.int v.toInt)
  | boxed {v : Int64} {k : Nat} (wide_ : ¬ Narrow v.toInt) (at_ : bigs'[k]? = some v) :
      Upgraded bigs' (.int v.toInt) (.big k)

theorem Upgraded.grows {c c' : Term.Cell} (up : Upgraded bigs c c') (front : bigs <+: bigs') : Upgraded bigs' c c' := by
  cases up with
  | kept other => exact .kept other
  | int narrow => exact .int narrow
  | boxed wide_ at_ =>
    have inside := (List.getElem?_eq_some_iff.mp at_).1
    exact .boxed wide_ (by rw [getElem?_of_prefixed front inside, at_])

theorem Upgraded.means {c c' : Term.Cell} (up : Upgraded bigs' c c') (front : bigs <+: bigs') {x : Meaning}
    (means : meaning bigs rats c = some x) : meaning bigs' rats c' = some x := by
  cases up with
  | kept other => exact meaning_grows front means
  | int narrow => exact means
  | boxed wide_ at_ => rw [meaning, at_]; exact means

/-- The table a heap is upgraded into: entries are added behind those there, none narrow. -/
structure Extends (bigs bigs' : List Int64) : Prop where
  front : bigs <+: bigs'
  wide_ : ∀ k v, bigs.length ≤ k → bigs'[k]? = some v → ¬ Narrow v.toInt

theorem Extends.refl (bigs : List Int64) : Extends bigs bigs :=
  ⟨List.prefix_rfl, fun k v past at_ => absurd (List.getElem?_eq_some_iff.mp at_).1 (Nat.not_lt.mpr past)⟩

theorem Extends.snoc {v : Int64} (wide_ : ¬ Narrow v.toInt) : Extends bigs (bigs ++ [v]) := by
  refine ⟨List.prefix_append _ _, fun k u past at_ => ?_⟩
  rw [List.getElem?_append_right past] at at_
  have mem := List.mem_of_getElem? at_
  rwa [List.mem_singleton.mp mem]

theorem Extends.trans {mid : List Int64} (one : Extends bigs mid) (two : Extends mid bigs') : Extends bigs bigs' := by
  refine ⟨one.front.trans two.front, fun k v past at_ => ?_⟩
  by_cases inside : k < mid.length
  · rw [getElem?_of_prefixed two.front inside] at at_
    exact one.wide_ k v past at_
  · exact two.wide_ k v (Nat.not_lt.mp inside) at_

variable {grants : Nat → Bool}

theorem upgraded_word (limit : ∀ n, grants n = true → n * 8 < 2 ^ 63) (up : upgradeWord bigs w = some (bigs', nw))
    (room : ¬ (boxes w && !grants (bigs.length + 1)) = true) :
    Extends bigs bigs' ∧ Upgraded bigs' (cellOf3 w) (cellOf nw) := by
  obtain ⟨v, old, narrow, same, new⟩ | ⟨v, old, wide_, box, same, new⟩ | ⟨other, same, new⟩ := upgradeWord_cases up
  · rw [same, old, new]
    exact ⟨Extends.refl bigs, .int narrow⟩
  · have granted : grants (bigs.length + 1) = true := by simpa [box] using room
    have place : bigs.length % 2 ^ 64 % 2 ^ 60 = bigs.length := by
      have small := limit _ granted
      omega
    rw [same, old, new, place]
    exact ⟨Extends.snoc wide_, .boxed wide_ List.getElem?_concat_length⟩
  · rw [same, new]
    exact ⟨Extends.refl bigs, .kept other⟩

theorem upgraded_heap (limit : ∀ n, grants n = true → n * 8 < 2 ^ 63)
    (up : thawUpgradeIn grants bigs ws = some (bigs', nws)) :
    Extends bigs bigs' ∧ List.Forall₂ (fun w nw => Upgraded bigs' (cellOf3 w) (cellOf nw)) ws nws := by
  induction ws generalizing bigs nws with
  | nil =>
    cases up
    exact ⟨Extends.refl _, .nil⟩
  | cons w ws ih =>
    rw [thawUpgradeIn] at up
    split at up
    · cases up
    · rename_i room
      simp only [Option.bind_eq_some_iff, Option.map_eq_some_iff] at up
      obtain ⟨⟨mid, nw⟩, one, ⟨last, rest⟩, more, same⟩ := up
      cases same
      obtain ⟨grows, cell⟩ := upgraded_word limit one room
      obtain ⟨grows', cells⟩ := ih more
      exact ⟨grows.trans grows', .cons (cell.grows grows'.front) cells⟩

theorem Upgraded.canonical_iff {c c' : Term.Cell} (up : Upgraded bigs' c c') (grows : Extends bigs bigs') :
    CanonicalCell bigs' c' ↔ ∀ k v, c = .big k → bigs[k]? = some v → ¬ Narrow v.toInt := by
  cases up with
  | int narrow => exact ⟨fun _ k v is => (Term.Cell.noConfusion is), fun _ => narrow⟩
  | boxed wide_ at_ =>
    refine ⟨fun _ k v is => Term.Cell.noConfusion is, fun _ v there => ?_⟩
    rw [at_] at there
    exact Option.some.inj there ▸ wide_
  | kept other =>
    cases c with
    | big k =>
      constructor
      · intro canonical j v is at_
        cases is
        have inside := (List.getElem?_eq_some_iff.mp at_).1
        exact canonical v (by rw [getElem?_of_prefixed grows.front inside, at_])
      · intro old v at_
        by_cases inside : k < bigs.length
        · rw [getElem?_of_prefixed grows.front inside] at at_
          exact old k v rfl at_
        · exact grows.wide_ k v (Nat.not_lt.mp inside) at_
    | int v => exact absurd rfl (other v)
    | _ => exact ⟨fun _ k v is => Term.Cell.noConfusion is, fun _ => trivial⟩

/-- An upgraded heap means what the heap meant, cell by cell, and is canonical exactly when
no box of the heap held a narrow integer. -/
theorem upgrade_preserves (limit : ∀ n, grants n = true → n * 8 < 2 ^ 63)
    (up : thawUpgradeIn grants bigs ws = some (bigs', nws)) :
    nws.length = ws.length ∧
    (∀ (i : Nat) w nw, ws[i]? = some w → nws[i]? = some nw →
      ∀ x, meaning bigs rats (cellOf3 w) = some x → meaning bigs' rats (cellOf nw) = some x) ∧
    ((∀ nw ∈ nws, CanonicalCell bigs' (cellOf nw)) ↔
      ∀ w ∈ ws, ∀ k v, cellOf3 w = .big k → bigs[k]? = some v → ¬ Narrow v.toInt) := by
  obtain ⟨grows, cells⟩ := upgraded_heap limit up
  refine ⟨cells.length_eq.symm, fun i w nw at_ at_' x means => ?_, ?_⟩
  · obtain ⟨lt, is⟩ := List.getElem?_eq_some_iff.mp at_
    obtain ⟨lt', is'⟩ := List.getElem?_eq_some_iff.mp at_'
    have cell := cells.get lt lt'
    rw [List.get_eq_getElem, List.get_eq_getElem, is, is'] at cell
    exact cell.means grows.front means
  · clear up
    induction cells with
    | nil => simp
    | cons cell _ ih => simp only [List.forall_mem_cons, cell.canonical_iff grows, ih]

/-- An integer of 61 bits is boxed behind the one that is there, and a rational keeps its place. -/
theorem upgrade_preserves_boxed :
    thawUpgradeIn (fun n => decide (n * 8 < 2 ^ 63)) [Int64.minValue] [2 ^ 63 + 2, 7, 2 ^ 63 + 7] =
      some ([Int64.minValue, -2 ^ 60], [23, 7, 8]) ∧
    meaning [Int64.minValue, -2 ^ 60] [(1, 2)] (cellOf 23) = some (.int (-2 ^ 60)) := by
  have up : thawUpgradeIn (fun n => decide (n * 8 < 2 ^ 63)) [Int64.minValue] [2 ^ 63 + 2, 7, 2 ^ 63 + 7] =
      some ([Int64.minValue, -2 ^ 60], [23, 7, 8]) := by decide +kernel
  have means : meaning [Int64.minValue] [(1, 2)] (cellOf3 (2 ^ 63 + 2)) = some (.int (-2 ^ 60)) := by decide +kernel
  have cells := (@upgrade_preserves _ _ [(1, 2)] _ _ _ (fun n granted => of_decide_eq_true granted) up).2.1
  exact ⟨up, cells 0 (2 ^ 63 + 2) 23 rfl rfl _ means⟩

/-- A box that holds a narrow integer is left as it is. -/
theorem upgrade_keeps_narrow_box :
    ∃ bigs' nws, thawUpgradeIn (fun n => decide (n * 8 < 2 ^ 63)) [5] [7] = some (bigs', nws) ∧
      ¬ ∀ nw ∈ nws, CanonicalCell bigs' (cellOf nw) := by
  refine ⟨[5], [7], by decide, fun canonical => ?_⟩
  have cell : cellOf 7 = .big 0 := by decide
  have box := canonical 7 (List.mem_singleton_self 7)
  rw [cell] at box
  exact box 5 rfl (by decide)

end Cocolog.State
