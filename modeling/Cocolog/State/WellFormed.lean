import Cocolog.State.Closed
import Cocolog.State.Sections

/-! When a thawed machine is well formed. A thaw checks that each section can be read as far
as its count says, and nothing about the words in it, so a machine is well formed exactly when
the words of the text name entries that are there. -/

set_option linter.all false

namespace Cocolog.State

open Cocolog.Lib.Wire Cocolog.Store

/-- What there is to name: how long the heap and each table are, and the functors. -/
structure Entries where
  heap : Nat
  atoms : Nat
  functors : List Functor
  floats : Nat
  strings : Nat
  bigs : Nat
  rats : Nat

/-- A cell at index `i` names what is there; a compound's arguments lie in the heap. -/
def Entries.Holds (n : Entries) (i : Nat) : Term.Cell → Prop
  | .ref p => p < n.heap
  | .atom a => a < n.atoms
  | .func f => ∃ g, n.functors[f]? = some g ∧ i + g.arity.toNat < n.heap
  | .flt k => k < n.floats
  | .str k => k < n.strings
  | .big k => k < n.bigs
  | .rat k => k < n.rats
  | _ => True

/-- The cell a word of the trail is about: of a pair, `coco-trail-cell`. -/
def trailCell (w : UInt64) : Nat := if w.toNat < 2 ^ 63 then w.toNat else w.toNat % 2 ^ 40

/-- Words, trail and functors that name only what is there. -/
structure Entries.Sound (n : Entries) (cells : List Term.Cell) (trail : List UInt64) : Prop where
  heap : ∀ i c, cells[i]? = some c → n.Holds i c
  trail : ∀ w ∈ trail, trailCell w < n.heap
  names : ∀ f ∈ n.functors, f.name.toNat < n.atoms

namespace Machine

def entries (m : Machine) : Entries :=
  ⟨m.heap.length, m.atoms.length, m.functors, m.floats.length, m.strings.length, m.bigs.length, m.rats.length⟩

def WellFormed (m : Machine) : Prop := m.entries.Sound (m.heap.map cellOf) m.trail

end Machine

/-- A word of the three-bit layout by its tag. -/
def cellOf3 (w : UInt64) : Term.Cell :=
  let p := w >>> 3
  match (w &&& 7).toNat with
  | 0 => .ref p.toNat
  | 1 => .atom p.toNat
  | 2 => .int (w.toInt64 >>> 3).toInt
  | 3 => .func p.toNat
  | 4 => .flt p.toNat
  | 5 => .str p.toNat
  | 7 =>
    if p &&& ((1 : UInt64) <<< 60) = 0 then .big p.toNat else .rat (p &&& (((1 : UInt64) <<< 60) - 1)).toNat
  | _ => .pos p.toNat

/-- An integer of the three-bit layout that today has no room in a cell. -/
def boxes (w : UInt64) : Bool := w &&& 7 == 2 && !fitsCell (w.toInt64 >>> 3)

namespace Carried

/-- The cells of the H section in the layout the text is in. -/
def cells (c : Carried) : List Term.Cell := c.words.map (if c.version = 1 then cellOf3 else cellOf)

/-- What is there to name once the sections are read: the heap's cells, the entries of the
tables `m` after the frames and of the vocabulary, and the boxed numbers that come behind. -/
def entries (c : Carried) (voc : Vocabulary) (m : Machine) : Entries where
  heap := c.words.length
  atoms := (m.idsFill voc).atoms.length
  functors := (m.idsFill voc).functors
  floats := m.floats.length
  strings := m.strings.length
  bigs := m.bigs.length + c.bigs.length + if c.version = 1 then c.words.countP boxes else 0
  rats := m.rats.length + c.rats.length

/-- The words of the text name entries that are there, if a machine is made of them at all. -/
def Consistent (backend : Backend) (voc : Vocabulary) (c : Carried) : Prop :=
  ∀ w, c.restored backend = .ok w → (c.upgraded []).isSome = true → (c.entries voc w.m).Sound c.cells c.trail

end Carried

section

variable {n : Entries} {i : Nat} {backend : Backend}

theorem cell_toNat {tag : UInt64} (small : tag.toNat < 16) (v : UInt64) :
    (cell tag v).toNat = v.toNat % 2 ^ 60 * 16 + tag.toNat := by
  have shifted : (v <<< 4).toNat = v.toNat % 2 ^ 60 * 16 := by
    rw [UInt64.toNat_shiftLeft]
    simp only [UInt64.reduceToNat, Nat.reduceMod, Nat.shiftLeft_eq]
    omega
  rw [cell, UInt64.toNat_or, shifted]
  have joined := Nat.shiftLeft_add_eq_or_of_lt (i := 4) (show tag.toNat < 2 ^ 4 from small) (v.toNat % 2 ^ 60)
  rw [Nat.shiftLeft_eq] at joined
  exact joined.symm

theorem cellOf_cell {tag : UInt64} (small : tag.toNat < 16) (v : UInt64) :
    (cell tag v &&& 15).toNat = tag.toNat ∧ (cell tag v >>> 4).toNat = v.toNat % 2 ^ 60 := by
  constructor
  · have mask : (15 : UInt64).toNat = 2 ^ 4 - 1 := rfl
    rw [UInt64.toNat_and, cell_toNat small, mask, Nat.and_two_pow_sub_one_eq_mod]
    omega
  · rw [UInt64.toNat_shiftRight, cell_toNat small]
    simp only [UInt64.reduceToNat, Nat.reduceMod, Nat.shiftRight_eq_div_pow]
    omega

theorem tag_small (w : UInt64) : (w &&& 7).toNat < 8 := by
  have mask : (7 : UInt64).toNat = 2 ^ 3 - 1 := rfl
  rw [UInt64.toNat_and, mask, Nat.and_two_pow_sub_one_eq_mod]
  omega

/-- A word that keeps its tag and its payload names what it named. -/
theorem cellOf_kept {w : UInt64} (plain : w &&& 7 ≠ 7) (int : w &&& 7 ≠ 2) (room : (w >>> 3).toNat < 2 ^ 60) :
    cellOf (cell (w &&& 7) (w >>> 3)) = cellOf3 w := by
  have small := tag_small w
  obtain ⟨tag, payload⟩ := cellOf_cell (Nat.lt_trans small (by decide)) (w >>> 3)
  rw [Nat.mod_eq_of_lt room] at payload
  have other : (w &&& 7).toNat ≠ 7 ∧ (w &&& 7).toNat ≠ 2 :=
    ⟨fun same => plain (UInt64.toNat_inj.mp same), fun same => int (UInt64.toNat_inj.mp same)⟩
  unfold cellOf cellOf3
  simp only [tag, payload]
  revert small other
  generalize (w &&& 7).toNat = t
  intro small other
  interval_cases t <;> simp_all

theorem cellOf3_int {w : UInt64} (int : w &&& 7 = 2) : cellOf3 w = .int (w.toInt64 >>> 3).toInt := by
  have tag : (w &&& 7).toNat = 2 := by rw [int]; rfl
  simp [cellOf3, tag]

theorem cellOf_int (v : UInt64) : cellOf (cell 2 v) = .int ((cell 2 v).toInt64 >>> 4).toInt := by
  have tag := (@cellOf_cell 2 (by decide) v).1
  rw [cellOf, tag]
  rfl

theorem cellOf_big (v : UInt64) : cellOf (cell 7 v) = .big (v.toNat % 2 ^ 60) := by
  obtain ⟨tag, payload⟩ := @cellOf_cell 7 (by decide) v
  rw [cellOf, tag, payload]
  rfl

theorem cellOf_rat (v : UInt64) : cellOf (cell 8 v) = .rat (v.toNat % 2 ^ 60) := by
  obtain ⟨tag, payload⟩ := @cellOf_cell 8 (by decide) v
  rw [cellOf, tag, payload]
  rfl

/-- The payload of a boxed number of the three-bit layout fits in a cell of today. -/
theorem payload_room {p : UInt64} (shifted : p.toNat < 2 ^ 61) (clear : p &&& ((1 : UInt64) <<< 60) = 0) :
    p.toNat < 2 ^ 60 := by
  by_contra large
  have bit : p.toNat.testBit 60 = true := by
    rw [Nat.testBit_eq_decide_div_mod_eq]
    have one : p.toNat / 2 ^ 60 = 1 := by omega
    rw [one]
    rfl
  have zero : p.toNat &&& 2 ^ 60 = 0 := by
    have := congrArg UInt64.toNat clear
    simpa [UInt64.toNat_and] using this
  have here : (p.toNat &&& 2 ^ 60).testBit 60 = false := by rw [zero]; exact Nat.zero_testBit 60
  rw [Nat.testBit_and, bit, Nat.testBit_two_pow_self] at here
  cases here

theorem shifted_small (w : UInt64) : (w >>> 3).toNat < 2 ^ 61 := by
  rw [UInt64.toNat_shiftRight]
  simp only [UInt64.reduceToNat, Nat.reduceMod, Nat.shiftRight_eq_div_pow]
  have := w.toNat_lt
  omega

/-- The place an integer is boxed at is a place of the table, whatever its payload keeps of it. -/
theorem holds_boxed {bigs : List Int64} (room : bigs.length < n.bigs) :
    n.Holds i (cellOf (cell 7 (UInt64.ofNat bigs.length))) := by
  rw [cellOf_big, UInt64.toNat_ofNat']
  have one := Nat.mod_le (bigs.length % 2 ^ 64) (2 ^ 60)
  have two := Nat.mod_le bigs.length (2 ^ 64)
  exact Nat.lt_of_le_of_lt (Nat.le_trans one two) room

/-- The two kinds of boxed number behind one tag. -/
theorem cellOf_boxed {w : UInt64} (box : w &&& 7 = 7) :
    (w >>> 3 &&& ((1 : UInt64) <<< 60) = 0 → cellOf (cell 7 (w >>> 3)) = cellOf3 w) ∧
    (w >>> 3 &&& ((1 : UInt64) <<< 60) ≠ 0 →
      cellOf (cell 8 (w >>> 3 &&& (((1 : UInt64) <<< 60) - 1))) = cellOf3 w) := by
  have tag : (w &&& 7).toNat = 7 := by rw [box]; rfl
  constructor
  · intro clear
    rw [cellOf_big, Nat.mod_eq_of_lt (payload_room (shifted_small w) clear)]
    simp only [cellOf3, tag, clear, if_true]
  · intro set_
    have mask : (((1 : UInt64) <<< 60) - 1).toNat = 2 ^ 60 - 1 := rfl
    rw [cellOf_rat]
    simp only [cellOf3, tag, set_, if_false]
    rw [UInt64.toNat_and, mask, Nat.and_two_pow_sub_one_eq_mod, Nat.mod_mod]

theorem upgradeWord_spec {bigs bigs' : List Int64} {w nw : UInt64} (up : upgradeWord bigs w = some (bigs', nw)) :
    bigs'.length = bigs.length + (if boxes w = true then 1 else 0) ∧
    (bigs'.length ≤ n.bigs → (n.Holds i (cellOf nw) ↔ n.Holds i (cellOf3 w))) := by
  unfold upgradeWord at up
  simp only at up
  split at up
  · rename_i int
    rw [cellOf3_int int]
    split at up
    · rename_i fits
      cases up
      refine ⟨by simp [boxes, fits], fun _ => ?_⟩
      rw [cellOf_int]
      exact iff_of_true trivial trivial
    · rename_i wide_
      cases up
      refine ⟨by simp [boxes, int, wide_], fun room => ?_⟩
      rw [List.length_append, List.length_singleton] at room
      exact iff_of_true (holds_boxed room) trivial
  · rename_i int
    have unboxed : boxes w = false := by simp [boxes, int]
    split at up
    · rename_i box
      split at up
      · rename_i clear
        cases up
        exact ⟨by simp [unboxed], fun _ => by rw [(cellOf_boxed box).1 clear]⟩
      · rename_i set_
        cases up
        exact ⟨by simp [unboxed], fun _ => by rw [(cellOf_boxed box).2 set_]⟩
    · rename_i plain
      split at up
      · cases up
      · rename_i room
        cases up
        have room : (w >>> 3).toNat < 2 ^ 60 := by
          have most : (1152921504606846975 : UInt64).toNat = 1152921504606846975 := rfl
          have below := UInt64.le_iff_toNat_le.mp (UInt64.not_lt.mp room)
          rw [most] at below
          omega
        have same : cellOf ((w >>> 3) <<< 4 ||| w &&& 7) = cellOf3 w := cellOf_kept plain int room
        exact ⟨by simp [unboxed], fun _ => by rw [same]⟩

theorem upgradeWords_spec {bigs bigs' : List Int64} {ws nws : List UInt64} (up : upgradeWords bigs ws = some (bigs', nws)) :
    bigs'.length = bigs.length + ws.countP boxes ∧ nws.length = ws.length ∧
    (bigs'.length ≤ n.bigs → ∀ (j : Nat) w nw, ws[j]? = some w → nws[j]? = some nw →
      ∀ k, n.Holds k (cellOf nw) ↔ n.Holds k (cellOf3 w)) := by
  induction ws generalizing bigs nws with
  | nil =>
    cases up
    exact ⟨rfl, rfl, fun _ i w nw at_ => by simp at at_⟩
  | cons w ws ih =>
    simp only [upgradeWords, Option.bind_eq_some_iff, Option.map_eq_some_iff] at up
    obtain ⟨⟨mid, nw⟩, one, ⟨last, rest⟩, more, same⟩ := up
    cases same
    obtain ⟨count, length, holds⟩ := ih more
    obtain ⟨first, _⟩ := @upgradeWord_spec n 0 _ _ _ _ one
    refine ⟨?_, by simp [length], fun room j v nv at_ at_' k => ?_⟩
    · rw [count, first, List.countP_cons]
      omega
    · cases j with
      | zero =>
        simp only [List.getElem?_cons_zero, Option.some.injEq] at at_ at_'
        subst at_ at_'
        refine (@upgradeWord_spec n k _ _ _ _ one).2 (Nat.le_trans ?_ room)
        rw [count]
        exact Nat.le_add_right _ _
      | succ j => exact holds room j v nv (by simpa using at_) (by simpa using at_') k

theorem upgradeWord_isSome (bigs bigs' : List Int64) (w : UInt64) :
    (upgradeWord bigs w).isSome = (upgradeWord bigs' w).isSome := by
  unfold upgradeWord
  simp only
  split
  · split <;> rfl
  · split
    · split <;> rfl
    · split <;> rfl

/-- Whether a heap fits the layout of today has nothing to do with the integers boxed before. -/
theorem upgradeWords_isSome (bigs bigs' : List Int64) (ws : List UInt64) :
    (upgradeWords bigs ws).isSome = (upgradeWords bigs' ws).isSome := by
  induction ws generalizing bigs bigs' with
  | nil => rfl
  | cons w ws ih =>
    have one := upgradeWord_isSome bigs bigs' w
    unfold upgradeWords
    cases first : upgradeWord bigs w with
    | none =>
      rw [first] at one
      have second : upgradeWord bigs' w = none := by simpa using one.symm
      rw [second]
    | some r =>
      rw [first] at one
      obtain ⟨r', second⟩ := Option.isSome_iff_exists.mp one.symm
      rw [second]
      simpa using ih r.1 r'.1

theorem Carried.upgraded_isSome (c : Carried) (bigs : List Int64) :
    (c.upgraded bigs).isSome = (c.upgraded []).isSome := by
  unfold Carried.upgraded
  split
  · exact upgradeWords_isSome bigs [] c.words
  · rfl

theorem Carried.upgraded_length {c : Carried} {bigs bigs' : List Int64} {heap : List UInt64}
    (up : c.upgraded bigs = some (bigs', heap)) :
    heap.length = c.words.length ∧ bigs'.length = bigs.length + if c.version = 1 then c.words.countP boxes else 0 := by
  unfold Carried.upgraded at up
  split at up
  · rename_i old
    obtain ⟨count, length, _⟩ := @upgradeWords_spec ⟨0, 0, [], 0, 0, 0, 0⟩ _ _ _ _ up
    exact ⟨length, by simp [old, count]⟩
  · rename_i new
    cases up
    simp [new]

/-- The heap of today names what the words of the text name. -/
theorem Carried.upgraded_sound {c : Carried} {bigs bigs' : List Int64} {heap : List UInt64}
    (up : c.upgraded bigs = some (bigs', heap)) (room : n.bigs = bigs'.length) :
    n.Sound (heap.map cellOf) c.trail ↔ n.Sound c.cells c.trail := by
  unfold Carried.upgraded at up
  unfold Carried.cells
  split at up
  · rename_i old
    obtain ⟨_, length, holds⟩ := @upgradeWords_spec n _ _ _ _ up
    have same := holds (Nat.le_of_eq room.symm)
    simp only [old, if_true]
    constructor <;> rintro ⟨heap_, trail, names⟩ <;> refine ⟨fun i cell at_ => ?_, trail, names⟩
    · rw [List.getElem?_map, Option.map_eq_some_iff] at at_
      obtain ⟨w, at_, rfl⟩ := at_
      have inside : i < heap.length := length ▸ (List.getElem?_eq_some_iff.mp at_).1
      exact (same i w heap[i] at_ (List.getElem?_eq_getElem inside) i).mp (heap_ i _ (by simp [inside]))
    · rw [List.getElem?_map, Option.map_eq_some_iff] at at_
      obtain ⟨nw, at_, rfl⟩ := at_
      have inside : i < c.words.length := length ▸ (List.getElem?_eq_some_iff.mp at_).1
      exact (same i c.words[i] nw (List.getElem?_eq_getElem inside) at_ i).mpr (heap_ i _ (by simp [inside]))
  · rename_i new
    cases up
    simp [new]

/-- Two machines with the same names and functors. -/
def Named (m m' : Machine) : Prop := m'.atoms = m.atoms ∧ m'.functors = m.functors

theorem Named.internH {m m' : Machine} (named : Named m m') (a : Atom) : Named (m.internH a) (m'.internH a) :=
  ⟨congrArg (enter · a) named.1, named.2⟩

theorem Named.idsFill {m m' : Machine} (named : Named m m') (voc : Vocabulary) :
    Named (m.idsFill voc) (m'.idsFill voc) := by
  have names := List.foldl_rel (r := Named) (l := voc.names) (f := fun m name => m.internH (.plain name))
    (g := fun m name => m.internH (.plain name)) named fun name _ _ _ named => named.internH _
  refine List.foldl_rel (r := Named) names fun f _ m m' named => ?_
  have named := named.internH (.plain f.1)
  refine ⟨named.1, ?_⟩
  show enter _ _ = enter _ _
  rw [named.2, Machine.idOf, Machine.idOf, named.1]

theorem idsFill_floats (voc : Vocabulary) (m : Machine) : (m.idsFill voc).floats = m.floats := by
  have kept : ∀ (l : List (Bytes × UInt32)) (m : Machine), (l.foldl (fun m f =>
      let m := m.internH (.plain f.1)
      m.functorId { name := UInt64.ofNat (m.idOf (.plain f.1)), arity := f.2 }) m).floats = m.floats := by
    intro l
    induction l with
    | nil => exact fun _ => rfl
    | cons f l ih => exact fun m => ih _
  have names : ∀ (l : List Bytes) (m : Machine), (l.foldl (fun m name => m.internH (.plain name)) m).floats = m.floats := by
    intro l
    induction l with
    | nil => exact fun _ => rfl
    | cons name l ih => exact fun m => ih _
  exact (kept voc.functors _).trans (names voc.names m)

theorem rebuild_wellFormed (voc : Vocabulary) {c : Carried} {w : Work} (restored : c.restored backend = .ok w) {m : Machine}
    (makes : c.rebuild backend = some m) (chars flags : Int32) :
    ((m.flagged chars flags).idsFill voc).WellFormed ↔ (c.entries voc w.m).Sound c.cells c.trail := by
  rw [Carried.rebuild, restored] at makes
  simp only [Option.map_eq_some_iff] at makes
  obtain ⟨⟨bigs, heap⟩, up, rfl⟩ := makes
  have named : Named w.m (Machine.flagged { w.m with bigs, heap, rats := w.m.rats ++ c.rats } chars flags) := ⟨rfl, rfl⟩
  have filled := named.idsFill voc
  have grown := Grows.idsFill voc (Machine.flagged { w.m with bigs, heap, rats := w.m.rats ++ c.rats } chars flags)
  have floats := idsFill_floats voc (Machine.flagged { w.m with bigs, heap, rats := w.m.rats ++ c.rats } chars flags)
  obtain ⟨⟨made, frames⟩, _⟩ := restoreFrames_builds restored
  generalize Machine.idsFill voc (Machine.flagged { w.m with bigs, heap, rats := w.m.rats ++ c.rats } chars flags) = m at *
  obtain ⟨cells, boxed⟩ := c.upgraded_length up
  have same : m.entries = c.entries voc w.m := by
    unfold Machine.entries Carried.entries
    rw [filled.1, filled.2, floats, grown.strings, grown.bigs, grown.rats, grown.heap]
    simp [Machine.flagged, cells, boxed, Nat.add_assoc]
  have trail : m.trail = c.trail := grown.trail.trans frames.trail
  have heap_ : m.heap = heap := grown.heap
  rw [Machine.WellFormed, same, trail, heap_]
  refine Carried.upgraded_sound up ?_
  rw [boxed, List.length_append]
  rfl

/-- A thaw refuses a text or makes a well formed machine of it, exactly when the words of the
text name entries that are there. -/
theorem thaw_wellFormed_iff (strtod : Bytes → UInt64 × Nat) (backend : Backend) (voc : Vocabulary) (ops : List OpDef)
    (text : Bytes) :
    (∀ t, thaw strtod backend voc ops text = .ok t → t.m.WellFormed) ↔
      ∀ c, carried strtod text = some c → c.Consistent backend voc := by
  constructor
  · intro sound c reads w restored fits
    have made : (c.rebuild backend).isSome = true := by
      rw [Carried.rebuild, restored]
      simpa [c.upgraded_isSome] using fits
    obtain ⟨m, makes⟩ := Option.isSome_iff_exists.mp made
    obtain ⟨t, chars, flags, accepted, same⟩ := carried_thaw voc ops reads makes
    exact (rebuild_wellFormed voc restored makes chars flags).mp (same ▸ sound t accepted)
  · intro consistent t accepted
    obtain ⟨c, m, chars, flags, reads, makes, same⟩ := thaw_carried accepted
    cases restored : c.restored backend with
    | error why => simp [Carried.rebuild, restored] at makes
    | ok w =>
      have fits : (c.upgraded []).isSome = true := by
        rw [Carried.rebuild, restored] at makes
        rw [← c.upgraded_isSome (w.m.bigs ++ c.bigs)]
        simpa using congrArg Option.isSome makes
      rw [same]
      exact (rebuild_wellFormed voc restored makes chars flags).mpr (consistent c reads w restored fits)

/- An image that names only what it carries. -/

/-- The entries of the text's own sections. -/
def Carried.own (c : Carried) : Entries where
  heap := c.words.length
  atoms := (c.atoms.foldl enter []).length
  functors := c.functors.foldl enter []
  floats := c.floats.length
  strings := 0
  bigs := c.bigs.length
  rats := c.rats.length

/-- More entries, those there before in their places. -/
structure Entries.Within (n n' : Entries) : Prop where
  heap : n'.heap = n.heap
  atoms : n.atoms ≤ n'.atoms
  functors : n.functors <+: n'.functors
  floats : n.floats ≤ n'.floats
  strings : n.strings ≤ n'.strings
  bigs : n.bigs ≤ n'.bigs
  rats : n.rats ≤ n'.rats

theorem Entries.Within.holds {n' : Entries} (within : n.Within n') {c : Term.Cell} (holds : n.Holds i c) : n'.Holds i c := by
  cases c with
  | ref p => exact Nat.lt_of_lt_of_eq holds within.heap.symm
  | atom a => exact Nat.lt_of_lt_of_le holds within.atoms
  | func f =>
    obtain ⟨g, at_, inside⟩ := holds
    refine ⟨g, ?_, within.heap ▸ inside⟩
    rw [getElem?_of_prefixed within.functors (List.getElem?_eq_some_iff.mp at_).1]
    exact at_
  | flt k => exact Nat.lt_of_lt_of_le holds within.floats
  | str k => exact Nat.lt_of_lt_of_le holds within.strings
  | big k => exact Nat.lt_of_lt_of_le holds within.bigs
  | rat k => exact Nat.lt_of_lt_of_le holds within.rats
  | int v => trivial
  | pos p => trivial

/-- Then the machine is well formed whatever the backend holds. -/
theorem Carried.consistent_of_own {c : Carried} (own : c.own.Sound c.cells c.trail) (voc : Vocabulary) :
    c.Consistent backend voc := by
  intro w restored _
  obtain ⟨⟨made, frames⟩, named⟩ := restoreFrames_builds restored
  obtain ⟨⟨made', filled⟩, named'⟩ := Builds.idsFill voc w.m
  have bare : c.bare.NamesIn := own.names
  have within : c.own.Within (c.entries voc w.m) := by
    refine ⟨rfl, ?_, frames.functors.trans filled.functors, frames.floats.length_le, Nat.zero_le _, ?_, ?_⟩
    · exact (frames.atoms.trans filled.atoms).length_le
    · exact Nat.le_trans (Nat.le_add_left _ _) (Nat.le_add_right _ _)
    · exact Nat.le_add_left _ _
  refine ⟨fun i cell at_ => within.holds (own.heap i cell at_), fun v listed => own.trail v listed, ?_⟩
  exact named' (named bare)

end

/-- A machine whose one cell is an integer past 60 bits. -/
def bigMachine : Machine where
  atoms := [nil]
  bigs := [4611686018427387904]
  heap := [7]

/-- Its image, cut where the boxed integers begin. -/
def cutImage : Bytes :=
  [99, 111, 99, 111, 108, 111, 103, 32, 50, 10] ++ freezeAtoms bigMachine ++ freezeFunctors bigMachine ++
    freezeFloats showOne bigMachine ++ freezeHeap bigMachine ++ freezeTrail bigMachine ++ freezeEngine {} ++
    freezeChoices bigMachine {} [] ++ freezeOps [] ++ freezeFrees {} ++ freezeUnits bigMachine

/-- The cut image is taken for one of an older build, and its cell names no entry. -/
theorem cut_not_wellFormed : cutImage <+: freezeImage showOne bigMachine {} [] [] ∧
    ¬∀ t, thaw readOne noBackend ⟨[brackets], []⟩ [] cutImage = .ok t → t.m.WellFormed := by
  refine ⟨by simp [cutImage, freezeImage], fun sound => ?_⟩
  have thawed : ((thaw readOne noBackend ⟨[brackets], []⟩ [] cutImage).toOption.map fun t => (t.m.heap, t.m.bigs)) =
      some ([7], []) := by decide +kernel
  cases accepted : thaw readOne noBackend ⟨[brackets], []⟩ [] cutImage with
  | error why =>
    rw [accepted] at thawed
    cases thawed
  | ok t =>
    rw [accepted] at thawed
    have parts : (t.m.heap, t.m.bigs) = ([7], []) := Option.some.inj thawed
    have heap := (sound t accepted).heap 0 (.big 0) (by rw [(Prod.mk.inj parts).1]; rfl)
    have none_ : t.m.bigs = [] := (Prod.mk.inj parts).2
    have here : 0 < t.m.bigs.length := heap
    rw [none_] at here
    exact absurd here (Nat.lt_irrefl 0)

end Cocolog.State
