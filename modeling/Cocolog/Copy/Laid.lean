import Cocolog.Lib.Loop
import Cocolog.Term.Views
import Mathlib.Logic.Function.Basic

/-! The reserve-then-fill walk that every copy of a term runs: a compound's header is
pushed with its argument slots behind it, each slot a variable of its own, and a frame
waits to fill the slots one by one. What is laid down, and what is still owed, is kept
apart from the order of the frames. -/

set_option linter.all false

namespace Cocolog.Copy

open Cocolog.Lib Cocolog.Term

/-- `coco_copyframe`: a compound's source, its first slot, the next argument and how many
there are. -/
structure Frame where
  src : Nat
  dst : Nat
  i : Nat
  n : Nat
deriving Repr, DecidableEq

/-- A walk's memory and its length, the map of what it has met, its frames, newest first,
and the ceiling: the last index a compound may take, none for `(size_t)-1`, zero once it
was passed. -/
structure Walk where
  cells : Mem
  len : Nat
  vars : List (Nat × Nat)
  frames : List Frame
  wceil : Option Nat

namespace Walk

/-- `coco_push` and `coco_store_push`. -/
def push (w : Walk) (c : Cell) : Walk := { w with cells := Function.update w.cells w.len c, len := w.len + 1 }

/-- `n` slots, each an unbound variable of its own. -/
def reserve (w : Walk) (n : Nat) : Walk :=
  { w with cells := fun i => if w.len ≤ i ∧ i < w.len + n then .ref i else w.cells i, len := w.len + n }

/-- `coco_push_struct`. -/
def pushStruct (w : Walk) (c : Cell) (n : Nat) : Walk := (w.push c).reserve n

/-- `coco_frames_push`, for a compound that has arguments. -/
def owe (w : Walk) (src dst n : Nat) : Walk :=
  if 0 < n then { w with frames := ⟨src, dst, 0, n⟩ :: w.frames } else w

/-- `coco_set_arg`. -/
def setArg (w : Walk) (slot to_ : Nat) : Walk := { w with cells := Function.update w.cells slot (.ref to_) }

end Walk

/-- The frames once argument `i` of the newest is issued: it goes with its last. -/
def advance (fr : Frame) (rest : List Frame) : List Frame :=
  if fr.n ≤ fr.i + 1 then rest else { fr with i := fr.i + 1 } :: rest

/-- A turn of the loop that `coco_store_put_walk` and `coco_factor_fill` run: the newest
frame's next argument is placed by `node` and its slot pointed there. -/
def fillStep (node : Nat → Walk → Nat × Walk) (w : Walk) : Option Walk :=
  match w.frames with
  | [] => none
  | fr :: rest =>
    if fr.n ≤ fr.i then some { w with frames := rest }
    else
      let r := node (fr.src + (fr.i + 1)) { w with frames := advance fr rest }
      some (r.2.setArg (fr.dst + fr.i) r.1)

/-- What a walk finds at a source cell: a variable to be mapped, a cell to be had as it
is, or a compound. -/
inductive Item where
  | var (v : Nat)
  | atomic (c : Cell)
  | comp (s f : Nat)
deriving Repr, DecidableEq

/-- The item at a cell of a memory. -/
def itemAt (h : Mem) (len a : Nat) : Item :=
  match h (deref h len a) with
  | .ref _ => .var (deref h len a)
  | .func f => .comp (deref h len a) f
  | c => .atomic c

/-- A source term with no cycle through its compounds. -/
inductive Finite (tb : Tables) (item : Nat → Item) : Nat → Prop where
  | intro {a : Nat} (args : ∀ s f k, item a = .comp s f → k < tb.arity f → Finite tb item (s + 1 + k)) :
      Finite tb item a

/-- A cell that holds all there is of its term. -/
def flat : Cell → Bool
  | .ref _ | .func _ => false
  | _ => true

theorem not_ref_of_flat {c : Cell} (is : flat c = true) : c.isRef = false := by
  cases c with
  | ref p => cases is
  | _ => rfl

/-- Cell `x` is what the walk answers for source cell `a`: `V` maps the variables and `C`
the compounds laid down, with their functors. -/
def Image (item : Nat → Item) (V : Nat → Nat → Prop) (C : Nat → Nat → Nat → Prop) (m : Mem) (len a x : Nat) :
    Prop :=
  match item a with
  | .var v => V v x
  | .atomic c => m x = c ∧ x < len ∧ flat c = true
  | .comp s f => C s f x

/-- The memory of a walk: compounds laid down in blocks of their own, each slot pending
or leading to its argument's image, which in an ordered one comes later if it is a
compound; the mapped variables unbound, and no pending slot among them. -/
structure Laid (ordered : Prop) (tb : Tables) (item : Nat → Item) (V : Nat → Nat → Prop) (C P : Nat → Nat → Nat → Prop)
    (m : Mem) (len : Nat) : Prop where
  head : ∀ {s f b}, C s f b → m b = .func f ∧ b + tb.arity f < len
  apart : ∀ {s f b s' f' b' k k'}, C s f b → C s' f' b' → k ≤ tb.arity f → k' ≤ tb.arity f' →
    b + k = b' + k' → s = s' ∧ f = f' ∧ b = b'
  owed : ∀ {s b k}, P s b k → m (b + 1 + k) = .ref (b + 1 + k) ∧ ∃ f, C s f b ∧ k < tb.arity f
  slot : ∀ {s f b k}, C s f b → k < tb.arity f → P s b k ∨
    ∃ x, m (b + 1 + k) = .ref x ∧ Image item V C m len (s + 1 + k) x ∧
      (ordered → ∀ s' f', item (s + 1 + k) = .comp s' f' → b < x)
  var : ∀ {v x}, V v x → m x = .ref x ∧ x < len ∧ ∀ {s b k}, P s b k → x ≠ b + 1 + k

section Laid

variable {o : Prop} {tb : Tables} {item : Nat → Item} {V V' : Nat → Nat → Prop} {C C' P : Nat → Nat → Nat → Prop}
  {m m' : Mem} {len len' a x : Nat}

theorem Image.mono (image : Image item V C m len a x) (vars : ∀ v y, V v y → V' v y)
    (comps : ∀ s f y, C s f y → C' s f y) (same : ∀ i < len, (m i).isRef = false → m' i = m i)
    (le : len ≤ len') : Image item V' C' m' len' a x := by
  unfold Image at *
  split
  · rename_i v is
    simp only [is] at image
    exact vars _ _ image
  · rename_i c is
    simp only [is] at image
    obtain ⟨cell, inside, held⟩ := image
    exact ⟨(same x inside (by rw [cell]; exact not_ref_of_flat held)).trans cell, by omega, held⟩
  · rename_i s f is
    simp only [is] at image
    exact comps _ _ _ image

namespace Laid

/-- Cells pushed past the end, and variables met. -/
theorem grow (laid : Laid o tb item V C P m len) (same : ∀ i < len, m' i = m i) (le : len ≤ len')
    (older : ∀ v y, V v y → V' v y) (newer : ∀ v y, V' v y → V v y ∨ (len ≤ y ∧ y < len' ∧ m' y = .ref y)) :
    Laid o tb item V' C P m' len' := by
  have inside : ∀ {s b k}, P s b k → b + 1 + k < len := by
    intro s b k pending
    obtain ⟨-, f, block, below⟩ := laid.owed pending
    have := (laid.head block).2
    omega
  refine ⟨?_, laid.apart, ?_, ?_, ?_⟩
  · intro s f b block
    obtain ⟨cell, lt⟩ := laid.head block
    exact ⟨(same b (by omega)).trans cell, by omega⟩
  · intro s b k pending
    obtain ⟨self, f, block, below⟩ := laid.owed pending
    exact ⟨(same _ (inside pending)).trans self, f, block, below⟩
  · intro s f b k block below
    have lt := (laid.head block).2
    refine (laid.slot block below).imp id ?_
    rintro ⟨x, cell, image, later⟩
    exact ⟨x, (same _ (by omega)).trans cell,
      image.mono older (fun _ _ _ c => c) (fun i hi _ => same i hi) le, later⟩
  · intro v y mapped
    rcases newer v y mapped with old | ⟨low, high, self⟩
    · obtain ⟨self, lt, apart⟩ := laid.var old
      exact ⟨(same y lt).trans self, by omega, apart⟩
    · refine ⟨self, high, ?_⟩
      intro s b k pending
      have := inside pending
      omega

/-- A compound laid down past the end, all its slots pending. -/
theorem block (laid : Laid o tb item V C P m len) {s f : Nat} (same : ∀ i < len, m' i = m i)
    (header : m' len = .func f) (slots : ∀ k < tb.arity f, m' (len + 1 + k) = .ref (len + 1 + k)) :
    Laid o tb item V (fun s' f' b => C s' f' b ∨ (s' = s ∧ f' = f ∧ b = len))
      (fun s' b k => P s' b k ∨ (s' = s ∧ b = len ∧ k < tb.arity f)) m' (len + 1 + tb.arity f) := by
  have grown : Laid o tb item V C P m' (len + 1 + tb.arity f) :=
    laid.grow same (by omega) (fun _ _ h => h) fun _ _ h => .inl h
  refine ⟨?_, ?_, ?_, ?_, ?_⟩
  · rintro s' f' b (old | ⟨rfl, rfl, rfl⟩)
    · exact grown.head old
    · exact ⟨header, by omega⟩
  · rintro s1 f1 b1 s2 f2 b2 k1 k2 (old1 | ⟨rfl, rfl, rfl⟩) (old2 | ⟨rfl, rfl, rfl⟩) le1 le2 at_
    · exact laid.apart old1 old2 le1 le2 at_
    · have := (laid.head old1).2
      omega
    · have := (laid.head old2).2
      omega
    · exact ⟨rfl, rfl, rfl⟩
  · rintro s' b k (old | ⟨rfl, rfl, below⟩)
    · obtain ⟨self, f', block, below⟩ := grown.owed old
      exact ⟨self, f', .inl block, below⟩
    · exact ⟨slots k below, f, .inr ⟨rfl, rfl, rfl⟩, below⟩
  · rintro s' f' b k (old | ⟨rfl, rfl, rfl⟩) below
    · refine (grown.slot old below).imp .inl ?_
      rintro ⟨x, cell, image, later⟩
      exact ⟨x, cell, image.mono (fun _ _ h => h) (fun _ _ _ h => .inl h) (fun _ _ _ => rfl) le_rfl, later⟩
    · exact .inl (.inr ⟨rfl, rfl, below⟩)
  · intro v y mapped
    obtain ⟨self, lt, off⟩ := grown.var mapped
    refine ⟨self, lt, ?_⟩
    rintro s' b k (old | ⟨rfl, rfl, below⟩)
    · exact off old
    · have := (laid.var mapped).2.1
      omega

theorem apart_slot (laid : Laid o tb item V C P m len) {s f b s' f' b' k k' : Nat} (one : C s f b)
    (two : C s' f' b') (below : k < tb.arity f) (below' : k' < tb.arity f') (at_ : b + 1 + k = b' + 1 + k') :
    s = s' ∧ f = f' ∧ b = b' ∧ k = k' := by
  have sum : b + (1 + k) = b' + (1 + k') := by omega
  obtain ⟨rfl, rfl, rfl⟩ := laid.apart one two (by omega) (by omega) sum
  exact ⟨rfl, rfl, rfl, by omega⟩

theorem owed_apart (laid : Laid o tb item V C P m len) {s b k s' b' k' : Nat} (one : P s b k) (two : P s' b' k')
    (off : ¬(b' = b ∧ k' = k)) : b' + 1 + k' ≠ b + 1 + k := by
  intro at_
  obtain ⟨-, f, block, below⟩ := laid.owed one
  obtain ⟨-, f', block', below'⟩ := laid.owed two
  obtain ⟨-, -, same, same'⟩ := laid.apart_slot block' block below' below at_
  exact off ⟨same, same'⟩

/-- A pending slot pointed at its argument's image. -/
theorem fill (laid : Laid o tb item V C P m len) {s b k x : Nat} (pending : P s b k)
    (image : Image item V C m len (s + 1 + k) x)
    (later : o → ∀ s' f', item (s + 1 + k) = .comp s' f' → b < x) :
    Laid o tb item V C (fun s' b' k' => P s' b' k' ∧ ¬(b' = b ∧ k' = k))
      (Function.update m (b + 1 + k) (.ref x)) len := by
  obtain ⟨self, f, here, below⟩ := laid.owed pending
  -- only a reference is written over
  have held : ∀ i, (m i).isRef = false → Function.update m (b + 1 + k) (.ref x) i = m i := by
    intro i held
    apply Function.update_of_ne
    rintro rfl
    rw [self] at held
    cases held
  have kept : ∀ {a y}, Image item V C m len a y →
      Image item V C (Function.update m (b + 1 + k) (.ref x)) len a y := by
    intro a y image
    exact image.mono (fun _ _ h => h) (fun _ _ _ h => h) (fun i _ => held i) le_rfl
  refine ⟨?_, laid.apart, ?_, ?_, ?_⟩
  · intro s' f' b' block
    obtain ⟨cell, lt⟩ := laid.head block
    exact ⟨(held b' (by rw [cell]; rfl)).trans cell, lt⟩
  · rintro s' b' k' ⟨old, off⟩
    obtain ⟨self', more⟩ := laid.owed old
    exact ⟨by rw [Function.update_of_ne (laid.owed_apart pending old off), self'], more⟩
  · intro s' f' b' k' block below'
    by_cases at_ : b' + 1 + k' = b + 1 + k
    · -- the slot itself
      obtain ⟨rfl, rfl, rfl, rfl⟩ := laid.apart_slot block here below' below at_
      exact .inr ⟨x, Function.update_self .., kept image, later⟩
    · rcases laid.slot block below' with old | ⟨y, cell, image', later'⟩
      · exact .inl ⟨old, fun both => at_ (by rw [both.1, both.2])⟩
      · exact .inr ⟨y, by rw [Function.update_of_ne at_, cell], kept image', later'⟩
  · intro v y mapped
    obtain ⟨self', lt, off⟩ := laid.var mapped
    exact ⟨by rw [Function.update_of_ne (off pending), self'], lt, fun old => off old.1⟩

/-- A pending slot that becomes the variable first met there. -/
theorem own (laid : Laid o tb item V C P m len) {s b k v : Nat} (pending : P s b k) (is : item (s + 1 + k) = .var v) :
    Laid o tb item (fun v' y => V v' y ∨ (v' = v ∧ y = b + 1 + k)) C
      (fun s' b' k' => P s' b' k' ∧ ¬(b' = b ∧ k' = k)) m len := by
  obtain ⟨self, f, here, below⟩ := laid.owed pending
  have lt := (laid.head here).2
  have kept : ∀ {a y}, Image item V C m len a y →
      Image item (fun v' y => V v' y ∨ (v' = v ∧ y = b + 1 + k)) C m len a y := by
    intro a y image
    exact image.mono (fun _ _ h => .inl h) (fun _ _ _ h => h) (fun _ _ _ => rfl) le_rfl
  refine ⟨laid.head, laid.apart, fun old => laid.owed old.1, ?_, ?_⟩
  · intro s' f' b' k' block below'
    by_cases at_ : b' + 1 + k' = b + 1 + k
    · obtain ⟨rfl, rfl, rfl, rfl⟩ := laid.apart_slot block here below' below at_
      refine .inr ⟨b' + 1 + k', self, ?_, ?_⟩
      · simp [Image, is]
      · intro _ s' f' comp
        rw [is] at comp
        cases comp
    · rcases laid.slot block below' with old | ⟨y, cell, image', later'⟩
      · exact .inl ⟨old, fun both => at_ (by rw [both.1, both.2])⟩
      · exact .inr ⟨y, cell, kept image', later'⟩
  · rintro v' y (mapped | ⟨rfl, rfl⟩)
    · obtain ⟨self', lt', off⟩ := laid.var mapped
      exact ⟨self', lt', fun old => off old.1⟩
    · exact ⟨self, by omega, fun old => (laid.owed_apart pending old.1 old.2).symm⟩

/-- The pending slots may be told in other words. -/
theorem pending_iff (laid : Laid o tb item V C P m len) {P' : Nat → Nat → Nat → Prop}
    (same : ∀ s b k, P' s b k ↔ P s b k) : Laid o tb item V C P' m len := by
  have eq : P' = P := by
    funext s b k
    exact propext (same s b k)
  rw [eq]
  exact laid

/-- Images are ends of chains. -/
theorem image_end (laid : Laid o tb item V C P m len) (image : Image item V C m len a x) : x < len ∧ End m x := by
  unfold Image at image
  split at image
  · obtain ⟨self, lt, -⟩ := laid.var image
    exact ⟨lt, .inl self⟩
  · obtain ⟨cell, lt, held⟩ := image
    exact ⟨lt, .inr (by rw [cell]; exact not_ref_of_flat held)⟩
  · obtain ⟨cell, lt⟩ := laid.head image
    exact ⟨by omega, .inr (by rw [cell]; rfl)⟩

theorem image_leads (laid : Laid o tb item V C P m len) (image : Image item V C m len a x) : Leads m len x x := by
  obtain ⟨lt, stop⟩ := laid.image_end image
  exact .stop lt stop

/-- A compound among the images was laid down. -/
theorem image_func (laid : Laid o tb item V C P m len) (image : Image item V C m len a x) {f : Nat}
    (cell : m x = .func f) : ∃ s, item a = .comp s f ∧ C s f x := by
  unfold Image at image
  split at image
  · rw [(laid.var image).1] at cell
    cases cell
  · obtain ⟨same, -, held⟩ := image
    rw [← same, cell] at held
    cases held
  · rename_i s f' is
    have header := (laid.head image).1
    rw [cell] at header
    obtain rfl := Cell.func.inj header
    exact ⟨s, is, image⟩

/-- With nothing pending every slot leads to its argument's image. -/
theorem slot_leads (laid : Laid o tb item V C (fun _ _ _ => False) m len) {s f b k : Nat} (block : C s f b)
    (below : k < tb.arity f) :
    ∃ x, Leads m len (b + 1 + k) x ∧ Image item V C m len (s + 1 + k) x ∧
      (o → ∀ s' f', item (s + 1 + k) = .comp s' f' → b < x) := by
  rcases laid.slot block below with pending | ⟨x, cell, image, later⟩
  · exact pending.elim
  · have lt := (laid.head block).2
    exact ⟨x, .of_ref (by omega) cell (laid.image_leads image), image, later⟩

end Laid

theorem Finite.congr {b : Nat} (finite : Finite tb item a) (same : item b = item a) : Finite tb item b := by
  cases finite with
  | intro args => exact .intro fun s f k is => args s f k (same.symm.trans is)

theorem itemAt_leads {d : Nat} (leads : Leads m len a d) : itemAt m len a = itemAt m len d := by
  unfold itemAt
  rw [leads.deref, leads.last.deref]

theorem itemAt_func {d s f : Nat} (leads : Leads m len a d) (is : itemAt m len a = .comp s f) :
    s = d ∧ m d = .func f := by
  unfold itemAt at is
  rw [leads.deref] at is
  split at is
  · cases is
  · rename_i f' cell
    obtain ⟨rfl, rfl⟩ := Item.comp.inj is
    exact ⟨rfl, cell⟩
  · cases is

/-- A compound laid down comes before those of its arguments, so what is laid down is
read to its last cell. -/
theorem Laid.rooted (laid : Laid True tb item V C (fun _ _ _ => False) m len) (image : Image item V C m len a x) :
    Rooted tb m len x := by
  induction hn : len - x using Nat.strong_induction_on generalizing a x with
  | _ n ih =>
    refine .intro (laid.image_leads image) ?_
    intro f k cell below
    obtain ⟨s', -, block⟩ := laid.image_func image cell
    obtain ⟨y, leads, image', later⟩ := laid.slot_leads block below
    have rooted : Rooted tb m len y := by
      refine .intro leads.last ?_
      intro f' j cell' below'
      obtain ⟨src, comp, -⟩ := laid.image_func image' cell'
      have onward := later trivial _ _ comp
      have lt := leads.lt
      have whole := ih (len - y) (by omega) image' rfl
      cases whole with
      | intro leads' args =>
        obtain rfl := leads'.unique leads.last
        exact args f' j cell' below'
    exact rooted.congr leads.last leads

theorem Laid.rooted_block (laid : Laid True tb item V C (fun _ _ _ => False) m len) {s f b : Nat} (here : C s f b) :
    Rooted tb m len b := by
  obtain ⟨header, lt⟩ := laid.head here
  refine .intro (.stop (by omega) (.inr (by rw [header]; rfl))) ?_
  intro f' k cell below
  rw [header] at cell
  obtain rfl := Cell.func.inj cell
  obtain ⟨y, leads, image, -⟩ := laid.slot_leads here below
  exact (laid.rooted image).congr leads.last leads

theorem finite_of_rooted (rooted : Rooted tb m len a) : Finite tb (itemAt m len) a := by
  induction rooted with
  | intro leads _ ih =>
    constructor
    intro s f k is below
    obtain ⟨rfl, cell⟩ := itemAt_func leads is
    exact ih f k cell below

/-- What was laid down with nothing pending is the source's term over again. -/
theorem Laid.bisim {g : Mem} {glen : Nat} {live : Nat → Prop} (whole : Whole tb g glen live)
    (laid : Laid o tb (itemAt g glen) V C (fun _ _ _ => False) m len) :
    Bisim tb g glen m len V fun a y =>
      live a ∧ ∃ x, Image (itemAt g glen) V C m len a x ∧ Leads m len y x := by
  rintro a y ⟨alive, x, image, leads'⟩
  obtain ⟨d, leads, args⟩ := whole a alive
  refine ⟨d, x, leads, leads', ?_⟩
  have whole_image := image
  unfold Image itemAt at image
  rw [leads.deref] at image
  cases cell : g d with
  | ref p =>
    rcases leads.ends with self | held
    · rw [self] at cell
      obtain rfl := Cell.ref.inj cell
      simp only [self] at image
      exact .inl ⟨rfl, (laid.var image).1, image⟩
    · rw [cell] at held
      cases held
  | func f =>
    simp only [cell] at image
    refine .inr ⟨rfl, (laid.head image).1, ?_⟩
    intro f' k same below
    obtain rfl := Cell.func.inj same
    obtain ⟨z, onward, image', -⟩ := laid.slot_leads image below
    exact ⟨args _ k cell below, z, image', onward⟩
  | _ =>
    simp only [cell] at image
    exact .inr ⟨rfl, image.1, fun _ _ same => (nomatch same)⟩

end Laid


/- The frames. -/

/-- A slot some frame has still to fill. -/
def Pending (frames : List Frame) (s b k : Nat) : Prop :=
  ∃ fr ∈ frames, fr.src = s ∧ fr.dst = b + 1 ∧ fr.i ≤ k ∧ k < fr.n

/-- No two frames fill the same compound, and none starts at the first cell. -/
def Apart (frames : List Frame) : Prop :=
  frames.Pairwise (fun fr fr' => fr.dst ≠ fr'.dst) ∧ ∀ fr ∈ frames, 1 ≤ fr.dst

theorem Apart.advance {fr : Frame} {rest : List Frame} (apart : Apart (fr :: rest)) : Apart (advance fr rest) := by
  obtain ⟨pairs, low⟩ := apart
  obtain ⟨first, others⟩ := List.pairwise_cons.mp pairs
  unfold Copy.advance
  split
  · exact ⟨others, fun fr' mem => low fr' (List.mem_cons_of_mem _ mem)⟩
  · refine ⟨List.pairwise_cons.mpr ⟨first, others⟩, ?_⟩
    intro fr' mem
    rcases List.mem_cons.mp mem with rfl | mem
    · exact low fr List.mem_cons_self
    · exact low fr' (List.mem_cons_of_mem _ mem)

theorem pending_advance {fr : Frame} {rest : List Frame} (apart : Apart (fr :: rest)) (below : fr.i < fr.n)
    (s b k : Nat) :
    Pending (advance fr rest) s b k ↔ Pending (fr :: rest) s b k ∧ ¬(b = fr.dst - 1 ∧ k = fr.i) := by
  obtain ⟨pairs, low⟩ := apart
  obtain ⟨first, -⟩ := List.pairwise_cons.mp pairs
  have one := low fr List.mem_cons_self
  have others : ∀ {fr'}, fr' ∈ rest → fr'.dst = b + 1 → ¬(b = fr.dst - 1 ∧ k = fr.i) := by
    rintro fr' mem dst ⟨same, -⟩
    exact first fr' mem (by omega)
  constructor
  · rintro ⟨fr', mem, src, dst, low', high⟩
    unfold advance at mem
    split at mem
    · exact ⟨⟨fr', List.mem_cons_of_mem _ mem, src, dst, low', high⟩, others mem dst⟩
    · rcases List.mem_cons.mp mem with rfl | mem
      · simp only at src dst low' high
        exact ⟨⟨fr, List.mem_cons_self, src, dst, by omega, high⟩, by omega⟩
      · exact ⟨⟨fr', List.mem_cons_of_mem _ mem, src, dst, low', high⟩, others mem dst⟩
  · rintro ⟨⟨fr', mem, src, dst, low', high⟩, off⟩
    rcases List.mem_cons.mp mem with rfl | mem
    · have past : fr'.i ≠ k := by
        intro same
        exact off ⟨by omega, same.symm⟩
      refine ⟨{ fr' with i := fr'.i + 1 }, ?_, src, dst, ?_, high⟩
      · rw [advance, if_neg (by omega)]
        exact List.mem_cons_self
      · simp only
        omega
    · refine ⟨fr', ?_, src, dst, low', high⟩
      unfold advance
      split
      · exact mem
      · exact List.mem_cons_of_mem _ mem

/-- The newest frame's next slot. -/
theorem pending_next {fr : Frame} {rest : List Frame} (apart : Apart (fr :: rest)) (below : fr.i < fr.n) :
    Pending (fr :: rest) fr.src (fr.dst - 1) fr.i :=
  ⟨fr, List.mem_cons_self, rfl, by have := apart.2 fr List.mem_cons_self; omega, le_rfl, below⟩

theorem pending_drop {fr : Frame} {rest : List Frame} (done : fr.n ≤ fr.i) (s b k : Nat) :
    Pending rest s b k ↔ Pending (fr :: rest) s b k := by
  constructor
  · rintro ⟨fr', mem, more⟩
    exact ⟨fr', List.mem_cons_of_mem _ mem, more⟩
  · rintro ⟨fr', mem, src, dst, low, high⟩
    rcases List.mem_cons.mp mem with rfl | mem
    · omega
    · exact ⟨fr', mem, src, dst, low, high⟩

theorem pending_owe (w : Walk) (src d n s b k : Nat) :
    Pending (w.owe src (d + 1) n).frames s b k ↔ Pending w.frames s b k ∨ (s = src ∧ b = d ∧ k < n) := by
  unfold Walk.owe
  constructor
  · rintro ⟨fr, mem, rfl, dst, low, high⟩
    split at mem
    · rcases List.mem_cons.mp mem with rfl | mem
      · exact .inr ⟨rfl, by simp only at dst; omega, high⟩
      · exact .inl ⟨fr, mem, rfl, dst, low, high⟩
    · exact .inl ⟨fr, mem, rfl, dst, low, high⟩
  · rintro (⟨fr, mem, more⟩ | ⟨rfl, rfl, below⟩)
    · refine ⟨fr, ?_, more⟩
      split
      · exact List.mem_cons_of_mem _ mem
      · exact mem
    · rw [if_pos (by omega)]
      exact ⟨_, List.mem_cons_self, rfl, rfl, Nat.zero_le _, below⟩

theorem Apart.owe {w : Walk} (apart : Apart w.frames) {src d n : Nat} (fresh : ∀ fr ∈ w.frames, fr.dst ≠ d + 1) :
    Apart (w.owe src (d + 1) n).frames := by
  unfold Walk.owe
  split
  · refine ⟨List.pairwise_cons.mpr ⟨?_, apart.1⟩, ?_⟩
    · intro fr mem same
      exact fresh fr mem same.symm
    · intro fr mem
      rcases List.mem_cons.mp mem with rfl | mem
      · exact Nat.le_add_left 1 d
      · exact apart.2 fr mem
  · exact apart

/- Walks that end. -/

section Out

variable {tb : Tables} {item : Nat → Item} {step : Walk → Option Walk} {inv : Walk → Prop}

/-- What a turn does to the frames: nothing is left, or the newest is dropped or moves on,
with the frame of the compound met above it. -/
structure Turns (tb : Tables) (item : Nat → Item) (step : Walk → Option Walk) (inv : Walk → Prop) : Prop where
  keeps : ∀ w w', inv w → step w = some w' → inv w'
  drop : ∀ w fr rest, inv w → w.frames = fr :: rest → fr.n ≤ fr.i → ∃ w', step w = some w' ∧ w'.frames = rest
  visit : ∀ w fr rest, inv w → w.frames = fr :: rest → fr.i < fr.n → ∃ w', step w = some w' ∧
    (w'.frames = [] ∨ w'.frames = advance fr rest ∨
      ∃ s f d, item (fr.src + 1 + fr.i) = .comp s f ∧ w'.frames = ⟨s, d, 0, tb.arity f⟩ :: advance fr rest)

/-- From a walk with this frame on top the walk gets to what is under it. -/
def Out (step : Walk → Option Walk) (inv : Walk → Prop) (fr : Frame) : Prop :=
  ∀ w rest, inv w → w.frames = fr :: rest →
    ∃ w', Steps step w w' ∧ inv w' ∧ (w'.frames = rest ∨ w'.frames = [])

theorem Turns.out_frame (turns : Turns tb item step inv) (fr : Frame)
    (args : ∀ k, fr.i ≤ k → k < fr.n → ∀ s f d, item (fr.src + 1 + k) = .comp s f →
      Out step inv ⟨s, d, 0, tb.arity f⟩) : Out step inv fr := by
  induction left : fr.n - fr.i generalizing fr with
  | zero =>
    intro w rest holds top
    obtain ⟨w', next, frames⟩ := turns.drop w fr rest holds top (by omega)
    exact ⟨w', .single next, turns.keeps w w' holds next, .inl frames⟩
  | succ left ih =>
    intro w rest holds top
    obtain ⟨w', next, frames⟩ := turns.visit w fr rest holds top (by omega)
    have kept := turns.keeps w w' holds next
    -- from the frames moved on, the rest of this frame
    have onward : ∀ w1, Steps step w w1 → inv w1 → w1.frames = advance fr rest →
        ∃ w', Steps step w w' ∧ inv w' ∧ (w'.frames = rest ∨ w'.frames = []) := by
      intro w1 reached holds1 at_
      by_cases last : fr.n ≤ fr.i + 1
      · rw [advance, if_pos last] at at_
        exact ⟨w1, reached, holds1, .inl at_⟩
      · rw [advance, if_neg last] at at_
        obtain ⟨w2, more, holds2, done⟩ := ih { fr with i := fr.i + 1 }
          (fun k low high => args k (by simp only at low; omega) high) (by simp only; omega) w1 rest holds1 at_
        exact ⟨w2, reached.trans more, holds2, done⟩
    rcases frames with none_ | moved | ⟨s, f, d, is, above⟩
    · exact ⟨w', .single next, kept, .inr none_⟩
    · exact onward w' (.single next) kept moved
    · obtain ⟨w1, more, holds1, done⟩ := args fr.i le_rfl (by omega) s f d is w' _ kept above
      have reached : Steps step w w1 := .head next more
      rcases done with at_ | none_
      · exact onward w1 reached holds1 at_
      · exact ⟨w1, reached, holds1, .inr none_⟩

/-- The frame of a compound with no cycle is walked out. -/
theorem Turns.out_finite (turns : Turns tb item step inv) {a : Nat} (finite : Finite tb item a) {s f : Nat}
    (is : item a = .comp s f) (d : Nat) : Out step inv ⟨s, d, 0, tb.arity f⟩ := by
  induction finite generalizing s f d with
  | intro _ ih =>
    apply turns.out_frame
    intro k _ below s' f' d' is'
    exact ih s f k is below is' d'

/-- A walk whose frames are all of finite compounds ends. -/
theorem Turns.out (turns : Turns tb item step inv) {w : Walk} (holds : inv w)
    (finite : ∀ fr ∈ w.frames, ∀ k, fr.i ≤ k → k < fr.n → Finite tb item (fr.src + 1 + k)) :
    ∃ w', Steps step w w' ∧ inv w' ∧ w'.frames = [] := by
  induction frames : w.frames generalizing w with
  | nil => exact ⟨w, .refl, holds, frames⟩
  | cons fr rest ih =>
    rw [frames] at finite
    have out : Out step inv fr := turns.out_frame fr fun k low high s f d is =>
      turns.out_finite (finite fr List.mem_cons_self k low high) is d
    obtain ⟨w1, reached, holds1, done⟩ := out w rest holds frames
    rcases done with at_ | none_
    · obtain ⟨w2, more, holds2, done⟩ := ih holds1
        (by rw [at_]; exact fun fr' mem => finite fr' (List.mem_cons_of_mem _ mem)) at_
      exact ⟨w2, reached.trans more, holds2, done⟩
    · exact ⟨w1, reached, holds1, none_⟩

end Out

end Cocolog.Copy
