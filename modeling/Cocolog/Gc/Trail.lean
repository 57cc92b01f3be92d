import Cocolog.Gc.Moves
import Mathlib.Data.List.TakeWhile

/-! The trail as its entries, and the pass over it. An entry is dropped only where no
barrier can need it: its cell is not marked, or lies past the heap mark of every barrier
that would undo it. -/

set_option linter.all false

namespace Cocolog.Gc

open Cocolog.Lib Cocolog.Term

/-- A variable bound, a cell `a` overwritten whose content is in cell `s`, or a global's
sentinel. -/
inductive Entry where
  | var (v : Nat)
  | value (s a : Nat)
  | sent (i serial : Nat)
deriving Repr, DecidableEq

namespace Entry

/-- `coco_trail_push`, `coco_trail_pair` and `coco_trail_sent`. -/
def words : Entry → List Nat
  | var v => [v]
  | value s a => [s + pairBit, a + pairBit]
  | sent i serial => [(i + 1) * 2 ^ 40 + pairBit, serial * 2 ^ 40 + pairBit]

/-- The cell an entry's undoing writes. -/
def target : Entry → Option Nat
  | var v => some v
  | value _ a => some a
  | sent _ _ => none

/-- The entry's numbers fit its words. -/
def Fits : Entry → Prop
  | var v => v < 2 ^ 63
  | value s a => s < 2 ^ 40 ∧ a < 2 ^ 40
  | sent i serial => i + 1 < 2 ^ 23 ∧ 0 < serial ∧ serial < 2 ^ 23

def undo (h : Mem) : Entry → Mem
  | var v => Function.update h v (.ref v)
  | value s a => Function.update h a (h s)
  | sent _ _ => h

end Entry

/-- The words of some entries. -/
def wordsOf (es : List Entry) : List Nat := es.flatMap Entry.words

@[simp] theorem wordsOf_cons (e : Entry) (es : List Entry) : wordsOf (e :: es) = e.words ++ wordsOf es :=
  rfl

theorem wordsOf_append (es es' : List Entry) : wordsOf (es ++ es') = wordsOf es ++ wordsOf es' :=
  List.flatMap_append

theorem isPair_small {v : Nat} (small : v < 2 ^ 63) : isPair v = false :=
  Nat.testBit_eq_false_of_lt small

theorem isPair_pair {x : Nat} (small : x < 2 ^ 63) : isPair (x + pairBit) = true := by
  rw [isPair, pairBit, Nat.add_comm, Nat.testBit_two_pow_add_eq, Nat.testBit_eq_false_of_lt small]
  rfl

theorem undo_var {left v : Nat} (ws : List Nat) (h : Mem) (small : v < 2 ^ 63) :
    undo (left + 1) (v :: ws) h = undo left ws (Function.update h v (.ref v)) := by
  have single := isPair_small small
  cases ws with
  | nil =>
    rw [undo, single, if_neg Bool.false_ne_true]
    cases left <;> rfl
  | cons s ws => rw [undo, single, if_neg Bool.false_ne_true]

theorem undo_pair (left : Nat) {v : Nat} (s : Nat) (ws : List Nat) (h : Mem) (pair : isPair v = true) :
    undo (left + 2) (v :: s :: ws) h =
      undo left ws (Function.update h (trailCell v) (h (trailCell s))) := by
  rw [undo, pair, if_pos rfl]
  rfl

/-- One entry undone. -/
theorem undo_entry {e : Entry} (fits : e.Fits) (left : Nat) (ws : List Nat) (h : Mem) :
    undo (left + e.words.length) (e.words.reverse ++ ws) h = undo left ws (e.undo h) := by
  cases e with
  | var v => exact undo_var ws h fits
  | value s a =>
    obtain ⟨hs, ha⟩ := fits
    have first : trailCell (a + pairBit) = a := by unfold trailCell pairBit; omega
    have second : trailCell (s + pairBit) = s := by unfold trailCell pairBit; omega
    have pair := undo_pair left (s + pairBit) ws h
      (isPair_pair (show a < 2 ^ 63 by omega))
    rw [first, second] at pair
    exact pair
  | sent i serial =>
    obtain ⟨hi, -, hs⟩ := fits
    have first : trailCell (serial * 2 ^ 40 + pairBit) = 0 := by unfold trailCell pairBit; omega
    have second : trailCell ((i + 1) * 2 ^ 40 + pairBit) = 0 := by unfold trailCell pairBit; omega
    have pair := undo_pair left ((i + 1) * 2 ^ 40 + pairBit) ws h
      (isPair_pair (show serial * 2 ^ 40 < 2 ^ 63 by omega))
    rw [first, second, Function.update_eq_self] at pair
    exact pair

/-- Undoing the words of the newest entries undoes these, newest first. -/
theorem undo_entries {newer : List Entry} (fits : ∀ e ∈ newer, e.Fits) (older : List Entry) (h : Mem) :
    undo (wordsOf newer).length (wordsOf (older ++ newer)).reverse h = newer.foldr (fun e h => e.undo h) h := by
  have general : ∀ (rs : List Entry) (ws : List Nat) (h : Mem), (∀ e ∈ rs, e.Fits) →
      undo (rs.flatMap fun e => e.words.reverse).length ((rs.flatMap fun e => e.words.reverse) ++ ws) h =
        rs.foldl (fun h e => e.undo h) h := by
    intro rs
    induction rs with
    | nil =>
      intro ws h _
      cases ws with
      | nil => rfl
      | cons w ws => cases ws <;> rfl
    | cons e rs ih =>
      intro ws h fits
      rw [List.flatMap_cons, List.length_append, Nat.add_comm, List.length_reverse, List.append_assoc,
        undo_entry (fits e List.mem_cons_self), List.foldl_cons]
      exact ih ws _ fun e mem => fits e (List.mem_cons_of_mem _ mem)
  have reversed : ∀ es : List Entry, (wordsOf es).reverse = es.reverse.flatMap fun e => e.words.reverse := by
    intro es
    rw [wordsOf, List.reverse_flatMap]
    rfl
  have count : (wordsOf newer).length = (newer.reverse.flatMap fun e => e.words.reverse).length := by
    rw [← reversed, List.length_reverse]
  rw [wordsOf_append, List.reverse_append, count, reversed newer,
    general newer.reverse _ h fun e mem => fits e (List.mem_reverse.mp mem), List.foldl_reverse]

/- What the pass keeps. -/

namespace Entry

/-- No state cut to `hm` cells can miss the entry. -/
def Lost (bits : Bits) (hm : Nat) (e : Entry) : Prop :=
  ∀ a, e.target = some a → bits.marked a = false ∨ hm ≤ a

/-- The entry with its cells moved. -/
def moved (bits : Bits) : Entry → Entry
  | var v => var (bits.below v)
  | value s a => value (bits.below s) (bits.below a)
  | e => e

/-- Its cells are marked. -/
def Kept (bits : Bits) : Entry → Prop
  | var v => bits.marked v = true
  | value s a => bits.marked s = true ∧ bits.marked a = true
  | sent _ _ => True

end Entry

/-- Some entries dropped that no state of `hm` cells needs, the others moved. -/
inductive Thinned (bits : Bits) (hm : Nat) : List Entry → List Entry → Prop where
  | nil : Thinned bits hm [] []
  | drop {e : Entry} {es es' : List Entry} (lost : e.Lost bits hm) (rest : Thinned bits hm es es') :
      Thinned bits hm (e :: es) es'
  | keep {e : Entry} {es es' : List Entry} (kept : e.Kept bits) (rest : Thinned bits hm es es') :
      Thinned bits hm (e :: es) (e.moved bits :: es')

theorem Thinned.mono {bits : Bits} {hm hm' : Nat} {es es' : List Entry} (thin : Thinned bits hm es es')
    (le : hm' ≤ hm) : Thinned bits hm' es es' := by
  induction thin with
  | nil => exact .nil
  | drop lost _ ih =>
    refine .drop ?_ ih
    intro a at_
    exact (lost a at_).imp_right (Nat.le_trans le)
  | keep kept _ ih => exact .keep kept ih

theorem Thinned.fits {bits : Bits} {hm : Nat} {es es' : List Entry} (thin : Thinned bits hm es es')
    (fits : ∀ e ∈ es, e.Fits) : ∀ e ∈ es', e.Fits := by
  induction thin with
  | nil => exact fits
  | drop _ _ ih => exact ih fun e mem => fits e (List.mem_cons_of_mem _ mem)
  | @keep e es es' kept _ ih =>
    have rest := ih fun e mem => fits e (List.mem_cons_of_mem _ mem)
    have here := fits e List.mem_cons_self
    intro x mem
    rcases List.mem_cons.mp mem with rfl | mem
    · cases e with
      | var v => exact Nat.lt_of_le_of_lt (bits.below_le v) here
      | value s a =>
        exact ⟨Nat.lt_of_le_of_lt (bits.below_le s) here.1, Nat.lt_of_le_of_lt (bits.below_le a) here.2⟩
      | sent i serial => exact here
    · exact rest x mem

theorem or_pairBit {x : Nat} (small : x < 2 ^ 63) : x ||| pairBit = x + pairBit := by
  have sum := Nat.two_pow_add_eq_or_of_lt small 1
  rw [Nat.mul_one] at sum
  rw [Nat.or_comm, pairBit, ← sum, Nat.add_comm]

namespace Machine

/-- What the pass does with one entry, by the newest barrier before it. -/
theorem keepVar_spec {n : Nat} {bits : Bits} (inside : ∀ i, bits.marked i = true → i < n)
    (last : Option Nat) (v : Nat) :
    (keepVar n bits last v = [] ∧ ∀ hm ∈ last, (Entry.var v).Lost bits hm) ∨
      (keepVar n bits last v = ((Entry.var v).moved bits).words ∧ (Entry.var v).Kept bits) := by
  unfold keepVar
  split
  · rename_i keep
    exact .inr ⟨by rw [Bits.rank_eq]; rfl, keep.2.2⟩
  · rename_i lose
    refine .inl ⟨rfl, ?_⟩
    rintro hm at_ a target
    cases target
    cases marked : bits.marked v with
    | false => exact .inl rfl
    | true =>
      refine .inr (Nat.le_of_not_lt fun below => lose ⟨?_, inside v marked, marked⟩)
      rw [Option.mem_def.mp at_]
      exact decide_eq_true below

theorem keepPair_value {n : Nat} {bits : Bits} (inside : ∀ i, bits.marked i = true → i < n)
    (p kept : Nat) (last : Option Nat) (gc : List GCache) {s a : Nat} (fits : (Entry.value s a).Fits)
    (saved : bits.marked s = true) :
    let k := keepPair n bits p kept last gc (s + pairBit) (a + pairBit)
    (k.1 = [] ∧ ∀ hm ∈ last, (Entry.value s a).Lost bits hm) ∨
      (k.1 = ((Entry.value s a).moved bits).words ∧ (Entry.value s a).Kept bits) := by
  obtain ⟨hs, ha⟩ := fits
  have tag : trailTag (a + pairBit) = 0 := by unfold trailTag pairBit; omega
  have first : trailCell (s + pairBit) = s := by unfold trailCell pairBit; omega
  have second : trailCell (a + pairBit) = a := by unfold trailCell pairBit; omega
  have low : ∀ {i}, i < 2 ^ 40 → bits.below i < 2 ^ 63 := by
    intro i hi
    have le := bits.below_le i
    omega
  dsimp only [keepPair]
  rw [tag, if_neg (by decide), first, second]
  split
  · rename_i keep
    refine .inr ⟨?_, keep.2.2.2.2, keep.2.2.1⟩
    dsimp only
    rw [Bits.rank_eq, Bits.rank_eq, or_pairBit (low hs), or_pairBit (low ha)]
    rfl
  · rename_i lose
    refine .inl ⟨rfl, ?_⟩
    rintro hm at_ b target
    cases target
    cases marked : bits.marked a with
    | false => exact .inl rfl
    | true =>
      refine .inr (Nat.le_of_not_lt fun below => lose ⟨?_, inside a marked, marked, inside s saved, saved⟩)
      rw [Option.mem_def.mp at_]
      exact decide_eq_true below

theorem keepPair_sent (n : Nat) (bits : Bits) (p kept : Nat) (last : Option Nat) (gc : List GCache)
    {i serial : Nat} (fits : (Entry.sent i serial).Fits) :
    let k := keepPair n bits p kept last gc ((i + 1) * 2 ^ 40 + pairBit) (serial * 2 ^ 40 + pairBit)
    k.1 = [] ∨ k.1 = (Entry.sent i serial).words := by
  obtain ⟨-, positive, hs⟩ := fits
  have tag : trailTag (serial * 2 ^ 40 + pairBit) = serial := by unfold trailTag pairBit; omega
  dsimp only [keepPair]
  rw [tag, if_pos (by omega)]
  split
  · split
    · split
      · exact .inr rfl
      · exact .inl rfl
    · exact .inl rfl
  · exact .inl rfl

/- The pass, entry by entry. -/

section

variable {n : Nat} {bits : Bits}

/-- The barriers an entry at word `p` comes after, the newest of them, and the others. -/
def passed (p : Nat) (bars : List (Nat × Nat)) : List (Nat × Nat) :=
  bars.takeWhile fun b => decide (b.1 ≤ p)

def lastOf (p : Nat) (bars : List (Nat × Nat)) (last : Option Nat) : Option Nat :=
  ((passed p bars).getLast?.map Prod.snd).or last

def ahead (p : Nat) (bars : List (Nat × Nat)) : List (Nat × Nat) :=
  bars.dropWhile fun b => decide (b.1 ≤ p)

theorem passed_ahead (p : Nat) (bars : List (Nat × Nat)) : passed p bars ++ ahead p bars = bars :=
  List.takeWhile_append_dropWhile

theorem trailPass_var {v : Nat} (small : v < 2 ^ 63) (p kept : Nat) (last : Option Nat)
    (bars : List (Nat × Nat)) (gc : List GCache) (ws : List Nat) :
    trailPass n bits p kept last bars gc (v :: ws) =
      let k := keepVar n bits (lastOf p bars last) v
      let r := trailPass n bits (p + 1) (kept + k.length) (lastOf p bars last) (ahead p bars) gc ws
      ((passed p bars).map (fun _ => kept) ++ r.1, k ++ r.2.1, r.2.2) := by
  have single := isPair_small small
  cases ws with
  | nil =>
    rw [trailPass, single]
    dsimp only
    rw [if_neg Bool.false_ne_true, trailPass, List.append_nil]
    rfl
  | cons w ws =>
    rw [trailPass, single]
    dsimp only
    rw [if_neg Bool.false_ne_true]
    rfl

theorem trailPass_pair {v : Nat} (pair : isPair v = true) (w p kept : Nat) (last : Option Nat)
    (bars : List (Nat × Nat)) (gc : List GCache) (ws : List Nat) :
    trailPass n bits p kept last bars gc (v :: w :: ws) =
      let k := keepPair n bits p kept (lastOf p bars last) gc v w
      let r := trailPass n bits (p + 2) (kept + k.1.length) (lastOf p bars last) (ahead p bars) k.2 ws
      ((passed p bars).map (fun _ => kept) ++ r.1, k.1 ++ r.2.1, r.2.2) := by
  rw [trailPass, pair]
  dsimp only
  rw [if_pos rfl]
  rfl

/-- One entry of the pass, whatever it is: it is dropped or kept, and the rest follows. -/
theorem trailPass_entry (inside : ∀ i, bits.marked i = true → i < n) {e : Entry} (fits : e.Fits)
    (saved : ∀ s a, e = .value s a → bits.marked s = true) (p kept : Nat) (last : Option Nat)
    (bars : List (Nat × Nat)) (gc : List GCache) (ws : List Nat) :
    ∃ es gc', ((es = [] ∧ ∀ hm ∈ lastOf p bars last, e.Lost bits hm) ∨ (es = [e.moved bits] ∧ e.Kept bits)) ∧
      trailPass n bits p kept last bars gc (e.words ++ ws) =
        let r := trailPass n bits (p + e.words.length) (kept + (wordsOf es).length) (lastOf p bars last)
          (ahead p bars) gc' ws
        ((passed p bars).map (fun _ => kept) ++ r.1, wordsOf es ++ r.2.1, r.2.2) := by
  cases e with
  | var v =>
    have pass : trailPass n bits p kept last bars gc (v :: ws) = _ :=
      trailPass_var fits p kept last bars gc ws
    rcases keepVar_spec inside (lastOf p bars last) v with ⟨none_, lost⟩ | ⟨words, kept_⟩
    · refine ⟨[], gc, .inl ⟨rfl, lost⟩, ?_⟩
      dsimp only at pass
      rw [none_] at pass
      exact pass
    · refine ⟨[(Entry.var v).moved bits], gc, .inr ⟨rfl, kept_⟩, ?_⟩
      dsimp only at pass
      rw [words] at pass
      exact pass
  | value s a =>
    have small : s < 2 ^ 63 := by
      have fits := fits.1
      omega
    have pass : trailPass n bits p kept last bars gc ((s + pairBit) :: (a + pairBit) :: ws) = _ :=
      trailPass_pair (isPair_pair small) (a + pairBit) p kept last bars gc ws
    have spec := keepPair_value inside p kept (lastOf p bars last) gc fits (saved s a rfl)
    generalize keepPair n bits p kept (lastOf p bars last) gc (s + pairBit) (a + pairBit) = k at pass spec
    rcases spec with ⟨none_, lost⟩ | ⟨words, kept_⟩
    · refine ⟨[], k.2, .inl ⟨rfl, lost⟩, ?_⟩
      dsimp only at pass
      rw [none_] at pass
      exact pass
    · refine ⟨[(Entry.value s a).moved bits], k.2, .inr ⟨rfl, kept_⟩, ?_⟩
      dsimp only at pass
      rw [words] at pass
      exact pass
  | sent i serial =>
    have small : (i + 1) * 2 ^ 40 < 2 ^ 63 := by
      have fits := fits.1
      omega
    have pass : trailPass n bits p kept last bars gc
        (((i + 1) * 2 ^ 40 + pairBit) :: (serial * 2 ^ 40 + pairBit) :: ws) = _ :=
      trailPass_pair (isPair_pair small) (serial * 2 ^ 40 + pairBit) p kept last bars gc ws
    have spec := keepPair_sent n bits p kept (lastOf p bars last) gc fits
    generalize keepPair n bits p kept (lastOf p bars last) gc ((i + 1) * 2 ^ 40 + pairBit)
      (serial * 2 ^ 40 + pairBit) = k at pass spec
    rcases spec with none_ | words
    · refine ⟨[], k.2, .inl ⟨rfl, fun hm _ a target => by cases target⟩, ?_⟩
      dsimp only at pass
      rw [none_] at pass
      exact pass
    · refine ⟨[(Entry.sent i serial).moved bits], k.2, .inr ⟨rfl, trivial⟩, ?_⟩
      dsimp only at pass
      rw [words] at pass
      exact pass

/-- Marks that never fall, oldest first. -/
def Ordered (bars : List (Nat × Nat)) : Prop := bars.Pairwise fun b c => b.1 ≤ c.1 ∧ b.2 ≤ c.2

/-- A trail mark falls between two entries. -/
def Between (p : Nat) (es : List Entry) (tmark : Nat) : Prop :=
  ∃ older newer, es = older ++ newer ∧ tmark = p + (wordsOf older).length

theorem le_lastOf {p : Nat} {bars : List (Nat × Nat)} {last : Option Nat} (ordered : Ordered bars)
    (first : ∀ hm ∈ last, ∀ b ∈ bars, hm ≤ b.2) :
    (∀ hm ∈ last, ∀ hm' ∈ lastOf p bars last, hm ≤ hm') ∧
      (∀ b ∈ passed p bars, ∃ hm ∈ lastOf p bars last, b.2 ≤ hm) ∧
      ∀ hm ∈ lastOf p bars last, ∀ b ∈ ahead p bars, hm ≤ b.2 := by
  have parts := passed_ahead p bars
  have sub : ∀ b ∈ passed p bars, b ∈ bars := fun b mem => parts ▸ List.mem_append_left _ mem
  rw [Ordered, ← parts, List.pairwise_append] at ordered
  unfold lastOf
  rcases List.eq_nil_or_concat (passed p bars) with none_ | ⟨front, newest, some_⟩
  · rw [none_]
    refine ⟨?_, (fun b mem => by cases mem), ?_⟩
    · intro hm at_ hm' at'
      rw [Option.mem_unique at_ at']
    · intro hm at_ b mem
      exact first hm at_ b (parts ▸ List.mem_append_right _ mem)
  · rw [List.concat_eq_append] at some_
    have there : ((passed p bars).getLast?.map Prod.snd).or last = some newest.2 := by
      rw [some_, List.getLast?_concat]
      rfl
    have mem : newest ∈ passed p bars := by
      rw [some_]
      exact List.mem_append_right _ (List.mem_singleton_self _)
    rw [there]
    refine ⟨?_, ?_, ?_⟩
    · intro hm at_ hm' at'
      rw [← Option.some.inj at']
      exact first hm at_ newest (sub newest mem)
    · intro b here
      refine ⟨newest.2, rfl, ?_⟩
      rw [some_, List.mem_append, List.mem_singleton] at here
      rcases here with older | rfl
      · have pairs := ordered.1
        rw [some_, List.pairwise_append] at pairs
        exact (pairs.2.2 b older newest (List.mem_singleton_self _)).2
      · exact Nat.le_refl _
    · intro hm at_ b here
      rw [← Option.some.inj at_]
      exact (ordered.2.2 newest mem b here).2

theorem ahead_gt {p : Nat} {bars : List (Nat × Nat)} (ordered : Ordered bars) :
    ∀ b ∈ ahead p bars, p < b.1 := by
  intro b mem
  cases rest : ahead p bars with
  | nil =>
    rw [rest] at mem
    cases mem
  | cons c cs =>
    have top := List.head?_dropWhile_not (fun b : Nat × Nat => decide (b.1 ≤ p)) bars
    have here : (bars.dropWhile fun b => decide (b.1 ≤ p)) = c :: cs := rest
    rw [here] at top
    have high : p < c.1 := by
      have no : decide (c.1 ≤ p) = false := by simpa using top
      rw [decide_eq_false_iff_not] at no
      omega
    have sorted : Ordered (c :: cs) := by
      rw [← rest]
      exact ordered.sublist (List.dropWhile_sublist _)
    rw [rest] at mem
    rcases List.mem_cons.mp mem with rfl | later
    · exact high
    · exact Nat.lt_of_lt_of_le high ((List.pairwise_cons.mp sorted).1 b later).1

theorem Between.tail {p tmark : Nat} {e : Entry} {es : List Entry} (between : Between p (e :: es) tmark)
    (past : p < tmark) : Between (p + e.words.length) es tmark := by
  obtain ⟨older, newer, parts, at_⟩ := between
  cases older with
  | nil =>
    have here : tmark = p := at_
    omega
  | cons e' older =>
    rw [List.cons_append, List.cons.injEq] at parts
    obtain ⟨rfl, parts⟩ := parts
    refine ⟨older, newer, parts, ?_⟩
    rw [at_, wordsOf_cons, List.length_append, Nat.add_assoc]

theorem Between.here {p tmark : Nat} {es : List Entry} (between : Between p es tmark) : p ≤ tmark := by
  obtain ⟨older, newer, -, at_⟩ := between
  omega

/-- The pass keeps a thinned trail, and gives every barrier the number of words kept before
its entries. -/
theorem trailPass_spec (inside : ∀ i, bits.marked i = true → i < n) {es : List Entry}
    (fits : ∀ e ∈ es, e.Fits) (saved : ∀ s a, Entry.value s a ∈ es → bits.marked s = true)
    (p kept : Nat) (last : Option Nat) {bars : List (Nat × Nat)} (gc : List GCache)
    (ordered : Ordered bars) (first : ∀ hm ∈ last, ∀ b ∈ bars, hm ≤ b.2)
    (between : ∀ b ∈ bars, Between p es b.1) :
    ∃ es', (trailPass n bits p kept last bars gc (wordsOf es)).2.1 = wordsOf es' ∧
      (∀ hm ∈ last, Thinned bits hm es es') ∧
      (trailPass n bits p kept last bars gc (wordsOf es)).1.length = bars.length ∧
      ∀ (k : Nat) (b : Nat × Nat) (tmark : Nat), bars[k]? = some b →
        (trailPass n bits p kept last bars gc (wordsOf es)).1[k]? = some tmark →
        ∃ older newer older' newer', es = older ++ newer ∧ b.1 = p + (wordsOf older).length ∧
          es' = older' ++ newer' ∧ tmark = kept + (wordsOf older').length ∧
          Thinned bits b.2 newer newer' := by
  induction es generalizing p kept last bars gc with
  | nil =>
    refine ⟨[], rfl, fun _ _ => .nil, ?_, ?_⟩
    · show (bars.map fun _ => kept).length = _
      rw [List.length_map]
    · intro k b tmark kth mark
      obtain ⟨older, newer, parts, at_⟩ := between b (List.mem_of_getElem? kth)
      have here : (bars.map fun _ => kept)[k]? = some tmark := mark
      rw [List.getElem?_map, kth, Option.map_some] at here
      obtain ⟨rfl, rfl⟩ := List.append_eq_nil_iff.mp parts.symm
      exact ⟨[], [], [], [], rfl, at_, rfl, (Option.some.inj here).symm, .nil⟩
  | cons e es ih =>
    obtain ⟨added, gc', outcome, pass⟩ := trailPass_entry inside (fits e List.mem_cons_self)
      (fun s a at_ => saved s a (at_ ▸ List.mem_cons_self)) p kept last bars gc (wordsOf es)
    obtain ⟨up, reach, front⟩ := le_lastOf (p := p) ordered first
    have sorted : Ordered (ahead p bars) := ordered.sublist (List.dropWhile_sublist _)
    have later : ∀ b ∈ ahead p bars, Between (p + e.words.length) es b.1 := by
      intro b mem
      refine Between.tail (between b ?_) (ahead_gt ordered b mem)
      rw [← passed_ahead p bars]
      exact List.mem_append_right _ mem
    obtain ⟨es', words, thin, length, marks⟩ := ih (fun e mem => fits e (List.mem_cons_of_mem _ mem))
      (fun s a mem => saved s a (List.mem_cons_of_mem _ mem)) (p + e.words.length)
      (kept + (wordsOf added).length) (lastOf p bars last) gc' sorted front later
    rw [wordsOf_cons, pass]
    dsimp only
    generalize trailPass n bits (p + e.words.length) (kept + (wordsOf added).length)
      (lastOf p bars last) (ahead p bars) gc' (wordsOf es) = r at words length marks
    -- what the whole list becomes, for a barrier this entry comes after
    have whole : ∀ hm ∈ lastOf p bars last, Thinned bits hm (e :: es) (added ++ es') := by
      intro hm at_
      rcases outcome with ⟨rfl, lost⟩ | ⟨rfl, kept_⟩
      · exact .drop (lost hm at_) (thin hm at_)
      · exact .keep kept_ (thin hm at_)
    have count : ((passed p bars).map fun _ => kept).length + (ahead p bars).length = bars.length := by
      rw [List.length_map, ← List.length_append, passed_ahead]
    refine ⟨added ++ es', by rw [wordsOf_append, words], ?_, ?_, ?_⟩
    · intro hm at_
      cases newest : lastOf p bars last with
      | none =>
        exfalso
        unfold lastOf at newest
        rw [Option.mem_def.mp at_, Option.or_eq_none_iff] at newest
        cases newest.2
      | some hm' => exact (whole hm' newest).mono (up hm at_ hm' newest)
    · rw [List.length_append, length, count]
    · intro k b tmark kth mark
      by_cases behind : k < (passed p bars).length
      · rw [List.getElem?_append_left (by rwa [List.length_map]), List.getElem?_map] at mark
        have mem : (passed p bars)[k]? = some b := by
          rw [← kth]
          conv_rhs => rw [← passed_ahead p bars]
          exact (List.getElem?_append_left behind).symm
        rw [mem, Option.map_some] at mark
        obtain ⟨hm, newest, le⟩ := reach b (List.mem_of_getElem? mem)
        have at_ : b.1 = p := by
          have low := (between b (List.mem_of_getElem? kth)).here
          have high := List.mem_takeWhile_imp (List.mem_of_getElem? mem)
          rw [decide_eq_true_iff] at high
          omega
        exact ⟨[], e :: es, [], added ++ es', rfl, at_, rfl, (Option.some.inj mark).symm,
          (whole hm newest).mono le⟩
      · have shift : k - (passed p bars).length + (passed p bars).length = k := by omega
        rw [List.getElem?_append_right (by rw [List.length_map]; omega), List.length_map] at mark
        have mem : (ahead p bars)[k - (passed p bars).length]? = some b := by
          rw [← kth]
          conv_rhs => rw [← passed_ahead p bars]
          exact (List.getElem?_append_right (by omega)).symm
        obtain ⟨older, newer, older', newer', parts, at_, parts', mark', thin'⟩ :=
          marks _ b tmark mem mark
        refine ⟨e :: older, newer, added ++ older', newer', by rw [parts]; rfl, ?_, ?_, ?_, thin'⟩
        · rw [at_, wordsOf_cons, List.length_append, Nat.add_assoc]
        · rw [parts', List.append_assoc]
        · rw [mark', wordsOf_append, List.length_append, Nat.add_assoc]

end

end Machine

end Cocolog.Gc
