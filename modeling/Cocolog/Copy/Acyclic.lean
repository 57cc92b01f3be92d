import Cocolog.Copy.Put
import Mathlib.Data.Finset.Filter

/-! Whether a heap term comes back to a compound it is inside. A quick walk of a few
compounds is tried first; past it each compound met has a state, on the path or done, and
one met on the path is a cycle. An answer of yes is right: the term has no cycle. -/

set_option linter.all false

namespace Cocolog.Copy

open Cocolog.Lib Cocolog.Term Cocolog.Store

/-- The quick walk's stack, top first, the compounds it may still meet, and whether it was
given up. -/
structure Quick where
  stk : List Nat
  budget : Nat
  ended : Bool

/-- The cells of the arguments, first to last. -/
def argsOf (a n : Nat) : List Nat := (List.range n).map fun i => a + (i + 1)

/-- A turn of `coco_acyclic_quick`. -/
def quickStep (tb : Tables) (h : Heap) (q : Quick) : Option Quick :=
  match q.stk with
  | [] => none
  | t :: rest =>
    match h.cells (h.deref t) with
    | .func f =>
      if q.budget = 0 ∨ 64 < rest.length + tb.arity f then some ⟨[], q.budget, false⟩
      else some ⟨(argsOf (h.deref t) (tb.arity f)).reverse ++ rest, q.budget - 1, q.ended⟩
    | _ => some { q with stk := rest }

/-- `coco_acyclic_quick`. -/
def acyclicQuick (tb : Tables) (h : Heap) (fuel t : Nat) : Option Bool :=
  (loop (quickStep tb h) fuel ⟨[t], 64, true⟩).map (·.ended)

/-- The states of the compounds met, the frames, and no cycle so far. -/
structure Visit where
  vm : List (Nat × Nat)
  frames : List Frame
  ok : Bool

/-- A turn of the walk in `coco_acyclic`: 1 is on the path, 2 is done. A compound keeps its
frame until its last argument is done. -/
def acyclicStep (tb : Tables) (h : Heap) (v : Visit) : Option Visit :=
  if v.ok = false then none
  else
    match v.frames with
    | [] => none
    | fr :: rest =>
      if fr.n ≤ fr.i then some { v with vm := (fr.src, 2) :: v.vm, frames := rest }
      else
        let a := h.deref (fr.src + (fr.i + 1))
        let v := { v with frames := { fr with i := fr.i + 1 } :: rest }
        match h.cells a with
        | .func f =>
          match v.vm.lookup a with
          | some st => if st = 1 then some { v with ok := false } else some v
          | none => some { v with vm := (a, 1) :: v.vm, frames := ⟨a, 0, 0, tb.arity f⟩ :: v.frames }
        | _ => some v

/-- The walk with states, from the compound at `d`. -/
def acyclicWalk (tb : Tables) (h : Heap) (fuel d f : Nat) : Option Bool :=
  (loop (acyclicStep tb h) fuel ⟨[(d, 1)], [⟨d, 0, 0, tb.arity f⟩], true⟩).map (·.ok)

/-- `coco_acyclic`. -/
def acyclic (tb : Tables) (h : Heap) (fuel t : Nat) : Option Bool :=
  match h.cells (h.deref t) with
  | .func f =>
    (acyclicQuick tb h fuel (h.deref t)).bind fun quick =>
      if quick then some true else acyclicWalk tb h fuel (h.deref t) f
  | _ => some true

variable {tb : Tables} {h : Heap} {t : Nat} {live : Nat → Prop}

/- Yes is right. -/

theorem finite_of_not_func {a : Nat} (other : ∀ f, h.cells (h.deref a) ≠ .func f) :
    Finite tb (itemAt h.cells h.len) a := by
  constructor
  intro s f k is
  rw [itemAt_eq] at is
  split at is
  · cases is
  · rename_i f' cell
    exact absurd cell (other f')
  · cases is

theorem itemAt_of_func {a f : Nat} (cell : h.cells (h.deref a) = .func f) :
    itemAt h.cells h.len a = .comp (h.deref a) f := by
  rw [itemAt_eq]
  simp only [cell]

theorem finite_of_args {a f : Nat} (cell : h.cells (h.deref a) = .func f)
    (args : ∀ k < tb.arity f, Finite tb (itemAt h.cells h.len) (h.deref a + 1 + k)) :
    Finite tb (itemAt h.cells h.len) a := by
  constructor
  intro s f' k is below
  rw [itemAt_of_func cell] at is
  obtain ⟨rfl, rfl⟩ := Item.comp.inj is
  exact args k below

theorem mem_argsOf {a n x : Nat} : x ∈ argsOf a n ↔ ∃ k < n, x = a + 1 + k := by
  simp only [argsOf, List.mem_map, List.mem_range]
  constructor
  · rintro ⟨k, below, rfl⟩
    exact ⟨k, below, by omega⟩
  · rintro ⟨k, below, rfl⟩
    exact ⟨k, below, by omega⟩

/-- If what is on the stack has no cycle, neither has the term. -/
def QuickInv (tb : Tables) (h : Heap) (t : Nat) (q : Quick) : Prop :=
  q.ended = true → (∀ a ∈ q.stk, Finite tb (itemAt h.cells h.len) a) → Finite tb (itemAt h.cells h.len) t

theorem QuickInv.step {q q' : Quick} (before : QuickInv tb h t q) (next : quickStep tb h q = some q') :
    QuickInv tb h t q' ∧ Lower (q'.budget, q'.stk.length) (q.budget, q.stk.length) := by
  cases stk : q.stk with
  | nil =>
    simp only [quickStep, stk] at next
    cases next
  | cons a rest =>
    have less : rest.length < (a :: rest).length := Nat.lt_succ_self _
    unfold QuickInv at before
    rw [stk] at before
    simp only [quickStep, stk] at next
    cases cell : h.cells (h.deref a) with
    | func f =>
      simp only [cell] at next
      split at next
      · obtain rfl := Option.some.inj next
        exact ⟨fun no => (nomatch no), lower_of (.inr ⟨le_rfl, Nat.succ_pos _⟩)⟩
      · rename_i room
        obtain rfl := Option.some.inj next
        constructor
        · intro ended finite
          refine before ended ?_
          intro b mem
          rcases List.mem_cons.mp mem with rfl | mem
          · refine finite_of_args cell ?_
            intro k below
            refine finite _ (List.mem_append_left _ ?_)
            rw [List.mem_reverse]
            exact mem_argsOf.mpr ⟨k, below, rfl⟩
          · exact finite b (List.mem_append_right _ mem)
        · exact lower_of (.inl (by simp only; omega))
    | _ =>
      simp only [cell] at next
      obtain rfl := Option.some.inj next
      constructor
      · intro ended finite
        refine before ended ?_
        intro b mem
        rcases List.mem_cons.mp mem with rfl | mem
        · exact finite_of_not_func (by rw [cell]; simp)
        · exact finite b mem
      · exact lower_of (.inr ⟨le_rfl, less⟩)

theorem acyclicQuick_spec (tb : Tables) (h : Heap) (t : Nat) :
    ∃ b, Settles (fun fuel => acyclicQuick tb h fuel t) b ∧
      (b = true → Finite tb (itemAt h.cells h.len) t) := by
  have keeps : ∀ q q', QuickInv tb h t q → quickStep tb h q = some q' →
      QuickInv tb h t q' ∧ Lower (q'.budget, q'.stk.length) (q.budget, q.stk.length) :=
    fun q q' before next => before.step next
  have start : QuickInv tb h t ⟨[t], 64, true⟩ := fun _ finite => finite t List.mem_cons_self
  obtain ⟨e, settles, inv, stopped⟩ := loop_settles lower_wf (fun q : Quick => (q.budget, q.stk.length)) keeps start
  have none_ : e.stk = [] := by
    cases stk : e.stk with
    | nil => rfl
    | cons a rest =>
      simp only [quickStep, stk] at stopped
      split at stopped
      · split at stopped <;> cases stopped
      · cases stopped
  refine ⟨e.ended, settles.map _, ?_⟩
  intro ended
  refine inv ended ?_
  rw [none_]
  exact fun _ mem => (nomatch mem)

/- Maps of what was met. -/

/-- The cells below `len` a map says nothing of. -/
def unmet (len : Nat) (vm : List (Nat × Nat)) : Nat := ((Finset.range len).filter fun a => vm.lookup a = none).card

theorem lookup_cons_self (a x : Nat) (vm : List (Nat × Nat)) : ((a, x) :: vm).lookup a = some x := by
  simp

theorem lookup_cons_of_ne {a b : Nat} (off : b ≠ a) (x : Nat) (vm : List (Nat × Nat)) :
    ((a, x) :: vm).lookup b = vm.lookup b := by
  have other : (b == a) = false := by simp [off]
  simp [List.lookup_cons, other]

theorem unmet_le (len a x : Nat) (vm : List (Nat × Nat)) : unmet len ((a, x) :: vm) ≤ unmet len vm := by
  apply Finset.card_le_card
  intro b mem
  rw [Finset.mem_filter] at mem ⊢
  obtain ⟨inside, none_⟩ := mem
  refine ⟨inside, ?_⟩
  have off : b ≠ a := by
    rintro rfl
    rw [lookup_cons_self] at none_
    cases none_
  rwa [lookup_cons_of_ne off] at none_

theorem unmet_lt {len a : Nat} (x : Nat) {vm : List (Nat × Nat)} (inside : a < len) (new : vm.lookup a = none) :
    unmet len ((a, x) :: vm) < unmet len vm := by
  apply Finset.card_lt_card
  rw [Finset.ssubset_iff_of_subset]
  · refine ⟨a, ?_, ?_⟩
    · rw [Finset.mem_filter, Finset.mem_range]
      exact ⟨inside, new⟩
    · rw [Finset.mem_filter, lookup_cons_self]
      exact fun both => (nomatch both.2)
  · intro b mem
    rw [Finset.mem_filter] at mem ⊢
    obtain ⟨below, none_⟩ := mem
    refine ⟨below, ?_⟩
    have off : b ≠ a := by
      rintro rfl
      rw [lookup_cons_self] at none_
      cases none_
    rwa [lookup_cons_of_ne off] at none_

/- The walk with states. -/

/-- What the frames have shown: the arguments a frame is past have no cycle, if the
compound of the frame above has none. -/
def Shown (tb : Tables) (h : Heap) (t : Nat) : List Frame → Prop
  | [] => Finite tb (itemAt h.cells h.len) t
  | fr :: rest =>
    (∀ k < fr.i, k < fr.n → Finite tb (itemAt h.cells h.len) (fr.src + 1 + k)) ∧
      ((∀ k < fr.n, Finite tb (itemAt h.cells h.len) (fr.src + 1 + k)) → Shown tb h t rest)

/-- A frame of a compound, its arguments among the live cells. -/
def Frame.Of (tb : Tables) (h : Heap) (live : Nat → Prop) (fr : Frame) : Prop :=
  (∃ f, h.cells fr.src = .func f ∧ fr.n = tb.arity f) ∧ ∀ k < fr.n, live (fr.src + 1 + k)

structure VisitInv (tb : Tables) (h : Heap) (live : Nat → Prop) (t : Nat) (v : Visit) : Prop where
  frames : ∀ fr ∈ v.frames, fr.Of tb h live
  shown : v.ok = true → Shown tb h t v.frames
  done : ∀ {a st f}, v.vm.lookup a = some st → st ≠ 1 → h.cells a = .func f →
    ∀ k < tb.arity f, Finite tb (itemAt h.cells h.len) (a + 1 + k)

theorem whole_deref {a : Nat} (whole : Whole tb h.cells h.len live) (alive : live a) :
    h.deref a < h.len ∧ ∀ f k, h.cells (h.deref a) = .func f → k < tb.arity f → live (h.deref a + 1 + k) := by
  obtain ⟨d, leads, args⟩ := whole a alive
  have is : h.deref a = d := leads.deref
  rw [is]
  exact ⟨leads.lt, args⟩

theorem VisitInv.step {v v' : Visit} (whole : Whole tb h.cells h.len live) (before : VisitInv tb h live t v)
    (next : acyclicStep tb h v = some v') :
    VisitInv tb h live t v' ∧ Lower (unmet h.len v'.vm, work v'.frames) (unmet h.len v.vm, work v.frames) := by
  obtain ⟨of_, shown, done⟩ := before
  unfold acyclicStep at next
  split at next
  · cases next
  rename_i going
  have ok : v.ok = true := by simpa using going
  cases frames : v.frames with
  | nil =>
    simp only [frames] at next
    cases next
  | cons fr rest =>
    simp only [frames] at next
    rw [frames] at of_ shown
    obtain ⟨⟨f, cell, n⟩, alive⟩ := of_ fr List.mem_cons_self
    obtain ⟨behind, onward⟩ := shown ok
    by_cases last : fr.n ≤ fr.i
    · -- every argument done
      simp only [if_pos last, Option.some.injEq] at next
      subst next
      have all : ∀ k < fr.n, Finite tb (itemAt h.cells h.len) (fr.src + 1 + k) :=
        fun k below => behind k (by omega) below
      refine ⟨⟨fun fr' mem => of_ fr' (List.mem_cons_of_mem _ mem), fun _ => onward all, ?_⟩, ?_⟩
      · intro a st f' found other cell' k below
        by_cases at_ : a = fr.src
        · subst at_
          rw [cell] at cell'
          obtain rfl := Cell.func.inj cell'
          exact all k (by omega)
        · rw [lookup_cons_of_ne at_] at found
          exact done found other cell' k below
      · refine lower_of (.inr ⟨unmet_le .., ?_⟩)
        simp only [work, List.map_cons, List.sum_cons]
        omega
    · simp only [if_neg last] at next
      have below : fr.i < fr.n := Nat.lt_of_not_le last
      have at_ : fr.src + (fr.i + 1) = fr.src + 1 + fr.i := by omega
      rw [at_] at next
      have moved_of : ∀ fr' ∈ ({ fr with i := fr.i + 1 } : Frame) :: rest, fr'.Of tb h live := by
        intro fr' mem
        rcases List.mem_cons.mp mem with rfl | mem
        · exact ⟨⟨f, cell, n⟩, alive⟩
        · exact of_ fr' (List.mem_cons_of_mem _ mem)
      have less : work (({ fr with i := fr.i + 1 } : Frame) :: rest) < work (fr :: rest) := by
        simp only [work, List.map_cons, List.sum_cons]
        omega
      -- past an argument that has no cycle
      have moved : Finite tb (itemAt h.cells h.len) (fr.src + 1 + fr.i) →
          Shown tb h t (({ fr with i := fr.i + 1 } : Frame) :: rest) := by
        intro finite
        refine ⟨?_, onward⟩
        intro k le lt
        rcases Nat.lt_or_ge k fr.i with earlier | here
        · exact behind k earlier lt
        · have same : k = fr.i := by
            simp only at le
            omega
          rw [same]
          exact finite
      obtain ⟨inside, args⟩ := whole_deref whole (alive fr.i below)
      cases at_arg : h.cells (h.deref (fr.src + 1 + fr.i)) with
      | func f' =>
        simp only [at_arg] at next
        cases found : v.vm.lookup (h.deref (fr.src + 1 + fr.i)) with
        | some st =>
          simp only [found] at next
          split at next
          · obtain rfl := Option.some.inj next
            exact ⟨⟨moved_of, fun no => (by cases no), done⟩, lower_of (.inr ⟨le_rfl, less⟩)⟩
          · rename_i other
            obtain rfl := Option.some.inj next
            have finite := finite_of_args at_arg (done found other at_arg)
            exact ⟨⟨moved_of, fun _ => moved finite, done⟩, lower_of (.inr ⟨le_rfl, less⟩)⟩
        | none =>
          simp only [found] at next
          obtain rfl := Option.some.inj next
          refine ⟨⟨?_, ?_, ?_⟩, lower_of (.inl (unmet_lt _ inside found))⟩
          · intro fr' mem
            rcases List.mem_cons.mp mem with rfl | mem
            · exact ⟨⟨f', at_arg, rfl⟩, fun k lt => args f' k at_arg lt⟩
            · exact moved_of fr' mem
          · intro _
            refine ⟨fun k lt => absurd lt (Nat.not_lt_zero k), ?_⟩
            intro all
            exact moved (finite_of_args at_arg all)
          · intro a st f'' found' other cell' k lt
            by_cases new : a = h.deref (fr.src + 1 + fr.i)
            · rw [new, lookup_cons_self, Option.some.injEq] at found'
              exact absurd found'.symm other
            · rw [lookup_cons_of_ne new] at found'
              exact done found' other cell' k lt
      | _ =>
        simp only [at_arg] at next
        obtain rfl := Option.some.inj next
        have finite : Finite tb (itemAt h.cells h.len) (fr.src + 1 + fr.i) :=
          finite_of_not_func (by rw [at_arg]; simp)
        exact ⟨⟨moved_of, fun _ => moved finite, done⟩, lower_of (.inr ⟨le_rfl, less⟩)⟩

theorem acyclicStep_stopped {v : Visit} (stopped : acyclicStep tb h v = none) (ok : v.ok = true) :
    v.frames = [] := by
  cases frames : v.frames with
  | nil => rfl
  | cons fr rest =>
    have going : ¬ v.ok = false := by simp [ok]
    simp only [acyclicStep, if_neg going, frames] at stopped
    split at stopped
    · cases stopped
    · split at stopped
      · split at stopped
        · split at stopped <;> cases stopped
        · cases stopped
      · cases stopped

/-- The question has an answer, and a yes is right. -/
theorem acyclic_spec (whole : Whole tb h.cells h.len live) {t : Nat} (alive : live t) :
    ∃ b, Settles (fun fuel => acyclic tb h fuel t) b ∧ (b = true → Finite tb (itemAt h.cells h.len) t) := by
  obtain ⟨inside, args⟩ := whole_deref whole alive
  cases cell : h.cells (h.deref t) with
  | func f =>
    have same : h.deref (h.deref t) = h.deref t := Term.deref_end (.inr (by rw [cell]; rfl)) _
    have finite : Finite tb (itemAt h.cells h.len) (h.deref t) → Finite tb (itemAt h.cells h.len) t := by
      intro finite
      refine finite.congr ?_
      rw [itemAt_eq, itemAt_eq, same]
    obtain ⟨b, quick, yes⟩ := acyclicQuick_spec tb h (h.deref t)
    have start : VisitInv tb h live (h.deref t)
        ⟨[(h.deref t, 1)], [⟨h.deref t, 0, 0, tb.arity f⟩], true⟩ := by
      refine ⟨?_, ?_, ?_⟩
      · intro fr mem
        rw [List.mem_singleton] at mem
        rw [mem]
        exact ⟨⟨f, cell, rfl⟩, fun k lt => args f k cell lt⟩
      · intro _
        refine ⟨fun k lt => absurd lt (Nat.not_lt_zero k), ?_⟩
        intro all
        exact finite_of_args (by rw [same]; exact cell) (by rw [same]; exact all)
      · intro a st f' found other
        by_cases at_ : a = h.deref t
        · rw [at_, lookup_cons_self, Option.some.injEq] at found
          exact absurd found.symm other
        · rw [lookup_cons_of_ne at_] at found
          cases found
    have full : ∀ fuel, acyclic tb h fuel t = (acyclicQuick tb h fuel (h.deref t)).bind fun quick =>
        if quick then some true else acyclicWalk tb h fuel (h.deref t) f := by
      intro fuel
      simp only [acyclic, cell]
    obtain ⟨e, settles, inv, stopped⟩ := loop_settles lower_wf
      (fun v : Visit => (unmet h.len v.vm, work v.frames)) (fun v v' before next => before.step whole next) start
    cases b with
    | true =>
      have rest : Settles (fun _ => some true) true := Settles.of_eq fun _ => rfl
      exact ⟨true, (quick.bind (g := fun b fuel => if b then some true else acyclicWalk tb h fuel (h.deref t) f)
        rest).congr full, fun _ => finite (yes rfl)⟩
    | false =>
      refine ⟨e.ok, (quick.bind (g := fun b fuel => if b then some true else acyclicWalk tb h fuel (h.deref t) f)
        (settles.map (·.ok))).congr full, ?_⟩
      intro ok
      have shown := inv.shown ok
      rw [acyclicStep_stopped stopped ok] at shown
      exact finite shown
  | _ =>
    refine ⟨true, ?_, fun _ => finite_of_not_func (by rw [cell]; simp)⟩
    exact Settles.of_eq fun fuel => by simp only [acyclic, cell]

end Cocolog.Copy
