import Cocolog.Copy.Factor

/-! What the walks of a factorization find. The first meets every compound of the term,
and between two compounds that are no factors the earlier one is met first: with the
factors cut out the term has no cycle. The other finds a variable in a term if it is
there. -/

set_option linter.all false

namespace Cocolog.Copy

open Cocolog.Lib Cocolog.Term Cocolog.Store

variable {tb : Tables} {h : Heap} {live : Nat → Prop} {d t v : Nat}

/-- An argument some frame has still to look at. -/
def Ahead (frames : List Frame) (a k : Nat) : Prop := ∃ fr ∈ frames, fr.src = a ∧ fr.i ≤ k ∧ k < fr.n

theorem Ahead.advance {fr : Frame} {rest : List Frame} {a k : Nat} (ahead : Ahead (fr :: rest) a k) :
    Ahead (advance fr rest) a k ∨ (a = fr.src ∧ k = fr.i) := by
  obtain ⟨fr', mem, src, low, high⟩ := ahead
  rcases List.mem_cons.mp mem with rfl | mem
  · by_cases at_ : k = fr'.i
    · exact .inr ⟨src.symm, at_⟩
    · refine .inl ⟨{ fr' with i := fr'.i + 1 }, ?_, src, ?_, high⟩
      · rw [Copy.advance, if_neg (by omega)]
        exact List.mem_cons_self
      · simp only
        omega
  · refine .inl ⟨fr', ?_, src, low, high⟩
    unfold Copy.advance
    split
    · exact mem
    · exact List.mem_cons_of_mem _ mem

/-- The walk so far. `rank` numbers the compounds in the order they were met. -/
structure MeetInv (tb : Tables) (h : Heap) (live : Nat → Prop) (d : Nat) (rank : Nat → Nat) (count : Nat)
    (m : Meeting) : Prop where
  frames : ∀ fr ∈ m.frames, fr.Of tb h live ∧ m.vm.lookup fr.src ≠ none
  root : m.vm.lookup d ≠ none
  met : ∀ {a st}, m.vm.lookup a = some st → a < h.len ∧ (∃ f, h.cells a = .func f) ∧
    ∀ f k, h.cells a = .func f → k < tb.arity f → live (a + 1 + k)
  factor : ∀ {a st}, m.vm.lookup a = some st → st = 1 ∨ (2 ≤ st ∧ m.sh[st - 2]? = some a)
  numbered : ∀ {j a}, m.sh[j]? = some a → m.vm.lookup a = some (j + 2)
  ranked : ∀ {a}, m.vm.lookup a ≠ none → rank a < count
  args : ∀ {a f k}, m.vm.lookup a ≠ none → h.cells a = .func f → k < tb.arity f →
    Ahead m.frames a k ∨ ∀ f', h.cells (h.deref (a + 1 + k)) = .func f' →
      m.vm.lookup (h.deref (a + 1 + k)) ≠ none ∧
        (h.deref (a + 1 + k) ∈ m.sh ∨ rank a < rank (h.deref (a + 1 + k)))

theorem frames_advance {fr : Frame} {rest : List Frame} {p : Frame → Prop} (all : ∀ fr' ∈ fr :: rest, p fr')
    (moved : p { fr with i := fr.i + 1 }) : ∀ fr' ∈ advance fr rest, p fr' := by
  intro fr' mem
  unfold advance at mem
  split at mem
  · exact all fr' (List.mem_cons_of_mem _ mem)
  · rcases List.mem_cons.mp mem with rfl | mem
    · exact moved
    · exact all fr' (List.mem_cons_of_mem _ mem)

/-- The newest frame's argument is nothing new. -/
theorem MeetInv.pass {rank : Nat → Nat} {count : Nat} {m : Meeting} {fr : Frame} {rest : List Frame}
    (before : MeetInv tb h live d rank count m) (frames : m.frames = fr :: rest)
    (known : ∀ f', h.cells (h.deref (fr.src + 1 + fr.i)) = .func f' →
      m.vm.lookup (h.deref (fr.src + 1 + fr.i)) ≠ none ∧ h.deref (fr.src + 1 + fr.i) ∈ m.sh) :
    MeetInv tb h live d rank count { m with frames := advance fr rest } := by
  have of_ := before.frames
  have args := @before.args
  rw [frames] at of_ args
  refine ⟨frames_advance of_ (of_ fr List.mem_cons_self), before.root, before.met, before.factor, before.numbered,
    before.ranked, ?_⟩
  intro a f k met cell below
  rcases args met cell below with ahead | resolved
  · rcases ahead.advance with still | ⟨rfl, rfl⟩
    · exact .inl still
    · refine .inr ?_
      intro f' cell'
      obtain ⟨met', factor⟩ := known f' cell'
      exact ⟨met', .inl factor⟩
  · exact .inr resolved

/-- The newest frame's argument is a compound met a second time. -/
theorem MeetInv.again {rank : Nat → Nat} {count : Nat} {m : Meeting} {a : Nat}
    (before : MeetInv tb h live d rank count m) (once : m.vm.lookup a = some 1) :
    MeetInv tb h live d rank count
      { m with vm := (a, m.sh.length + 2) :: m.vm, sh := m.sh ++ [a] } := by
  have met : ∀ {b}, List.lookup b ((a, m.sh.length + 2) :: m.vm) ≠ none ↔ m.vm.lookup b ≠ none := by
    intro b
    by_cases at_ : b = a
    · rw [at_, lookup_cons_self, once]
      simp
    · rw [lookup_cons_of_ne at_]
  refine ⟨?_, met.mpr before.root, ?_, ?_, ?_, fun h => before.ranked (met.mp h), ?_⟩
  · intro fr mem
    obtain ⟨of_, src⟩ := before.frames fr mem
    exact ⟨of_, met.mpr src⟩
  · intro b st found
    by_cases at_ : b = a
    · rw [at_]
      exact before.met once
    · rw [lookup_cons_of_ne at_] at found
      exact before.met found
  · intro b st found
    by_cases at_ : b = a
    · rw [at_, lookup_cons_self, Option.some.injEq] at found
      refine .inr ⟨by omega, ?_⟩
      rw [at_, ← found, Nat.add_sub_cancel]
      exact List.getElem?_concat_length
    · rw [lookup_cons_of_ne at_] at found
      refine (before.factor found).imp id ?_
      rintro ⟨two, at_sh⟩
      refine ⟨two, ?_⟩
      rw [List.getElem?_append_left (List.getElem?_eq_some_iff.mp at_sh).1]
      exact at_sh
  · intro j b at_j
    rcases Nat.lt_trichotomy j m.sh.length with lt | rfl | gt
    · rw [List.getElem?_append_left lt] at at_j
      have found := before.numbered at_j
      have off : b ≠ a := by
        rintro rfl
        rw [once, Option.some.injEq] at found
        omega
      rw [lookup_cons_of_ne off, found]
    · rw [List.getElem?_concat_length, Option.some.injEq] at at_j
      rw [← at_j, lookup_cons_self]
    · rw [List.getElem?_eq_none (by simp only [List.length_append, List.length_singleton]; omega)] at at_j
      cases at_j
  · intro b f k met_b cell below
    refine (before.args (met.mp met_b) cell below).imp id ?_
    intro resolved f' cell'
    obtain ⟨met', order⟩ := resolved f' cell'
    exact ⟨met.mpr met', order.imp (List.mem_append_left _) id⟩

/-- The newest frame's argument is a compound met for the first time. -/
theorem MeetInv.enter {rank : Nat → Nat} {count : Nat} {m : Meeting} {fr : Frame} {rest : List Frame} {f' : Nat}
    (before : MeetInv tb h live d rank count m) (frames : m.frames = fr :: rest)
    (new : m.vm.lookup (h.deref (fr.src + 1 + fr.i)) = none)
    (cell : h.cells (h.deref (fr.src + 1 + fr.i)) = .func f') (inside : h.deref (fr.src + 1 + fr.i) < h.len)
    (alive : ∀ f k, h.cells (h.deref (fr.src + 1 + fr.i)) = .func f → k < tb.arity f →
      live (h.deref (fr.src + 1 + fr.i) + 1 + k)) :
    MeetInv tb h live d (Function.update rank (h.deref (fr.src + 1 + fr.i)) count) (count + 1)
      { m with vm := (h.deref (fr.src + 1 + fr.i), 1) :: m.vm,
               frames := ⟨h.deref (fr.src + 1 + fr.i), 0, 0, tb.arity f'⟩ :: advance fr rest } := by
  have of_ := before.frames
  have args := @before.args
  rw [frames] at of_ args
  generalize arg : h.deref (fr.src + 1 + fr.i) = c at *
  have met : ∀ {b}, m.vm.lookup b ≠ none → b ≠ c ∧ List.lookup b ((c, 1) :: m.vm) ≠ none := by
    intro b old
    have off : b ≠ c := by
      rintro rfl
      exact old new
    exact ⟨off, by rwa [lookup_cons_of_ne off]⟩
  have met_cases : ∀ {b}, List.lookup b ((c, 1) :: m.vm) ≠ none → b = c ∨ (b ≠ c ∧ m.vm.lookup b ≠ none) := by
    intro b found
    by_cases at_ : b = c
    · exact .inl at_
    · rw [lookup_cons_of_ne at_] at found
      exact .inr ⟨at_, found⟩
  refine ⟨?_, (met before.root).2, ?_, ?_, ?_, ?_, ?_⟩
  · intro fr' mem
    rcases List.mem_cons.mp mem with rfl | mem
    · refine ⟨⟨⟨f', cell, rfl⟩, fun k lt => alive f' k cell lt⟩, ?_⟩
      rw [lookup_cons_self]
      simp
    · obtain ⟨of', src⟩ := frames_advance of_ (of_ fr List.mem_cons_self) fr' mem
      exact ⟨of', (met src).2⟩
  · intro b st found
    by_cases at_ : b = c
    · rw [at_]
      exact ⟨inside, ⟨f', cell⟩, alive⟩
    · rw [lookup_cons_of_ne at_] at found
      exact before.met found
  · intro b st found
    by_cases at_ : b = c
    · rw [at_, lookup_cons_self, Option.some.injEq] at found
      exact .inl found.symm
    · rw [lookup_cons_of_ne at_] at found
      exact before.factor found
  · intro j b at_j
    have found := before.numbered at_j
    have off : b ≠ c := (met (by rw [found]; simp)).1
    rw [lookup_cons_of_ne off, found]
  · intro b found
    rcases met_cases found with rfl | ⟨off, old⟩
    · rw [Function.update_self]
      omega
    · rw [Function.update_of_ne off]
      have := before.ranked old
      omega
  · intro b f k found cell' below
    rcases met_cases found with rfl | ⟨off, old⟩
    · rw [cell] at cell'
      obtain rfl := Cell.func.inj cell'
      exact .inl ⟨_, List.mem_cons_self, rfl, Nat.zero_le k, below⟩
    · rw [Function.update_of_ne off]
      rcases args old cell' below with ahead | resolved
      · rcases ahead.advance with ⟨fr', mem, more⟩ | ⟨rfl, rfl⟩
        · exact .inl ⟨fr', List.mem_cons_of_mem _ mem, more⟩
        · refine .inr ?_
          intro f'' _
          rw [arg, lookup_cons_self, Function.update_self]
          exact ⟨by simp, .inr (before.ranked old)⟩
      · refine .inr ?_
        intro f'' cell''
        obtain ⟨met', order⟩ := resolved f'' cell''
        obtain ⟨off', there⟩ := met met'
        rw [Function.update_of_ne off']
        exact ⟨there, order⟩

/-- A turn of the walk keeps the ranks or numbers one compound more. -/
theorem MeetInv.step {rank : Nat → Nat} {count : Nat} {m m' : Meeting} (whole : Whole tb h.cells h.len live)
    (before : MeetInv tb h live d rank count m) (next : meetStep tb h m = some m') :
    (∃ rank' count', MeetInv tb h live d rank' count' m') ∧
      Lower (unmet h.len m'.vm, work m'.frames) (unmet h.len m.vm, work m.frames) := by
  cases frames : m.frames with
  | nil =>
    simp only [meetStep, frames] at next
    cases next
  | cons fr rest =>
    simp only [meetStep, frames] at next
    by_cases last : fr.n ≤ fr.i
    · simp only [if_pos last, Option.some.injEq] at next
      subst next
      have of_ := before.frames
      have args := @before.args
      rw [frames] at of_ args
      refine ⟨⟨rank, count, ?_⟩, ?_⟩
      · refine ⟨fun fr' mem => of_ fr' (List.mem_cons_of_mem _ mem), before.root, before.met, before.factor,
          before.numbered, before.ranked, ?_⟩
        intro a f' k met cell' below
        refine (args met cell' below).imp ?_ id
        rintro ⟨fr', mem, src, low, high⟩
        rcases List.mem_cons.mp mem with rfl | mem
        · omega
        · exact ⟨fr', mem, src, low, high⟩
      · refine lower_of (.inr ⟨le_rfl, ?_⟩)
        simp only [work, List.map_cons, List.sum_cons]
        omega
    · simp only [if_neg last] at next
      have at_ : fr.src + (fr.i + 1) = fr.src + 1 + fr.i := by omega
      rw [at_] at next
      have less := work_advance fr rest
      have alive := (before.frames fr (by rw [frames]; exact List.mem_cons_self)).1.2
      obtain ⟨inside, arg_args⟩ := whole_deref whole (alive fr.i (Nat.lt_of_not_le last))
      cases cell : h.cells (h.deref (fr.src + 1 + fr.i)) with
      | func f' =>
        simp only [cell] at next
        cases found : m.vm.lookup (h.deref (fr.src + 1 + fr.i)) with
        | none =>
          simp only [found] at next
          obtain rfl := Option.some.inj next
          exact ⟨⟨_, _, before.enter frames found cell inside arg_args⟩, lower_of (.inl (unmet_lt _ inside found))⟩
        | some st =>
          simp only [found] at next
          split at next
          · rename_i once
            rw [once] at found
            obtain rfl := Option.some.inj next
            have second := before.again found
            refine ⟨⟨rank, count, second.pass frames ?_⟩, lower_of (.inr ⟨unmet_le .., less⟩)⟩
            intro f'' _
            rw [lookup_cons_self]
            exact ⟨by simp, List.mem_append_right _ List.mem_cons_self⟩
          · rename_i more
            obtain rfl := Option.some.inj next
            refine ⟨⟨rank, count, before.pass frames ?_⟩, lower_of (.inr ⟨le_rfl, less⟩)⟩
            intro f'' _
            rcases before.factor found with once | ⟨-, factor⟩
            · exact absurd once more
            · exact ⟨by rw [found]; simp, List.mem_of_getElem? factor⟩
      | _ =>
        simp only [cell] at next
        obtain rfl := Option.some.inj next
        refine ⟨⟨rank, count, before.pass frames ?_⟩, lower_of (.inr ⟨le_rfl, less⟩)⟩
        intro f'' cell'
        rw [cell] at cell'
        cases cell'

/-- The item at a cell with the factors cut out: a factor is a variable told by its cell. -/
def cutItem (h : Heap) (sh : List Nat) (a : Nat) : Item :=
  match itemAt h.cells h.len a with
  | .comp s f => if s ∈ sh then .var s else .comp s f
  | i => i

/-- What the walk leaves: the compounds of the term, the factors numbered, and no cycle
once they are cut out. -/
structure Meets (tb : Tables) (h : Heap) (live : Nat → Prop) (d : Nat) (m : Meeting) : Prop where
  root : m.vm.lookup d ≠ none
  met : ∀ {a st}, m.vm.lookup a = some st → a < h.len ∧ (∃ f, h.cells a = .func f) ∧
    ∀ f k, h.cells a = .func f → k < tb.arity f → live (a + 1 + k)
  factor : ∀ {a st}, m.vm.lookup a = some st → st = 1 ∨ (2 ≤ st ∧ m.sh[st - 2]? = some a)
  numbered : ∀ {j a}, m.sh[j]? = some a → m.vm.lookup a = some (j + 2)
  cut : ∀ {a f k}, m.vm.lookup a ≠ none → h.cells a = .func f → k < tb.arity f →
    Finite tb (cutItem h m.sh) (a + 1 + k)

theorem MeetInv.done {rank : Nat → Nat} {count : Nat} {m : Meeting} (inv : MeetInv tb h live d rank count m)
    (none_ : m.frames = []) : Meets tb h live d m := by
  refine ⟨inv.root, inv.met, inv.factor, inv.numbered, ?_⟩
  intro a f k
  -- the compounds met later come lower
  induction low : count - rank a using Nat.strong_induction_on generalizing a f k with
  | _ n ih =>
    intro met cell below
    constructor
    intro s f' j is below'
    rcases inv.args met cell below with ⟨fr, mem, -⟩ | resolved
    · rw [none_] at mem
      cases mem
    · unfold cutItem at is
      split at is
      · rename_i s' f'' comp
        split at is
        · cases is
        · rename_i not_factor
          obtain ⟨rfl, rfl⟩ := Item.comp.inj is
          rw [itemAt_eq] at comp
          split at comp
          · cases comp
          · rename_i f₁ cell'
            obtain ⟨rfl, rfl⟩ := Item.comp.inj comp
            obtain ⟨met', order⟩ := resolved _ cell'
            have up := order.resolve_left not_factor
            have top := inv.ranked met'
            exact ih _ (by omega) rfl met' cell' below'
          · cases comp
      · rename_i other
        exact absurd is (other s f')

theorem meet_spec (whole : Whole tb h.cells h.len live) {f : Nat} (cell : h.cells d = .func f) (inside : d < h.len)
    (alive : ∀ k < tb.arity f, live (d + 1 + k)) :
    ∃ m, Settles (fun fuel => loop (meetStep tb h) fuel ⟨[(d, 1)], [⟨d, 0, 0, tb.arity f⟩], []⟩) m ∧
      Meets tb h live d m := by
  have only : ∀ {a}, List.lookup a [(d, 1)] ≠ none → a = d := by
    intro a found
    by_contra off
    rw [lookup_cons_of_ne off] at found
    exact found rfl
  have start : MeetInv tb h live d (fun _ => 0) 1 ⟨[(d, 1)], [⟨d, 0, 0, tb.arity f⟩], []⟩ := by
    refine ⟨?_, by simp, ?_, ?_, ?_, fun _ => Nat.one_pos, ?_⟩
    · intro fr mem
      rw [List.mem_singleton] at mem
      rw [mem]
      exact ⟨⟨⟨f, cell, rfl⟩, alive⟩, by simp⟩
    · intro a st found
      obtain rfl := only (by rw [found]; simp)
      refine ⟨inside, ⟨f, cell⟩, ?_⟩
      intro f' k cell'
      rw [cell] at cell'
      obtain rfl := Cell.func.inj cell'
      exact alive k
    · intro a st found
      obtain rfl := only (by rw [found]; simp)
      rw [lookup_cons_self, Option.some.injEq] at found
      exact .inl found.symm
    · intro j a at_j
      cases at_j
    · intro a f' k found cell' below
      obtain rfl := only found
      rw [cell] at cell'
      obtain rfl := Cell.func.inj cell'
      exact .inl ⟨_, List.mem_cons_self, rfl, Nat.zero_le k, below⟩
  have keeps : ∀ m m', (∃ rank count, MeetInv tb h live d rank count m) → meetStep tb h m = some m' →
      (∃ rank count, MeetInv tb h live d rank count m') ∧
        Lower (unmet h.len m'.vm, work m'.frames) (unmet h.len m.vm, work m.frames) := by
    rintro m m' ⟨rank, count, before⟩ next
    exact before.step whole next
  obtain ⟨m, settles, ⟨rank, count, inv⟩, stopped⟩ :=
    loop_settles lower_wf (fun m : Meeting => (unmet h.len m.vm, work m.frames)) keeps ⟨_, _, start⟩
  refine ⟨m, settles, inv.done ?_⟩
  cases frames : m.frames with
  | nil => rfl
  | cons fr rest =>
    simp only [meetStep, frames] at stopped
    split at stopped
    · cases stopped
    · split at stopped
      · split at stopped
        · split at stopped <;> cases stopped
        · cases stopped
      · cases stopped

/- The variable looked for. -/

/-- A cell looked at: it does not lead to the variable, and a compound it leads to is
among those seen. -/
def Clear (h : Heap) (v : Nat) (vm : List (Nat × Nat)) (x : Nat) : Prop :=
  h.deref x ≠ v ∧ ∀ f, h.cells (h.deref x) = .func f → vm.lookup (h.deref x) ≠ none

structure HoldsInv (tb : Tables) (h : Heap) (live : Nat → Prop) (v t : Nat) (q : Holding) : Prop where
  alive : ∀ a ∈ q.wl, live a
  start : q.found = false → t ∈ q.wl ∨ Clear h v q.vm t
  args : q.found = false → ∀ {a f k}, q.vm.lookup a ≠ none → h.cells a = .func f → k < tb.arity f →
    a + 1 + k ∈ q.wl ∨ Clear h v q.vm (a + 1 + k)

/-- A cell that leads to nothing new is looked at. -/
theorem HoldsInv.pass {q : Holding} {x : Nat} {rest : List Nat} (before : HoldsInv tb h live v t q)
    (wl : q.wl = x :: rest) (clear : Clear h v q.vm x) : HoldsInv tb h live v t { q with wl := rest } := by
  obtain ⟨alive, start, args⟩ := before
  rw [wl] at alive start args
  refine ⟨fun a mem => alive a (List.mem_cons_of_mem _ mem), ?_, ?_⟩
  · intro going
    rcases start going with mem | done
    · rcases List.mem_cons.mp mem with rfl | mem
      · exact .inr clear
      · exact .inl mem
    · exact .inr done
  · intro going a f k found cell below
    rcases args going found cell below with mem | done
    · rcases List.mem_cons.mp mem with same | mem
      · exact .inr (by rw [same]; exact clear)
      · exact .inl mem
    · exact .inr done

/-- A compound seen for the first time. -/
theorem HoldsInv.enter {q : Holding} {x f : Nat} {rest : List Nat} (before : HoldsInv tb h live v t q)
    (wl : q.wl = x :: rest) (off : h.deref x ≠ v) (cell : h.cells (h.deref x) = .func f)
    (alive' : ∀ k < tb.arity f, live (h.deref x + 1 + k)) :
    HoldsInv tb h live v t { q with vm := (h.deref x, 1) :: q.vm,
                                    wl := (argsOf (h.deref x) (tb.arity f)).reverse ++ rest } := by
  obtain ⟨alive, start, args⟩ := before
  rw [wl] at alive start args
  have more : ∀ {b}, q.vm.lookup b ≠ none → List.lookup b ((h.deref x, 1) :: q.vm) ≠ none := by
    intro b found
    by_cases at_ : b = h.deref x
    · rw [at_, lookup_cons_self]
      simp
    · rwa [lookup_cons_of_ne at_]
  have clearer : ∀ {b}, Clear h v q.vm b → Clear h v ((h.deref x, 1) :: q.vm) b :=
    fun clear => ⟨clear.1, fun f cell => more (clear.2 f cell)⟩
  have here : Clear h v ((h.deref x, 1) :: q.vm) x := ⟨off, fun _ _ => by rw [lookup_cons_self]; simp⟩
  -- what was on the list is on it still, or was looked at
  have moved : ∀ {b}, b ∈ x :: rest ∨ Clear h v q.vm b →
      b ∈ (argsOf (h.deref x) (tb.arity f)).reverse ++ rest ∨ Clear h v ((h.deref x, 1) :: q.vm) b := by
    rintro b (mem | clear)
    · rcases List.mem_cons.mp mem with rfl | mem
      · exact .inr here
      · exact .inl (List.mem_append_right _ mem)
    · exact .inr (clearer clear)
  refine ⟨?_, fun going => moved (start going), ?_⟩
  · intro a mem
    rcases List.mem_append.mp mem with mem | mem
    · rw [List.mem_reverse, mem_argsOf] at mem
      obtain ⟨k, below, rfl⟩ := mem
      exact alive' k below
    · exact alive a (List.mem_cons_of_mem _ mem)
  · intro going a f' k found cell' below
    by_cases at_ : a = h.deref x
    · subst at_
      rw [cell] at cell'
      obtain rfl := Cell.func.inj cell'
      refine .inl (List.mem_append_left _ ?_)
      rw [List.mem_reverse, mem_argsOf]
      exact ⟨k, below, rfl⟩
    · simp only [lookup_cons_of_ne at_] at found
      exact moved (args going found cell' below)

theorem HoldsInv.step {q q' : Holding} (whole : Whole tb h.cells h.len live) (before : HoldsInv tb h live v t q)
    (next : holdsStep tb h v q = some q') :
    HoldsInv tb h live v t q' ∧ Lower (unmet h.len q'.vm, q'.wl.length) (unmet h.len q.vm, q.wl.length) := by
  unfold holdsStep at next
  split at next
  · cases next
  cases wl : q.wl with
  | nil =>
    simp only [wl] at next
    cases next
  | cons x rest =>
    simp only [wl] at next
    have less : rest.length < (x :: rest).length := Nat.lt_succ_self _
    have alive := before.alive x (by rw [wl]; exact List.mem_cons_self)
    obtain ⟨inside, args⟩ := whole_deref whole alive
    split at next
    · obtain rfl := Option.some.inj next
      refine ⟨⟨?_, fun no => (nomatch no), fun no => (nomatch no)⟩, lower_of (.inr ⟨le_rfl, less⟩)⟩
      intro a mem
      exact before.alive a (by rw [wl]; exact List.mem_cons_of_mem _ mem)
    · rename_i off
      cases cell : h.cells (h.deref x) with
      | func f =>
        simp only [cell] at next
        cases found : q.vm.lookup (h.deref x) with
        | some st =>
          simp only [found] at next
          obtain rfl := Option.some.inj next
          exact ⟨before.pass wl ⟨off, fun _ _ => by rw [found]; simp⟩, lower_of (.inr ⟨le_rfl, less⟩)⟩
        | none =>
          simp only [found] at next
          obtain rfl := Option.some.inj next
          exact ⟨before.enter wl off cell fun k lt => args f k cell lt,
            lower_of (.inl (unmet_lt _ inside found))⟩
      | _ =>
        simp only [cell] at next
        obtain rfl := Option.some.inj next
        refine ⟨before.pass wl ⟨off, ?_⟩, lower_of (.inr ⟨le_rfl, less⟩)⟩
        intro f cell'
        rw [cell] at cell'
        cases cell'

/-- The question has an answer, and on a no reading the term never comes to the variable. -/
theorem holds_spec (whole : Whole tb h.cells h.len live) (alive : live t) (v : Nat) :
    ∃ b, Settles (fun fuel => holds tb h fuel v t) b ∧ (b = false → ∃ Q : Nat → Prop, Q t ∧
      ∀ a d, Q a → Leads h.cells h.len a d → d ≠ v ∧
        ∀ f k, h.cells d = .func f → k < tb.arity f → Q (d + 1 + k)) := by
  have start : HoldsInv tb h live v t ⟨[], [t], false⟩ := by
    refine ⟨?_, fun _ => .inl List.mem_cons_self, fun _ => fun found => absurd rfl found⟩
    intro a mem
    rw [List.mem_singleton.mp mem]
    exact alive
  obtain ⟨e, settles, inv, stopped⟩ := loop_settles lower_wf
    (fun q : Holding => (unmet h.len q.vm, q.wl.length)) (fun q q' before next => before.step whole next) start
  refine ⟨e.found, settles.map _, ?_⟩
  intro no
  have none_ : e.wl = [] := by
    cases wl : e.wl with
    | nil => rfl
    | cons x rest =>
      have going : ¬ e.found = true := by simp [no]
      simp only [holdsStep, if_neg going, wl] at stopped
      split at stopped
      · cases stopped
      · split at stopped
        · split at stopped <;> cases stopped
        · cases stopped
  have off_list : ∀ {x}, x ∉ e.wl := by
    intro x
    rw [none_]
    exact List.not_mem_nil
  refine ⟨Clear h v e.vm, (inv.start no).resolve_left off_list, ?_⟩
  rintro a d ⟨off, seen⟩ leads
  have is : h.deref a = d := leads.deref
  rw [is] at off seen
  refine ⟨off, ?_⟩
  intro f k cell below
  exact (inv.args no (seen f cell) cell below).resolve_left off_list

end Cocolog.Copy
