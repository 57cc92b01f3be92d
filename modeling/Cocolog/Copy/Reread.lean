import Cocolog.Copy.RoundTrip

/-! The same term read from two memories. What a copy holds is in step with what it was
copied from, and stays in step as a term in factors is made cyclic again; so two copies,
made by a walk or of a whole block, are read alike. -/

set_option linter.all false

namespace Cocolog.Copy

open Cocolog.Lib Cocolog.Term Cocolog.Store

/-- The term at `r` of the one memory is the term at `t` of the other, its variables
renamed, to cells from `low` on. -/
def Renamed (tb : Tables) (h : Heap) (t : Nat) (g : Heap) (r low : Nat) : Prop :=
  ∃ π R : Nat → Nat → Prop, Bisim tb h.cells h.len g.cells g.len π R ∧ R t r ∧
    (∀ v x x', π v x → π v x' → x = x') ∧ (∀ v v' x, π v x → π v' x → v = v') ∧ ∀ v x, π v x → low ≤ x

/-- A list as `coco_unfactor` meets it: where its check stops, or equations of variables
with terms that are none. -/
inductive Equations {tb : Tables} (ws : Words tb) (h : Heap) : Nat → Prop where
  | last {l : Nat} (cell : isCons ws (h.cells l) = false) : Equations ws h l
  | stray {l p : Nat} (cell : isCons ws (h.cells l) = true) (first : Leads h.cells h.len (l + 1) p)
      (other : isNamed tb ws.eq (h.cells p) = false) : Equations ws h l
  | taken {l p v : Nat} (cell : isCons ws (h.cells l) = true) (first : Leads h.cells h.len (l + 1) p)
      (eq : isNamed tb ws.eq (h.cells p) = true) (left : Leads h.cells h.len (p + 1) v)
      (held : (h.cells v).isRef = false) : Equations ws h l
  | next {l p v b l' : Nat} (cell : isCons ws (h.cells l) = true) (first : Leads h.cells h.len (l + 1) p)
      (eq : isNamed tb ws.eq (h.cells p) = true) (left : Leads h.cells h.len (p + 1) v)
      (free : (h.cells v).isRef = true) (right : Leads h.cells h.len (p + 2) b)
      (held : (h.cells b).isRef = false) (rest : Leads h.cells h.len (l + 2) l') (more : Equations ws h l') :
      Equations ws h l

/-- A list that passed the check, some of its variables bound by now. -/
inductive Solved {tb : Tables} (ws : Words tb) (h : Heap) : Nat → Prop where
  | nil {l : Nat} (inside : l < h.len) (held : (h.cells l).isRef = false) (cell : isCons ws (h.cells l) = false) :
      Solved ws h l
  | cons {l p b l' : Nat} (cell : isCons ws (h.cells l) = true) (first : Leads h.cells h.len (l + 1) p)
      (eq : isNamed tb ws.eq (h.cells p) = true) (right : Leads h.cells h.len (p + 2) b)
      (held : (h.cells b).isRef = false) (rest : Leads h.cells h.len (l + 2) l') (more : Solved ws h l') :
      Solved ws h l

/-- A term that can be read: where it looks like factors, the list is one `coco_unfactor`
gets through. -/
def Readable {tb : Tables} (ws : Words tb) (h : Heap) (t : Nat) : Prop :=
  isNamed tb ws.cyclic (h.cells (h.deref t)) = true →
    ∃ l, Leads h.cells h.len (h.deref t + 2) l ∧ Equations ws h l

variable {tb : Tables} {ws : Words tb} {π K : Nat → Nat → Prop} {h g g' : Heap} {x y d l : Nat}

theorem isCons_iff {c : Cell} : isCons ws c = true ↔ c = .func ws.consF := by
  simp [isCons]

theorem isNamed_iff {name : Nat} {c : Cell} :
    isNamed tb name c = true ↔ ∃ f, c = .func f ∧ tb.arity f = 2 ∧ (tb.functors f).name = name := by
  cases c <;> simp [isNamed]

/-- The other side of a relation. -/
theorem bisim_symm {m m' : Mem} {len len' : Nat} (bisim : Bisim tb m len m' len' π K) :
    Bisim tb m' len' m len (fun x v => π v x) fun b a => K a b := by
  intro b a ab
  obtain ⟨d, d', leads, leads', held⟩ := bisim a b ab
  refine ⟨d', d, leads', leads, held.imp ?_ ?_⟩
  · rintro ⟨var, var', paired⟩
    exact ⟨var', var, paired⟩
  · rintro ⟨held, same, args⟩
    exact ⟨by rw [same]; exact held, same.symm, fun f k cell below => args f k (same.symm.trans cell) below⟩

/-- Cells that lead where related ones do are as good, on both sides. -/
theorem bisim_closed {m m' : Mem} {len len' : Nat} (bisim : Bisim tb m len m' len' π K) :
    Bisim tb m len m' len' π fun a b => ∃ x y d d', K x y ∧ Leads m len x d ∧ Leads m len a d ∧
      Leads m' len' y d' ∧ Leads m' len' b d' := by
  rintro a b ⟨x, y, d, d', xy, at_x, at_a, at_y, at_b⟩
  obtain ⟨e, e', reach, reach', held⟩ := bisim x y xy
  obtain rfl := reach.unique at_x
  obtain rfl := reach'.unique at_y
  refine ⟨e, e', at_a, at_b, held.imp id ?_⟩
  rintro ⟨held, same, args⟩
  refine ⟨held, same, ?_⟩
  intro f k cell below
  have child := args f k cell below
  obtain ⟨c, c', to_c, to_c', -⟩ := bisim _ _ child
  exact ⟨_, _, c, c', child, to_c, to_c, to_c', to_c'⟩

/-- The other end of a related cell. -/
theorem related_end (bisim : Bisim tb g.cells g.len g'.cells g'.len π K) (xy : K x y) (leads : Leads g.cells g.len x d) :
    Leads g'.cells g'.len y (g'.deref y) ∧
      ((g.cells d = .ref d ∧ g'.cells (g'.deref y) = .ref (g'.deref y) ∧ π d (g'.deref y)) ∨
        ((g.cells d).isRef = false ∧ g'.cells (g'.deref y) = g.cells d ∧
          ∀ f k, g.cells d = .func f → k < tb.arity f → K (d + 1 + k) (g'.deref y + 1 + k))) := by
  obtain ⟨e, e', reach, reach', held⟩ := bisim x y xy
  obtain rfl := reach.unique leads
  have is : g'.deref y = e' := reach'.deref
  rw [is]
  exact ⟨reach', held⟩

/-- Related cells are told apart by no check of the list. -/
theorem related_checks (ws : Words tb) (bisim : Bisim tb g.cells g.len g'.cells g'.len π K) (xy : K x y)
    (leads : Leads g.cells g.len x d) :
    isCons ws (g'.cells (g'.deref y)) = isCons ws (g.cells d) ∧
      (∀ name, isNamed tb name (g'.cells (g'.deref y)) = isNamed tb name (g.cells d)) ∧
      (g'.cells (g'.deref y)).isRef = (g.cells d).isRef ∧
      (g'.cells (g'.deref y) = .atom ws.nil ↔ g.cells d = .atom ws.nil) := by
  obtain ⟨-, ⟨var, var', -⟩ | ⟨-, same, -⟩⟩ := related_end bisim xy leads
  · rw [var, var']
    simp [isCons, isNamed, Cell.isRef]
  · rw [same]
    exact ⟨rfl, fun _ => rfl, rfl, Iff.rfl⟩

/-- The arguments of related cells of two. -/
theorem related_both (bisim : Bisim tb g.cells g.len g'.cells g'.len π K) (xy : K x y)
    (leads : Leads g.cells g.len x d) {f : Nat} (cell : g.cells d = .func f) (two : tb.arity f = 2) :
    K (d + 1) (g'.deref y + 1) ∧ K (d + 2) (g'.deref y + 2) := by
  obtain ⟨-, ⟨var, -, -⟩ | ⟨-, -, args⟩⟩ := related_end bisim xy leads
  · rw [cell] at var
    cases var
  · exact ⟨args f 0 cell (by omega), args f 1 cell (by omega)⟩

theorem related_cons (bisim : Bisim tb g.cells g.len g'.cells g'.len π K) (xy : K x y)
    (leads : Leads g.cells g.len x d) (cell : isCons ws (g.cells d) = true) :
    K (d + 1) (g'.deref y + 1) ∧ K (d + 2) (g'.deref y + 2) :=
  related_both bisim xy leads (isCons_iff.mp cell) ws.consF_is

theorem related_named {name : Nat} (bisim : Bisim tb g.cells g.len g'.cells g'.len π K) (xy : K x y)
    (leads : Leads g.cells g.len x d) (cell : isNamed tb name (g.cells d) = true) :
    K (d + 1) (g'.deref y + 1) ∧ K (d + 2) (g'.deref y + 2) := by
  obtain ⟨f, is, two, -⟩ := isNamed_iff.mp cell
  exact related_both bisim xy leads is two

theorem settles_succ {A : Type*} {f : Nat → Option A} {a : A} (rest : Settles (fun fuel => f (fuel + 1)) a) :
    Settles f a := by
  obtain ⟨n, enough⟩ := rest
  refine ⟨n + 1, ?_⟩
  intro fuel le
  obtain ⟨fuel, rfl⟩ : ∃ k, fuel = k + 1 := ⟨fuel - 1, by omega⟩
  exact enough fuel (by omega)

/-- The check goes the same way on both sides. -/
theorem check_alike (bisim : Bisim tb g.cells g.len g'.cells g'.len π K) (equations : Equations ws g l)
    (leads : Leads g.cells g.len x l) (xy : K x y) :
    ∃ ok, Settles (fun fuel => checkFactors ws g fuel l) ok ∧
      Settles (fun fuel => checkFactors ws g' fuel (g'.deref y)) ok ∧ (ok = true → Solved ws g l) := by
  induction equations generalizing x y with
  | @last l cell =>
    obtain ⟨cons, -, ref, nil⟩ := related_checks ws bisim xy leads
    refine ⟨decide (g.cells l = .atom ws.nil), settles_succ (.of_eq ?_), settles_succ (.of_eq ?_), ?_⟩
    · intro fuel
      simp [checkFactors, cell]
    · intro fuel
      simp [checkFactors, cons, cell, nil]
    · intro is
      exact .nil leads.lt (by rw [of_decide_eq_true is]; rfl) cell
  | @stray l p cell first other =>
    obtain ⟨cons, -, -, -⟩ := related_checks ws bisim xy leads
    have one := (related_cons bisim xy leads cell).1
    obtain ⟨-, named, -, -⟩ := related_checks ws bisim one first
    have at_p : g.deref (l + 1) = p := first.deref
    refine ⟨false, settles_succ (.of_eq ?_), settles_succ (.of_eq ?_), fun is => by cases is⟩
    · intro fuel
      simp [checkFactors, cell, at_p, other]
    · intro fuel
      simp [checkFactors, cons, cell, named, other]
  | @taken l p v cell first eq left held =>
    obtain ⟨cons, -, -, -⟩ := related_checks ws bisim xy leads
    have one := (related_cons bisim xy leads cell).1
    obtain ⟨-, named, -, -⟩ := related_checks ws bisim one first
    have side := (related_named bisim one first eq).1
    obtain ⟨-, -, ref, -⟩ := related_checks ws bisim side left
    have at_p : g.deref (l + 1) = p := first.deref
    have at_v : g.deref (p + 1) = v := left.deref
    refine ⟨false, settles_succ (.of_eq ?_), settles_succ (.of_eq ?_), fun is => by cases is⟩
    · intro fuel
      simp [checkFactors, cell, at_p, eq, at_v, held]
    · intro fuel
      simp [checkFactors, cons, cell, named, eq, ref, held]
  | @next l p v b l' cell first eq left free right held rest more ih =>
    obtain ⟨cons, -, -, -⟩ := related_checks ws bisim xy leads
    obtain ⟨one, two⟩ := related_cons bisim xy leads cell
    obtain ⟨-, named, -, -⟩ := related_checks ws bisim one first
    have side := (related_named bisim one first eq).1
    obtain ⟨-, -, ref, -⟩ := related_checks ws bisim side left
    have at_p : g.deref (l + 1) = p := first.deref
    have at_v : g.deref (p + 1) = v := left.deref
    have at_l' : g.deref (l + 2) = l' := rest.deref
    obtain ⟨ok, here, there, solved⟩ := ih rest two
    refine ⟨ok, settles_succ (here.congr ?_), settles_succ (there.congr ?_), fun is =>
      .cons cell first eq right held rest (solved is)⟩
    · intro fuel
      simp only [checkFactors, cell, at_p, eq, at_v, free, at_l', if_true]
    · intro fuel
      simp only [checkFactors, cons, cell, named, eq, ref, free, if_true]

theorem held_of_cons {c : Cell} (cell : isCons ws c = true) : c.isRef = false := by
  rw [isCons_iff.mp cell]
  rfl

theorem held_of_named {name : Nat} {c : Cell} (cell : isNamed tb name c = true) : c.isRef = false := by
  obtain ⟨f, is, -⟩ := isNamed_iff.mp cell
  rw [is]
  rfl

theorem Solved.leads (solved : Solved ws g l) : Leads g.cells g.len l l ∧ (g.cells l).isRef = false := by
  cases solved with
  | nil inside held _ => exact ⟨.stop inside (.inr held), held⟩
  | cons cell first _ _ _ _ _ =>
    have held := held_of_cons cell
    have inside := first.source_lt
    exact ⟨.stop (by omega) (.inr held), held⟩

/-- What led to more than a variable still does. -/
def Settled (g g' : Heap) : Prop :=
  ∀ a d, Leads g.cells g.len a d → (g.cells d).isRef = false → Leads g'.cells g'.len a d ∧ g'.cells d = g.cells d

theorem Settled.bind {h₀ : Heap} (settled : Settled h₀ h) {v : Nat} (free : h.cells v = .ref v) (b : Nat) :
    Settled h₀ { h with cells := Function.update h.cells v (.ref b) } := by
  intro a d leads held
  obtain ⟨onward, same⟩ := settled a d leads held
  have off : d ≠ v := by
    rintro rfl
    rw [← same, free] at held
    cases held
  exact ⟨onward.bind_other off free, (Function.update_of_ne off ..).trans same⟩

/-- The equations are bound the same way on both sides. -/
theorem bind_alike {h₀ : Heap} (solved : Solved ws h₀ l) (settled : Settled h₀ g)
    (bisim : Bisim tb g.cells g.len g'.cells g'.len π K) (one : ∀ v w w', π v w → π v w' → w = w')
    (own : ∀ v v' w, π v w → π v' w → v = v') (xy : K x y) (leads : Leads g.cells g.len x l) :
    ∃ (s s' : Heap) (π' : Nat → Nat → Prop), Settles (fun fuel => bindFactors ws fuel l g) s ∧
      Settles (fun fuel => bindFactors ws fuel (g'.deref y) g') s' ∧
      Bisim tb s.cells s.len s'.cells s'.len π' K ∧ ∀ v w, π' v w → π v w := by
  induction solved generalizing g g' π x y with
  | @nil l inside held cell =>
    obtain ⟨-, same⟩ := settled l l (.stop inside (.inr held)) held
    obtain ⟨cons, -, -, -⟩ := related_checks ws bisim xy leads
    rw [same, cell] at cons
    refine ⟨g, g', π, settles_succ (.of_eq ?_), settles_succ (.of_eq ?_), bisim, fun _ _ h => h⟩
    · intro fuel
      simp [bindFactors, same, cell]
    · intro fuel
      simp [bindFactors, cons]
  | @cons l p b l' cell first eq right held rest more ih =>
    have inside := first.source_lt
    obtain ⟨-, same⟩ := settled l l (.stop (by omega) (.inr (held_of_cons cell))) (held_of_cons cell)
    obtain ⟨to_p, same_p⟩ := settled _ p first (held_of_named eq)
    obtain ⟨to_b, same_b⟩ := settled _ b right held
    have cell' : isCons ws (g.cells l) = true := by rw [same, cell]
    have eq' : isNamed tb ws.eq (g.cells p) = true := by rw [same_p, eq]
    obtain ⟨cons, -, -, -⟩ := related_checks ws bisim xy leads
    rw [cell'] at cons
    obtain ⟨head, tail⟩ := related_cons bisim xy leads cell'
    obtain ⟨left, side⟩ := related_named bisim head to_p eq'
    obtain ⟨e, -, to_e, -, -⟩ := bisim _ _ left
    obtain ⟨to_e', ends⟩ := related_end bisim left to_e
    obtain ⟨to_b', -⟩ := related_end bisim side to_b
    have at_p : g.deref (l + 1) = p := to_p.deref
    have at_e : g.deref (p + 1) = e := to_e.deref
    rcases ends with ⟨free, free', paired⟩ | ⟨full, same_e, -⟩
    · -- the variable is still free, on both sides
      have bound := bisim.bind own one paired side free free' to_b to_b' (by rw [same_b]; exact held)
      have settled' := settled.bind free (p + 2)
      obtain ⟨to_l', -⟩ := settled' _ _ rest more.leads.2
      have at_l' : Heap.deref { g with cells := Function.update g.cells e (.ref (p + 2)) } (l + 2) = l' := to_l'.deref
      obtain ⟨s, s', π', here, there, after, sub⟩ :=
        @ih _ _ { g' with cells := Function.update g'.cells _ (.ref _) } _ _ settled' bound
          (fun v w w' h h' => one v w w' h.2 h'.2) (fun v v' w h h' => own v v' w h.2 h'.2) tail to_l'
      refine ⟨s, s', π', settles_succ (here.congr ?_), settles_succ (there.congr ?_), after, fun v w h => (sub v w h).2⟩
      · intro fuel
        simp only [bindFactors, cell', if_true, at_p, at_e, free, Cell.isRef, at_l']
      · intro fuel
        simp only [bindFactors, cons, if_true, free', Cell.isRef]
    · -- it was bound before
      obtain ⟨to_l', -⟩ := settled _ _ rest more.leads.2
      have at_l' : g.deref (l + 2) = l' := to_l'.deref
      obtain ⟨s, s', π', here, there, after, sub⟩ := ih settled bisim one own tail to_l'
      refine ⟨s, s', π', settles_succ (here.congr ?_), settles_succ (there.congr ?_), after, sub⟩
      · intro fuel
        simp only [bindFactors, cell', if_true, at_p, at_e, full, at_l', Bool.false_eq_true, if_false]
      · intro fuel
        simp only [bindFactors, cons, if_true, same_e, full, Bool.false_eq_true, if_false]

/-- `coco_unfactor` on both sides. -/
theorem unfactor_alike (readable : Readable ws g x) (bisim : Bisim tb g.cells g.len g'.cells g'.len π K)
    (one : ∀ v w w', π v w → π v w' → w = w') (own : ∀ v v' w, π v w → π v' w → v = v') (xy : K x y) :
    ∃ q s q' s' π' R, Settles (fun fuel => unfactor ws fuel x g) (q, s) ∧
      Settles (fun fuel => unfactor ws fuel y g') (q', s') ∧ Bisim tb s.cells s.len s'.cells s'.len π' R ∧ R q q' ∧
      ∀ v w, π' v w → π v w := by
  obtain ⟨d, -, leads, -, -⟩ := bisim x y xy
  obtain ⟨leads', -⟩ := related_end bisim xy leads
  obtain ⟨-, named, -, -⟩ := related_checks ws bisim xy leads
  have at_d : g.deref x = d := leads.deref
  have closed := bisim_closed bisim
  by_cases cyclic : isNamed tb ws.cyclic (g.cells d) = true
  · obtain ⟨root, list⟩ := related_named bisim xy leads cyclic
    have readable := readable (by rw [at_d]; exact cyclic)
    rw [at_d] at readable
    obtain ⟨l, to_l, equations⟩ := readable
    have at_l : g.deref (d + 2) = l := to_l.deref
    obtain ⟨ok, ⟨n, here⟩, ⟨n', there⟩, solved⟩ := check_alike bisim equations to_l list
    cases ok with
    | true =>
      obtain ⟨s, s', π', ⟨k, bound⟩, ⟨k', bound'⟩, after, sub⟩ :=
        bind_alike (solved rfl) (fun _ _ leads held => ⟨leads, rfl⟩) bisim one own list to_l
      refine ⟨d + 1, s, g'.deref y + 1, s', π', K, ⟨max n k, ?_⟩, ⟨max n' k', ?_⟩, after, root, sub⟩
      · intro fuel le
        simp only [unfactor, at_d, cyclic, if_true, at_l, here fuel (by omega), Option.bind_some,
          bound fuel (by omega), Option.map_some]
      · intro fuel le
        simp only [unfactor, named, cyclic, if_true, there fuel (by omega), Option.bind_some,
          bound' fuel (by omega), Option.map_some]
    | false =>
      refine ⟨d, g, g'.deref y, g', π, _, ⟨n, ?_⟩, ⟨n', ?_⟩, closed, ?_, fun _ _ h => h⟩
      · intro fuel le
        simp only [unfactor, at_d, cyclic, if_true, at_l, here fuel le, Option.bind_some, Bool.false_eq_true, if_false]
      · intro fuel le
        simp only [unfactor, named, cyclic, if_true, there fuel le, Option.bind_some, Bool.false_eq_true, if_false]
      · exact ⟨x, y, d, g'.deref y, xy, leads, .stop leads.lt leads.ends, leads', .stop leads'.lt leads'.ends⟩
  · have cyclic' : isNamed tb ws.cyclic (g.cells d) = false := by simpa using cyclic
    refine ⟨d, g, g'.deref y, g', π, _, .of_eq ?_, .of_eq ?_, closed, ?_, fun _ _ h => h⟩
    · intro fuel
      simp only [unfactor, at_d, cyclic', Bool.false_eq_true, if_false]
    · intro fuel
      simp only [unfactor, named, cyclic', Bool.false_eq_true, if_false]
    · exact ⟨x, y, d, g'.deref y, xy, leads, .stop leads.lt leads.ends, leads', .stop leads'.lt leads'.ends⟩

/- The two ways of reading. -/

/-- A cell of a block put elsewhere. -/
def shifted (t to_ : Nat) : Cell → Cell
  | .ref p => .ref (p + to_ - t)
  | c => c

/-- A block of a store behind a heap. -/
def blockOnto (h st : Heap) (t size : Nat) : Heap :=
  ⟨fun i => if h.len ≤ i ∧ i < h.len + size then shifted t h.len (st.cells (i - h.len + t)) else h.cells i, h.len + size⟩

/-- A term that was fetched, made cyclic again if the machine has put cyclic ones. -/
def finish (ws : Words tb) (fuel r : Nat) (b : Bank) : Option (Nat × Bank) :=
  if b.cycPuts = 0 then some (r, b) else (unfactor ws fuel r b.heap).map fun q => (q.1, { b with heap := q.2 })

/-- `coco_store_read_block`, `room` whether the heap grew for it. -/
def storeReadBlock (ws : Words tb) (room : Bool) (fuel t size : Nat) (b : Bank) : Option (Nat × Bank) :=
  if size = 0 ∨ room = false then storeRead ws fuel t b
  else finish ws fuel b.heap.len { b with heap := blockOnto b.heap b.store t size }

/-- A term and no more: what it names is in the `size` cells from it on. -/
structure Enclosed (tb : Tables) (st : Heap) (t size : Nat) : Prop where
  rooted : Rooted tb st.cells (t + size) t
  low : ∀ i p, t ≤ i → i < t + size → st.cells i = .ref p → t ≤ p
  inside : t + size ≤ st.len

variable {st st' : Heap} {t t' r r' n n' size low low' : Nat}

theorem storeRead_eq (fuel : Nat) (b : Bank) :
    storeRead ws fuel t b = (storeGet tb b.store fuel t b.heap).bind fun r => finish ws fuel r.1 { b with heap := r.2 } :=
  rfl

/-- A walk fetches a copy. -/
theorem storeGet_alike (rooted : Rooted tb st.cells st.len t) (h : Heap) :
    ∃ r g, Settles (fun fuel => storeGet tb st fuel t h) (r, g) ∧ Renamed tb st t g r h.len := by
  obtain ⟨r, w, settles, copied⟩ := storeGetVm_spec tb st h (finite_of_rooted rooted)
  obtain ⟨⟨R, bisim, related, -⟩, -, own, -, -⟩ := copied.bisim (rooted_whole tb st.cells st.len) rooted
  refine ⟨r, ⟨w.cells, w.len⟩, settles.map fun r => (r.1, (⟨r.2.cells, r.2.len⟩ : Heap)), _, R, bisim, related, ?_,
    fun _ _ _ => own.own, fun _ _ => own.low⟩
  intro v x x' here here'
  exact Option.some.inj (here.symm.trans here')

theorem blockOnto_cell {h : Heap} {i : Nat} (le : t ≤ i) (lt : i < t + size) :
    (blockOnto h st t size).cells (i + h.len - t) = shifted t h.len (st.cells i) := by
  have inside : h.len ≤ i + h.len - t ∧ i + h.len - t < h.len + size := by omega
  have back : i + h.len - t - h.len + t = i := by omega
  simp only [blockOnto, if_pos inside, back]

/-- A chain in a block leads to the same end in its copy. -/
theorem blockOnto_leads {h : Heap} (low : ∀ i p, t ≤ i → i < t + size → st.cells i = .ref p → t ≤ p) {a : Nat}
    (leads : Leads st.cells (t + size) a d) (le : t ≤ a) :
    t ≤ d ∧ Leads (blockOnto h st t size).cells (blockOnto h st t size).len (a + h.len - t) (d + h.len - t) := by
  induction leads with
  | @stop a inside ends =>
    refine ⟨le, .stop (show _ < h.len + size by omega) ?_⟩
    unfold End
    rw [blockOnto_cell le inside]
    rcases ends with self | held
    · exact .inl (by rw [self]; rfl)
    · refine .inr ?_
      cases cell : st.cells a with
      | ref p =>
        rw [cell] at held
        cases held
      | _ => rfl
  | @step a p d inside cell off rest ih =>
    have le' := low a p le inside cell
    obtain ⟨le_d, onward⟩ := ih le'
    have at_a : (blockOnto h st t size).cells (a + h.len - t) = .ref (p + h.len - t) := by
      rw [blockOnto_cell le inside, cell]
      rfl
    exact ⟨le_d, .step (show _ < h.len + size by omega) at_a (by omega) onward⟩

/-- A block copied whole is a copy of its term. -/
theorem blockOnto_alike (enclosed : Enclosed tb st t size) (h : Heap) :
    Renamed tb st t (blockOnto h st t size) h.len h.len := by
  obtain ⟨rooted, low, inside⟩ := enclosed
  refine ⟨fun v x => t ≤ v ∧ v < t + size ∧ x = v + h.len - t,
    fun a b => Rooted tb st.cells (t + size) a ∧ t ≤ a ∧ b = a + h.len - t, ?_, ⟨rooted, le_rfl, by omega⟩, ?_, ?_, ?_⟩
  · rintro a _ ⟨here, le, rfl⟩
    cases here with
    | @intro _ d leads args =>
      obtain ⟨le_d, onward⟩ := blockOnto_leads low leads le
      have lt_d := leads.lt
      have cell := @blockOnto_cell st t size h d le_d lt_d
      refine ⟨d, _, leads.mono (fun _ _ => rfl) inside, onward, ?_⟩
      rw [cell]
      rcases leads.ends with self | held
      · exact .inl ⟨self, by rw [self]; rfl, le_d, lt_d, rfl⟩
      · have same : shifted t h.len (st.cells d) = st.cells d := by
          cases is : st.cells d with
          | ref p =>
            rw [is] at held
            cases held
          | _ => rfl
        exact .inr ⟨held, same, fun f k is below => ⟨args f k is below, by omega, by omega⟩⟩
  · rintro v x x' ⟨-, -, rfl⟩ ⟨-, -, rfl⟩
    rfl
  · rintro v v' x ⟨le, -, is⟩ ⟨le', -, is'⟩
    omega
  · rintro v x ⟨le, -, rfl⟩
    omega

/-- Two copies of a term are variants. -/
theorem Renamed.variant {g g' : Heap} (one : Renamed tb st t g r low) (two : Renamed tb st t g' r' low') :
    Variant tb g.cells g.len r g'.cells g'.len r' low' := by
  obtain ⟨π, R, bisim, related, fun_, own, -⟩ := one
  obtain ⟨π', R', bisim', related', fun_', own', from_⟩ := two
  refine ((bisim_symm bisim).comp bisim').variant ⟨t, related, related'⟩ ?_ ?_ ?_
  · rintro v x x' ⟨w, vw, wx⟩ ⟨w', vw', wx'⟩
    obtain rfl := own _ _ _ vw vw'
    exact fun_' _ _ _ wx wx'
  · rintro v v' x ⟨w, vw, wx⟩ ⟨w', vw', wx'⟩
    obtain rfl := own' _ _ _ wx wx'
    exact fun_ _ _ _ vw vw'
  · rintro v x ⟨w, -, wx⟩
    exact from_ w x wx

/-- Two copies of a term finished alike. -/
theorem finish_alike {g g' : Heap} (readable : Readable ws st t) (one : Renamed tb st t g r low)
    (two : Renamed tb st t g' r' low') (st₁ st₂ : Heap) (n : Nat) :
    ∃ q s q' s', Settles (fun fuel => finish ws fuel r ⟨g, st₁, n⟩) (q, ⟨s, st₁, n⟩) ∧
      Settles (fun fuel => finish ws fuel r' ⟨g', st₂, n⟩) (q', ⟨s', st₂, n⟩) ∧
      Variant tb s.cells s.len q s'.cells s'.len q' low' := by
  by_cases none_ : n = 0
  · exact ⟨r, g, r', g', .of_eq fun _ => if_pos none_, .of_eq fun _ => if_pos none_, one.variant two⟩
  · obtain ⟨π, R, bisim, related, fun_, own, from_⟩ := one
    obtain ⟨π', R', bisim', related', fun_', own', from_'⟩ := two
    obtain ⟨q, s, q₁, s₁, π₁, R₁, ⟨n₁, enough⟩, here, bisim₁, related₁, sub⟩ :=
      unfactor_alike readable bisim fun_ own related
    obtain ⟨q', s', q₂, s₂, π₂, R₂, ⟨n₂, enough'⟩, there, bisim₂, related₂, sub'⟩ :=
      unfactor_alike readable bisim' fun_' own' related'
    -- the term itself is finished one way
    have same := (enough (max n₁ n₂) (by omega)).symm.trans (enough' (max n₁ n₂) (by omega))
    obtain ⟨rfl, rfl⟩ := Prod.mk.inj (Option.some.inj same)
    have left : Renamed tb s q s₁ q₁ low := ⟨π₁, R₁, bisim₁, related₁, fun v x x' h h' => fun_ v x x' (sub _ _ h) (sub _ _ h'),
      fun v v' x h h' => own v v' x (sub _ _ h) (sub _ _ h'), fun v x h => from_ v x (sub _ _ h)⟩
    have right : Renamed tb s q s₂ q₂ low' := ⟨π₂, R₂, bisim₂, related₂,
      fun v x x' h h' => fun_' v x x' (sub' _ _ h) (sub' _ _ h'),
      fun v v' x h h' => own' v v' x (sub' _ _ h) (sub' _ _ h'), fun v x h => from_' v x (sub' _ _ h)⟩
    refine ⟨q₁, s₁, q₂, s₂, ?_, ?_, left.variant right⟩
    · exact (here.map fun q => (q.1, (⟨q.2, st₁, n⟩ : Bank))).congr fun _ => if_neg none_
    · exact (there.map fun q => (q.1, (⟨q.2, st₂, n⟩ : Bank))).congr fun _ => if_neg none_

/-- One copy of another. -/
theorem Renamed.trans {g : Heap} (one : Renamed tb st t st' t' low) (two : Renamed tb st' t' g r low') :
    Renamed tb st t g r low' := by
  obtain ⟨π, R, bisim, related, fun_, own, -⟩ := one
  obtain ⟨π', R', bisim', related', fun_', own', from_⟩ := two
  refine ⟨_, _, bisim.comp bisim', ⟨t', related, related'⟩, ?_, ?_, ?_⟩
  · rintro v x x' ⟨w, vw, wx⟩ ⟨w', vw', wx'⟩
    obtain rfl := fun_ _ _ _ vw vw'
    exact fun_' _ _ _ wx wx'
  · rintro v v' x ⟨w, vw, wx⟩ ⟨w', vw', wx'⟩
    obtain rfl := own' _ _ _ wx wx'
    exact own _ _ _ vw vw'
  · rintro v x ⟨w, -, wx⟩
    exact from_ w x wx

/-- The term at `t` of the one store and that at `t'` of the other read the same, up to the
names of variables, onto whatever heaps. -/
def ReadsAlike (ws : Words tb) (n : Nat) (st : Heap) (t : Nat) (st' : Heap) (t' : Nat) : Prop :=
  ∀ h h' : Heap, ∃ r g r' g', Settles (fun fuel => storeRead ws fuel t ⟨h, st, n⟩) (r, ⟨g, st, n⟩) ∧
    Settles (fun fuel => storeRead ws fuel t' ⟨h', st', n⟩) (r', ⟨g', st', n⟩) ∧
    Variant tb g.cells g.len r g'.cells g'.len r' h'.len

/-- The same where they are read as blocks, each if there is room. -/
def BlocksAlike (ws : Words tb) (n : Nat) (st : Heap) (t size : Nat) (st' : Heap) (t' size' : Nat) : Prop :=
  ∀ (h h' : Heap) (room room' : Bool), ∃ r g r' g',
    Settles (fun fuel => storeReadBlock ws room fuel t size ⟨h, st, n⟩) (r, ⟨g, st, n⟩) ∧
      Settles (fun fuel => storeReadBlock ws room' fuel t' size' ⟨h', st', n⟩) (r', ⟨g', st', n⟩) ∧
      Variant tb g.cells g.len r g'.cells g'.len r' h'.len

/-- Every way of reading is a fetch, finished. -/
theorem storeReadBlock_eq (enclosed : Enclosed tb st t size) (h : Heap) (room : Bool) (n : Nat) :
    ∃ r g, Renamed tb st t g r h.len ∧ ∀ q : Nat × Bank,
      Settles (fun fuel => finish ws fuel r ⟨g, st, n⟩) q →
        Settles (fun fuel => storeReadBlock ws room fuel t size ⟨h, st, n⟩) q := by
  by_cases walked : size = 0 ∨ room = false
  · obtain ⟨r, g, ⟨k, fetched⟩, alike⟩ :=
      storeGet_alike (enclosed.rooted.mono (fun _ _ => rfl) enclosed.inside) h
    refine ⟨r, g, alike, fun q => ?_⟩
    rintro ⟨k', finished⟩
    refine ⟨max k k', fun fuel le => ?_⟩
    simp only [storeReadBlock, if_pos walked, storeRead_eq, fetched fuel (by omega), Option.bind_some]
    exact finished fuel (by omega)
  · refine ⟨h.len, blockOnto h st t size, blockOnto_alike enclosed h, fun q settles => settles.congr fun fuel => ?_⟩
    simp only [storeReadBlock, if_neg walked]

theorem blocksAlike (readable : Readable ws st t) (one : Enclosed tb st t size) {size' : Nat}
    (two : Enclosed tb st' t' size') (alike : Renamed tb st t st' t' 0) (n : Nat) :
    BlocksAlike ws n st t size st' t' size' := by
  intro h h' room room'
  obtain ⟨r, g, first, here⟩ := @storeReadBlock_eq tb ws st t size one h room n
  obtain ⟨r', g', second, there⟩ := @storeReadBlock_eq tb ws st' t' size' two h' room' n
  obtain ⟨q, s, q', s', settles, settles', variant⟩ := finish_alike readable first (alike.trans second) st st' n
  exact ⟨q, s, q', s', here _ settles, there _ settles', variant⟩

theorem BlocksAlike.reads {size' : Nat} (blocks : BlocksAlike ws n st t size st' t' size') :
    ReadsAlike ws n st t st' t' := by
  intro h h'
  obtain ⟨r, g, r', g', here, there, variant⟩ := blocks h h' false false
  refine ⟨r, g, r', g', here.congr fun fuel => ?_, there.congr fun fuel => ?_, variant⟩
  · exact (if_pos (.inr rfl)).symm
  · exact (if_pos (.inr rfl)).symm

end Cocolog.Copy
