import Cocolog.Copy.Get

/-! Putting a term into the store and reading it back gives the term again, up to the
names of its variables: a tree or a term with shared parts straight, a cyclic one through
its factors. -/

set_option linter.all false

namespace Cocolog.Copy

open Cocolog.Lib Cocolog.Term Cocolog.Store

variable {tb : Tables} {ws : Words tb} {π K : Nat → Nat → Prop} {H g : Heap}

/- The factors on the copy. -/

/-- A chain of references that is still there leads to the same end. -/
theorem Leads.over_ {m : Mem} {a d : Nat} (keeps : ∀ i q, H.cells i = .ref q → q ≠ i → m i = .ref q)
    (leads : Leads H.cells H.len a d) (stop : End m d) : Leads m H.len a d := by
  induction leads with
  | stop inside _ => exact .stop inside stop
  | step inside cell off _ ih => exact .step inside (keeps _ _ cell off) off (ih stop)

/-- A related cell of a compound. -/
theorem Bisim.func {m : Mem} {len : Nat} (bisim : Bisim tb m len g.cells g.len π K) {x y l f : Nat} (xy : K x y)
    (leads : Leads m len x l) (cell : m l = .func f) :
    ∃ d, Leads g.cells g.len y d ∧ g.cells d = .func f ∧ ∀ k < tb.arity f, K (l + 1 + k) (d + 1 + k) := by
  obtain ⟨d, d', reach, reach', held⟩ := bisim x y xy
  obtain rfl := leads.unique reach
  rcases held with ⟨self, -, -⟩ | ⟨-, same, args⟩
  · rw [cell] at self
    cases self
  · exact ⟨d', reach', same.trans cell, fun k below => args f k cell below⟩

/-- A related cell of a variable. -/
theorem Bisim.var {m : Mem} {len : Nat} (bisim : Bisim tb m len g.cells g.len π K) {x y v : Nat} (xy : K x y)
    (leads : Leads m len x v) (self : m v = .ref v) :
    ∃ d, Leads g.cells g.len y d ∧ g.cells d = .ref d ∧ π v d := by
  obtain ⟨d, d', reach, reach', held⟩ := bisim x y xy
  obtain rfl := leads.unique reach
  rcases held with ⟨-, self', paired⟩ | ⟨held, -, -⟩
  · exact ⟨d', reach', self', paired⟩
  · rw [self] at held
    cases held

theorem isNamed_eqF (ws : Words tb) : isNamed tb ws.eq (.func ws.eqF) = true := by
  simp [isNamed, ws.arity_eqF, ws.eqF_is]

theorem isNamed_cyclicF (ws : Words tb) : isNamed tb ws.cyclic (.func ws.cyclicF) = true := by
  simp [isNamed, ws.arity_cyclicF, ws.cyclicF_is]

/-- The copy of a list of factors passes the check. -/
theorem checkFactors_spec (bisim : Bisim tb H.cells H.len g.cells g.len π K) {l x y : Nat} {ps : List (Nat × Nat)}
    (listed : Listed ws H l ps) (pairs : ∀ p ∈ ps, H.cells p.1 = .ref p.1 ∧ p.1 < H.len)
    (leads : Leads H.cells H.len x l) (xy : K x y) :
    Settles (fun fuel => checkFactors ws g fuel (g.deref y)) true := by
  induction ps generalizing l x y with
  | nil =>
    obtain ⟨d, d', reach, reach', held⟩ := bisim x y xy
    obtain rfl := leads.unique reach
    have cell : g.cells d' = .atom ws.nil := by
      rcases held with ⟨self, -, -⟩ | ⟨-, same, -⟩
      · rw [listed.2] at self
        cases self
      · exact same.trans listed.2
    have at_y : g.deref y = d' := reach'.deref
    refine ⟨1, ?_⟩
    intro fuel le
    obtain ⟨fuel, rfl⟩ : ∃ k, fuel = k + 1 := ⟨fuel - 1, by omega⟩
    simp [checkFactors, at_y, cell, isCons]
  | cons p rest ih =>
    obtain ⟨v, b⟩ := p
    obtain ⟨q, l', ⟨lt, c0, c1, c2⟩, ⟨lt', e0, e1, e2⟩, more⟩ := listed
    obtain ⟨self, inside⟩ := pairs (v, b) List.mem_cons_self
    obtain ⟨d, at_y, cons, args⟩ := Bisim.func bisim xy leads c0
    rw [ws.consF_is] at args
    have to_q : Leads H.cells H.len (l + 1) q :=
      .of_ref (by omega) c1 (.stop (by omega) (.inr (by rw [e0]; rfl)))
    obtain ⟨q', at_q, eq, sides⟩ := Bisim.func bisim (args 0 (by omega)) to_q e0
    rw [ws.arity_eqF] at sides
    have to_v : Leads H.cells H.len (q + 1) v := .of_ref (by omega) e1 (.stop inside (.inl self))
    obtain ⟨v', at_v, self', -⟩ := Bisim.var bisim (sides 0 (by omega)) to_v self
    have to_l : Leads H.cells H.len (l + 2) l' := .of_ref (by omega) c2 more.stop
    obtain ⟨n, enough⟩ := ih more (fun p mem => pairs p (List.mem_cons_of_mem _ mem)) to_l (args 1 (by omega))
    have is_y : g.deref y = d := at_y.deref
    have is_q : g.deref (d + 1) = q' := at_q.deref
    have is_v : g.deref (q' + 1) = v' := at_v.deref
    refine ⟨n + 1, ?_⟩
    intro fuel le
    obtain ⟨fuel, rfl⟩ : ∃ k, fuel = k + 1 := ⟨fuel - 1, by omega⟩
    simp only [checkFactors, is_y, cons, isCons, decide_true, if_true, is_q, eq, isNamed_eqF, is_v, self',
      Cell.isRef]
    exact enough fuel (by omega)

/-- Binding the copies of the left sides keeps the copy in step with the factors, bound. -/
theorem bindFactors_spec {base : Nat} {ps : List (Nat × Nat)} {m : Mem} {l x y : Nat}
    (bisim : Bisim tb m H.len g.cells g.len π K) (one : ∀ v w w', π v w → π v w' → w = w')
    (own : ∀ v v' w, π v w → π v' w → v = v') (low : ∀ v w, π v w → base ≤ w)
    (close : ∀ a a' e z, K a z → Leads H.cells H.len a e → Leads H.cells H.len a' e → K a' z)
    (keeps : ∀ i q, H.cells i = .ref q → q ≠ i → m i = .ref q)
    (held : ∀ i, (H.cells i).isRef = false → m i = H.cells i)
    (listed : Listed ws H l ps) (distinct : (ps.map Prod.fst).Nodup)
    (pairs : ∀ p ∈ ps, m p.1 = .ref p.1 ∧ H.cells p.1 = .ref p.1 ∧ ∃ f, H.cells p.2 = .func f)
    (inside : ∀ p ∈ ps, p.1 < H.len ∧ p.2 < H.len)
    (leads : Leads H.cells H.len x l) (xy : K x y) :
    ∃ (g' : Heap) (π' : Nat → Nat → Prop), Settles (fun fuel => bindFactors ws fuel (g.deref y) g) g' ∧
      Bisim tb (bindAll ps m) H.len g'.cells g'.len π' K ∧ (∀ v w, π' v w → π v w) ∧
      ∀ i < base, g'.cells i = g.cells i := by
  induction ps generalizing m g π l x y with
  | nil =>
    have here : m l = .atom ws.nil := by rw [held l (by rw [listed.2]; rfl), listed.2]
    have to_l : Leads m H.len x l := Leads.over_ keeps leads (.inr (by rw [here]; rfl))
    obtain ⟨d, d', reach, reach', cases_⟩ := bisim x y xy
    obtain rfl := to_l.unique reach
    have cell : g.cells d' = .atom ws.nil := by
      rcases cases_ with ⟨self, -, -⟩ | ⟨-, same, -⟩
      · rw [here] at self
        cases self
      · exact same.trans here
    have at_y : g.deref y = d' := reach'.deref
    refine ⟨g, π, ⟨1, ?_⟩, bisim, fun _ _ h => h, fun _ _ => rfl⟩
    intro fuel le
    obtain ⟨fuel, rfl⟩ : ∃ k, fuel = k + 1 := ⟨fuel - 1, by omega⟩
    simp [bindFactors, at_y, cell, isCons]
  | cons p rest ih =>
    obtain ⟨v, b⟩ := p
    obtain ⟨q, l', ⟨lt, c0, c1, c2⟩, ⟨lt', e0, e1, e2⟩, more⟩ := listed
    obtain ⟨fresh, distinct'⟩ := List.nodup_cons.mp distinct
    obtain ⟨unbound, self, f, body⟩ := pairs (v, b) List.mem_cons_self
    obtain ⟨in_v, in_b⟩ := inside (v, b) List.mem_cons_self
    simp only at unbound self body in_v in_b
    -- the list, the equation and the variable, on both sides
    have m_l : m l = .func ws.consF := by rw [held l (by rw [c0]; rfl), c0]
    have m_q : m q = .func ws.eqF := by rw [held q (by rw [e0]; rfl), e0]
    have m_b : m b = .func f := by rw [held b (by rw [body]; rfl), body]
    obtain ⟨d, at_y, cons, args⟩ :=
      Bisim.func bisim xy (Leads.over_ keeps leads (.inr (by rw [m_l]; rfl))) m_l
    rw [ws.consF_is] at args
    have to_q : Leads H.cells H.len (l + 1) q :=
      .of_ref (by omega) c1 (.stop (by omega) (.inr (by rw [e0]; rfl)))
    obtain ⟨q', at_q, eq, sides⟩ :=
      Bisim.func bisim (args 0 (by omega)) (Leads.over_ keeps to_q (.inr (by rw [m_q]; rfl))) m_q
    rw [ws.arity_eqF] at sides
    have to_v : Leads H.cells H.len (q + 1) v := .of_ref (by omega) e1 (.stop in_v (.inl self))
    obtain ⟨v', at_v, self', paired⟩ :=
      Bisim.var bisim (sides 0 (by omega)) (Leads.over_ keeps to_v (.inl unbound)) unbound
    have b_stop : Leads H.cells H.len b b := .stop in_b (.inr (by rw [body]; rfl))
    have to_b : Leads H.cells H.len (q + 2) b := .of_ref (by omega) e2 b_stop
    have related : K b (q' + 2) := close _ _ _ _ (sides 1 (by omega)) to_b b_stop
    have m_stop : Leads m H.len b b := .stop in_b (.inr (by rw [m_b]; rfl))
    obtain ⟨c, at_c, -, -⟩ := Bisim.func bisim related m_stop m_b
    have bound := bisim.bind own one paired related unbound self' m_stop at_c (by rw [m_b]; rfl)
    have to_l : Leads H.cells H.len (l + 2) l' := .of_ref (by omega) c2 more.stop
    have elsewhere : ∀ {i}, i ≠ v → Function.update m v (.ref b) i = m i := fun off => Function.update_of_ne off ..
    obtain ⟨g', π', settles, after, sub, below⟩ :=
      ih (g := { g with cells := Function.update g.cells v' (.ref (q' + 2)) }) bound
        (fun a w w' h h' => one a w w' h.2 h'.2) (fun a a' w h h' => own a a' w h.2 h'.2)
        (fun a w h => low a w h.2)
        (fun i r cell off => by
          have other : i ≠ v := by
            rintro rfl
            exact off (Cell.ref.inj (cell.symm.trans self))
          rw [elsewhere other]
          exact keeps i r cell off)
        (fun i holds => by
          have other : i ≠ v := by
            rintro rfl
            rw [self] at holds
            cases holds
          rw [elsewhere other]
          exact held i holds)
        more distinct'
        (fun p mem => by
          obtain ⟨free, selfs, comp⟩ := pairs p (List.mem_cons_of_mem _ mem)
          have other : p.1 ≠ v := by
            intro at_
            have there : p.1 ∈ rest.map Prod.fst := List.mem_map_of_mem mem
            rw [at_] at there
            exact fresh there
          exact ⟨(elsewhere other).trans free, selfs, comp⟩)
        (fun p mem => inside p (List.mem_cons_of_mem _ mem)) to_l (args 1 (by omega))
    have is_y : g.deref y = d := at_y.deref
    have is_q : g.deref (d + 1) = q' := at_q.deref
    have is_v : g.deref (q' + 1) = v' := at_v.deref
    refine ⟨g', π', ?_, after, fun a w h => (sub a w h).2, ?_⟩
    · obtain ⟨n, enough⟩ := settles
      refine ⟨n + 1, ?_⟩
      intro fuel le
      obtain ⟨fuel, rfl⟩ : ∃ k, fuel = k + 1 := ⟨fuel - 1, by omega⟩
      simp only [bindFactors, is_y, cons, isCons, decide_true, if_true, is_q, is_v, self', Cell.isRef]
      exact enough fuel (by omega)
    · intro i lt_base
      rw [below i lt_base]
      have := low v v' paired
      exact Function.update_of_ne (by omega) ..

/- The store. -/

/-- A machine's heap, a store, and how many cyclic terms were put as their factors. -/
structure Bank where
  heap : Heap
  store : Heap
  cycPuts : Nat

/-- `coco_store_put_over`: the store wound back to where the put began, a term without a
cycle put whole, any other as its factors, and the heap wound back after. -/
def storePutOver (ws : Words tb) (fuel t base : Nat) (b : Bank) : Option (Nat × Bank) :=
  let st : Heap := ⟨b.store.cells, base⟩
  (acyclic tb b.heap fuel t).bind fun tree =>
    if tree then
      (putWalk tb b.heap fuel t (.over_ st none)).map fun r => (r.1, { b with store := ⟨r.2.cells, r.2.len⟩ })
    else
      (factorize ws fuel t b.heap).bind fun f =>
        let made : Nat × Heap :=
          match f.1 with
          | some r => (r, f.2)
          | none => (f.2.len, pushCell f.2 (.atom ws.cyclic))
        (putWalk tb made.2 fuel made.1 (.over_ st none)).map fun r =>
          (r.1, ⟨⟨made.2.cells, b.heap.len⟩, ⟨r.2.cells, r.2.len⟩, b.cycPuts + 1⟩)

/-- `coco_store_put`. -/
def storePut (ws : Words tb) (fuel t : Nat) (b : Bank) : Option (Nat × Bank) :=
  (putWalk tb b.heap fuel t (.over_ b.store (some (b.store.len + (b.heap.len * 2 + 64))))).bind fun r =>
    if r.2.wceil = some 0 then storePutOver ws fuel t b.store.len { b with store := ⟨r.2.cells, r.2.len⟩ }
    else some (r.1, { b with store := ⟨r.2.cells, r.2.len⟩ })

/-- `coco_store_read`. -/
def storeRead (ws : Words tb) (fuel t : Nat) (b : Bank) : Option (Nat × Bank) :=
  (storeGet tb b.store fuel t b.heap).bind fun r =>
    if b.cycPuts = 0 then some (r.1, { b with heap := r.2 })
    else (unfactor ws fuel r.1 r.2).map fun q => (q.1, { b with heap := q.2 })

/-- What a put leaves: the term itself in the store, or its factors. -/
inductive Stored {tb : Tables} (ws : Words tb) (t : Nat) (b : Bank) (r : Nat) (b' : Bank) : Prop where
  | straight (st : Heap) (w : Walk) (same : ∀ i < b.store.len, st.cells i = b.store.cells i)
      (len : st.len = b.store.len) (copied : Copied tb b.heap st t r w)
      (is : b' = { b with store := ⟨w.cells, w.len⟩ })
  | factors (st H : Heap) (f l : Nat) (ps : List (Nat × Nat)) (w : Walk)
      (same : ∀ i < b.store.len, st.cells i = b.store.cells i) (len : st.len = b.store.len)
      (factored : Factored ws t b.heap H f l ps) (copied : Copied tb H st f r w)
      (is : b' = ⟨⟨H.cells, b.heap.len⟩, ⟨w.cells, w.len⟩, b.cycPuts + 1⟩)

theorem storePutOver_spec (ws : Words tb) {b : Bank} {st : Heap} {live : Nat → Prop} {t : Nat}
    (whole : Whole tb b.heap.cells b.heap.len live) (alive : live t)
    (same : ∀ i < b.store.len, st.cells i = b.store.cells i) :
    ∃ r b', Settles (fun fuel => storePutOver ws fuel t b.store.len { b with store := st }) (r, b') ∧
      Stored ws t b r b' := by
  obtain ⟨yes, asked, right⟩ := acyclic_spec whole alive
  cases yes with
  | true =>
    obtain ⟨r, w, walked, inv, none_⟩ := putWalk_finite tb b.heap ⟨st.cells, b.store.len⟩ none (right rfl)
    rcases inv with ⟨-, C, putting⟩ | ⟨no, -⟩
    · obtain ⟨n, enough⟩ := asked
      obtain ⟨k, enough'⟩ := walked
      refine ⟨r, _, ⟨max n k, ?_⟩, .straight ⟨st.cells, b.store.len⟩ w same rfl ⟨none_, C, putting⟩ rfl⟩
      intro fuel le
      simp only [storePutOver, enough fuel (by omega), Option.bind_some, if_true]
      simp only [enough' fuel (by omega), Option.map_some]
    · exact absurd rfl no
  | false =>
    by_cases comp : ∃ f, b.heap.cells (b.heap.deref t) = .func f
    · obtain ⟨f, cell⟩ := comp
      obtain ⟨root, H, l, ps, made, factored⟩ := factorize_spec ws whole alive cell
      obtain ⟨r, w, walked, inv, none_⟩ :=
        putWalk_finite tb H ⟨st.cells, b.store.len⟩ none (finite_of_rooted factored.rooted)
      rcases inv with ⟨-, C, putting⟩ | ⟨no, -⟩
      · obtain ⟨n, enough⟩ := asked
        obtain ⟨k, enough'⟩ := made
        obtain ⟨j, enough''⟩ := walked
        refine ⟨r, _, ⟨max n (max k j), ?_⟩,
          .factors ⟨st.cells, b.store.len⟩ H root l ps w same rfl factored ⟨none_, C, putting⟩ rfl⟩
        intro fuel le
        simp only [storePutOver, enough fuel (by omega), enough' fuel (by omega), Option.bind_some,
          Bool.false_eq_true, if_false]
        simp only [enough'' fuel (by omega), Option.map_some]
      · exact absurd rfl no
    · -- what is no compound has no cycle, and the answer was no
      exfalso
      obtain ⟨n, enough⟩ := asked
      have answer := enough n le_rfl
      simp only [acyclic] at answer
      split at answer
      · rename_i f cell
        exact comp ⟨f, cell⟩
      · cases answer

theorem storePut_spec (ws : Words tb) (b : Bank) {live : Nat → Prop} {t : Nat}
    (whole : Whole tb b.heap.cells b.heap.len live) (alive : live t) :
    ∃ r b', Settles (fun fuel => storePut ws fuel t b) (r, b') ∧ Stored ws t b r b' := by
  obtain ⟨r, w, walked, inv, none_⟩ :=
    putWalk_under tb b.heap b.store t (b.store.len + (b.heap.len * 2 + 64))
  obtain ⟨n, enough⟩ := walked
  rcases inv with ⟨ceil, C, putting⟩ | ⟨-, given, -, kept⟩
  · have under : ¬ w.wceil = some 0 := by
      rw [ceil, Option.some.injEq]
      omega
    refine ⟨r, _, ⟨n, ?_⟩, .straight b.store w (fun _ _ => rfl) rfl ⟨none_, C, putting⟩ rfl⟩
    intro fuel le
    simp only [storePut, enough fuel le, Option.bind_some, if_neg under]
  · obtain ⟨r', b', ⟨k, enough'⟩, stored⟩ :=
      @storePutOver_spec tb ws b ⟨w.cells, w.len⟩ live t whole alive kept
    refine ⟨r', b', ⟨max n k, ?_⟩, stored⟩
    intro fuel le
    simp only [storePut, enough fuel (by omega), Option.bind_some, if_pos given]
    exact enough' fuel (by omega)

/-- The root of the term is no `$cyclic` of two arguments. -/
def PlainRoot (ws : Words tb) (h : Heap) (t : Nat) : Prop := isNamed tb ws.cyclic (h.cells (h.deref t)) = false

/-- Two walks one after the other, from the heap into the store and back, pair the
variables one to one, with new ones. -/
theorem copied_twice {h st h' : Heap} {live : Nat → Prop} {t r r' : Nat} {w w' : Walk}
    (whole : Whole tb h.cells h.len live) (alive : live t) (put : Copied tb h st t r w)
    (got : Copied tb ⟨w.cells, w.len⟩ h' r r' w') :
    ∃ π R : Nat → Nat → Prop, Bisim tb h.cells h.len w'.cells w'.len π R ∧ R t r' ∧
      (∀ d, Leads w'.cells w'.len r' d → R t d) ∧ (∀ v x x', π v x → π v x' → x = x') ∧
      (∀ v v' x, π v x → π v' x → v = v') ∧ ∀ v x, π v x → h'.len ≤ x := by
  obtain ⟨⟨R, bisim, related, -⟩, rooted, own, -, -⟩ := put.bisim whole alive
  obtain ⟨⟨R', bisim', related', on⟩, -, own', -, -⟩ :=
    got.bisim (rooted_whole tb w.cells w.len) rooted
  refine ⟨_, _, bisim.comp bisim', ⟨r, related, related'⟩, fun d leads => ⟨r, related, on d leads⟩, ?_, ?_, ?_⟩
  · rintro v x x' ⟨y, one, two⟩ ⟨y', one', two'⟩
    obtain rfl := Option.some.inj (one.symm.trans one')
    exact Option.some.inj (two.symm.trans two')
  · rintro v v' x ⟨y, one, two⟩ ⟨y', one', two'⟩
    obtain rfl := own'.own two two'
    exact own.own one one'
  · rintro v x ⟨y, -, two⟩
    exact own'.low two

/-- A term read back without being taken for factors. -/
theorem unfactor_plain {ws : Words tb} {g : Heap} {r : Nat} (plain : PlainRoot ws g r) (fuel : Nat) :
    unfactor ws fuel r g = some (g.deref r, g) := by
  unfold PlainRoot at plain
  simp only [unfactor, plain, Bool.false_eq_true, if_false]

/-- Reading back what was put straight. -/
theorem Copied.read {st h : Heap} {live : Nat → Prop} {t r n : Nat} {w : Walk} (ws : Words tb)
    (whole : Whole tb h.cells h.len live) (alive : live t) (plain : PlainRoot ws h t)
    (put : Copied tb h st t r w) :
    ∃ r' g, Settles (fun fuel => storeRead ws fuel r ⟨h, ⟨w.cells, w.len⟩, n⟩) (r', ⟨g, ⟨w.cells, w.len⟩, n⟩) ∧
      Variant tb h.cells h.len t g.cells g.len r' h.len ∧ ∀ i < h.len, g.cells i = h.cells i := by
  obtain ⟨-, rooted, -, -, -⟩ := put.bisim whole alive
  obtain ⟨r', w', ⟨k, enough⟩, got⟩ := storeGetVm_spec tb ⟨w.cells, w.len⟩ h (finite_of_rooted rooted)
  obtain ⟨π, R, bisim, related, on, one, own, low⟩ := copied_twice whole alive put got
  obtain ⟨-, rooted', -, kept, -⟩ := got.bisim (rooted_whole tb w.cells w.len) rooted
  by_cases none_ : n = 0
  · refine ⟨r', ⟨w'.cells, w'.len⟩, ⟨k, ?_⟩, bisim.variant related one own low, kept⟩
    intro fuel le
    simp only [storeRead, storeGet, enough fuel le, Option.map_some, Option.bind_some, if_pos none_]
  · obtain ⟨d, leads, -⟩ := rooted_whole tb _ _ _ rooted'
    have at_r : (⟨w'.cells, w'.len⟩ : Heap).deref r' = d := leads.deref
    -- the copy's root is the term's, so it is not taken for factors
    have plain' : PlainRoot ws ⟨w'.cells, w'.len⟩ r' := by
      obtain ⟨c, c', reach, reach', held⟩ := bisim t r' related
      obtain rfl := leads.unique reach'
      have at_t : h.deref t = c := reach.deref
      unfold PlainRoot at plain ⊢
      rw [at_t] at plain
      rw [at_r]
      rcases held with ⟨-, self', -⟩ | ⟨-, same, -⟩
      · simp only [self', isNamed]
      · simp only [same]
        exact plain
    refine ⟨d, ⟨w'.cells, w'.len⟩, ⟨k, ?_⟩, bisim.variant (on d leads) one own low, kept⟩
    intro fuel le
    simp only [storeRead, storeGet, enough fuel le, Option.map_some, Option.bind_some, if_neg none_,
      unfactor_plain plain' fuel, at_r]

/-- Reading back what was put as its factors. -/
theorem Factored.read {ws : Words tb} {st h H : Heap} {t f l r n : Nat} {ps : List (Nat × Nat)}
    {w : Walk} (factored : Factored ws t h H f l ps) (put : Copied tb H st f r w) (some_ : n ≠ 0) :
    ∃ r' g, Settles (fun fuel => storeRead ws fuel r ⟨⟨H.cells, h.len⟩, ⟨w.cells, w.len⟩, n⟩)
        (r', ⟨g, ⟨w.cells, w.len⟩, n⟩) ∧
      Variant tb h.cells h.len t g.cells g.len r' h.len ∧ ∀ i < h.len, g.cells i = h.cells i := by
  have whole_H := rooted_whole tb H.cells H.len
  obtain ⟨-, rooted, -, -, -⟩ := put.bisim whole_H factored.rooted
  obtain ⟨r', w', ⟨k, enough⟩, got⟩ := storeGetVm_spec tb ⟨w.cells, w.len⟩ ⟨H.cells, h.len⟩ (finite_of_rooted rooted)
  obtain ⟨π, R, bisim, related, -, one, own, low⟩ := copied_twice whole_H factored.rooted put got
  obtain ⟨-, -, -, kept, -⟩ := got.bisim (rooted_whole tb w.cells w.len) rooted
  -- cells that lead to the same end are related alike
  have closed := bisim.ends
  have f_stop : Leads H.cells H.len f f := by
    have := factored.inside
    exact .stop (by omega) (.inr (by rw [factored.head]; rfl))
  have to_l : Leads H.cells H.len (f + 2) l := .of_ref factored.inside factored.second factored.listed.stop
  obtain ⟨d, at_r, cyclic, args⟩ :=
    @Bisim.func tb _ _ ⟨w'.cells, w'.len⟩ _ _ closed f r' f _ ⟨f, f, related, f_stop, f_stop⟩ f_stop factored.head
  rw [ws.arity_cyclicF] at args
  have check := @checkFactors_spec tb ws _ _ H ⟨w'.cells, w'.len⟩ closed l (f + 2) (d + 2) ps factored.listed
    (fun p mem => ⟨(factored.pairs p mem).1, (factored.within p mem).1⟩) to_l (args 1 (by omega))
  obtain ⟨g, π', bound, after, sub, below⟩ :=
    @bindFactors_spec tb ws _ _ H ⟨w'.cells, w'.len⟩ h.len ps H.cells l (f + 2) (d + 2) closed one own low
      (fun a a' e z => by
        rintro ⟨a₁, e₁, holds, to_e₁, from_e₁⟩ to_e to_e'
        obtain rfl := to_e.unique to_e₁
        exact ⟨a₁, e, holds, to_e', from_e₁⟩)
      (fun _ _ cell _ => cell) (fun _ _ => rfl) factored.listed factored.distinct
      (fun p mem => ⟨(factored.pairs p mem).1, factored.pairs p mem⟩) factored.within to_l (args 1 (by omega))
  obtain ⟨R₁, mend, start⟩ := factored.mend
  have both := mend.comp after
  obtain ⟨n₁, enough₁⟩ := check
  obtain ⟨n₂, enough₂⟩ := bound
  have at_d : (⟨w'.cells, w'.len⟩ : Heap).deref r' = d := at_r.deref
  simp only at cyclic
  refine ⟨d + 1, g, ⟨max k (max n₁ n₂), ?_⟩, ?_, ?_⟩
  · intro fuel le
    simp only [storeRead, storeGet, enough fuel (by omega), Option.map_some, Option.bind_some, if_neg some_,
      unfactor, at_d, cyclic, isNamed_cyclicF, if_true, enough₁ fuel (by omega), enough₂ fuel (by omega)]
  · refine both.variant ⟨f + 1, start, args 0 (by omega)⟩ ?_ ?_ ?_
    · rintro v x x' ⟨_, ⟨rfl, -⟩, first⟩ ⟨_, ⟨rfl, -⟩, second⟩
      exact one _ _ _ (sub _ _ first) (sub _ _ second)
    · rintro v v' x ⟨_, ⟨rfl, -⟩, first⟩ ⟨_, ⟨rfl, -⟩, second⟩
      exact own _ _ _ (sub _ _ first) (sub _ _ second)
    · rintro v x ⟨_, -, first⟩
      exact low _ _ (sub _ _ first)
  · intro i lt
    rw [below i lt]
    exact (kept i lt).trans (factored.longer.same i lt)

/-- A term whose copy has no cycle has none. -/
theorem finite_of_bisim {h g : Mem} {len glen t r : Nat} (bisim : Bisim tb h len g glen π K) (related : K t r)
    (rooted : Rooted tb g glen r) : Finite tb (itemAt h len) t := by
  induction rooted generalizing t with
  | @intro r d leads _ ih =>
    obtain ⟨c, c', reach, reach', held⟩ := bisim t r related
    obtain rfl := leads.unique reach'
    constructor
    intro s f k is below
    obtain ⟨rfl, cell⟩ := itemAt_func reach is
    rcases held with ⟨self, -, -⟩ | ⟨-, same, args⟩
    · rw [cell] at self
      cases self
    · exact ih f k (same.trans cell) below (args f k cell below)

/-- The tables of a program with `f`, `$cyclic`, `=` and the list's functor, two arguments
each. -/
def knotTables : Tables where
  functors := fun k => ⟨k, 2⟩

def knotWords : Words knotTables := ⟨1, 2, 1, 2, 3, 9, rfl, rfl, rfl⟩

/-- The heap of `X = f(X, Y)` and an empty store. -/
def knotBank : Bank :=
  ⟨⟨fun | 0 => .func 0 | 1 => .ref 0 | i => .ref i, 3⟩, ⟨fun i => .ref i, 0⟩, 0⟩

theorem knot_whole : Whole knotTables knotBank.heap.cells knotBank.heap.len (· < 3) := by
  intro a lt
  have root : Leads knotBank.heap.cells knotBank.heap.len 0 0 := .stop (by decide) (.inr rfl)
  have args : ∀ f k, knotBank.heap.cells 0 = .func f → k < knotTables.arity f → 0 + 1 + k < 3 := by
    intro f k _ below
    have two : knotTables.arity f = 2 := rfl
    omega
  match a, lt with
  | 0, _ => exact ⟨0, root, args⟩
  | 1, _ => exact ⟨0, .step (by decide) rfl (by decide) root, args⟩
  | 2, _ => exact ⟨2, .stop (by decide) (.inl rfl), fun _ _ cell => (nomatch cell)⟩

end Cocolog.Copy
