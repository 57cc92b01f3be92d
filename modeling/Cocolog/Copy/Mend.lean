import Cocolog.Copy.Factors

/-! The factors put back, the list of those kept, and what the whole comes to: bind the
variables of the list and the template is the term, and without that there is no cycle. -/

set_option linter.all false

namespace Cocolog.Copy

open Cocolog.Lib Cocolog.Term Cocolog.Store

variable {tb : Tables} {h : Heap} {live : Nat → Prop} {t v : Nat} {C : Nat → Nat → Nat → Prop} {w : Walk}
  {m : Meeting}

/- The template with every factor in its place. -/

/-- A memory that has every factor's variable bound to the factor's term, and the copies as
they are otherwise. -/
structure Mended (h : Heap) (m : Meeting) (bodies : List Nat) (w : Walk) (g : Mem) (glen : Nat) : Prop where
  same : ∀ i < w.len, i ∉ factorVars h m.sh.length → g i = w.cells i
  bound : ∀ {j b}, bodies[j]? = some b → g (h.len + j) = .ref b
  le : w.len ≤ glen

theorem mem_factorVars {n x : Nat} : x ∈ factorVars h n ↔ ∃ j < n, x = h.len + j := by
  simp only [factorVars, List.mem_map, List.mem_range]
  constructor
  · rintro ⟨j, lt, rfl⟩
    exact ⟨j, lt, rfl⟩
  · rintro ⟨j, lt, rfl⟩
    exact ⟨j, lt, rfl⟩

section Mended

variable {tmpl glen : Nat} {bodies : List Nat} {g : Mem}

/-- The copies once the loop is done. -/
theorem Copies.laid (copies : Copies tb h live m t tmpl m.sh bodies C w) (none_ : w.frames = []) :
    Laid True tb (cutItem h m.sh) (FactorVar h m.sh) C (fun _ _ _ => False) w.cells w.len := copies.built.done none_

/-- The variables made are unbound while the copies are made. -/
theorem Copies.unbound (copies : Copies tb h live m t tmpl m.sh bodies C w) {x : Nat}
    (mem : x ∈ factorVars h m.sh.length) : w.cells x = .ref x ∧ x < w.len ∧ h.len ≤ x := by
  obtain ⟨j, lt, rfl⟩ := mem_factorVars.mp mem
  have grown := copies.built.grown
  rw [factorStart_len] at grown
  refine ⟨?_, by omega, by omega⟩
  rw [copies.built.kept _ (by rw [factorStart_len]; omega), factorStart_var h m lt]

theorem Mended.held (mended : Mended h m bodies w g glen) (copies : Copies tb h live m t tmpl m.sh bodies C w)
    {x : Nat} (lt : x < w.len) (held : (w.cells x).isRef = false) : g x = w.cells x := by
  refine mended.same x lt ?_
  intro mem
  rw [(copies.unbound mem).1] at held
  cases held

/-- Factor `j`'s term. -/
theorem Copies.body (copies : Copies tb h live m t tmpl m.sh bodies C w) {j s : Nat} (at_j : m.sh[j]? = some s) :
    ∃ b f, bodies[j]? = some b ∧ h.cells s = .func f ∧ C s f b := by
  have all := copies.bodies
  have below : j < m.sh.length := (List.getElem?_eq_some_iff.mp at_j).1
  have same := all.length_eq
  obtain ⟨b, at_b⟩ : ∃ b, bodies[j]? = some b := ⟨_, List.getElem?_eq_getElem (by omega)⟩
  obtain ⟨f, cell, block⟩ := all.get (i := j) below (by omega)
  rw [List.getElem?_eq_some_iff] at at_j at_b
  obtain ⟨-, rfl⟩ := at_j
  obtain ⟨lt, rfl⟩ := at_b
  exact ⟨_, f, List.getElem?_eq_getElem lt, cell, block⟩

theorem Mended.block (mended : Mended h m bodies w g glen) (copies : Copies tb h live m t tmpl m.sh bodies C w)
    {s f b : Nat} (here : C s f b) : g b = .func f ∧ Leads g glen b b := by
  obtain ⟨cell, lt⟩ := copies.built.laid.head here
  have header : g b = .func f := (mended.held copies (by omega) (by rw [cell]; rfl)).trans cell
  have le := mended.le
  exact ⟨header, .stop (by omega) (.inr (by rw [header]; rfl))⟩

/-- Where an image leads once the factors are in their places. -/
theorem Mended.image (mended : Mended h m bodies w g glen) (copies : Copies tb h live m t tmpl m.sh bodies C w)
    {a c x : Nat} (leads : Leads h.cells h.len a c)
    (image : Image (cutItem h m.sh) (FactorVar h m.sh) C w.cells w.len a x) :
    ∃ e, Leads g glen x e ∧ ((h.cells c = .ref c ∧ g e = .ref e ∧ e = c) ∨
      (flat (h.cells c) = true ∧ g e = h.cells c) ∨
      ∃ f, h.cells c = .func f ∧ C c f e) := by
  have le := mended.le
  have is : cutItem h m.sh a = _ := cutItem_leads leads
  have sees := copies.sees
  -- a factor is its variable, which leads to its term
  have factor : ∀ {j}, m.sh[j]? = some c → x = h.len + j →
      ∃ e f, Leads g glen x e ∧ h.cells c = .func f ∧ C c f e := by
    rintro j at_j rfl
    obtain ⟨b, f, at_b, cell, block⟩ := copies.body at_j
    obtain ⟨header, stop⟩ := mended.block copies block
    have below : j < m.sh.length := (List.getElem?_eq_some_iff.mp at_j).1
    have inside := (copies.unbound (mem_factorVars.mpr ⟨j, below, rfl⟩)).2.1
    exact ⟨b, f, .of_ref (by omega) (mended.bound at_b) stop, cell, block⟩
  cases cell : h.cells c with
  | func f =>
    simp only [cell] at is
    split at is
    · simp only [Image, is] at image
      rcases image with ⟨-, self, -⟩ | ⟨j, at_j, at_x⟩
      · rw [cell] at self
        cases self
      · obtain ⟨e, f', onward, cell', block⟩ := factor at_j at_x
        rw [cell] at cell'
        obtain rfl := Cell.func.inj cell'
        exact ⟨e, onward, .inr (.inr ⟨_, rfl, block⟩)⟩
    · simp only [Image, is] at image
      exact ⟨x, (mended.block copies image).2, .inr (.inr ⟨f, rfl, image⟩)⟩
  | ref p =>
    simp only [cell] at is
    simp only [Image, is] at image
    rcases image with ⟨lt, self, rfl⟩ | ⟨j, at_j, at_x⟩
    · have off : x ∉ factorVars h m.sh.length := by
        intro mem
        have := (copies.unbound mem).2.2
        omega
      have seen := sees.le
      have here : g x = .ref x := by rw [mended.same x (by omega) off, sees.same x lt, self]
      rw [cell] at self
      exact ⟨x, .stop (by omega) (.inl here), .inl ⟨self, here, rfl⟩⟩
    · obtain ⟨e, f', -, cell', -⟩ := factor at_j at_x
      rw [cell] at cell'
      cases cell'
  | _ =>
    simp only [cell] at is
    simp only [Image, is] at image
    obtain ⟨held, lt, -⟩ := image
    have here := mended.held copies lt (by rw [held]; rfl)
    exact ⟨x, .stop (by omega) (.inr (by rw [here, held]; rfl)), .inr (.inl ⟨rfl, here.trans held⟩)⟩

/-- With every factor in its place the copy of a term is the term. -/
theorem Mended.bisim (whole : Whole tb h.cells h.len live) (mended : Mended h m bodies w g glen)
    (copies : Copies tb h live m t tmpl m.sh bodies C w) (none_ : w.frames = []) :
    Bisim tb h.cells h.len g glen (fun v x => x = v ∧ v < h.len) fun a y =>
      live a ∧ ∃ x e, Image (cutItem h m.sh) (FactorVar h m.sh) C w.cells w.len a x ∧ Leads g glen x e ∧
        Leads g glen y e := by
  rintro a y ⟨alive, x, e, image, from_x, from_y⟩
  obtain ⟨c, leads, args⟩ := whole a alive
  obtain ⟨e', onward, held⟩ := mended.image copies leads image
  obtain rfl := from_x.unique onward
  refine ⟨c, e, leads, from_y, ?_⟩
  rcases held with ⟨self, self', rfl⟩ | ⟨flat_, same⟩ | ⟨f, cell, block⟩
  · exact .inl ⟨self, self', rfl, leads.lt⟩
  · refine .inr ⟨not_ref_of_flat flat_, same, ?_⟩
    intro f k cell
    rw [cell] at flat_
    cases flat_
  · obtain ⟨header, -⟩ := mended.block copies block
    refine .inr ⟨by rw [cell]; rfl, header.trans cell.symm, ?_⟩
    intro f' k cell' below
    rw [cell] at cell'
    obtain rfl := Cell.func.inj cell'
    refine ⟨args _ k cell below, ?_⟩
    have laid := copies.laid none_
    rcases laid.slot block below with no | ⟨z, slot, image', -⟩
    · exact no.elim
    · obtain ⟨c', leads', -⟩ := whole _ (args _ k cell below)
      obtain ⟨e', onward', -⟩ := mended.image copies leads' image'
      refine ⟨z, e', image', onward', ?_⟩
      have le := mended.le
      have lt := (laid.head block).2
      have low := copies.built.low block
      rw [factorStart_len] at low
      have off : e + 1 + k ∉ factorVars h m.sh.length := by
        intro mem
        obtain ⟨j, lt', at_⟩ := mem_factorVars.mp mem
        omega
      exact .of_ref (by omega) ((mended.same _ (by omega) off).trans slot) onward'

end Mended

/- The factors put back. -/

/-- What putting the factors back leaves: some of the variables bound, each to its term,
the others kept, and every term that had no cycle still without one. -/
structure PutsBack (tb : Tables) (ps : List (Nat × Nat)) (h h' : Heap) (kept : List (Nat × Nat)) : Prop where
  len : h'.len = h.len
  sub : kept.Sublist ps
  same : ∀ i, i ∉ ps.map Prod.fst → h'.cells i = h.cells i
  either : ∀ p ∈ ps, (p ∈ kept ∧ h'.cells p.1 = .ref p.1) ∨ (p ∉ kept ∧ h'.cells p.1 = .ref p.2)
  rooted : ∀ {x}, Rooted tb h.cells h.len x → Rooted tb h'.cells h'.len x

theorem putBack_spec (tb : Tables) (ps : List (Nat × Nat)) (h : Heap) (distinct : (ps.map Prod.fst).Nodup)
    (unbound : ∀ p ∈ ps, h.cells p.1 = .ref p.1)
    (bodies : ∀ p ∈ ps, (∃ f, h.cells p.2 = .func f) ∧ Rooted tb h.cells h.len p.2) :
    ∃ h' kept, Settles (fun fuel => putBack tb fuel ps h) (h', kept) ∧ PutsBack tb ps h h' kept := by
  induction ps generalizing h with
  | nil =>
    refine ⟨h, [], Settles.of_eq fun _ => rfl, rfl, .refl _, fun _ _ => rfl, ?_, id⟩
    exact fun p mem => (nomatch mem)
  | cons p rest ih =>
    obtain ⟨v, b⟩ := p
    obtain ⟨fresh, distinct'⟩ := List.nodup_cons.mp distinct
    have self : h.cells v = .ref v := unbound (v, b) List.mem_cons_self
    obtain ⟨⟨f, cell⟩, rooted_b⟩ := bodies (v, b) List.mem_cons_self
    have others : ∀ p ∈ rest, p.1 ≠ v ∧ p ≠ (v, b) := by
      intro p mem
      have off : p.1 ≠ v := by
        intro at_
        have there : p.1 ∈ rest.map Prod.fst := List.mem_map_of_mem mem
        rw [at_] at there
        exact fresh there
      exact ⟨off, fun same => off (by rw [same])⟩
    obtain ⟨found, asked, no⟩ := holds_spec (rooted_whole tb h.cells h.len) rooted_b v
    cases found with
    | true =>
      obtain ⟨h', kept, settles, back⟩ := ih h distinct' (fun p mem => unbound p (List.mem_cons_of_mem _ mem))
        fun p mem => bodies p (List.mem_cons_of_mem _ mem)
      refine ⟨h', (v, b) :: kept, ?_, back.len, back.sub.cons_cons _, ?_, ?_, back.rooted⟩
      · exact asked.bind (g := fun found fuel => if found then (putBack tb fuel rest h).map fun r => (r.1, (v, b) :: r.2)
          else putBack tb fuel rest { h with cells := Function.update h.cells v (.ref b) })
          (settles.map fun r => (r.1, (v, b) :: r.2))
      · intro i off
        simp only [List.map_cons, List.mem_cons, not_or] at off
        exact back.same i off.2
      · intro p mem
        rcases List.mem_cons.mp mem with rfl | mem
        · exact .inl ⟨List.mem_cons_self, (back.same v fresh).trans self⟩
        · refine (back.either p mem).imp ?_ ?_
          · rintro ⟨in_, cell'⟩
            exact ⟨List.mem_cons_of_mem _ in_, cell'⟩
          · rintro ⟨out, cell'⟩
            refine ⟨?_, cell'⟩
            rw [List.mem_cons, not_or]
            exact ⟨(others p mem).2, out⟩
    | false =>
      obtain ⟨Q, here, closed⟩ := no rfl
      have off : b ≠ v := by
        rintro rfl
        rw [cell] at self
        cases self
      have bound : ∀ {x}, Rooted tb h.cells h.len x → Rooted tb (Function.update h.cells v (.ref b)) h.len x :=
        fun rooted => Rooted.bind self rooted_b off here closed rooted
      have elsewhere : ∀ {i}, i ≠ v → Function.update h.cells v (.ref b) i = h.cells i :=
        fun off => Function.update_of_ne off ..
      obtain ⟨h', kept, settles, back⟩ := ih { h with cells := Function.update h.cells v (.ref b) } distinct'
        (fun p mem => (elsewhere (others p mem).1).trans (unbound p (List.mem_cons_of_mem _ mem)))
        fun p mem => by
          obtain ⟨⟨f', cell'⟩, rooted⟩ := bodies p (List.mem_cons_of_mem _ mem)
          have off' : p.2 ≠ v := by
            intro at_
            rw [at_, self] at cell'
            cases cell'
          exact ⟨⟨f', (elsewhere off').trans cell'⟩, bound rooted⟩
      have not_kept : (v, b) ∉ kept := fun mem => fresh (List.mem_map_of_mem (back.sub.subset mem))
      refine ⟨h', kept, ?_, back.len, back.sub.cons _, ?_, ?_, fun rooted => back.rooted (bound rooted)⟩
      · exact asked.bind (g := fun found fuel => if found then (putBack tb fuel rest h).map fun r => (r.1, (v, b) :: r.2)
          else putBack tb fuel rest { h with cells := Function.update h.cells v (.ref b) }) settles
      · intro i off'
        simp only [List.map_cons, List.mem_cons, not_or] at off'
        rw [back.same i off'.2]
        exact elsewhere off'.1
      · intro p mem
        rcases List.mem_cons.mp mem with rfl | mem
        · refine .inr ⟨not_kept, ?_⟩
          rw [back.same v fresh]
          exact Function.update_self ..
        · exact back.either p mem

/- The term made of them. -/

/-- A heap longer by some cells. -/
structure Longer (h h' : Heap) : Prop where
  same : ∀ i < h.len, h'.cells i = h.cells i
  le : h.len ≤ h'.len

theorem Longer.trans {h₁ h₂ h₃ : Heap} (one : Longer h₁ h₂) (two : Longer h₂ h₃) : Longer h₁ h₃ := by
  have := one.le
  have := two.le
  refine ⟨?_, by omega⟩
  intro i lt
  rw [two.same i (by omega), one.same i lt]

theorem longer_push (h : Heap) (c : Cell) : Longer h (pushCell h c) :=
  ⟨fun _ lt => Function.update_of_ne (Nat.ne_of_lt lt) .., Nat.le_succ _⟩

theorem Longer.leads {h h' : Heap} (longer : Longer h h') {a d : Nat} (leads : Leads h.cells h.len a d) :
    Leads h'.cells h'.len a d := leads.mono longer.same longer.le

/-- `coco_make2` pushes a compound over what its arguments lead to. -/
structure Made (f a b : Nat) (h h' : Heap) : Prop where
  longer : Longer h h'
  len : h'.len = h.len + 3
  head : h'.cells h.len = .func f
  first : h'.cells (h.len + 1) = .ref a
  second : h'.cells (h.len + 2) = .ref b

theorem make2_spec {f a b a' b' : Nat} (h : Heap) (one : Leads h.cells h.len a a') (two : Leads h.cells h.len b b') :
    (make2 f a b h).1 = h.len ∧ Made f a' b' h (make2 f a b h).2 := by
  have longer₁ := longer_push h (.func f)
  have at_a : (pushCell h (.func f)).deref a = a' := (longer₁.leads one).deref
  have longer₂ := longer_push (pushCell h (.func f)) (.ref a')
  have at_b : (pushCell (pushCell h (.func f)) (.ref a')).deref b = b' :=
    (longer₂.leads (longer₁.leads two)).deref
  have longer₃ := longer_push (pushCell (pushCell h (.func f)) (.ref a')) (.ref b')
  have is : make2 f a b h = (h.len, pushCell (pushCell (pushCell h (.func f)) (.ref a')) (.ref b')) := by
    simp only [make2, at_a, at_b]
  rw [is]
  refine ⟨rfl, longer₁.trans (longer₂.trans longer₃), rfl, ?_, ?_, ?_⟩
  · rw [longer₃.same _ (by simp only [pushCell]; omega), longer₂.same _ (by simp only [pushCell]; omega)]
    exact Function.update_self ..
  · rw [longer₃.same _ (by simp only [pushCell]; omega)]
    exact Function.update_self ..
  · exact Function.update_self ..

/-- A list of equations at `l`: each a variable's cell and a term's. -/
def Listed {tb : Tables} (ws : Words tb) (h : Heap) : Nat → List (Nat × Nat) → Prop
  | l, [] => l < h.len ∧ h.cells l = .atom ws.nil
  | l, (v, b) :: rest =>
    ∃ p l', (l + 2 < h.len ∧ h.cells l = .func ws.consF ∧ h.cells (l + 1) = .ref p ∧ h.cells (l + 2) = .ref l') ∧
      (p + 2 < h.len ∧ h.cells p = .func ws.eqF ∧ h.cells (p + 1) = .ref v ∧ h.cells (p + 2) = .ref b) ∧
      Listed ws h l' rest

theorem Listed.mono {ws : Words tb} {h h' : Heap} (longer : Longer h h') {l : Nat} {ps : List (Nat × Nat)}
    (listed : Listed ws h l ps) : Listed ws h' l ps := by
  have le := longer.le
  induction ps generalizing l with
  | nil =>
    obtain ⟨lt, cell⟩ := listed
    exact ⟨by omega, (longer.same l lt).trans cell⟩
  | cons p rest ih =>
    obtain ⟨q, l', ⟨lt, c0, c1, c2⟩, ⟨lt', e0, e1, e2⟩, more⟩ := listed
    refine ⟨q, l', ⟨by omega, ?_, ?_, ?_⟩, ⟨by omega, ?_, ?_, ?_⟩, ih more⟩
    · rw [longer.same _ (by omega), c0]
    · rw [longer.same _ (by omega), c1]
    · rw [longer.same _ (by omega), c2]
    · rw [longer.same _ (by omega), e0]
    · rw [longer.same _ (by omega), e1]
    · rw [longer.same _ (by omega), e2]

theorem Listed.stop {ws : Words tb} {h : Heap} {l : Nat} {ps : List (Nat × Nat)} (listed : Listed ws h l ps) :
    Leads h.cells h.len l l := by
  cases ps with
  | nil => exact .stop listed.1 (.inr (by rw [listed.2]; rfl))
  | cons p rest =>
    obtain ⟨q, l', ⟨lt, c0, -⟩, -⟩ := listed
    exact .stop (by omega) (.inr (by rw [c0]; rfl))

theorem factorList_spec (ws : Words tb) (ps : List (Nat × Nat)) (h : Heap)
    (ends : ∀ p ∈ ps, Leads h.cells h.len p.1 p.1 ∧ Leads h.cells h.len p.2 p.2) :
    Longer h (factorList ws ps h).2 ∧ Listed ws (factorList ws ps h).2 (factorList ws ps h).1 ps := by
  induction ps with
  | nil => exact ⟨longer_push h _, Nat.lt_succ_self _, Function.update_self ..⟩
  | cons p rest ih =>
    obtain ⟨v, b⟩ := p
    obtain ⟨longer, listed⟩ := ih fun p mem => ends p (List.mem_cons_of_mem _ mem)
    obtain ⟨at_v, at_b⟩ := ends (v, b) List.mem_cons_self
    obtain ⟨first, made⟩ := make2_spec (f := ws.eqF) _ (longer.leads at_v) (longer.leads at_b)
    have eq_stop : Leads (make2 ws.eqF v b (factorList ws rest h).2).2.cells
        (make2 ws.eqF v b (factorList ws rest h).2).2.len (factorList ws rest h).2.len
        (factorList ws rest h).2.len :=
      .stop (by rw [made.len]; omega) (.inr (by rw [made.head]; rfl))
    obtain ⟨second, made'⟩ := make2_spec (f := ws.consF) _ eq_stop (made.longer.leads listed.stop)
    simp only [factorList]
    rw [first, second]
    refine ⟨longer.trans (made.longer.trans made'.longer), (factorList ws rest h).2.len, _,
      ⟨?_, made'.head, made'.first, made'.second⟩, ⟨?_, ?_, ?_, ?_⟩,
      (listed.mono made.longer).mono made'.longer⟩
    · rw [made'.len]
      omega
    · rw [made'.len, made.len]
      omega
    · rw [made'.longer.same _ (by rw [made.len]; omega), made.head]
    · rw [made'.longer.same _ (by rw [made.len]; omega), made.first]
    · rw [made'.longer.same _ (by rw [made.len]; omega), made.second]

theorem rooted_longer {h h' : Heap} (longer : Longer h h') {x : Nat} (rooted : Rooted tb h.cells h.len x) :
    Rooted tb h'.cells h'.len x := rooted.mono longer.same longer.le

theorem Words.arity_cyclicF (ws : Words tb) : tb.arity ws.cyclicF = 2 := by
  unfold Tables.arity
  rw [ws.cyclicF_is]

theorem Words.arity_eqF (ws : Words tb) : tb.arity ws.eqF = 2 := by
  unfold Tables.arity
  rw [ws.eqF_is]

/-- A compound of two arguments over terms read to their last cells. -/
theorem rooted_pair {h : Heap} {x f a b : Nat} (lt : x + 2 < h.len) (head : h.cells x = .func f)
    (arity : tb.arity f = 2) (first : h.cells (x + 1) = .ref a) (second : h.cells (x + 2) = .ref b)
    (one : Rooted tb h.cells h.len a) (two : Rooted tb h.cells h.len b) : Rooted tb h.cells h.len x := by
  refine .intro (.stop (by omega) (.inr (by rw [head]; rfl))) ?_
  intro f' k cell below
  rw [head] at cell
  obtain rfl := Cell.func.inj cell
  rw [arity] at below
  match k, below with
  | 0, _ =>
    cases one with
    | intro leads args => exact .intro (.of_ref (by omega) first leads) args
  | 1, _ =>
    cases two with
    | intro leads args => exact .intro (.of_ref (by omega) second leads) args

theorem Listed.rooted {ws : Words tb} {h : Heap} {l : Nat} {ps : List (Nat × Nat)} (listed : Listed ws h l ps)
    (terms : ∀ p ∈ ps, Rooted tb h.cells h.len p.1 ∧ Rooted tb h.cells h.len p.2) :
    Rooted tb h.cells h.len l := by
  induction ps generalizing l with
  | nil =>
    refine .intro listed.stop ?_
    intro f k cell
    rw [listed.2] at cell
    cases cell
  | cons p rest ih =>
    obtain ⟨one, two⟩ := terms p List.mem_cons_self
    obtain ⟨q, l', ⟨lt, c0, c1, c2⟩, ⟨lt', e0, e1, e2⟩, more⟩ := listed
    exact rooted_pair lt c0 ws.consF_is c1 c2 (rooted_pair lt' e0 ws.arity_eqF e1 e2 one two)
      (ih more fun p mem => terms p (List.mem_cons_of_mem _ mem))

/-- Every variable of the pairs bound to its term, in order. -/
def bindAll (ps : List (Nat × Nat)) (m : Mem) : Mem := ps.foldl (fun m p => Function.update m p.1 (.ref p.2)) m

theorem bindAll_off {ps : List (Nat × Nat)} {i : Nat} (off : i ∉ ps.map Prod.fst) (m : Mem) :
    bindAll ps m i = m i := by
  induction ps generalizing m with
  | nil => rfl
  | cons p rest ih =>
    simp only [List.map_cons, List.mem_cons, not_or] at off
    have more := ih off.2 (Function.update m p.1 (.ref p.2))
    rw [Function.update_of_ne off.1] at more
    exact more

theorem bindAll_on {ps : List (Nat × Nat)} (distinct : (ps.map Prod.fst).Nodup) {p : Nat × Nat} (mem : p ∈ ps)
    (m : Mem) : bindAll ps m p.1 = .ref p.2 := by
  induction ps generalizing m with
  | nil => cases mem
  | cons q rest ih =>
    obtain ⟨fresh, distinct'⟩ := List.nodup_cons.mp distinct
    rcases List.mem_cons.mp mem with rfl | mem
    · have more := bindAll_off fresh (Function.update m p.1 (.ref p.2))
      rw [Function.update_self] at more
      exact more
    · exact ih distinct' mem (Function.update m q.1 (.ref q.2))

/-- The term in factors at `f`: it has no cycle, its list pairs unbound variables with
compounds, and with them bound the template is the term at `t`. -/
structure Factored {tb : Tables} (ws : Words tb) (t : Nat) (h h' : Heap) (f l : Nat) (ps : List (Nat × Nat)) :
    Prop where
  longer : Longer h h'
  inside : f + 2 < h'.len
  head : h'.cells f = .func ws.cyclicF
  second : h'.cells (f + 2) = .ref l
  listed : Listed ws h' l ps
  distinct : (ps.map Prod.fst).Nodup
  pairs : ∀ p ∈ ps, h'.cells p.1 = .ref p.1 ∧ ∃ g, h'.cells p.2 = .func g
  within : ∀ p ∈ ps, p.1 < h'.len ∧ p.2 < h'.len
  rooted : Rooted tb h'.cells h'.len f
  mend : ∃ R, Bisim tb h.cells h.len (bindAll ps h'.cells) h'.len (fun v x => x = v ∧ v < h.len) R ∧ R t (f + 1)

/-- The pairs of variables and terms, before any is put back. -/
theorem Copies.zip {tmpl : Nat} {bodies : List Nat} (copies : Copies tb h live m t tmpl m.sh bodies C w)
    (none_ : w.frames = []) :
    ((factorVars h m.sh.length).zip bodies).map Prod.fst = factorVars h m.sh.length ∧
      (∀ p ∈ (factorVars h m.sh.length).zip bodies, w.cells p.1 = .ref p.1 ∧ p.1 < w.len ∧
        (∃ f, w.cells p.2 = .func f) ∧ Rooted tb w.cells w.len p.2) ∧
      ∀ {j b}, bodies[j]? = some b → (h.len + j, b) ∈ (factorVars h m.sh.length).zip bodies := by
  have len : bodies.length = m.sh.length := copies.bodies.length_eq.symm
  have vars_len : (factorVars h m.sh.length).length = m.sh.length := by simp [factorVars]
  refine ⟨List.map_fst_zip (by omega), ?_, ?_⟩
  · intro p mem
    obtain ⟨left, right⟩ := List.of_mem_zip (show (p.1, p.2) ∈ _ from mem)
    obtain ⟨self, inside, -⟩ := copies.unbound left
    obtain ⟨j, at_b⟩ := List.getElem?_of_mem right
    have below : j < m.sh.length := by
      have := (List.getElem?_eq_some_iff.mp at_b).1
      omega
    obtain ⟨b, f, at_b', -, block⟩ := copies.body (List.getElem?_eq_getElem below)
    obtain rfl := Option.some.inj (at_b.symm.trans at_b')
    have laid := copies.laid none_
    exact ⟨self, inside, ⟨f, (laid.head block).1⟩, laid.rooted_block block⟩
  · intro j b at_b
    have below : j < m.sh.length := by
      have := (List.getElem?_eq_some_iff.mp at_b).1
      omega
    rw [List.mem_iff_getElem?]
    refine ⟨j, ?_⟩
    rw [List.getElem?_zip_eq_some]
    refine ⟨?_, at_b⟩
    rw [factorVars, List.getElem?_map, List.getElem?_range below]
    rfl

theorem factorVars_nodup (h : Heap) (n : Nat) : (factorVars h n).Nodup := by
  refine List.Nodup.map ?_ List.nodup_range
  intro a b same
  simp only at same
  omega

/-- Once the factors were put back and those kept are bound, every factor is in its place. -/
theorem Copies.mended {tmpl : Nat} {bodies : List Nat} {kept : List (Nat × Nat)} {h₁ h₂ : Heap}
    (copies : Copies tb h live m t tmpl m.sh bodies C w) (none_ : w.frames = [])
    (back : PutsBack tb ((factorVars h m.sh.length).zip bodies) ⟨w.cells, w.len⟩ h₁ kept) (longer : Longer h₁ h₂) :
    Mended h m bodies w (bindAll kept h₂.cells) h₂.len := by
  obtain ⟨firsts, ends, zipped⟩ := copies.zip none_
  have len : h₁.len = w.len := back.len
  have le := longer.le
  have nodup := factorVars_nodup h m.sh.length
  rw [← firsts] at nodup
  have nodup_kept : (kept.map Prod.fst).Nodup := nodup.sublist (back.sub.map _)
  have kept_vars : ∀ {i}, i ∈ kept.map Prod.fst → i ∈ factorVars h m.sh.length := by
    intro i mem
    rw [← firsts]
    exact (back.sub.map _).subset mem
  refine ⟨?_, ?_, by omega⟩
  · intro i lt off
    rw [bindAll_off fun mem => off (kept_vars mem), longer.same i (by omega)]
    apply back.same
    rw [firsts]
    exact off
  · intro j b at_b
    have mem := zipped at_b
    have inside := (ends _ mem).2.1
    rcases back.either _ mem with ⟨in_, -⟩ | ⟨out, bound⟩
    · exact bindAll_on nodup_kept in_ _
    · -- a pair put back is not among those kept
      rw [bindAll_off ?_, longer.same _ (by omega)]
      · exact bound
      · intro in_
        obtain ⟨q, q_kept, same⟩ := List.mem_map.mp in_
        have eq := List.inj_on_of_nodup_map nodup (back.sub.subset q_kept) mem same
        exact out (by rw [← eq]; exact q_kept)

/-- The term made over the template and the list of those kept. -/
theorem Copies.factored {tmpl : Nat} {bodies : List Nat} {kept : List (Nat × Nat)} {h₁ : Heap} (ws : Words tb)
    (whole : Whole tb h.cells h.len live) (alive : live t)
    (copies : Copies tb h live m t tmpl m.sh bodies C w) (none_ : w.frames = [])
    (back : PutsBack tb ((factorVars h m.sh.length).zip bodies) ⟨w.cells, w.len⟩ h₁ kept) :
    ∃ l, Factored ws t h (make2 ws.cyclicF tmpl (factorList ws kept h₁).1 (factorList ws kept h₁).2).2
      (make2 ws.cyclicF tmpl (factorList ws kept h₁).1 (factorList ws kept h₁).2).1 l kept := by
  obtain ⟨firsts, ends, -⟩ := copies.zip none_
  have len : h₁.len = w.len := back.len
  have nodup := factorVars_nodup h m.sh.length
  rw [← firsts] at nodup
  have nodup_kept : (kept.map Prod.fst).Nodup := nodup.sublist (back.sub.map _)
  have off_vars : ∀ {x}, x < w.len → (w.cells x).isRef = false → h₁.cells x = w.cells x := by
    intro x lt held
    refine back.same x ?_
    rw [firsts]
    intro mem
    rw [(copies.unbound mem).1] at held
    cases held
  -- what was kept is unbound, what it is paired with a compound
  have pairs : ∀ p ∈ kept, h₁.cells p.1 = .ref p.1 ∧ p.1 < h₁.len ∧ (∃ g, h₁.cells p.2 = .func g) ∧
      Rooted tb h₁.cells h₁.len p.2 := by
    intro p mem
    have in_zip := back.sub.subset mem
    obtain ⟨-, inside, ⟨f, cell⟩, rooted⟩ := ends p in_zip
    rcases back.either p in_zip with ⟨-, self⟩ | ⟨out, -⟩
    · refine ⟨self, by omega, ⟨f, ?_⟩, back.rooted rooted⟩
      cases rooted with
      | intro leads args => exact (off_vars leads.source_lt (by rw [cell]; rfl)).trans cell
    · exact absurd mem out
  obtain ⟨longer, listed⟩ := factorList_spec ws kept h₁ fun p mem => by
    obtain ⟨self, inside, ⟨g, cell⟩, rooted⟩ := pairs p mem
    refine ⟨.stop inside (.inl self), ?_⟩
    cases rooted with
    | intro leads args => exact .stop leads.source_lt (.inr (by rw [cell]; rfl))
  have tmpl_rooted : Rooted tb (factorList ws kept h₁).2.cells (factorList ws kept h₁).2.len tmpl :=
    rooted_longer longer (back.rooted ((copies.laid none_).rooted copies.root))
  obtain ⟨tmpl', to_tmpl, -⟩ := rooted_whole _ _ _ _ tmpl_rooted
  obtain ⟨first, made⟩ := make2_spec (f := ws.cyclicF) (factorList ws kept h₁).2 to_tmpl listed.stop
  rw [first]
  have longer' : Longer h₁ (make2 ws.cyclicF tmpl (factorList ws kept h₁).1 (factorList ws kept h₁).2).2 :=
    longer.trans made.longer
  have mended := copies.mended none_ back longer'
  have listed' := listed.mono made.longer
  have le := longer'.le
  have seen := copies.sees
  refine ⟨(factorList ws kept h₁).1, ⟨?_, ?_⟩, by rw [made.len]; omega, made.head, made.second, listed', nodup_kept,
    ?_, ?_, ?_, ?_⟩
  · intro i lt
    have w_le := seen.le
    have off : i ∉ ((factorVars h m.sh.length).zip bodies).map Prod.fst := by
      rw [firsts]
      intro mem
      have := (copies.unbound mem).2.2
      omega
    rw [longer'.same i (by omega)]
    exact (back.same i off).trans (seen.same i lt)
  · have := seen.le
    omega
  · intro p mem
    obtain ⟨self, inside, ⟨g, cell⟩, rooted⟩ := pairs p mem
    refine ⟨(longer'.same _ inside).trans self, g, ?_⟩
    cases rooted with
    | intro leads args => exact (longer'.same _ leads.source_lt).trans cell
  · intro p mem
    obtain ⟨-, inside, -, rooted⟩ := pairs p mem
    cases rooted with
    | intro leads args => exact ⟨by omega, Nat.lt_of_lt_of_le leads.source_lt le⟩
  · refine rooted_pair (by rw [made.len]; omega) made.head ws.arity_cyclicF made.first made.second ?_ ?_
    · exact (rooted_longer made.longer tmpl_rooted).congr (made.longer.leads to_tmpl)
        (made.longer.leads to_tmpl).last
    · apply listed'.rooted
      intro p mem
      obtain ⟨self, inside, -, rooted⟩ := pairs p mem
      refine ⟨rooted_longer longer' (.intro (.stop inside (.inl self)) ?_), rooted_longer longer' rooted⟩
      intro f k cell
      rw [self] at cell
      cases cell
  · refine ⟨_, mended.bisim whole copies none_, alive, tmpl, ?_⟩
    obtain ⟨c, leads, -⟩ := whole t alive
    obtain ⟨e, onward, -⟩ := mended.image copies leads copies.root
    refine ⟨e, copies.root, onward, ?_⟩
    -- the first argument and the template lead to the same end
    have keeps : ∀ i q, (make2 ws.cyclicF tmpl (factorList ws kept h₁).1 (factorList ws kept h₁).2).2.cells i = .ref q →
        q ≠ i → bindAll kept
          (make2 ws.cyclicF tmpl (factorList ws kept h₁).1 (factorList ws kept h₁).2).2.cells i = .ref q := by
      intro i q cell off
      rw [bindAll_off ?_, cell]
      intro mem
      obtain ⟨p, in_, rfl⟩ := List.mem_map.mp mem
      obtain ⟨self, inside, -⟩ := pairs p in_
      rw [longer'.same _ inside, self] at cell
      exact off (Cell.ref.inj cell).symm
    have end_ := (made.longer.leads to_tmpl).onward keeps onward
    have slot : bindAll kept (make2 ws.cyclicF tmpl (factorList ws kept h₁).1 (factorList ws kept h₁).2).2.cells
        ((factorList ws kept h₁).2.len + 1) = .ref tmpl' := by
      refine keeps _ _ made.first ?_
      have := to_tmpl.lt
      omega
    exact .of_ref (by rw [made.len]; omega) slot end_

/-- A compound, however its references run, goes into its factors. -/
theorem factorize_spec (ws : Words tb) (whole : Whole tb h.cells h.len live) (alive : live t) {f : Nat}
    (cell : h.cells (h.deref t) = .func f) :
    ∃ r h' l ps, Settles (fun fuel => factorize ws fuel t h) (some r, h') ∧ Factored ws t h h' r l ps := by
  obtain ⟨inside, args⟩ := whole_deref whole alive
  obtain ⟨m, met, meets⟩ := meet_spec whole cell inside fun k => args f k cell
  obtain ⟨w, C, filled, copies, none_⟩ := copies_spec whole alive meets cell
  obtain ⟨firsts, ends, -⟩ := copies.zip none_
  have nodup := factorVars_nodup h m.sh.length
  rw [← firsts] at nodup
  obtain ⟨h₁, kept, putting, back⟩ := putBack_spec tb _ ⟨w.cells, w.len⟩ nodup
    (fun p mem => (ends p mem).1) fun p mem => (ends p mem).2.2
  obtain ⟨l, factored⟩ := copies.factored ws whole alive none_ back
  refine ⟨_, _, l, kept, ?_, factored⟩
  have rest := filled.bind (g := fun w fuel => (putBack tb fuel ((factorVars h m.sh.length).zip
    (factorBodies tb m.sh (factorNode tb (factorVars h m.sh.length) (h.deref t) (factorStart h m)).2).1)
      ⟨w.cells, w.len⟩).map fun kept =>
        (some (make2 ws.cyclicF (factorNode tb (factorVars h m.sh.length) (h.deref t) (factorStart h m)).1
          (factorList ws kept.2 kept.1).1 (factorList ws kept.2 kept.1).2).1,
          (make2 ws.cyclicF (factorNode tb (factorVars h m.sh.length) (h.deref t) (factorStart h m)).1
          (factorList ws kept.2 kept.1).1 (factorList ws kept.2 kept.1).2).2)) (putting.map _)
  obtain ⟨n, enough⟩ := met
  obtain ⟨k, enough'⟩ := rest
  refine ⟨max n k, ?_⟩
  intro fuel le
  simp only [factorize, cell, enough fuel (by omega), Option.bind_some]
  exact enough' fuel (by omega)

end Cocolog.Copy
