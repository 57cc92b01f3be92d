import Cocolog.Compact.Granted
import Cocolog.Compact.Model
import Cocolog.Copy.Reread
import Cocolog.Copy.Weight

/-! Pass one of a compaction that does not run out of memory: each term of the old store
lands in the fresh array behind the one before it, renamed and in as many cells. -/

set_option linter.all false

namespace Cocolog.Compact

open Cocolog.Lib Cocolog.Term Cocolog.Store Cocolog.Copy

/-- A term as a put lays it down, in `n` cells from cell `r` on: it is all there, with no
cycle, and shares nothing but its variables. -/
structure Block (tb : Tables) (st : Heap) (r n : Nat) : Prop where
  enclosed : Enclosed tb st r n
  takes : ∃ N U, Takes tb (itemAt st.cells st.len) [r] N U ∧ n = N + U.card

variable {tb : Tables} {ws : Words tb} {st st' h s g : Heap} {r r' n t N fuel : Nat} {U : Finset Nat} {w : Copy.Walk}

/-- A memory grown by more cells. -/
structure Longer (s g : Heap) : Prop where
  same : ∀ i < s.len, g.cells i = s.cells i
  le : s.len ≤ g.len

theorem Longer.refl (s : Heap) : Longer s s := ⟨fun _ _ => rfl, le_rfl⟩

theorem Longer.trans {g' : Heap} (one : Longer s g) (two : Longer g g') : Longer s g' :=
  ⟨fun i lt => (two.same i (by have := one.le; omega)).trans (one.same i lt), one.le.trans two.le⟩

theorem Renamed.longer {low : Nat} (alike : Renamed tb st r s r' low) (longer : Longer s g) : Renamed tb st r g r' low := by
  obtain ⟨π, R, bisim, related, one, own, from_⟩ := alike
  refine ⟨π, R, ?_, related, one, own, from_⟩
  intro a b ab
  obtain ⟨d, d', leads, leads', held⟩ := bisim a b ab
  refine ⟨d, d', leads, leads'.mono longer.same longer.le, ?_⟩
  rw [longer.same d' leads'.lt]
  exact held

/-- What is related to itself in a grown memory. -/
theorem longer_bisim (longer : Longer s g) :
    Bisim tb s.cells s.len g.cells g.len Eq fun a b => a = b ∧ Rooted tb s.cells s.len a := by
  rintro a _ ⟨rfl, rooted⟩
  cases rooted with
  | @intro _ d leads args =>
    refine ⟨d, d, leads, leads.mono longer.same longer.le, ?_⟩
    rw [longer.same d leads.lt]
    rcases leads.ends with self | held
    · exact .inl ⟨self, self, rfl⟩
    · exact .inr ⟨held, rfl, fun f k cell below => ⟨rfl, args f k cell below⟩⟩

theorem Block.rooted (block : Block tb st r n) : Rooted tb st.cells st.len r :=
  block.enclosed.rooted.mono (fun _ _ => rfl) block.enclosed.inside

theorem Block.longer (block : Block tb s r n) (longer : Longer s g) : Block tb g r n := by
  obtain ⟨N, U, takes, rfl⟩ := block.takes
  obtain ⟨enclosed, low, inside⟩ := block.enclosed
  refine ⟨⟨?_, ?_, inside.trans longer.le⟩, ?_⟩
  · exact enclosed.mono (fun i lt => longer.same i (by omega)) le_rfl
  · intro i p le lt cell
    rw [longer.same i (by omega)] at cell
    exact low i p le lt cell
  · obtain ⟨V, takes', there, back⟩ := takes.bisim (longer_bisim longer) (.cons ⟨rfl, block.rooted⟩ .nil)
    have card := Takes.card_eq (fun _ _ _ h h' => h.symm.trans h') (fun _ _ _ h h' => h.trans h'.symm) there back
    exact ⟨N, V, takes', by rw [card]⟩

/-- A put that ran, under a ceiling it stays under. -/
theorem putWalk_ran {top : Option Nat} (takes : Takes tb (itemAt h.cells h.len) [t] N U)
    (room : ∀ c, top = some c → s.len + N + U.card ≤ c) (some_ : top ≠ some 0)
    (ran : putWalk tb h fuel t (.over_ s top) = some (r, w)) :
    Copied tb h s t r w ∧ w.len = s.len + N + U.card ∧ w.wceil = top ∧ r = s.len := by
  obtain ⟨len, ceil⟩ := putWalk_size takes room ran
  obtain ⟨w', looped, is⟩ := Option.map_eq_some_iff.mp ran
  obtain ⟨rfl, rfl⟩ := Prod.mk.inj is
  obtain ⟨reached, done⟩ := loop_reaches looped
  have inv := reached.invariant (I := PutInv tb h s top t _) (fun _ _ before next => before.step next)
    (PutInv.start tb h s top t)
  refine ⟨⟨fillStep_stopped done, ?_⟩, len, ceil, ?_⟩
  · rcases inv with ⟨-, putting⟩ | ⟨-, given, -, -⟩
    · exact putting
    · rw [ceil] at given
      exact absurd given some_
  · have new : (Copy.Walk.over_ s top).vars.lookup (h.deref t) = none := rfl
    unfold putNode
    dsimp only
    split
    · rw [new]
      rfl
    · split <;> rfl
    · rfl

theorem storeGetVm_more {k : Nat} {q : Nat × Copy.Walk} (le : fuel ≤ k) (ran : storeGetVm tb st fuel t w = some q) :
    storeGetVm tb st k t w = some q := by
  unfold storeGetVm at ran ⊢
  dsimp only at ran ⊢
  cases cell : st.cells (st.deref t) with
  | func f =>
    simp only [cell] at ran ⊢
    obtain ⟨w', looped, is⟩ := Option.map_eq_some_iff.mp ran
    rw [loop_more le looped]
    exact congrArg some is
  | _ =>
    simp only [cell] at ran ⊢
    exact ran

/-- A get that ran. -/
theorem storeGetVm_ran (rooted : Rooted tb st.cells st.len t)
    (ran : storeGetVm tb st fuel t (.over_ s none) = some (r, w)) : Copied tb st s t r w := by
  obtain ⟨r', w', ⟨enough, settles⟩, copied⟩ := storeGetVm_spec tb st s (finite_of_rooted rooted)
  have same := (storeGetVm_more (Nat.le_max_left fuel enough) ran).symm.trans (settles _ (Nat.le_max_right ..))
  obtain ⟨rfl, rfl⟩ := Prod.mk.inj (Option.some.inj same)
  exact copied

/-- A copy takes what its source takes. -/
theorem copied_takes {src old : Heap} (rooted : Rooted tb src.cells src.len t)
    (takes : Takes tb (itemAt src.cells src.len) [t] N U) (copied : Copied tb src old t r w) :
    ∃ V, Takes tb (itemAt w.cells w.len) [r] N V ∧ U.card = V.card := by
  obtain ⟨⟨R, bisim, related, -⟩, -, own, -, -⟩ := copied.bisim (rooted_whole tb src.cells src.len) rooted
  obtain ⟨V, takes', there, back⟩ :=
    @Takes.bisim tb src ⟨w.cells, w.len⟩ _ _ _ _ _ _ bisim (.cons related .nil) takes
  have one : ∀ v x x', Met w v x → Met w v x' → x = x' := fun _ _ _ here here' =>
    Option.some.inj (here.symm.trans here')
  exact ⟨V, takes', Takes.card_eq one (fun _ _ _ => own.own) there back⟩

/-- A term landed in the fresh array. -/
structure Landed (tb : Tables) (st tmp : Heap) (root n r : Nat) : Prop where
  block : Block tb tmp r n
  alike : Renamed tb st root tmp r 0

theorem Landed.longer {tmp : Heap} {root : Nat} (landed : Landed tb st tmp root n r) (longer : Longer tmp g) :
    Landed tb st g root n r := ⟨landed.block.longer longer, Renamed.longer landed.alike longer⟩

theorem copyRoot_onward {hmark root : Nat} {c c' : Copying} (ran : copyRoot ws fuel st hmark root c = some (r, c')) :
    Copying.Onward c c' := by
  simp only [copyRoot, Option.bind_eq_some_iff, Option.map_eq_some_iff] at ran
  obtain ⟨⟨x, c₁⟩, got, ⟨r', c₂⟩, put, is⟩ := ran
  cases is
  obtain ⟨mapped, tmp, m⟩ := (Copying.get_granted got).1.trans (Copying.put_onward put)
  exact ⟨mapped, tmp, m⟩

/-- One root's copy: through the heap, under the ceiling of the put, and behind what the
fresh array has. -/
theorem copyRoot_landed {hmark root : Nat} {c c' : Copying} (block : Block tb st root n) (mapped : c.answers.Mapped)
    (ran : copyRoot ws fuel st hmark root c = some (r, c')) (tmp_ok : c'.tmp.oom = false) (m_ok : c'.m.oom = false) :
    r = c.tmp.cells.len ∧ c'.tmp.cells.len = r + n ∧ Longer c.tmp.cells c'.tmp.cells ∧
      Landed tb st c'.tmp.cells root n r ∧ c'.m.cycPuts = c.m.cycPuts := by
  have rooted := block.rooted
  obtain ⟨N, U, takes, rfl⟩ := block.takes
  simp only [copyRoot, Option.bind_eq_some_iff, Option.map_eq_some_iff] at ran
  obtain ⟨⟨x, c₁⟩, got, ⟨r', c₂⟩, put, is⟩ := ran
  cases is
  obtain ⟨onward, tmp, get_same⟩ := Copying.get_granted got
  simp only [Copying.put, Option.bind_eq_some_iff] at put
  obtain ⟨⟨r', over_, c₃⟩, walk, put⟩ := put
  obtain ⟨onward', heap, put_same⟩ := Copying.putWalk_granted walk
  -- no growth was refused on the way
  have later : Copying.Onward c₃ c₂ := by
    dsimp only at put
    split at put
    · exact Copying.putOver_onward put
    · cases put
      exact .refl _
  have tmp_ok₃ : c₃.tmp.oom = false := later.tmp tmp_ok
  have m_ok₁ : c₁.m.oom = false := onward'.m (later.m m_ok)
  obtain ⟨w, got', heap₁⟩ := get_same mapped m_ok₁
  obtain ⟨w', put', is_over, cells₃⟩ := put_same (onward.mapped mapped) tmp_ok₃
  have copied := storeGetVm_ran rooted got'
  obtain ⟨-, rooted', -, -, -⟩ := copied.bisim (rooted_whole tb st.cells st.len) rooted
  obtain ⟨V, takes', card⟩ := copied_takes rooted takes copied
  have size := storeGetVm_size takes got'
  have vars := takes'.card_le
  rw [heap₁] at put'
  obtain ⟨copied', len, ceil, at_end⟩ := @putWalk_ran tb ⟨w.cells, w.len⟩ _ _ _ _ _ _ _ _ takes' (by
    intro b is
    cases is
    simp only [List.length_cons, List.length_nil] at vars ⊢
    omega) (by simp) put'
  have under : over_ = false := by
    rw [is_over, ceil]
    simp
  rw [under] at put
  obtain ⟨rfl, rfl⟩ := Prod.mk.inj (Option.some.inj put)
  obtain ⟨-, rooted'', -, kept, grown⟩ := copied'.bisim (rooted_whole tb w.cells w.len) rooted'
  obtain ⟨V', takes'', card'⟩ := copied_takes rooted' takes' copied'
  obtain ⟨π, R, bisim, related, -, one, own, -⟩ := copied_twice (rooted_whole tb st.cells st.len) rooted copied copied'
  have low := putWalk_low put'
  rw [tmp] at at_end len kept grown low
  have total : w'.len = c.tmp.cells.len + (N + U.card) := by omega
  refine ⟨at_end, ?_, ?_, ?_, (Copying.putWalk_cycPuts walk).trans (Copying.get_cycPuts got)⟩
  · show (c₃.tmp.cells).len = _
    rw [cells₃, at_end]
    exact total
  · show Longer c.tmp.cells c₃.tmp.cells
    rw [cells₃]
    exact ⟨kept, grown⟩
  · show Landed tb st c₃.tmp.cells root (N + U.card) r'
    rw [cells₃]
    have end_ : r' + (N + U.card) = w'.len := by omega
    refine ⟨⟨⟨?_, ?_, Nat.le_of_eq end_⟩, N, V', takes'', by omega⟩, π, R, bisim, related, one, own,
      fun _ _ _ => Nat.zero_le _⟩
    · rw [end_]
      exact rooted''
    · rw [end_, at_end]
      exact low

/-- Roots of the old store and where they landed, one behind the other, from one end of
the fresh array's cells to the other. -/
inductive Row (tb : Tables) (st tmp : Heap) (span : Nat → Nat) : Nat → List Nat → List Nat → Nat → Prop where
  | nil (at_ : Nat) : Row tb st tmp span at_ [] [] at_
  | cons {at_ last root : Nat} {roots rs : List Nat} (landed : Landed tb st tmp root (span root) at_)
      (rest : Row tb st tmp span (at_ + span root) roots rs last) :
      Row tb st tmp span at_ (root :: roots) (at_ :: rs) last

variable {tmp : Heap} {span : Nat → Nat} {at_ mid last hmark : Nat} {roots roots' rs rs' : List Nat} {c c' : Copying}

theorem Row.longer (row : Row tb st tmp span at_ roots rs last) (longer : Longer tmp g) :
    Row tb st g span at_ roots rs last := by
  induction row with
  | nil at_ => exact .nil at_
  | cons landed _ ih => exact .cons (landed.longer longer) ih

theorem Row.append (one : Row tb st tmp span at_ roots rs mid) (two : Row tb st tmp span mid roots' rs' last) :
    Row tb st tmp span at_ (roots ++ roots') (rs ++ rs') last := by
  induction one with
  | nil at_ => exact two
  | cons landed _ ih => exact .cons landed (ih two)

theorem Row.last_eq (row : Row tb st tmp span at_ roots rs last) : last = at_ + (roots.map span).sum := by
  induction row with
  | nil at_ => rfl
  | cons _ _ ih =>
    rw [ih, List.map_cons, List.sum_cons, Nat.add_assoc]

theorem Row.length_eq (row : Row tb st tmp span at_ roots rs last) : rs.length = roots.length := by
  induction row with
  | nil at_ => rfl
  | cons _ _ ih => rw [List.length_cons, List.length_cons, ih]

/-- The root at a place of the list, and where it landed. -/
theorem Row.landed (row : Row tb st tmp span at_ roots rs last) {i root r : Nat} (one : roots[i]? = some root)
    (two : rs[i]? = some r) : Landed tb st tmp root (span root) r := by
  induction row generalizing i with
  | nil at_ => cases one
  | cons here _ ih =>
    cases i with
    | zero =>
      cases one
      cases two
      exact here
    | succ i => exact ih one two

/-- Cells of a put's block are more than none. -/
theorem Block.some_ (block : Block tb st r n) : 0 < n := by
  obtain ⟨N, U, takes, rfl⟩ := block.takes
  cases takes with
  | @var _ v _ _ V _ _ =>
    have := Finset.card_pos.mpr (Finset.insert_nonempty v V)
    omega
  | atomic => omega
  | comp => omega

/-- The roots landed at cells of their own. -/
theorem Row.from_le (row : Row tb st tmp span at_ roots rs last) : ∀ r ∈ rs, at_ ≤ r := by
  induction row with
  | nil at_ => exact fun _ mem => (nomatch mem)
  | @cons at_ last root roots rs landed _ ih =>
    intro r mem
    rcases List.mem_cons.mp mem with rfl | mem
    · exact le_rfl
    · have := ih r mem
      omega

theorem Row.nodup (row : Row tb st tmp span at_ roots rs last) : rs.Nodup := by
  induction row with
  | nil at_ => exact List.nodup_nil
  | @cons at_ last root roots rs landed rest ih =>
    refine List.nodup_cons.mpr ⟨fun mem => ?_, ih⟩
    have := rest.from_le _ mem
    have := landed.block.some_
    omega

theorem copyRoots_onward (ran : copyRoots ws fuel st hmark roots c = some (rs, c')) : Copying.Onward c c' := by
  induction roots generalizing c rs with
  | nil =>
    cases ran
    exact .refl _
  | cons root rest ih =>
    simp only [copyRoots, Option.bind_eq_some_iff, Option.map_eq_some_iff] at ran
    obtain ⟨⟨r, c₁⟩, first, ⟨rs', c₂⟩, later, is⟩ := ran
    cases is
    exact (copyRoot_onward first).trans (ih later)

/-- A list of roots copied. -/
theorem copyRoots_row (blocks : ∀ root ∈ roots, Block tb st root (span root)) (mapped : c.answers.Mapped)
    (ran : copyRoots ws fuel st hmark roots c = some (rs, c')) (tmp_ok : c'.tmp.oom = false) (m_ok : c'.m.oom = false) :
    Row tb st c'.tmp.cells span c.tmp.cells.len roots rs c'.tmp.cells.len ∧ Longer c.tmp.cells c'.tmp.cells ∧
      c'.m.cycPuts = c.m.cycPuts := by
  induction roots generalizing c rs with
  | nil =>
    cases ran
    exact ⟨.nil _, .refl _, rfl⟩
  | cons root rest ih =>
    simp only [copyRoots, Option.bind_eq_some_iff, Option.map_eq_some_iff] at ran
    obtain ⟨⟨r, c₁⟩, first, ⟨rs', c₂⟩, later, is⟩ := ran
    cases is
    have onward := copyRoots_onward later
    obtain ⟨rfl, len, longer, landed, puts⟩ := copyRoot_landed (blocks root List.mem_cons_self) mapped first
      (onward.tmp tmp_ok) (onward.m m_ok)
    obtain ⟨row, longer', puts'⟩ := ih (fun root mem => blocks root (List.mem_cons_of_mem _ mem))
      ((copyRoot_onward first).mapped mapped) later
    rw [len] at row
    exact ⟨.cons (landed.longer longer') row, longer.trans longer', puts'.trans puts⟩

theorem copyGlobals_onward {gs gs' : List Global} (ran : copyGlobals ws fuel st hmark gs c = some (rs, gs', c')) :
    Copying.Onward c c' := by
  induction gs generalizing c rs gs' with
  | nil =>
    cases ran
    exact .refl _
  | cons g rest ih =>
    simp only [copyGlobals, Option.bind_eq_some_iff, Option.map_eq_some_iff] at ran
    obtain ⟨⟨r, c₁⟩, first, ⟨rs', gs₁, c₂⟩, later, is⟩ := ran
    cases is
    exact (copyRoot_onward first).trans (ih later)

/-- The globals copied: each size is written as it was. -/
theorem copyGlobals_row {gs gs' : List Global} (blocks : ∀ g ∈ gs, Block tb st g.cell (span g.cell))
    (sizes : ∀ g ∈ gs, g.size = span g.cell) (mapped : c.answers.Mapped)
    (ran : copyGlobals ws fuel st hmark gs c = some (rs, gs', c')) (tmp_ok : c'.tmp.oom = false)
    (m_ok : c'.m.oom = false) :
    Row tb st c'.tmp.cells span c.tmp.cells.len (gs.map Global.cell) rs c'.tmp.cells.len ∧
      Longer c.tmp.cells c'.tmp.cells ∧ c'.m.cycPuts = c.m.cycPuts ∧ gs' = gs := by
  induction gs generalizing c rs gs' with
  | nil =>
    cases ran
    exact ⟨.nil _, .refl _, rfl, rfl⟩
  | cons g rest ih =>
    simp only [copyGlobals, Option.bind_eq_some_iff, Option.map_eq_some_iff] at ran
    obtain ⟨⟨r, c₁⟩, first, ⟨rs', gs₁, c₂⟩, later, is⟩ := ran
    cases is
    have onward := copyGlobals_onward later
    obtain ⟨rfl, len, longer, landed, puts⟩ := copyRoot_landed (blocks g List.mem_cons_self) mapped first
      (onward.tmp tmp_ok) (onward.m m_ok)
    obtain ⟨row, longer', puts', rfl⟩ := ih (fun g mem => blocks g (List.mem_cons_of_mem _ mem))
      (fun g mem => sizes g (List.mem_cons_of_mem _ mem)) ((copyRoot_onward first).mapped mapped) later
    have size := sizes g List.mem_cons_self
    rw [len] at row
    refine ⟨.cons (landed.longer longer') row, longer.trans longer', puts'.trans puts, ?_⟩
    rw [len, ← size, Nat.add_sub_cancel_left]

end Cocolog.Compact
