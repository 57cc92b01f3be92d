import Cocolog.Gc.Collect

/-! What each pass of the collection does: the mark finds what the roots reach, the
markers' integers follow the cells they name, and the slide puts every marked cell at its
rank without writing over one it has yet to read. -/

set_option linter.all false

namespace Cocolog.Gc

open Cocolog.Lib Cocolog.Term

namespace Machine

variable {m : Machine}

/- The mark. -/

/-- The copies that are roots. -/
def copyRoots (m : Machine) : Nat → List GCache → List Nat
  | _, [] => []
  | i, g :: gs =>
    (if g.ver ≠ 0 ∧ m.copyStands i g = true then [g.root] else []) ++ m.copyRoots (i + 1) gs

/-- Everything that is marked from. -/
def allRoots (m : Machine) : List Nat :=
  m.roots ++ m.copyRoots 0 m.gcache ++ savedCells m.heapLen m.trail

theorem markGlobals_none (room i : Nat) (gs : List GCache) :
    (m.markGlobals room i gs none).2 = none := by
  cases gs <;> rfl

theorem markGlobals_eq (room i : Nat) (gs : List GCache) (bits : Bits) :
    (m.markGlobals room i gs (some bits)).2 = m.markAll room bits (m.copyRoots i gs) := by
  induction gs generalizing i bits with
  | nil => rfl
  | cons g gs ih =>
    unfold markGlobals copyRoots
    by_cases forgotten : g.ver = 0
    · rw [if_pos forgotten, if_neg (fun both => both.1 forgotten)]
      exact ih (i + 1) bits
    · rw [if_neg forgotten]
      by_cases stands : m.copyStands i g = true
      · rw [if_pos stands, if_pos ⟨forgotten, stands⟩]
        dsimp only
        cases first : m.markRoot room bits g.root with
        | none =>
          rw [markGlobals_none, markAll, List.singleton_append, List.foldlM_cons, first]
          rfl
        | some bits' =>
          rw [ih (i + 1) bits', markAll, markAll, List.singleton_append, List.foldlM_cons, first]
          rfl
      · rw [if_neg stands, if_neg (fun both => stands both.2)]
        exact ih (i + 1) bits

theorem markAll_append (room : Nat) (bits : Bits) (first second : List Nat) :
    m.markAll room bits (first ++ second) =
      (m.markAll room bits first).bind fun bits => m.markAll room bits second := by
  rw [markAll, List.foldlM_append]
  rfl

/-- A mark that is not abandoned marks what the roots reach. -/
theorem markPhase_spec {mem : Memory} {bits : Bits} (marks : (m.markPhase mem).2 = some bits)
    (i : Nat) : bits.marked i = true ↔ m.Reach m.allRoots i := by
  have all : m.markAll mem.stack Bits.empty m.allRoots = some bits := by
    have kept := (Option.filter_eq_some_iff.mp marks).1
    rw [allRoots, roots, markAll_append, markAll_append, markAll_append]
    split at kept
    · split at kept
      · cases engines : m.markAll mem.stack Bits.empty m.engineRoots with
        | none =>
          rw [engines, Option.bind_none, markGlobals_none] at kept
          cases kept
        | some first =>
          rw [engines, Option.bind_some] at kept
          rw [Option.bind_some]
          cases hosts : m.markAll mem.stack first m.hostRoots with
          | none =>
            rw [hosts, markGlobals_none] at kept
            cases kept
          | some second =>
            rw [hosts, markGlobals_eq] at kept
            rw [Option.bind_some]
            exact kept
      · rw [Option.bind_none, markGlobals_none] at kept
        cases kept
    · rw [Option.bind_none, markGlobals_none] at kept
      cases kept
  exact markAll_spec all i

/-- With memory for all it asks, no collection is abandoned. -/
theorem markPhase_total {mem : Memory} (bitmap : mem.bitmap = true) (lists : mem.lists = true)
    (fixed : mem.fixed = true) (ample : m.degree < mem.stack) :
    ∃ bits, (m.markPhase mem).2 = some bits := by
  obtain ⟨first, engines⟩ := markAll_total ample Bits.empty m.engineRoots
  obtain ⟨second, hosts⟩ := markAll_total ample first m.hostRoots
  obtain ⟨third, copies⟩ := markAll_total ample second (m.copyRoots 0 m.gcache)
  obtain ⟨bits, saved⟩ := markAll_total ample third (savedCells m.heapLen m.trail)
  refine ⟨bits, ?_⟩
  unfold markPhase
  simp only [bitmap, lists, fixed, or_true, if_true, engines, Option.bind_some, hosts,
    markGlobals_eq, copies, saved, Bool.true_or]
  rfl

/- The slide. -/

/-- Each cell slid so far is at its rank, and those to come are where they were. -/
theorem slide_upto (n : Nat) (bits : Bits) (h : Mem) (k : Nat) :
    let s := (List.range k).foldl (slideCell n bits) (h, 0)
    s.2 = bits.below k ∧ (∀ j, k ≤ j → s.1 j = h j) ∧
      ∀ j, j < k → bits.marked j = true → s.1 (bits.below j) = moveCell n bits (h j) := by
  induction k with
  | zero => exact ⟨(Nat.count_zero _).symm, fun _ _ => rfl, (fun j below => by cases below)⟩
  | succ k ih =>
    rw [List.range_succ, List.foldl_append]
    obtain ⟨dst, rest, slid⟩ := ih
    generalize (List.range k).foldl (slideCell n bits) (h, 0) = s at dst rest slid
    rw [List.foldl_cons, List.foldl_nil, slideCell]
    cases kept : bits.marked k with
    | false =>
      rw [if_neg Bool.false_ne_true, Bits.below_skip kept]
      refine ⟨dst, fun j le => rest j (by omega), ?_⟩
      intro j below marked
      refine slid j ?_ marked
      have apart : j ≠ k := by
        rintro rfl
        rw [kept] at marked
        cases marked
      omega
    | true =>
      rw [if_pos rfl, Bits.below_succ kept, dst]
      have low := bits.below_le k
      refine ⟨rfl, ?_, ?_⟩
      · intro j le
        dsimp only
        rw [Function.update_of_ne (by omega)]
        exact rest j (by omega)
      · intro j below marked
        dsimp only
        rcases Nat.lt_succ_iff_lt_or_eq.mp below with older | rfl
        · have less := Bits.below_lt marked older
          rw [Function.update_of_ne (by omega)]
          exact slid j older marked
        · rw [Function.update_self, rest j (Nat.le_refl j)]

theorem slide_len (n : Nat) (bits : Bits) (h : Mem) : (slide n bits h).2 = bits.below n :=
  (slide_upto n bits h n).1

theorem slide_cell {n : Nat} {bits : Bits} {i : Nat} (h : Mem) (inside : i < n)
    (kept : bits.marked i = true) : (slide n bits h).1 (bits.below i) = moveCell n bits (h i) :=
  (slide_upto n bits h n).2.2 i inside kept

/- The tables. -/

theorem lt_liveLen {named : Nat → Bool} {k len : Nat} (below : k < len) (live : named k = true) :
    k < Table.liveLen named len := by
  induction len with
  | zero => cases below
  | succ len ih =>
    unfold Table.liveLen
    split
    · exact below
    · rename_i dead
      refine ih (Nat.lt_of_le_of_ne (Nat.le_of_lt_succ below) ?_)
      rintro rfl
      exact dead live

/-- An entry something names stays as it is. -/
theorem entry_reclaim {α : Type} (t : Table α) {named : Nat → Bool} (free : Bool) {k : Nat}
    (live : named k = true) : (t.reclaim named free).entry k = t.entry k := by
  unfold Table.entry Table.reclaim
  dsimp only
  by_cases below : k < t.entries.length
  · rw [List.getElem?_take_of_lt (lt_liveLen below live), List.getElem?_mapIdx,
      List.getElem?_eq_getElem below, Option.map_some, if_pos live]
  · have past : t.entries[k]? = none := List.getElem?_eq_none (Nat.le_of_not_lt below)
    rw [List.getElem?_take, List.getElem?_mapIdx, past, Option.map_none, ite_self]

theorem tablesReclaim_eq (m : Machine) (due free : Bool) :
    ∃ floats strings bigs rats, m.tablesReclaim due free = { m with floats, strings, bigs, rats } := by
  unfold tablesReclaim
  split
  · exact ⟨_, _, _, _, rfl⟩
  · exact ⟨_, _, _, _, rfl⟩

/-- What a cell of the heap stands for survives. -/
theorem value_tablesReclaim (m : Machine) (due free : Bool) {i : Nat} (inside : i < m.heapLen) :
    (m.tablesReclaim due free).value (m.heap i) = m.value (m.heap i) := by
  have named : ∀ c, m.heap i = c → ((List.range m.heapLen).map m.heap ++ m.words).contains c = true := by
    rintro c rfl
    rw [List.contains_iff_mem]
    exact List.mem_append_left _ (List.mem_map_of_mem (List.mem_range.mpr inside))
  unfold tablesReclaim
  split
  · rfl
  · cases held : m.heap i with
    | flt k => exact congrArg Value.float (entry_reclaim m.floats free (named _ held))
    | str k => exact congrArg Value.string (entry_reclaim m.strings free (named _ held))
    | big k => exact congrArg Value.big (entry_reclaim m.bigs free (named _ held))
    | rat k => exact congrArg Value.rat (entry_reclaim m.rats free (named _ held))
    | _ => rfl

/- The markers. -/

/-- Two heaps with the same references have the same ends of their chains. -/
theorem deref_congr {h h' : Mem} (same : ∀ i p, h i = .ref p ↔ h' i = .ref p) (turns t : Nat) :
    deref h turns t = deref h' turns t := by
  induction turns generalizing t with
  | zero => rfl
  | succ turns ih =>
    unfold deref
    cases here : h t with
    | ref p =>
      rw [(same t p).mp here]
      dsimp only
      split
      · rfl
      · exact ih p
    | _ =>
      have not_ref : ∀ p, h' t ≠ .ref p := by
        intro p there
        rw [(same t p).mpr there] at here
        cases here
      cases there : h' t with
      | ref p => exact absurd there (not_ref p)
      | _ => rfl

/-- An integer that names a cell, moved with it. -/
def moveIndex (n : Nat) (bits : Bits) : Cell → Cell
  | .int q => if 0 ≤ q ∧ q < n then .int (bits.rank q.toNat) else .int q
  | c => c

/-- A heap part of whose integers have been moved. -/
structure Fixed (n : Nat) (bits : Bits) (h : Mem) (s : Mem × Bits) : Prop where
  int : ∀ j, s.2.marked j = true → ∃ q, h j = .int q
  moved : ∀ j, s.2.marked j = true → s.1 j = moveIndex n bits (h j)
  same : ∀ j, s.2.marked j = false → s.1 j = h j

theorem Fixed.refs {n : Nat} {bits : Bits} {h : Mem} {s : Mem × Bits} (fixed : Fixed n bits h s)
    (i p : Nat) : s.1 i = .ref p ↔ h i = .ref p := by
  cases done : s.2.marked i with
  | false => rw [fixed.same i done]
  | true =>
    obtain ⟨q, here⟩ := fixed.int i done
    rw [fixed.moved i done, here, moveIndex]
    split <;> simp

/-- The cell an argument leads to holds an integer. -/
def IndexAt (n : Nat) (h : Mem) (a j : Nat) : Prop := deref h n a = j ∧ ∃ q, h j = .int q

theorem fixArg_done {n : Nat} {bits : Bits} {s : Mem × Bits} {a : Nat}
    (done : s.2.marked (deref s.1 n a) = true) : fixArg n bits s a = s := by
  unfold fixArg
  dsimp only
  split
  · exact if_pos done
  · rfl

theorem fixArg_other {n : Nat} {bits : Bits} {s : Mem × Bits} {a : Nat}
    (other : ∀ q, s.1 (deref s.1 n a) ≠ .int q) : fixArg n bits s a = s := by
  unfold fixArg
  dsimp only
  split
  · rename_i q int
    exact absurd int (other q)
  · rfl

theorem fixArg_int {n : Nat} {bits : Bits} {s : Mem × Bits} {a : Nat} {q : Int}
    (new : s.2.marked (deref s.1 n a) = false) (int : s.1 (deref s.1 n a) = .int q) :
    fixArg n bits s a = (Function.update s.1 (deref s.1 n a)
      (moveIndex n bits (s.1 (deref s.1 n a))), s.2.mark (deref s.1 n a)) := by
  have same : Function.update s.1 (deref s.1 n a) (.int q) = s.1 := by
    rw [← int, Function.update_eq_self]
  unfold fixArg
  dsimp only
  rw [int, new, moveIndex]
  dsimp only
  rw [if_neg Bool.false_ne_true]
  split
  · rfl
  · rw [same]

theorem Fixed.arg {n : Nat} {bits : Bits} {h : Mem} {s : Mem × Bits} (fixed : Fixed n bits h s)
    (a : Nat) : Fixed n bits h (fixArg n bits s a) ∧
      ∀ j, (fixArg n bits s a).2.marked j = true ↔ s.2.marked j = true ∨ IndexAt n h a j := by
  have chain : deref s.1 n a = deref h n a := deref_congr fixed.refs n a
  have here : ∀ i, IndexAt n h a i ↔ i = deref s.1 n a ∧ ∃ q, h (deref s.1 n a) = .int q := by
    intro i
    rw [IndexAt, ← chain]
    constructor
    · rintro ⟨rfl, int⟩
      exact ⟨rfl, int⟩
    · rintro ⟨rfl, int⟩
      exact ⟨rfl, int⟩
  generalize hj : deref s.1 n a = j at here
  cases done : s.2.marked j with
  | true =>
    rw [fixArg_done (by rw [hj]; exact done)]
    refine ⟨fixed, fun i => ?_⟩
    rw [here]
    constructor
    · exact .inl
    · rintro (known | ⟨rfl, -⟩)
      · exact known
      · exact done
  | false =>
    have cell := fixed.same j done
    by_cases int : ∃ q, h j = .int q
    · obtain ⟨q, int⟩ := int
      have now : fixArg n bits s a = _ :=
        fixArg_int (q := q) (by rw [hj]; exact done) (by rw [hj, cell, int])
      rw [hj, cell] at now
      rw [now]
      refine ⟨⟨?_, ?_, ?_⟩, ?_⟩
      · intro i known
        rw [Bits.marked_mark, Bool.or_eq_true, decide_eq_true_iff] at known
        rcases known with rfl | known
        · exact ⟨q, int⟩
        · exact fixed.int i known
      · intro i known
        dsimp only
        by_cases at_ : i = j
        · rw [at_, Function.update_self]
        · rw [Function.update_of_ne at_]
          rw [Bits.marked_mark, decide_eq_false at_, Bool.false_or] at known
          exact fixed.moved i known
      · intro i unknown
        rw [Bits.marked_mark, Bool.or_eq_false_iff, decide_eq_false_iff_not] at unknown
        dsimp only
        rw [Function.update_of_ne unknown.1]
        exact fixed.same i unknown.2
      · intro i
        rw [here, Bits.marked_mark, Bool.or_eq_true, decide_eq_true_iff]
        constructor
        · rintro (rfl | known)
          · exact .inr ⟨rfl, q, int⟩
          · exact .inl known
        · rintro (known | ⟨rfl, -⟩)
          · exact .inr known
          · exact .inl rfl
    · rw [fixArg_other (by
        intro q at_
        rw [hj, cell] at at_
        exact int ⟨q, at_⟩)]
      refine ⟨fixed, fun i => ?_⟩
      rw [here]
      constructor
      · exact .inl
      · rintro (known | ⟨-, at_⟩)
        · exact known
        · exact absurd at_ int

/-- The integers of the marked markers. -/
def Indexed (m : Machine) (bits : Bits) (j : Nat) : Prop :=
  ∃ t < m.heapLen, bits.marked t = true ∧ m.heap t = .func m.texit ∧
    (IndexAt m.heapLen m.heap (t + 1) j ∨ IndexAt m.heapLen m.heap (t + 3) j)

theorem fixMarkers_spec (m : Machine) (bits : Bits) (j : Nat) :
    (m.Indexed bits j → m.fixMarkers bits j = moveIndex m.heapLen bits (m.heap j)) ∧
      (¬ m.Indexed bits j → m.fixMarkers bits j = m.heap j) := by
  let pass := fun (s : Mem × Bits) (t : Nat) =>
    if bits.marked t = true ∧ s.1 t = .func m.texit then
      [t + 1, t + 3].foldl (fixArg m.heapLen bits) s
    else s
  have upto : ∀ k, Fixed m.heapLen bits m.heap ((List.range k).foldl pass (m.heap, Bits.empty)) ∧
      ∀ j, ((List.range k).foldl pass (m.heap, Bits.empty)).2.marked j = true ↔
        ∃ t < k, bits.marked t = true ∧ m.heap t = .func m.texit ∧
          (IndexAt m.heapLen m.heap (t + 1) j ∨ IndexAt m.heapLen m.heap (t + 3) j) := by
    intro k
    induction k with
    | zero =>
      refine ⟨⟨?_, ?_, fun _ _ => rfl⟩, fun j => ?_⟩
      · intro j known
        rw [List.range_zero, List.foldl_nil, Bits.marked_empty] at known
        cases known
      · intro j known
        rw [List.range_zero, List.foldl_nil, Bits.marked_empty] at known
        cases known
      · rw [List.range_zero, List.foldl_nil, Bits.marked_empty]
        simp
    | succ k ih =>
      rw [List.range_succ, List.foldl_append]
      obtain ⟨fixed, listed⟩ := ih
      generalize (List.range k).foldl pass (m.heap, Bits.empty) = s at fixed listed
      rw [List.foldl_cons, List.foldl_nil]
      have func : s.1 k = .func m.texit ↔ m.heap k = .func m.texit := by
        cases done : s.2.marked k with
        | false => rw [fixed.same k done]
        | true =>
          obtain ⟨q, here⟩ := fixed.int k done
          rw [fixed.moved k done, here, moveIndex]
          split <;> simp
      show Fixed m.heapLen bits m.heap (pass s k) ∧ _
      by_cases marker : bits.marked k = true ∧ s.1 k = .func m.texit
      · have both : pass s k = fixArg m.heapLen bits (fixArg m.heapLen bits s (k + 1)) (k + 3) := by
          show (if _ then _ else _) = _
          rw [if_pos marker]
          rfl
        obtain ⟨fixed₁, listed₁⟩ := fixed.arg (k + 1)
        obtain ⟨fixed₂, listed₂⟩ := fixed₁.arg (k + 3)
        rw [both]
        refine ⟨fixed₂, fun j => ?_⟩
        rw [listed₂, listed₁, listed]
        constructor
        · rintro ((⟨t, lt, at_⟩ | first) | third)
          · exact ⟨t, by omega, at_⟩
          · exact ⟨k, by omega, marker.1, func.mp marker.2, .inl first⟩
          · exact ⟨k, by omega, marker.1, func.mp marker.2, .inr third⟩
        · rintro ⟨t, lt, marked, cell, index⟩
          rcases Nat.lt_succ_iff_lt_or_eq.mp lt with older | rfl
          · exact .inl (.inl ⟨t, older, marked, cell, index⟩)
          · rcases index with first | third
            · exact .inl (.inr first)
            · exact .inr third
      · have same : pass s k = s := by
          show (if _ then _ else _) = _
          rw [if_neg marker]
        rw [same]
        refine ⟨fixed, fun j => ?_⟩
        rw [listed]
        constructor
        · rintro ⟨t, lt, at_⟩
          exact ⟨t, by omega, at_⟩
        · rintro ⟨t, lt, marked, cell, index⟩
          rcases Nat.lt_succ_iff_lt_or_eq.mp lt with older | rfl
          · exact ⟨t, older, marked, cell, index⟩
          · exact absurd ⟨marked, func.mpr cell⟩ marker
  obtain ⟨fixed, listed⟩ := upto m.heapLen
  constructor
  · intro index
    exact fixed.moved j ((listed j).mpr index)
  · intro other
    exact fixed.same j (Bool.eq_false_iff.mpr fun known => other ((listed j).mp known))

end Machine

end Cocolog.Gc
