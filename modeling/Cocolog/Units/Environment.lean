import Cocolog.Units.Links

/-! A body's environment: what `cc-env-entry` lays out, what `coco_env_take` reads of a position,
and where the offsets settled by `cc_compile_env` lead. A position keeps 16 bits for its unit. -/

set_option linter.all false

namespace Cocolog.Units

open Cocolog.Term

/-- What an entry is made of, with the cells `frame` and `troots` lead to. -/
structure Request where
  efid : Nat
  code : Int
  parent : Nat
  barrier : Int
  frame : Nat → Nat
  troots : Nat → Nat

/-- The cells `cc-env-entry` writes after the heap: header, code, parent and barrier, the variables'
slots, the terms' and the block every entry has alike. -/
def entry (cd : Code) (r : Request) (heap : List Cell) : List Cell :=
  heap ++ ([Cell.func r.efid, .int r.code, .ref r.parent, .int r.barrier] ++
    ((List.range cd.nes).map fun s => Cell.ref (r.frame (cd.einit.getD s 0))) ++
    ((List.range cd.nterm).map fun s => Cell.ref (r.troots s)) ++ cd.etmpl)

/-- The continuation `er` answers. -/
def entryNext (cd : Code) (eh : Nat) : Nat :=
  eh + (cd.nes + cd.nterm + cd.nslot + 4 + (cd.eu0 - 1))

/-- `coco-env-slot-at`. -/
def envSlotAt (env : Nat) (cd : Code) (s : Nat) : Nat := env + (cd.nes + cd.nterm + 4 + s)

/-- `coco-env-pos`. -/
def envPos (env : Nat) (cd : Code) (u : Nat) : Nat := env + (cd.nes + cd.nterm + cd.nslot + 3 + u)

/-- Where an entry writes the root of its term `s`. -/
def envRootAt (env : Nat) (cd : Code) (s : Nat) : Nat := env + (cd.nes + (s + 4))

/-- `coco-payload`. -/
def payload (c : Cell) : Nat := c.word / 16

/-- What `coco_env_take` decodes of a position: its environment and its unit. -/
def envTake (heap : List Cell) (p : Nat) : Option (Nat × Nat) :=
  heap[p]?.map fun c => (p - payload c >>> 16, payload c &&& 65535)

/-- Cell `p` is the position of a unit of the body, inside the environment. -/
def IsPos (cd : Code) (env p u : Nat) : Prop :=
  (0 < u ∧ u ≤ cd.nunit) ∧ p = envPos env cd u ∧ p ≤ env + cd.arity

/-- It is one of the body's condition slots. -/
def IsSlot (cd : Code) (env p s : Nat) : Prop :=
  s < cd.nslot ∧ p = envSlotAt env cd s ∧ p ≤ env + cd.arity

/-- It is the slot of one of its terms. -/
def IsRoot (cd : Code) (env p s : Nat) : Prop :=
  s < cd.nterm ∧ p = envRootAt env cd s ∧ p ≤ env + cd.arity

/-- The cells a unit's offsets lead to. -/
structure Addressed (cd : Code) (env : Nat) (x : Egoal) : Prop where
  returns : x.next = 0 → x.noff = 2 ∧ 2 ≤ cd.arity
  next : x.next ≠ 0 → IsPos cd env (env + x.noff) x.next
  barrier : x.bslot = 0 → x.boff = 3 ∧ x.badd = 0 ∧ 3 ≤ cd.arity
  cuts : x.bslot ≠ 0 → IsSlot cd env (env + x.boff) (x.bslot - 1) ∧ x.badd = 1
  root : x.kind = .term ∨ x.kind = .builtin → IsRoot cd env (env + x.soff) x.tslot
  height : x.kind = .ite ∨ x.kind = .cutc → IsSlot cd env (env + x.soff) x.tslot
  first : x.kind = .ite ∨ x.kind = .disj ∨ x.kind = .conj → IsPos cd env (env + x.aoff) x.a
  other : x.kind = .ite → IsPos cd env (env + x.coff) x.c
  right : x.kind = .disj → IsPos cd env (env + x.coff) x.b

/-- Positions and offsets agree, in every environment an entry lays out. -/
def Agrees (cd : Code) : Prop :=
  ∀ (r : Request) (heap : List Cell),
    IsPos cd heap.length (entryNext cd heap.length) cd.eu0 ∧
    ∀ i, 0 < i → i ≤ cd.nunit →
      envTake (entry cd r heap) (envPos heap.length cd i) = some (heap.length, i) ∧
      Addressed cd heap.length (cd.egoals i)

/-- A payload keeps sixty bits. -/
theorem payload_pos (w : Nat) : payload (.pos w) = w % 2 ^ 60 := by
  show (w * 16 % 2 ^ 64 + 6) / 16 = w % 2 ^ 60
  omega

theorem posWord_eq {d u : Nat} (narrow : u < 65536) : posWord d u = d * 65536 + u := by
  unfold posWord
  rw [← Nat.shiftLeft_add_eq_or_of_lt narrow, Nat.shiftLeft_eq]

/-- A unit of sixteen bits is told from its position, and so is the distance to the header. -/
theorem payload_decodes {d u : Nat} (near : d < 2 ^ 40) (narrow : u < 65536) :
    payload (.pos (posWord d u)) >>> 16 = d ∧ payload (.pos (posWord d u)) &&& 65535 = u := by
  have whole : payload (.pos (posWord d u)) = d * 65536 + u := by
    rw [payload_pos, posWord_eq narrow]
    omega
  constructor
  · rw [whole, Nat.shiftRight_eq_div_pow]
    omega
  · rw [whole]
    show _ &&& (2 ^ 16 - 1) = _
    rw [Nat.and_two_pow_sub_one_eq_mod]
    omega

/-- The first unit past sixteen bits is told as none. -/
theorem payload_wraps (d : Nat) : payload (.pos (posWord d 65536)) &&& 65535 = 0 := by
  have shifted : posWord d 65536 = (d ||| 1) * 65536 := by
    unfold posWord
    rw [← Nat.shiftLeft_eq (d ||| 1) 16, Nat.shiftLeft_or_distrib]
    rfl
  rw [payload_pos, shifted]
  show _ &&& (2 ^ 16 - 1) = _
  rw [Nat.and_two_pow_sub_one_eq_mod]
  omega

/-- Past the terms an entry has its code's block. -/
theorem entry_block (cd : Code) (r : Request) (heap : List Cell) (k : Nat) :
    (entry cd r heap)[heap.length + (cd.nes + cd.nterm + 4 + k)]? = cd.etmpl[k]? := by
  unfold entry
  rw [List.getElem?_append_right (Nat.le_add_right _ _), Nat.add_sub_cancel_left,
    List.getElem?_append_right (by simp)]
  congr 1
  simp

section

variable {s : Site} {ngd : Nat} {body : Tm} {uc : Comp} {bus : List Nat} {ehand : Bool}

/-- The position an entry writes for a unit. -/
theorem settle_pos (r : Request) (heap : List Cell) {i : Nat} (pos : 0 < i) (low : i ≤ uc.nu) :
    (entry (settle uc bus ehand) r heap)[envPos heap.length (settle uc bus ehand) i]? =
      some (.pos (posWord
        ((uc.einit.length + uc.nterm + uc.nslot + 4) % 2 ^ 32 + (i - 1)) i)) := by
  have place : envPos heap.length (settle uc bus ehand) i =
      heap.length + ((settle uc bus ehand).nes + (settle uc bus ehand).nterm + 4 +
        (uc.nslot + (i - 1))) := by
    show heap.length + (uc.einit.length + uc.nterm + uc.nslot + 3 + i) =
      heap.length + (uc.einit.length + uc.nterm + 4 + (uc.nslot + (i - 1)))
    omega
  rw [place, entry_block]
  show (List.replicate uc.nslot (Cell.int 0) ++ _)[uc.nslot + (i - 1)]? = _
  rw [List.getElem?_append_right (by simp), List.length_replicate, Nat.add_sub_cancel_left,
    List.getElem?_map, List.getElem?_range (by omega), Option.map_some,
    show i - 1 + 1 = i by omega]

/-- The place of a unit of a small body, found in 32 bits. -/
theorem Taken.isPos (t : Taken s ngd body uc bus) (few : uc.nu < 65536) (ehand : Bool) (env : Nat)
    {u : Nat} (unit : 0 < u ∧ u ≤ uc.nu) :
    IsPos (settle uc bus ehand) env
      (env + ((uc.einit.length + uc.nterm + uc.nslot + 3) % 2 ^ 32 + u) % 2 ^ 32) u := by
  have terms := t.terms
  have slots := t.slots
  have vars := t.vars
  refine ⟨unit, ?_, ?_⟩
  · show _ = env + (uc.einit.length + uc.nterm + uc.nslot + 3 + u)
    omega
  · show _ ≤ env + (uc.einit.length + uc.nterm + uc.nslot + uc.nu + 3) % 2 ^ 32
    omega

/-- Of a condition slot. -/
theorem Taken.isSlot (t : Taken s ngd body uc bus) (few : uc.nu < 65536) (ehand : Bool) (env : Nat)
    {k : Nat} (slot : k < uc.nslot) :
    IsSlot (settle uc bus ehand) env
      (env + ((uc.einit.length + uc.nterm + 4) % 2 ^ 32 + k) % 2 ^ 32) k := by
  have terms := t.terms
  have slots := t.slots
  have vars := t.vars
  refine ⟨slot, ?_, ?_⟩
  · show _ = env + (uc.einit.length + uc.nterm + 4 + k)
    omega
  · show _ ≤ env + (uc.einit.length + uc.nterm + uc.nslot + uc.nu + 3) % 2 ^ 32
    omega

/-- Of a term's slot. -/
theorem Taken.isRoot (t : Taken s ngd body uc bus) (few : uc.nu < 65536) (ehand : Bool) (env : Nat)
    {k : Nat} (root : k < uc.nterm) :
    IsRoot (settle uc bus ehand) env (env + (uc.einit.length + k + 4) % 2 ^ 32) k := by
  have terms := t.terms
  have slots := t.slots
  have vars := t.vars
  have pos : 0 < uc.nu := by
    obtain ⟨u, rest, list⟩ := List.exists_cons_of_ne_nil t.begins
    obtain ⟨pos, low⟩ := t.within u (list ▸ List.mem_cons_self)
    omega
  refine ⟨root, ?_, ?_⟩
  · show _ = env + (uc.einit.length + (k + 4))
    omega
  · show _ ≤ env + (uc.einit.length + uc.nterm + uc.nslot + uc.nu + 3) % 2 ^ 32
    omega

/-- A unit's offsets lead where its parts are, where the body has few units. -/
theorem Taken.addressed (t : Taken s ngd body uc bus) (few : uc.nu < 65536) (env : Nat) {i : Nat}
    (pos : 0 < i) (low : i ≤ uc.nu) :
    Addressed (settle uc bus ehand) env ((settle uc bus ehand).egoals i) := by
  obtain ⟨linked, whole⟩ := ulinkBody_sound t.sound t.within (2 * uc.nu + 2) i pos low
  have terms := t.terms
  have slots := t.slots
  have vars := t.vars
  have arity : 3 ≤ (settle uc bus ehand).arity := by
    show 3 ≤ (uc.einit.length + uc.nterm + uc.nslot + uc.nu + 3) % 2 ^ 32
    omega
  have part {v : Nat} (after : After i uc.nu v) (there : v ≠ 0) : 0 < v ∧ v ≤ uc.nu :=
    have ⟨pos, low, _⟩ := after.within there
    ⟨pos, low⟩
  have unit : (settle uc bus ehand).egoals i =
      offsets uc.einit.length ((uc.einit.length + uc.nterm + uc.nslot + 3) % 2 ^ 32)
        ((uc.einit.length + uc.nterm + 4) % 2 ^ 32) (ulinkBody (2 * uc.nu + 2) uc.us bus i) :=
    if_pos ⟨pos, low⟩
  rw [unit]
  generalize ulinkBody (2 * uc.nu + 2) uc.us bus i = x at linked whole ⊢
  constructor
  case returns => exact fun end_ => ⟨if_pos end_, by omega⟩
  case next =>
    intro more
    change x.next ≠ 0 at more
    have there := t.isPos few ehand env ⟨Nat.pos_of_ne_zero more, linked.next⟩
    simpa only [offsets, if_neg more] using there
  case barrier => exact fun own => ⟨if_pos own, if_pos own, arity⟩
  case cuts =>
    intro cond
    change x.bslot ≠ 0 at cond
    have within := linked.bslot
    have there := t.isSlot few ehand env (show x.bslot - 1 < uc.nslot by omega)
    simpa only [offsets, if_neg cond, and_true] using there
  case root =>
    intro kind
    have there := t.isRoot few ehand env (whole.root kind)
    rcases kind with kind | kind <;>
    · change x.kind = _ at kind
      simpa only [offsets, kind] using there
  case height =>
    intro kind
    have there := t.isSlot few ehand env (whole.height kind)
    rcases kind with kind | kind <;>
    · change x.kind = _ at kind
      simpa only [offsets, kind] using there
  case first =>
    intro kind
    have begun : x.a ≠ 0 := by
      rcases kind with kind | kind | kind
      · exact (whole.ite kind).1
      · exact (whole.disj kind).1
      · exact whole.conj kind
    simpa only [offsets, if_pos begun] using
      t.isPos few ehand env (part linked.a begun)
  case other =>
    intro kind
    change x.kind = _ at kind
    simpa only [offsets, kind] using
      t.isPos few ehand env (part linked.c (whole.ite kind).2.2.1)
  case right =>
    intro kind
    change x.kind = _ at kind
    simpa only [offsets, kind] using
      t.isPos few ehand env (part linked.b (whole.disj kind).2)

/-- With fewer than 65536 units an environment's positions and offsets agree. -/
theorem Taken.agrees (t : Taken s ngd body uc bus) (few : uc.nu < 65536) :
    Agrees (settle uc bus ehand) := by
  intro r heap
  have terms := t.terms
  have slots := t.slots
  have vars := t.vars
  constructor
  · obtain ⟨u, rest, list⟩ := List.exists_cons_of_ne_nil t.begins
    have unit := t.within u (list ▸ List.mem_cons_self)
    have first : (settle uc bus ehand).eu0 = u := by rw [list]; rfl
    rw [first]
    refine ⟨unit, ?_, ?_⟩
    · show heap.length + (uc.einit.length + uc.nterm + uc.nslot + 4 + (_ - 1)) =
        heap.length + (uc.einit.length + uc.nterm + uc.nslot + 3 + u)
      omega
    · show heap.length + (uc.einit.length + uc.nterm + uc.nslot + 4 + (_ - 1)) ≤
        heap.length + (uc.einit.length + uc.nterm + uc.nslot + uc.nu + 3) % 2 ^ 32
      omega
  · intro i pos low
    change i ≤ uc.nu at low
    refine ⟨?_, t.addressed few heap.length pos low⟩
    have near : (uc.einit.length + uc.nterm + uc.nslot + 4) % 2 ^ 32 + (i - 1) < 2 ^ 40 := by omega
    obtain ⟨distance, unit⟩ := payload_decodes near (Nat.lt_of_le_of_lt low few)
    unfold envTake
    rw [settle_pos r heap pos low, Option.map_some, distance, unit]
    have back : envPos heap.length (settle uc bus ehand) i -
        ((uc.einit.length + uc.nterm + uc.nslot + 4) % 2 ^ 32 + (i - 1)) = heap.length := by
      show heap.length + (uc.einit.length + uc.nterm + uc.nslot + 3 + i) - _ = _
      omega
    rw [back]

/-- With more, the position of unit 65536 is told as none. -/
theorem not_agrees (many : 65536 ≤ uc.nu) : ¬ Agrees (settle uc bus ehand) := by
  intro agrees
  have taken := ((agrees ⟨0, 0, 0, 0, id, id⟩ []).2 65536 (by decide) many).1
  unfold envTake at taken
  rw [settle_pos _ _ (by decide) many, Option.map_some, payload_wraps] at taken
  exact absurd (Prod.mk.inj (Option.some.inj taken)).2 (by decide)

end

/-- An accepted body's environments have their positions and offsets agree just where the body makes
fewer than 65536 units. -/
theorem environment_agrees (s : Site) (head : Walk) (nvars ngd : Nat) (body : Tm) (cd : Code)
    (made : compileEnv s head nvars ngd body = some (some cd)) :
    Agrees cd ↔ bodyUnits s ngd body < 65536 := by
  obtain ⟨uc, bus, ehand, rfl, taken⟩ := compileEnv_taken made
  rw [← taken.nu]
  exact ⟨fun agrees => Nat.lt_of_not_le fun many => not_agrees many agrees, taken.agrees⟩

/-- A site with memory, that takes over no name, calls every program's predicate and compares in
place. -/
def plainSite : Site where
  taken _ := false
  callable f n := f = .named 0 ∧ n ≠ 0
  place _ _ t := match t with
    | .app (.named 1) [_, _] => .sides
    | _ => .term
  room _ := true

/-- `p(X) :- ( X = 1, ! -> p(Y) ; \+ q ), p(Y)`, with `=` and `q` named 1 and 2. -/
def smallBody : Tm :=
  .app .comma
    [.app .semi
      [.app .arrow
        [.app .comma [.app (.named 1) [.var 0, .const 1], .atom .cut], .app (.named 0) [.var 1]],
        .app .neg [.atom (.named 2)]],
     .app (.named 0) [.var 1]]

theorem environment_agrees_small :
    ∃ cd, compileEnv plainSite { vm := [(0, 0)], nvars := 1 } 2 0 smallBody = some (some cd) ∧
      Agrees cd := by
  have taken : (compileEnv plainSite { vm := [(0, 0)], nvars := 1 } 2 0 smallBody).join.isSome := by
    decide +kernel
  obtain ⟨cd, made⟩ := Option.isSome_iff_exists.mp taken
  have made := Option.join_eq_some_iff.mp made
  exact ⟨cd, made, (environment_agrees plainSite _ 2 0 smallBody cd made).mpr (by decide)⟩

/-! ## A body of too many units -/

/-- `n` goals `t`, then `true`. -/
def wide (t : Tm) : Nat → Tm
  | 0 => .atom .true_
  | n + 1 => .app .comma [t, wide t n]

/-- Conjunctions of 63 items, one inside the other. -/
def tower : Nat → Tm
  | 0 => .atom .true_
  | k + 1 => wide (tower k) 62

/-- How many units it makes. -/
def towerUnits : Nat → Nat
  | 0 => 1
  | k + 1 => 62 * towerUnits k + 2

/-- A goal is compiled to `n` units, and to no term. -/
def Runs (branch : Tm → Comp → Option (Nat × Comp)) (t : Tm) (n : Nat) : Prop :=
  ∀ uc : Comp, uc.nu + n < 2 ^ 30 → ∃ u uc', branch t uc = some (u, uc') ∧ uc'.nu = uc.nu + n ∧
    uc'.nterm = uc.nterm ∧ uc'.nvars = uc.nvars

theorem unew_runs (uc : Comp) (kind : Kind) (room : uc.nu + 1 < 2 ^ 30) :
    ∃ u uc', uc.unew plainSite kind = some (u, uc') ∧ uc'.nu = uc.nu + 1 ∧
      uc'.nterm = uc.nterm ∧ uc'.nvars = uc.nvars := by
  unfold Comp.unew
  split
  · exact ⟨_, _, rfl, rfl, rfl, rfl⟩
  · next full =>
    have grows : (if uc.ucap = 0 then 16 else uc.ucap * 2 % 2 ^ 32) ≠ 0 := by
      split
      · decide
      · omega
    generalize (if uc.ucap = 0 then 16 else uc.ucap * 2 % 2 ^ 32) = ncap at grows
    dsimp only
    rw [if_neg grows]
    exact ⟨_, _, rfl, rfl, rfl, rfl⟩

theorem true_runs (deep : Nat) : Runs (ubranch plainSite deep) (.atom .true_) 1 := by
  intro uc room
  obtain ⟨u, uc', made, rest⟩ := unew_runs uc .true_ room
  cases deep with
  | zero => exact ⟨u, uc', made, rest⟩
  | succ deep => exact ⟨u, uc', made, rest⟩

theorem items_run {branch : Tm → Comp → Option (Nat × Comp)} {t : Tm} {n : Nat}
    (item : Runs branch t n) (end_ : Runs branch (.atom .true_) 1) (u last : Nat) {k left : Nat}
    (within : k ≤ left) (uc : Comp) (room : uc.nu + (k * n + 1) < 2 ^ 30) :
    ∃ uc', items branch u left (wide t k) last uc = some uc' ∧ uc'.nu = uc.nu + (k * n + 1) ∧
      uc'.nterm = uc.nterm ∧ uc'.nvars = uc.nvars := by
  have joined (uc : Comp) (last x : Nat) : (join uc u last x).nu = uc.nu ∧
      (join uc u last x).nterm = uc.nterm ∧ (join uc u last x).nvars = uc.nvars := by
    unfold join
    split <;> exact ⟨rfl, rfl, rfl⟩
  induction k generalizing left last uc with
  | zero =>
    obtain ⟨x, uc₁, made, nu, nterm, nvars⟩ := end_ uc (by omega)
    obtain ⟨nu', nterm', nvars'⟩ := joined uc₁ last x
    have plain : (wide t 0).Plain := fun l r same => by cases same
    rw [items_last (.inl plain)]
    show ∃ uc', (branch (.atom .true_) uc).bind _ = some uc' ∧ _
    rw [made]
    refine ⟨_, rfl, ?_, nterm'.trans nterm, nvars'.trans nvars⟩
    show (join uc₁ u last x).nu = _
    omega
  | succ k ih =>
    have one : (k + 1) * n = n + k * n := by rw [Nat.add_mul, Nat.one_mul, Nat.add_comm]
    rw [one] at room ⊢
    obtain ⟨left, rfl⟩ := Nat.exists_eq_add_of_lt (Nat.lt_of_lt_of_le (Nat.succ_pos k) within)
    obtain ⟨x, uc₁, made, nu, nterm, nvars⟩ := item uc (by omega)
    obtain ⟨nu', nterm', nvars'⟩ := joined uc₁ last x
    obtain ⟨uc₂, rest, more, terms, vars⟩ :=
      ih x (show k ≤ 0 + left by omega) (join uc₁ u last x) (by omega)
    change uc₂.nu = (join uc₁ u last x).nu + _ at more
    change uc₂.nterm = (join uc₁ u last x).nterm at terms
    change uc₂.nvars = (join uc₁ u last x).nvars at vars
    refine ⟨uc₂, ?_, by omega, by omega, by omega⟩
    show (branch t uc).bind _ = some uc₂
    rw [made]
    exact rest

theorem tower_runs (k d : Nat) : Runs (ubranch plainSite (k + d)) (tower k) (towerUnits k) := by
  induction k with
  | zero => exact true_runs _
  | succ k ih =>
    intro uc room
    change uc.nu + (62 * towerUnits k + 2) < 2 ^ 30 at room
    obtain ⟨u, uc₁, made, nu, nterm, nvars⟩ := unew_runs uc .conj (by omega)
    obtain ⟨uc₂, rest, more, terms, vars⟩ :=
      items_run ih (true_runs _) u 0 (show 62 ≤ 63 by decide) uc₁ (by omega)
    refine ⟨u, { uc₂ with ncons := uc₂.ncons + 1 }, ?_, ?_, terms.trans nterm, vars.trans nvars⟩
    · rw [Nat.add_right_comm]
      show (uc.unew plainSite .conj).bind _ = _
      rw [made]
      show (items _ u 63 (wide (tower k) 62) 0 uc₁).bind _ = _
      rw [rest]
      rfl
    · show uc₂.nu = uc.nu + (62 * towerUnits k + 2)
      omega

/-- A body that is one disjunction is taken where its arms are compiled, to no term. -/
theorem disj_taken {l r : Tm} {n m : Nat} (form : uform plainSite (.app .semi [l, r]) = some (.disj l r))
    (left : Runs (ubranch plainSite 63) l n) (right : Runs (ubranch plainSite 63) r m)
    (room : n + m + 1 < 2 ^ 30) :
    ∃ uc bus ehand,
      compileEnv plainSite { vm := [], nvars := 0 } 0 0 (.app .semi [l, r]) =
        some (some (settle uc bus ehand)) ∧ uc.nu = n + m + 1 := by
  let uc₀ : Comp :=
    { us := fun _ => { kind := .term }, nemap := 1, vm := [], nvars := 0, asks := 1 }
  obtain ⟨u, uc₁, new, nu₁, nterm₁, nvars₁⟩ := unew_runs uc₀ .disj (show 0 + 1 < 2 ^ 30 by decide)
  change uc₁.nu = 1 at nu₁
  change uc₁.nterm = 0 at nterm₁
  change uc₁.nvars = 0 at nvars₁
  obtain ⟨x, uc₂, left, nu₂, nterm₂, nvars₂⟩ := left uc₁ (by omega)
  obtain ⟨y, uc₃, right, nu₃, nterm₃, nvars₃⟩ :=
    right (uc₂.set u fun g => { g with a := x }) (by show uc₂.nu + m < 2 ^ 30; omega)
  change uc₃.nu = uc₂.nu + m at nu₃
  change uc₃.nterm = uc₂.nterm at nterm₃
  change uc₃.nvars = uc₂.nvars at nvars₃
  let uc₄ : Comp := { uc₃.set u fun g => { g with b := y } with ncons := uc₃.ncons + 1 }
  have unit : ubranch plainSite 64 (.app .semi [l, r]) uc₀ = some (u, uc₄) := by
    rw [ubranch_plain plainSite 63 fun _ _ same => by cases same]
    simp only [Units.unit, atomKind, form, construct, new, left, right, Option.bind_eq_bind,
      Option.bind_some]
    rfl
  have goals : compileGoals plainSite 0 0 [.app .semi [l, r]] uc₀ = some ([u], false, uc₄) := by
    have taken : ¬ (0 < 0 ∨ 0 = 0 ∧ ufirst plainSite (.app .semi [l, r]) = false) := by
      simp [ufirst, form]
    show (if 0 < 0 ∨ 0 = 0 ∧ ufirst plainSite (.app .semi [l, r]) = false then _ else _) = _
    rw [if_neg taken, unit]
    rfl
  have taken : ¬ (uc₄.ncons = 0 ∨ [u].length = 0 ∨ 64 < uc₄.nterm ∨ uc₄.nvars ≠ 0) := by
    have terms : uc₄.nterm = 0 := nterm₃.trans (nterm₂.trans nterm₁)
    have vars : uc₄.nvars = 0 := nvars₃.trans (nvars₂.trans nvars₁)
    rw [terms, vars]
    simp [uc₄]
  refine ⟨{ uc₄ with asks := uc₄.asks + 1 }, [u], false, ?_, ?_⟩
  · have has : ¬ bodyHasUnit (.app .semi [l, r]) 0 = false := by
      simp [bodyHasUnit, bodyGoals, mayConstruct]
    unfold compileEnv
    rw [if_neg has]
    show (compileGoals plainSite 0 0 [.app .semi [l, r]] uc₀).bind _ = _
    rw [goals]
    exact if_neg taken
  · show uc₃.nu = n + m + 1
    omega

/-- A disjunction whose left arm is three such conjunctions. -/
def largeBody : Tm := .app .semi [tower 3, .atom .true_]

/-- It is taken, and its environment does not agree. -/
theorem largeBody_disagrees :
    ∃ cd, compileEnv plainSite { vm := [], nvars := 0 } 0 0 largeBody = some (some cd) ∧
      ¬ Agrees cd := by
  obtain ⟨uc, bus, ehand, made, count⟩ :=
    disj_taken rfl (tower_runs 3 60) (true_runs 63) (by decide)
  have many : 65536 ≤ uc.nu := by
    rw [count]
    decide
  exact ⟨_, made, not_agrees many⟩

end Cocolog.Units
