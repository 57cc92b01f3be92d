import Cocolog.Lib.Scan
import Cocolog.Lib.Probe

/-! The index of a clause list on one argument: a table of keys, each with the first
and last clause of its key, and the links that thread the clauses of one key. The same
code serves the first argument and each of the others. Keys are machine words; zero is
the key that constrains nothing. -/

set_option linter.all false

namespace Cocolog.Store

open Cocolog.Lib

/-- `coco_kslot`: one key's chain. A zero key is an unoccupied slot. -/
structure KSlot where
  key : Nat := 0
  head : Nat := 0
  tail : Nat := 0
  count : Nat := 0

/-- The members `coco_pred` and `coco_argix` share. A link, head or tail that is
`coco_no_clause` is `none`. -/
structure Table where
  chain : Nat → Option Nat := fun _ => none
  slots : Nat → KSlot := fun _ => {}
  nslots : Nat := 0
  varhead : Option Nat := none
  vartail : Option Nat := none
  nvar : Nat := 0

namespace Table

/-- Where the probe for a key begins: `((key * 1099511628211) >> 7) & (nslots - 1)`. -/
def start (t : Table) (key : Nat) : Nat :=
  ((key * 1099511628211 % 2 ^ 64) >>> 7) &&& (t.nslots - 1)

/-- `coco_kslot_of` and `coco_aix_slot`, the slot a key lives in or would. The source
loops without a bound; the table is never full, so the bound here is never met. -/
def slotOf (t : Table) (key : Nat) : Nat :=
  probe (fun i => (t.slots i).key == 0 || (t.slots i).key == key)
    (fun i => (i + 1) &&& (t.nslots - 1)) t.nslots (t.start key)

/-- `coco_chain_add` and `coco_aix_add` but for `kmax`: position `at_` joins the chain
of its key, behind every position already there. -/
def add (t : Table) (key at_ : Nat) : Table :=
  let chain := Function.update t.chain at_ none
  if key = 0 then
    match t.varhead with
    | none => { t with chain, varhead := some at_, vartail := some at_, nvar := t.nvar + 1 }
    | some _ =>
      { t with
        chain := match t.vartail with
          | none => chain
          | some last => Function.update chain last (some at_)
        vartail := some at_, nvar := t.nvar + 1 }
  else
    let i := t.slotOf key
    let sl := t.slots i
    if sl.key = 0 then
      { t with
        chain, slots := Function.update t.slots i { key, head := at_, tail := at_, count := 1 } }
    else
      { t with
        chain := Function.update chain sl.tail (some at_)
        slots := Function.update t.slots i { sl with tail := at_, count := sl.count + 1 } }

/-- `while (want < need) want *= 2`. -/
def grow (need : Nat) : Nat → Nat → Nat
  | 0, want => want
  | turns + 1, want => if want < need then grow need turns (want * 2) else want

/-- The slots a table for `need` halves is given, from sixteen up by doubling. -/
def wanted (need : Nat) : Nat := grow need need 16

/-- The table emptied and given its slots, before the first position joins. -/
def clear (t : Table) (want : Nat) : Table :=
  { t with slots := fun _ => {}, nslots := want, varhead := none, vartail := none, nvar := 0 }

/-- The positions below `n` joined in order. -/
def addAll (t : Table) (keys : Nat → Nat) (n : Nat) : Table :=
  (List.range n).foldl (fun t i => t.add (keys i) i) t

/-- `coco_chain_from` and `coco_aix_from`: along one chain to its first entry at or
after `from_`. A chain has no more entries than there are clauses. -/
def chainFrom (t : Table) (from_ : Nat) : Nat → Option Nat → Option Nat
  | _, none => none
  | 0, some h => some h
  | turns + 1, some h => if h < from_ then t.chainFrom from_ turns (t.chain h) else some h

/-- The smaller of two answers, either of which may be none. -/
def earlier : Option Nat → Option Nat → Option Nat
  | none, b => b
  | some a, none => some a
  | some a, some b => some (if a < b then a else b)

/-- The first position at or after `from_` of this key or of none, read off the chains:
from the link of the clause just before `from_` when that clause is in the chain asked
for, from the head of the chain otherwise. -/
def next (t : Table) (keys : Nat → Nat) (n key from_ : Nat) : Option Nat :=
  let sl := t.slots (t.slotOf key)
  let kprev := if 0 < from_ then some (keys (from_ - 1)) else none
  let b := if kprev = some 0 then t.chain (from_ - 1) else t.chainFrom from_ n t.varhead
  let a :=
    if sl.key ≠ 0 then
      if kprev = some key then t.chain (from_ - 1) else t.chainFrom from_ n (some sl.head)
    else none
  earlier a b

end Table

/-- The clause's key lets the call's key through. -/
def admits (key k : Nat) : Bool := key == 0 || k == 0 || k == key

/-- The positions of one key. -/
def ofKey (keys : Nat → Nat) (key : Nat) : Nat → Bool := fun i => keys i == key

/-- `i` is the last accepted position below `n`. -/
def IsLast (c : Nat → Bool) (n i : Nat) : Prop :=
  i < n ∧ c i = true ∧ leastFrom c (i + 1) n = none

theorem IsLast.grow_other {c : Nat → Bool} {n i : Nat} (last : IsLast c n i)
    (other : c n = false) : IsLast c (n + 1) i := by
  refine ⟨by have := last.1; omega, last.2.1, ?_⟩
  rw [leastFrom_grow c (by have := last.1; omega), last.2.2, other]
  rfl

theorem IsLast.grow_self {c : Nat → Bool} {n : Nat} (accepted : c n = true) :
    IsLast c (n + 1) n :=
  ⟨by omega, accepted, leastFrom_of_ge (by omega)⟩

theorem IsLast.eq {c : Nat → Bool} {n i j : Nat} (hi : IsLast c n i) (hj : IsLast c n j) :
    i = j := by
  rcases Nat.lt_trichotomy i j with lt | rfl | gt
  · have none := leastFrom_eq_none.mp hi.2.2 j lt hj.1
    rw [hj.2.1] at none
    cases none
  · rfl
  · have none := leastFrom_eq_none.mp hj.2.2 i gt hi.1
    rw [hi.2.1] at none
    cases none

namespace Table

/-- The table agrees with the keys of the first `n` positions: each link leads to the
next position of the same key, each head to the first, each occupied slot is the one its
key is looked up in, and every key has its slot. -/
structure Ok (t : Table) (keys : Nat → Nat) (n : Nat) : Prop where
  power : ∃ e, t.nslots = 2 ^ e
  room : n < t.nslots
  link : ∀ i < n, t.chain i = leastFrom (ofKey keys (keys i)) (i + 1) n
  varhead : t.varhead = leastFrom (ofKey keys 0) 0 n
  vartail : ∀ h, t.varhead = some h → ∃ v, t.vartail = some v ∧ IsLast (ofKey keys 0) n v
  found : ∀ s < t.nslots, (t.slots s).key ≠ 0 → t.slotOf (t.slots s).key = s
  head : ∀ s < t.nslots, (t.slots s).key ≠ 0 →
    leastFrom (ofKey keys (t.slots s).key) 0 n = some (t.slots s).head
  tail : ∀ s < t.nslots, (t.slots s).key ≠ 0 →
    IsLast (ofKey keys (t.slots s).key) n (t.slots s).tail
  listed : ∀ i < n, keys i ≠ 0 → ∃ s < t.nslots, (t.slots s).key = keys i

variable {t : Table} {keys : Nat → Nat} {n : Nat}

theorem start_lt (power : ∃ e, t.nslots = 2 ^ e) (key : Nat) : t.start key < t.nslots := by
  obtain ⟨e, he⟩ := power
  rw [start, he, Nat.and_two_pow_sub_one_eq_mod]
  exact Nat.mod_lt _ (Nat.two_pow_pos e)

/-- A table with fewer positions than slots has a slot to stop at. -/
theorem Ok.free (ok : t.Ok keys n) : ∃ s < t.nslots, (t.slots s).key = 0 := by
  have free := exists_free ok.room (fun s => (t.slots s).key ≠ 0) (fun s => (t.slots s).head)
    (fun s hs taken => (leastFrom_eq_some.mp (ok.head s hs taken)).2.1) ?_
  · obtain ⟨s, hs, empty⟩ := free
    exact ⟨s, hs, not_not.mp empty⟩
  · intro s hs s' hs' taken taken' same
    have key : keys (t.slots s).head = (t.slots s).key := by
      simpa [ofKey] using (leastFrom_eq_some.mp (ok.head s hs taken)).2.2.1
    have key' : keys (t.slots s').head = (t.slots s').key := by
      simpa [ofKey] using (leastFrom_eq_some.mp (ok.head s' hs' taken')).2.2.1
    rw [← ok.found s hs taken, ← ok.found s' hs' taken', ← key, ← key', same]

theorem Ok.stops (ok : t.Ok keys n) (key : Nat) :
    StopsAt (fun i => (t.slots i).key == 0 || (t.slots i).key == key)
      (fun i => (i + 1) &&& (t.nslots - 1)) t.nslots (t.start key) (t.slotOf key) := by
  obtain ⟨s, hs, empty⟩ := ok.free
  obtain ⟨e, he⟩ := ok.power
  have begin_ := start_lt ok.power key
  rw [he] at hs begin_
  obtain ⟨j, hj, meets⟩ := mask_walk_meets begin_ hs
  refine probe_stopsAt ⟨j, by rw [he]; exact hj, ?_⟩
  rw [he, meets]
  simp [empty]

theorem Ok.slotOf_lt (ok : t.Ok keys n) (key : Nat) : t.slotOf key < t.nslots := by
  obtain ⟨j, -, hj, -⟩ := ok.stops key
  obtain ⟨e, he⟩ := ok.power
  have begin_ := start_lt ok.power key
  rw [he] at hj begin_
  rw [iterate_mask_succ begin_] at hj
  rw [← hj, he]
  exact Nat.mod_lt _ (Nat.two_pow_pos e)

theorem Ok.slotOf_key (ok : t.Ok keys n) (key : Nat) :
    (t.slots (t.slotOf key)).key = 0 ∨ (t.slots (t.slotOf key)).key = key := by
  obtain ⟨j, -, -, stopped, -⟩ := ok.stops key
  simpa using stopped

/-- An unoccupied slot for a key says no position has it. -/
theorem Ok.absent (ok : t.Ok keys n) {key : Nat} (positive : key ≠ 0)
    (empty : (t.slots (t.slotOf key)).key = 0) : ∀ i < n, keys i ≠ key := by
  intro i hi same
  obtain ⟨s, hs, hk⟩ := ok.listed i hi (by rw [same]; exact positive)
  have at_ := ok.found s hs (by rw [hk, same]; exact positive)
  rw [hk, same] at at_
  rw [at_, hk, same] at empty
  exact positive empty

theorem grow_other {key lo : Nat} (le : lo ≤ n) (other : keys n ≠ key) :
    leastFrom (ofKey keys key) lo (n + 1) = leastFrom (ofKey keys key) lo n := by
  have refused : ofKey keys key n = false := by simpa [ofKey] using other
  rw [leastFrom_grow _ le, refused]
  simp

theorem grow_some {key lo h : Nat} (some_ : leastFrom (ofKey keys key) lo n = some h) :
    leastFrom (ofKey keys key) lo (n + 1) = some h := by
  have below := leastFrom_eq_some.mp some_
  rw [leastFrom_grow _ (by omega), some_]
  rfl

/-- The links after a position of a key not seen before. -/
theorem links_fresh {chain : Nat → Option Nat}
    (link : ∀ i < n, chain i = leastFrom (ofKey keys (keys i)) (i + 1) n)
    (fresh : ∀ i < n, keys i ≠ keys n) :
    ∀ i < n + 1, Function.update chain n none i =
      leastFrom (ofKey keys (keys i)) (i + 1) (n + 1) := by
  intro i hi
  rcases Nat.eq_or_lt_of_le (Nat.le_of_lt_succ hi) with rfl | below
  · rw [Function.update_self, leastFrom_of_ge (by omega)]
  · rw [Function.update_of_ne (by omega), link i below, grow_other (by omega)]
    exact fun same => fresh i below same.symm

/-- The links after a position whose key's chain ended at `v`. -/
theorem links_behind {chain : Nat → Option Nat} {v : Nat}
    (link : ∀ i < n, chain i = leastFrom (ofKey keys (keys i)) (i + 1) n)
    (last : IsLast (ofKey keys (keys n)) n v) :
    ∀ i < n + 1, Function.update (Function.update chain n none) v (some n) i =
      leastFrom (ofKey keys (keys i)) (i + 1) (n + 1) := by
  have below_v : v < n := last.1
  have key_v : keys v = keys n := by simpa [ofKey] using last.2.1
  intro i hi
  rcases Nat.eq_or_lt_of_le (Nat.le_of_lt_succ hi) with rfl | below
  · rw [Function.update_of_ne (by omega), Function.update_self, leastFrom_of_ge (by omega)]
  · by_cases at_v : i = v
    · subst at_v
      rw [Function.update_self, key_v, leastFrom_grow _ (by omega), last.2.2]
      simp [ofKey]
    · rw [Function.update_of_ne at_v, Function.update_of_ne (by omega), link i below]
      by_cases same : keys i = keys n
      · -- not the last of its key, so it already had a successor
        have before : i < v := by
          by_contra after
          have none := leastFrom_eq_none.mp last.2.2 i (by omega) below
          simp [ofKey, same] at none
        cases h : leastFrom (ofKey keys (keys i)) (i + 1) n with
        | some j => exact (grow_some h).symm
        | none =>
          have refused := leastFrom_eq_none.mp h v (by omega) below_v
          simp [ofKey, key_v, same] at refused
      · rw [grow_other (by omega) (fun h => same h.symm)]

/-- The slot of a key depends on the slots' keys alone. -/
theorem slotOf_congr {t u : Table} (slots : t.nslots = u.nslots)
    (same : ∀ i, (t.slots i).key = (u.slots i).key) (key : Nat) : t.slotOf key = u.slotOf key := by
  have start : t.start key = u.start key := by rw [Table.start, Table.start, slots]
  simp only [slotOf, start, slots, same]

/-- Occupying a free slot moves no other key's slot. -/
theorem Ok.slotOf_update (ok : t.Ok keys n) {u : Table} {i : Nat} {sl : KSlot}
    (free : (t.slots i).key = 0) (slots : u.slots = Function.update t.slots i sl)
    (nslots : u.nslots = t.nslots) {key : Nat} (stays : (u.slots (t.slotOf key)).key = key) :
    u.slotOf key = t.slotOf key := by
  have start : u.start key = t.start key := by rw [Table.start, Table.start, nslots]
  have stops := (ok.stops key).mono
    (fun i => (u.slots i).key == 0 || (u.slots i).key == key) (by simp [stays]) ?_
  · rw [slotOf, nslots, start]
    exact stops.probe_eq
  · intro s goes
    have elsewhere : s ≠ i := by
      rintro rfl
      simp [free] at goes
    rw [slots, Function.update_of_ne elsewhere]
    exact goes

theorem Ok.add_var (ok : t.Ok keys n) (room : n + 1 < t.nslots) (zero : keys n = 0) :
    (t.add (keys n) n).Ok keys (n + 1) := by
  have others : ∀ s < t.nslots, (t.slots s).key ≠ 0 → keys n ≠ (t.slots s).key := by
    intro s _ taken same
    exact taken (by rw [← same, zero])
  have slots : (t.add (keys n) n).slots = t.slots := by
    rw [zero, add, if_pos rfl]
    cases t.varhead <;> rfl
  have nslots : (t.add (keys n) n).nslots = t.nslots := by
    rw [zero, add, if_pos rfl]
    cases t.varhead <;> rfl
  have tail : (t.add (keys n) n).vartail = some n := by
    rw [zero, add, if_pos rfl]
    cases t.varhead <;> rfl
  have slotOf : ∀ key, (t.add (keys n) n).slotOf key = t.slotOf key :=
    fun key => slotOf_congr nslots (fun i => by rw [slots]) key
  have links : (∀ i < n + 1, (t.add (keys n) n).chain i =
        leastFrom (ofKey keys (keys i)) (i + 1) (n + 1)) ∧
      (t.add (keys n) n).varhead = leastFrom (ofKey keys 0) 0 (n + 1) := by
    cases first : t.varhead with
    | none =>
      have none_before := leastFrom_eq_none.mp (ok.varhead.symm.trans first)
      have fresh : ∀ i < n, keys i ≠ keys n := by
        intro i hi same
        have refused := none_before i (by omega) hi
        simp [ofKey, same, zero] at refused
      have chain : (t.add (keys n) n).chain = Function.update t.chain n none := by
        rw [zero, add, if_pos rfl, first]
      have head : (t.add (keys n) n).varhead = some n := by
        rw [zero, add, if_pos rfl, first]
      refine ⟨?_, ?_⟩
      · rw [chain]
        exact links_fresh ok.link fresh
      · rw [head, leastFrom_grow _ (by omega), ← ok.varhead, first]
        simp [ofKey, zero]
    | some h =>
      obtain ⟨v, hv, last⟩ := ok.vartail h first
      have chain : (t.add (keys n) n).chain =
          Function.update (Function.update t.chain n none) v (some n) := by
        rw [zero, add, if_pos rfl, first, hv]
      have head : (t.add (keys n) n).varhead = some h := by
        rw [zero, add, if_pos rfl, first]
      refine ⟨?_, ?_⟩
      · rw [chain]
        rw [← zero] at last
        exact links_behind ok.link last
      · rw [head]
        exact (grow_some (ok.varhead.symm.trans first)).symm
  refine
    { power := nslots ▸ ok.power, room := nslots ▸ room, link := links.1, varhead := links.2,
      vartail := ?_, found := ?_, head := ?_, tail := ?_, listed := ?_ }
  · intro h _
    exact ⟨n, tail, IsLast.grow_self (by simp [ofKey, zero])⟩
  · intro s hs taken
    rw [slots] at taken ⊢
    rw [slotOf]
    exact ok.found s (nslots ▸ hs) taken
  · intro s hs taken
    rw [slots] at taken ⊢
    exact grow_some (ok.head s (nslots ▸ hs) taken)
  · intro s hs taken
    rw [slots] at taken ⊢
    refine (ok.tail s (nslots ▸ hs) taken).grow_other ?_
    simpa [ofKey] using others s (nslots ▸ hs) taken
  · intro i hi positive
    rw [slots, nslots]
    rcases Nat.eq_or_lt_of_le (Nat.le_of_lt_succ hi) with rfl | below
    · exact absurd zero positive
    · exact ok.listed i below positive

theorem Ok.add_first (ok : t.Ok keys n) (room : n + 1 < t.nslots) (positive : keys n ≠ 0)
    (empty : (t.slots (t.slotOf (keys n))).key = 0) : (t.add (keys n) n).Ok keys (n + 1) := by
  have fresh := ok.absent positive empty
  obtain ⟨i, hi⟩ : ∃ i, t.slotOf (keys n) = i := ⟨_, rfl⟩
  rw [hi] at empty
  have added : t.add (keys n) n =
      { t with
        chain := Function.update t.chain n none
        slots := Function.update t.slots i
          { key := keys n, head := n, tail := n, count := 1 } } := by
    simp only [add, if_neg positive, hi, empty, if_true]
  have slots : (t.add (keys n) n).slots =
      Function.update t.slots i { key := keys n, head := n, tail := n, count := 1 } := by
    rw [added]
  have nslots : (t.add (keys n) n).nslots = t.nslots := by rw [added]
  have mine : ((t.add (keys n) n).slots i) = { key := keys n, head := n, tail := n, count := 1 } := by
    rw [slots, Function.update_self]
  have other : ∀ s ≠ i, (t.add (keys n) n).slots s = t.slots s := by
    intro s hs
    rw [slots, Function.update_of_ne hs]
  have apart : ∀ s < t.nslots, (t.slots s).key ≠ 0 → s ≠ i ∧ keys n ≠ (t.slots s).key := by
    intro s hs taken
    refine ⟨fun same => taken (by rw [same, empty]), fun same => ?_⟩
    have first := leastFrom_eq_some.mp (ok.head s hs taken)
    refine fresh (t.slots s).head first.2.1 ?_
    rw [same]
    simpa [ofKey] using first.2.2.1
  have none_before : ∀ j, 0 ≤ j → j < n → ofKey keys (keys n) j = false := by
    intro j _ hj
    simpa [ofKey] using fresh j hj
  refine
    { power := nslots ▸ ok.power, room := nslots ▸ room, link := ?_, varhead := ?_,
      vartail := ?_, found := ?_, head := ?_, tail := ?_, listed := ?_ }
  · rw [added]
    exact links_fresh ok.link fresh
  · rw [added, grow_other (by omega) positive]
    exact ok.varhead
  · intro h hv
    rw [added] at hv ⊢
    obtain ⟨v, tail, last⟩ := ok.vartail h hv
    exact ⟨v, tail, last.grow_other (by simpa [ofKey] using positive)⟩
  · intro s hs taken
    by_cases at_i : s = i
    · subst at_i
      rw [mine]
      exact (ok.slotOf_update empty slots nslots (by rw [hi, mine])).trans hi
    · rw [other s at_i] at taken ⊢
      have mine' := ok.found s (nslots ▸ hs) taken
      refine (ok.slotOf_update empty slots nslots ?_).trans mine'
      rw [mine', other s at_i]
  · intro s hs taken
    by_cases at_i : s = i
    · subst at_i
      rw [mine, leastFrom_grow _ (by omega), leastFrom_eq_none.mpr none_before]
      simp [ofKey]
    · rw [other s at_i] at taken ⊢
      exact grow_some (ok.head s (nslots ▸ hs) taken)
  · intro s hs taken
    by_cases at_i : s = i
    · subst at_i
      rw [mine]
      exact IsLast.grow_self (by simp [ofKey])
    · rw [other s at_i] at taken ⊢
      refine (ok.tail s (nslots ▸ hs) taken).grow_other ?_
      simpa [ofKey] using (apart s (nslots ▸ hs) taken).2
  · intro j hj hk
    rw [nslots]
    rcases Nat.eq_or_lt_of_le (Nat.le_of_lt_succ hj) with rfl | below
    · exact ⟨i, hi ▸ ok.slotOf_lt _, by rw [mine]⟩
    · obtain ⟨s, hs, held⟩ := ok.listed j below hk
      exact ⟨s, hs, by rw [other s (apart s hs (held ▸ hk)).1, held]⟩

theorem Ok.add_again (ok : t.Ok keys n) (room : n + 1 < t.nslots) (positive : keys n ≠ 0)
    (held : (t.slots (t.slotOf (keys n))).key = keys n) :
    (t.add (keys n) n).Ok keys (n + 1) := by
  obtain ⟨i, hi⟩ : ∃ i, t.slotOf (keys n) = i := ⟨_, rfl⟩
  have below_i : i < t.nslots := hi ▸ ok.slotOf_lt _
  rw [hi] at held
  have taken_i : (t.slots i).key ≠ 0 := held ▸ positive
  have last := ok.tail i below_i taken_i
  rw [held] at last
  have added : t.add (keys n) n =
      { t with
        chain := Function.update (Function.update t.chain n none) (t.slots i).tail (some n)
        slots := Function.update t.slots i
          { t.slots i with tail := n, count := (t.slots i).count + 1 } } := by
    simp only [add, if_neg positive, hi, if_neg taken_i]
  have nslots : (t.add (keys n) n).nslots = t.nslots := by rw [added]
  have mine : (t.add (keys n) n).slots i =
      { t.slots i with tail := n, count := (t.slots i).count + 1 } := by
    rw [added]
    exact Function.update_self ..
  have other : ∀ s ≠ i, (t.add (keys n) n).slots s = t.slots s := by
    intro s hs
    rw [added]
    exact Function.update_of_ne hs ..
  have same : ∀ s, ((t.add (keys n) n).slots s).key = (t.slots s).key := by
    intro s
    by_cases at_i : s = i
    · rw [at_i, mine]
    · rw [other s at_i]
  have slotOf : ∀ key, (t.add (keys n) n).slotOf key = t.slotOf key :=
    fun key => slotOf_congr nslots same key
  have apart : ∀ s < t.nslots, (t.slots s).key ≠ 0 → s ≠ i → keys n ≠ (t.slots s).key := by
    intro s hs taken hne key
    refine hne ?_
    rw [← ok.found s hs taken, ← key, hi]
  refine
    { power := nslots ▸ ok.power, room := nslots ▸ room, link := ?_, varhead := ?_,
      vartail := ?_, found := ?_, head := ?_, tail := ?_, listed := ?_ }
  · rw [added]
    exact links_behind ok.link last
  · rw [added, grow_other (by omega) positive]
    exact ok.varhead
  · intro h hv
    rw [added] at hv ⊢
    obtain ⟨v, tail, lastv⟩ := ok.vartail h hv
    exact ⟨v, tail, lastv.grow_other (by simpa [ofKey] using positive)⟩
  · intro s hs taken
    rw [same] at taken ⊢
    rw [slotOf]
    exact ok.found s (nslots ▸ hs) taken
  · intro s hs taken
    rw [same] at taken ⊢
    have first := grow_some (ok.head s (nslots ▸ hs) taken)
    by_cases at_i : s = i
    · rw [at_i] at first ⊢
      rw [mine]
      exact first
    · rw [other s at_i]
      exact first
  · intro s hs taken
    rw [same] at taken ⊢
    by_cases at_i : s = i
    · rw [at_i, mine, held]
      exact IsLast.grow_self (by simp [ofKey])
    · rw [other s at_i]
      refine (ok.tail s (nslots ▸ hs) taken).grow_other ?_
      simpa [ofKey] using apart s (nslots ▸ hs) taken at_i
  · intro j hj hk
    rw [nslots]
    rcases Nat.eq_or_lt_of_le (Nat.le_of_lt_succ hj) with rfl | below
    · exact ⟨i, below_i, by rw [same, held]⟩
    · obtain ⟨s, hs, key⟩ := ok.listed j below hk
      exact ⟨s, hs, by rw [same, key]⟩

/-- The highest position joins its chain and every chain stays in order. -/
theorem Ok.add_ok (ok : t.Ok keys n) (room : n + 1 < t.nslots) :
    (t.add (keys n) n).Ok keys (n + 1) := by
  by_cases zero : keys n = 0
  · exact ok.add_var room zero
  · rcases ok.slotOf_key (keys n) with empty | held
    · exact ok.add_first room zero empty
    · exact ok.add_again room zero held

theorem grow_power {need turns want : Nat} (power : ∃ e, want = 2 ^ e) :
    ∃ e, grow need turns want = 2 ^ e := by
  induction turns generalizing want with
  | zero => exact power
  | succ turns ih =>
    rw [grow]
    split
    · obtain ⟨e, rfl⟩ := power
      exact ih ⟨e + 1, by rw [Nat.pow_succ]⟩
    · exact power

theorem le_grow (need turns want : Nat) : want ≤ grow need turns want := by
  induction turns generalizing want with
  | zero => exact Nat.le_refl want
  | succ turns ih =>
    rw [grow]
    split
    · exact Nat.le_trans (by omega) (ih (want * 2))
    · exact Nat.le_refl want

theorem need_le_grow {need turns want : Nat} (enough : need ≤ want * 2 ^ turns) :
    need ≤ grow need turns want := by
  induction turns generalizing want with
  | zero => simpa [grow] using enough
  | succ turns ih =>
    rw [grow]
    split
    · refine ih ?_
      rw [Nat.mul_assoc, ← Nat.pow_succ']
      exact enough
    · omega

theorem wanted_power (need : Nat) : ∃ e, wanted need = 2 ^ e :=
  grow_power ⟨4, rfl⟩

theorem sixteen_le_wanted (need : Nat) : 16 ≤ wanted need := le_grow need need 16

theorem need_le_wanted (need : Nat) : need ≤ wanted need := by
  refine need_le_grow ?_
  have := Nat.lt_two_pow_self (n := need)
  omega

theorem clear_ok (t : Table) (keys : Nat → Nat) {want : Nat} (power : ∃ e, want = 2 ^ e)
    (room : 0 < want) : (t.clear want).Ok keys 0 where
  power := power
  room := room
  link := by
    intro i hi
    omega
  varhead := (leastFrom_of_ge (Nat.le_refl 0)).symm
  vartail := by
    intro h hv
    cases hv
  found := by
    intro s _ taken
    exact absurd rfl taken
  head := by
    intro s _ taken
    exact absurd rfl taken
  tail := by
    intro s _ taken
    exact absurd rfl taken
  listed := by
    intro i hi
    omega

theorem add_nslots (t : Table) (key at_ : Nat) : (t.add key at_).nslots = t.nslots := by
  simp only [add]
  split
  · split <;> rfl
  · split <;> rfl

theorem addAll_succ (t : Table) (keys : Nat → Nat) (n : Nat) :
    t.addAll keys (n + 1) = (t.addAll keys n).add (keys n) n := by
  simp [addAll, List.range_succ, List.foldl_append]

theorem addAll_nslots (t : Table) (keys : Nat → Nat) (n : Nat) :
    (t.addAll keys n).nslots = t.nslots := by
  induction n with
  | zero => rfl
  | succ n ih => rw [addAll_succ, add_nslots, ih]

/-- Every position joined in order to an empty table: the table agrees with the keys. -/
theorem addAll_ok (start : t.Ok keys 0) (room : n < t.nslots) : (t.addAll keys n).Ok keys n := by
  induction n with
  | zero => exact start
  | succ n ih =>
    rw [addAll_succ]
    refine (ih (by omega)).add_ok ?_
    rw [addAll_nslots]
    exact room

theorem rebuild_ok (t : Table) (keys : Nat → Nat) {n need : Nat} (half : n * 2 ≤ need) :
    ((t.clear (wanted need)).addAll keys n).Ok keys n := by
  have sixteen := sixteen_le_wanted need
  have fits := need_le_wanted need
  exact addAll_ok (clear_ok t keys (wanted_power need) (by omega))
    (show n < wanted need by omega)

/-- The table only reads the keys of the positions it holds. -/
theorem Ok.congr (ok : t.Ok keys n) {keys' : Nat → Nat} (same : ∀ i < n, keys' i = keys i) :
    t.Ok keys' n := by
  have least : ∀ key lo, leastFrom (ofKey keys' key) lo n = leastFrom (ofKey keys key) lo n :=
    fun key lo => leastFrom_congr (fun i _ hi => by simp [ofKey, same i hi])
  have last : ∀ key i, IsLast (ofKey keys key) n i → IsLast (ofKey keys' key) n i := by
    rintro key i ⟨below, accepted, none⟩
    exact ⟨below, by simpa [ofKey, same i below] using accepted, by rw [least]; exact none⟩
  refine
    { power := ok.power, room := ok.room, link := ?_, varhead := ?_, vartail := ?_,
      found := ok.found, head := ?_, tail := ?_, listed := ?_ }
  · intro i hi
    rw [same i hi, least]
    exact ok.link i hi
  · rw [least]
    exact ok.varhead
  · intro h hv
    obtain ⟨v, tail, at_⟩ := ok.vartail h hv
    exact ⟨v, tail, last 0 v at_⟩
  · intro s hs taken
    rw [least]
    exact ok.head s hs taken
  · intro s hs taken
    exact last _ _ (ok.tail s hs taken)
  · intro i hi positive
    rw [same i hi] at positive ⊢
    exact ok.listed i hi positive

/-- Along a chain from its least entry at or after `lo` to the first at or after `from_`. -/
theorem Ok.chainFrom_eq (ok : t.Ok keys n) {key from_ : Nat} {turns lo : Nat} (le : lo ≤ from_)
    (enough : n ≤ lo + turns) :
    t.chainFrom from_ turns (leastFrom (ofKey keys key) lo n) =
      leastFrom (ofKey keys key) from_ n := by
  induction turns generalizing lo with
  | zero =>
    rw [leastFrom_of_ge (by omega), leastFrom_of_ge (by omega)]
    rfl
  | succ turns ih =>
    cases first : leastFrom (ofKey keys key) lo n with
    | none =>
      rw [chainFrom, eq_comm, leastFrom_eq_none]
      intro i hi below
      exact leastFrom_eq_none.mp first i (by omega) below
    | some h =>
      obtain ⟨h1, h2, accepted, least⟩ := leastFrom_eq_some.mp first
      have key_h : keys h = key := by simpa [ofKey] using accepted
      rw [chainFrom]
      split
      · rename_i before
        rw [ok.link h h2, key_h]
        exact ih (by omega) (by omega)
      · rename_i after
        rw [eq_comm, leastFrom_eq_some]
        exact ⟨by omega, h2, accepted, fun j hj lt => least j (by omega) lt⟩

/-- The clause before `from_` is in the chain asked for, so its link is the answer. -/
theorem Ok.link_back (ok : t.Ok keys n) {from_ key : Nat} (positive : 0 < from_)
    (below : from_ ≤ n) (prev : keys (from_ - 1) = key) :
    t.chain (from_ - 1) = leastFrom (ofKey keys key) from_ n := by
  rw [ok.link (from_ - 1) (by omega), prev, Nat.sub_add_cancel positive]

theorem Ok.head_or_back (ok : t.Ok keys n) {from_ key : Nat} (below : from_ ≤ n)
    {first : Option Nat} (head : first = leastFrom (ofKey keys key) 0 n) :
    (if (if 0 < from_ then some (keys (from_ - 1)) else none) = some key then t.chain (from_ - 1)
      else t.chainFrom from_ n first) = leastFrom (ofKey keys key) from_ n := by
  by_cases back : (if 0 < from_ then some (keys (from_ - 1)) else none) = some key
  · have positive : 0 < from_ := by
      by_contra zero
      rw [if_neg zero] at back
      cases back
    rw [if_pos back]
    rw [if_pos positive] at back
    exact ok.link_back positive below (Option.some.inj back)
  · rw [if_neg back, head]
    exact ok.chainFrom_eq (Nat.zero_le _) (by omega)

/-- The two chains together give the first position of this key or of none: walked from
their heads, or entered at the clause just tried. -/
theorem Ok.next_eq (ok : t.Ok keys n) {key from_ : Nat} (positive : key ≠ 0)
    (below : from_ ≤ n) :
    t.next keys n key from_ = leastFrom (fun i => admits key (keys i)) from_ n := by
  have split_ : leastFrom (fun i => admits key (keys i)) from_ n =
      leastFrom (fun i => ofKey keys key i || ofKey keys 0 i) from_ n := by
    refine leastFrom_congr ?_
    intro i _ _
    simp [admits, ofKey, beq_false_of_ne positive, Bool.or_comm]
  have b_eq := ok.head_or_back below ok.varhead
  have a_eq : (if (t.slots (t.slotOf key)).key ≠ 0 then
        (if (if 0 < from_ then some (keys (from_ - 1)) else none) = some key
          then t.chain (from_ - 1)
          else t.chainFrom from_ n (some (t.slots (t.slotOf key)).head))
      else none) = leastFrom (ofKey keys key) from_ n := by
    rcases ok.slotOf_key key with empty | held
    · rw [if_neg (by simp [empty]), eq_comm, leastFrom_eq_none]
      intro i _ hi
      simpa [ofKey] using ok.absent positive empty i hi
    · have taken : (t.slots (t.slotOf key)).key ≠ 0 := by
        rw [held]
        exact positive
      rw [if_pos taken]
      refine ok.head_or_back below ?_
      have head := ok.head _ (ok.slotOf_lt key) taken
      rw [held] at head
      exact head.symm
  rw [split_, leastFrom_or, next, a_eq, b_eq]
  cases leastFrom (ofKey keys key) from_ n with
  | none => rfl
  | some a =>
    cases leastFrom (ofKey keys 0) from_ n with
    | none => rfl
    | some b => rfl

/-- The entries met by following the links from a head. -/
inductive Lists (chain : Nat → Option Nat) : Option Nat → List Nat → Prop where
  | done : Lists chain none []
  | link {i : Nat} {rest : List Nat} (tail : Lists chain (chain i) rest) :
      Lists chain (some i) (i :: rest)

theorem Ok.lists_from (ok : t.Ok keys n) (key : Nat) {turns lo : Nat} (enough : n ≤ lo + turns) :
    Lists t.chain (leastFrom (ofKey keys key) lo n) (positions (ofKey keys key) lo n) := by
  induction turns generalizing lo with
  | zero =>
    rw [leastFrom_of_ge (by omega), positions_of_ge (by omega)]
    exact .done
  | succ turns ih =>
    cases first : leastFrom (ofKey keys key) lo n with
    | none =>
      rw [positions_eq_nil first]
      exact .done
    | some i =>
      obtain ⟨h1, h2, accepted, -⟩ := leastFrom_eq_some.mp first
      have key_i : keys i = key := by simpa [ofKey] using accepted
      rw [positions_of_least first]
      refine .link ?_
      rw [ok.link i h2, key_i]
      exact ih (by omega)

end Table

end Cocolog.Store
