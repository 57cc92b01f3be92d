import Cocolog.Lib.Hashed
import Mathlib.Data.Nat.Bitwise

/-! The map of one copy: a table by open addressing whose entries carry the epoch of the
copy that wrote them above the key. An entry of another epoch is a free position, so a
table handed from copy to copy is never cleared between them. -/

set_option linter.all false

namespace Cocolog.Copy

open Cocolog.Lib

/-- `coco_varmap`. A `cap` of zero is a map that has no arrays. -/
structure Varmap where
  from_ : Nat → Nat
  to_ : Nat → Nat
  len : Nat
  cap : Nat
  epoch : Nat

namespace Varmap

/-- `coco_varmap_slot`. -/
def slot (cap key : Nat) : Nat :=
  let h := ((key + 1) % 2 ^ 64 * 0x9E3779B97F4A7C15) % 2 ^ 64
  let h := h ^^^ (h >>> 32)
  let h := h ^^^ (h >>> 16)
  h &&& (cap - 1)

/-- `coco_varmap_entry`. The epoch has 24 bits. -/
def entry (epoch key : Nat) : Nat := epoch <<< 40 ||| (key + 1) % 2 ^ 64

/-- `coco_varmap_live`. -/
def live (vm : Varmap) (i : Nat) : Bool := vm.from_ i != 0 && vm.from_ i >>> 40 == vm.epoch

/-- The loop that `coco_varmap_get`, `_put` and `_intern` run: the position of the key's
own entry or the first that is not live, none if it goes around without end. -/
def find (vm : Varmap) (key : Nat) : Option Nat :=
  let stop := fun i => !vm.live i || vm.from_ i == entry vm.epoch key
  let i := probe stop (fun i => (i + 1) &&& (vm.cap - 1)) vm.cap (slot vm.cap key)
  if stop i then some i else none

/-- `coco_varmap_get`. -/
def get (vm : Varmap) (key : Nat) : Option (Option Nat) :=
  if vm.cap = 0 then some none
  else (vm.find key).map fun i => if vm.live i then some (vm.to_ i) else none

/-- A turn of the loop in `coco_varmap_grow`: entry `i`, if it is of this copy, goes to the
first position of the new arrays, from its key's own, that is zero. -/
def move (vm : Varmap) (ncap : Nat) (new : (Nat → Nat) × (Nat → Nat)) (i : Nat) : (Nat → Nat) × (Nat → Nat) :=
  if vm.live i then
    let v := vm.from_ i
    let key := (v &&& 1099511627775) - 1
    let j := probe (fun j => new.1 j == 0) (fun j => (j + 1) &&& (ncap - 1)) ncap (slot ncap key)
    (Function.update new.1 j v, Function.update new.2 j (vm.to_ i))
  else new

/-- `coco_varmap_grow`, when there is memory. -/
def grow (vm : Varmap) (ncap : Nat) : Varmap :=
  let new := (List.range vm.cap).foldl (vm.move ncap) (fun _ => 0, fun _ => 0)
  { vm with from_ := new.1, to_ := new.2, cap := ncap }

/-- The table made ready for one more: `room` says whether there is memory to grow. -/
def ready (vm : Varmap) (room : Bool) : Option Varmap :=
  if vm.cap < (vm.len + 1) * 2 then
    if room then some (vm.grow (if vm.cap = 0 then 32 else vm.cap * 2)) else none
  else some vm

/-- The value at `i` changed. -/
def setTo (vm : Varmap) (i val : Nat) : Varmap := { vm with to_ := Function.update vm.to_ i val }

/-- An entry written at `i`. -/
def write (vm : Varmap) (i key val : Nat) : Varmap :=
  { vm with
    from_ := Function.update vm.from_ i (entry vm.epoch key)
    to_ := Function.update vm.to_ i val
    len := vm.len + 1 }

/-- `coco_varmap_put`: whether it was put, and the map. -/
def put (vm : Varmap) (key val : Nat) (room : Bool) : Option (Bool × Varmap) :=
  match vm.ready room with
  | none => some (false, vm)
  | some vm =>
    (vm.find key).map fun i =>
      if vm.live i then (true, vm.setTo i val) else (true, vm.write i key val)

/-- What `coco_varmap_intern` answers: the value there was, none for one it entered now,
or that it could not grow. -/
inductive Interned where
  | old (val : Nat)
  | new
  | failed
deriving Repr, DecidableEq

/-- `coco_varmap_intern`. -/
def intern (vm : Varmap) (key val : Nat) (room : Bool) : Option (Interned × Varmap) :=
  match vm.ready room with
  | none => some (.failed, vm)
  | some vm =>
    (vm.find key).map fun i =>
      if vm.live i then (.old (vm.to_ i), vm) else (.new, vm.write i key val)

/- What a table holds. -/

variable {vm : Varmap} {M : Nat → Option Nat} {key val e : Nat}

/-- A key that leaves the epoch's bits alone. -/
def Fits (key : Nat) : Prop := key + 1 < 2 ^ 40

/-- The key at a position, if its entry is of this copy. -/
def keyAt (vm : Varmap) (i : Nat) : Option Nat := if vm.live i then some (vm.from_ i % 2 ^ 40 - 1) else none

/-- The table holds the map. -/
structure Holds (vm : Varmap) (M : Nat → Option Nat) : Prop where
  power : vm.cap = 0 ∨ ∃ e, 5 ≤ e ∧ vm.cap = 2 ^ e
  small : vm.len * 2 ≤ vm.cap
  low : ∀ i, vm.live i = true → vm.from_ i % 2 ^ 40 ≠ 0
  found : ∀ {e s k}, vm.cap = 2 ^ e → s < 2 ^ e → vm.keyAt s = some k → seek e (slot (2 ^ e)) vm.keyAt k = s
  listed : ∃ ks : List Nat, ks.length = vm.len ∧ ∀ s k, s < vm.cap → vm.keyAt s = some k → k ∈ ks
  value : ∀ {i k}, i < vm.cap → vm.keyAt i = some k → M k = some (vm.to_ i)
  all : ∀ {k v}, M k = some v → ∃ i < vm.cap, vm.keyAt i = some k

theorem slot_lt (e key : Nat) : slot (2 ^ e) key < 2 ^ e := by
  simp only [slot, Nat.and_two_pow_sub_one_eq_mod]
  exact Nat.mod_lt _ (Nat.two_pow_pos e)

theorem entry_eq (fits : Fits key) (epoch : Nat) : entry epoch key = epoch * 2 ^ 40 + (key + 1) := by
  unfold Fits at fits
  rw [entry, Nat.mod_eq_of_lt (by omega), ← Nat.shiftLeft_add_eq_or_of_lt fits, Nat.shiftLeft_eq]

theorem live_congr {vm vm' : Varmap} {i j : Nat} (same : vm.from_ i = vm'.from_ j) (epoch : vm.epoch = vm'.epoch) :
    vm.live i = vm'.live j := by
  unfold live
  rw [same, epoch]

theorem keyAt_congr {vm vm' : Varmap} {i j : Nat} (same : vm.from_ i = vm'.from_ j) (epoch : vm.epoch = vm'.epoch) :
    vm.keyAt i = vm'.keyAt j := by
  unfold keyAt
  rw [live_congr same epoch, same]

theorem keyAt_eq_none {i : Nat} : vm.keyAt i = none ↔ vm.live i = false := by
  unfold keyAt
  split
  · rename_i is
    simp [is]
  · rename_i not
    simp [not]

theorem live_eq {i : Nat} (is : vm.live i = true) :
    vm.from_ i = vm.epoch * 2 ^ 40 + vm.from_ i % 2 ^ 40 := by
  simp only [live, Bool.and_eq_true, bne_iff_ne, beq_iff_eq, Nat.shiftRight_eq_div_pow] at is
  have split_ := Nat.div_add_mod (vm.from_ i) (2 ^ 40)
  rw [is.2, Nat.mul_comm] at split_
  exact split_.symm

/-- The loop ends where the search does. -/
theorem stop_eq (low : ∀ i, vm.live i = true → vm.from_ i % 2 ^ 40 ≠ 0) (fits : Fits key) (i : Nat) :
    (!vm.live i || vm.from_ i == entry vm.epoch key) = ends vm.keyAt key i := by
  cases is : vm.live i with
  | false => simp [ends, keyAt, is]
  | true =>
    have split_ := live_eq is
    have some_ := low i is
    have here : vm.keyAt i = some (vm.from_ i % 2 ^ 40 - 1) := by rw [keyAt, if_pos is]
    rw [entry_eq fits, Bool.eq_iff_iff, ends, here]
    simp only [Bool.not_true, Bool.false_or, beq_iff_eq, Bool.or_eq_true, Option.some.injEq, reduceCtorEq, false_or]
    omega

theorem Holds.hashed (holds : Holds vm M) (cap : vm.cap = 2 ^ e) (p : Nat) :
    Hashed e (slot (2 ^ e)) vm.keyAt ∧ (vm.len + 1 < 2 ^ e → ∃ s < 2 ^ e, s ≠ p ∧ vm.keyAt s = none) := by
  obtain ⟨ks, length, listed⟩ := holds.listed
  have apart : ∀ s s' k, s < 2 ^ e → s' < 2 ^ e → vm.keyAt s = some k → vm.keyAt s' = some k → s = s' :=
    fun s s' k lt lt' here there => (holds.found cap lt here).symm.trans (holds.found cap lt' there)
  have besides : ∀ p, vm.len + 1 < 2 ^ e → ∃ s < 2 ^ e, s ≠ p ∧ vm.keyAt s = none := by
    intro p fewer
    exact free_besides p (by rw [length]; exact fewer) (fun s k lt => listed s k (by rw [cap]; exact lt)) apart
  refine ⟨⟨slot_lt e, fun lt here => holds.found cap lt here, ?_⟩, besides p⟩
  have small := holds.small
  have large : 32 ≤ vm.cap := by
    rcases holds.power with none_ | ⟨e', le, cap'⟩
    · have := Nat.two_pow_pos e
      omega
    · rw [cap']
      exact Nat.pow_le_pow_right (by decide : 0 < 2) le
  obtain ⟨s, lt, -, free⟩ := besides 0 (by omega)
  exact ⟨s, lt, free⟩

theorem Holds.find_eq (holds : Holds vm M) (cap : vm.cap = 2 ^ e) (fits : Fits key) :
    vm.find key = some (seek e (slot (2 ^ e)) vm.keyAt key) := by
  obtain ⟨j, -, -, stopped, -⟩ := (holds.hashed cap 0).1.stops key
  have at_ : probe (ends vm.keyAt key) (fun i => (i + 1) &&& (vm.cap - 1)) vm.cap (slot vm.cap key) =
      seek e (slot (2 ^ e)) vm.keyAt key := by
    rw [cap]
    rfl
  unfold find
  simp only [stop_eq holds.low fits, at_]
  exact if_pos stopped

theorem Holds.seek_lt (holds : Holds vm M) (cap : vm.cap = 2 ^ e) (key : Nat) :
    seek e (slot (2 ^ e)) vm.keyAt key < 2 ^ e := (holds.hashed cap 0).1.seek_lt key

/-- The key's own entry, or none and a free position. -/
theorem Holds.seek_cases (holds : Holds vm M) (cap : vm.cap = 2 ^ e) (key : Nat) :
    (vm.live (seek e (slot (2 ^ e)) vm.keyAt key) = true ∧ vm.keyAt (seek e (slot (2 ^ e)) vm.keyAt key) = some key ∧
        M key = some (vm.to_ (seek e (slot (2 ^ e)) vm.keyAt key))) ∨
      (vm.live (seek e (slot (2 ^ e)) vm.keyAt key) = false ∧
        vm.keyAt (seek e (slot (2 ^ e)) vm.keyAt key) = none ∧ M key = none) := by
  have lt := holds.seek_lt cap key
  rcases (holds.hashed cap 0).1.seek_ends key with free | here
  · refine .inr ⟨keyAt_eq_none.mp free, free, ?_⟩
    cases is : M key with
    | none => rfl
    | some v =>
      obtain ⟨i, lt', there⟩ := holds.all is
      have := (holds.hashed cap 0).1.seek_some (by rw [← cap]; exact lt') there
      rw [free] at this
      cases this
  · refine .inl ⟨?_, here, holds.value (by rw [cap]; exact lt) here⟩
    by_contra not
    rw [keyAt, if_neg not] at here
    cases here

/-- The map answers what it holds. -/
theorem Holds.get_eq (holds : Holds vm M) (fits : Fits key) : vm.get key = some (M key) := by
  unfold get
  split
  · rename_i none_
    cases is : M key with
    | none => rfl
    | some v =>
      obtain ⟨i, lt, -⟩ := holds.all is
      omega
  · rename_i some_
    obtain ⟨e, -, cap⟩ := holds.power.resolve_left some_
    rw [holds.find_eq cap fits, Option.map_some]
    rcases holds.seek_cases cap key with ⟨is, -, value⟩ | ⟨is, -, value⟩
    · rw [if_pos is, value]
    · rw [if_neg (by simp [is]), value]

theorem setTo_self (vm : Varmap) (i val : Nat) : (vm.setTo i val).to_ i = val := Function.update_self ..

theorem setTo_other {i j : Nat} (off : j ≠ i) : (vm.setTo i val).to_ j = vm.to_ j := Function.update_of_ne off ..

theorem write_to_self (vm : Varmap) (i key val : Nat) : (vm.write i key val).to_ i = val := Function.update_self ..

theorem write_to_other {i j : Nat} (off : j ≠ i) : (vm.write i key val).to_ j = vm.to_ j :=
  Function.update_of_ne off ..

/-- The value of a key that is in the table changed. -/
theorem Holds.over_ (holds : Holds vm M) (cap : vm.cap = 2 ^ e)
    (here : vm.keyAt (seek e (slot (2 ^ e)) vm.keyAt key) = some key) :
    Holds (vm.setTo (seek e (slot (2 ^ e)) vm.keyAt key) val) (Function.update M key (some val)) := by
  refine ⟨holds.power, holds.small, holds.low, holds.found, holds.listed, ?_, ?_⟩
  · intro i k lt at_i
    by_cases same : k = key
    · subst same
      have at_ : seek e (slot (2 ^ e)) vm.keyAt k = i := holds.found cap (by rw [← cap]; exact lt) at_i
      rw [Function.update_self, at_, setTo_self]
    · have off : i ≠ seek e (slot (2 ^ e)) vm.keyAt key := by
        rintro rfl
        have at_key : vm.keyAt (seek e (slot (2 ^ e)) vm.keyAt key) = some k := at_i
        rw [here, Option.some.injEq] at at_key
        exact same at_key.symm
      rw [Function.update_of_ne same, setTo_other off]
      exact holds.value lt at_i
  · intro k v is
    by_cases same : k = key
    · subst same
      exact ⟨_, Nat.lt_of_lt_of_eq (holds.seek_lt cap k) cap.symm, here⟩
    · rw [Function.update_of_ne same] at is
      exact holds.all is

theorem write_keyAt (fits : Fits key) (i : Nat) :
    (vm.write i key val).keyAt = Function.update vm.keyAt i (some key) := by
  funext j
  by_cases same : j = i
  · subst same
    rw [Function.update_self]
    have is := entry_eq fits vm.epoch
    unfold Fits at fits
    have at_ : (vm.write j key val).from_ j = vm.epoch * 2 ^ 40 + (key + 1) := by
      rw [← is]
      exact Function.update_self ..
    have live_ : (vm.write j key val).live j = true := by
      simp only [live, at_, Bool.and_eq_true, bne_iff_ne, beq_iff_eq, Nat.shiftRight_eq_div_pow]
      refine ⟨by omega, ?_⟩
      have : (vm.write j key val).epoch = vm.epoch := rfl
      rw [this]
      omega
    rw [keyAt, if_pos live_, at_, Option.some.injEq]
    omega
  · rw [Function.update_of_ne same]
    have at_ : (vm.write i key val).from_ j = vm.from_ j := Function.update_of_ne same ..
    exact keyAt_congr at_ rfl

/-- A key that was not in the table entered. -/
theorem Holds.write (holds : Holds vm M) (cap : vm.cap = 2 ^ e) (fits : Fits key)
    (room : (vm.len + 1) * 2 ≤ vm.cap)
    (free : vm.keyAt (seek e (slot (2 ^ e)) vm.keyAt key) = none) :
    Holds (vm.write (seek e (slot (2 ^ e)) vm.keyAt key) key val) (Function.update M key (some val)) := by
  have keys := @write_keyAt vm key val fits (seek e (slot (2 ^ e)) vm.keyAt key)
  obtain ⟨hashed, more⟩ := holds.hashed cap (seek e (slot (2 ^ e)) vm.keyAt key)
  have large : 4 ≤ vm.cap := by
    rcases holds.power with none_ | ⟨e', le, cap'⟩
    · omega
    · rw [cap']
      exact Nat.le_trans (by decide) (Nat.pow_le_pow_right (by decide : 0 < 2) le)
  have entered := hashed.enter free (more (by omega))
  obtain ⟨ks, length, listed⟩ := holds.listed
  refine ⟨holds.power, room, ?_, ?_, ⟨key :: ks, by simp [length, Varmap.write], ?_⟩, ?_, ?_⟩
  · intro i is
    by_cases same : i = seek e (slot (2 ^ e)) vm.keyAt key
    · subst same
      have at_ : (vm.write (seek e (slot (2 ^ e)) vm.keyAt key) key val).from_ (seek e (slot (2 ^ e)) vm.keyAt key) =
          vm.epoch * 2 ^ 40 + (key + 1) := by
        rw [← entry_eq fits vm.epoch]
        exact Function.update_self ..
      rw [at_]
      unfold Fits at fits
      omega
    · have at_ : (vm.write (seek e (slot (2 ^ e)) vm.keyAt key) key val).from_ i = vm.from_ i :=
        Function.update_of_ne same ..
      rw [at_]
      exact holds.low i ((live_congr at_ rfl).symm.trans is)
  · intro e' s k cap' lt here
    have same : e' = e := Nat.pow_right_injective (Nat.le_refl 2) (cap'.symm.trans cap)
    subst same
    rw [keys] at here ⊢
    exact entered.found lt here
  · intro s k lt here
    rw [keys] at here
    by_cases same : s = seek e (slot (2 ^ e)) vm.keyAt key
    · rw [same, Function.update_self, Option.some.injEq] at here
      rw [here]
      exact List.mem_cons_self
    · rw [Function.update_of_ne same] at here
      exact List.mem_cons_of_mem _ (listed s k lt here)
  · intro i k lt here
    rw [keys] at here
    by_cases same : i = seek e (slot (2 ^ e)) vm.keyAt key
    · subst same
      rw [Function.update_self, Option.some.injEq] at here
      rw [← here, Function.update_self, write_to_self]
    · rw [Function.update_of_ne same] at here
      have off : k ≠ key := by
        rintro rfl
        exact same (hashed.found (by rw [← cap]; exact lt) here).symm
      rw [Function.update_of_ne off, write_to_other same]
      exact holds.value lt here
  · intro k v is
    rw [keys]
    by_cases same : k = key
    · subst same
      exact ⟨_, Nat.lt_of_lt_of_eq (hashed.seek_lt k) cap.symm, Function.update_self ..⟩
    · rw [Function.update_of_ne same] at is
      obtain ⟨i, lt, here⟩ := holds.all is
      refine ⟨i, lt, ?_⟩
      rw [Function.update_of_ne]
      · exact here
      · rintro rfl
        rw [free] at here
        cases here

/- Growing. -/

/-- The new arrays once the first `n` positions were gone through: every entry is one of
this copy's, with its value, and is found. -/
structure Moved (vm : Varmap) (e n : Nat) (new : (Nat → Nat) × (Nat → Nat)) : Prop where
  from_old : ∀ j, new.1 j ≠ 0 → ∃ i < n, vm.live i = true ∧ new.1 j = vm.from_ i ∧ new.2 j = vm.to_ i
  all : ∀ i < n, vm.live i = true → ∃ j < 2 ^ e, new.1 j = vm.from_ i ∧ new.2 j = vm.to_ i
  hashed : Hashed e (slot (2 ^ e)) ({ vm with from_ := new.1, to_ := new.2, cap := 2 ^ e } : Varmap).keyAt

/-- The map with new arrays. -/
def onto (vm : Varmap) (new : (Nat → Nat) × (Nat → Nat)) (ncap : Nat) : Varmap :=
  { vm with from_ := new.1, to_ := new.2, cap := ncap }

theorem Moved.live_iff {n : Nat} {new : (Nat → Nat) × (Nat → Nat)} (moved : Moved vm e n new) (j : Nat) :
    (vm.onto new (2 ^ e)).live j = true ↔ new.1 j ≠ 0 := by
  constructor
  · intro is
    simp only [live, Bool.and_eq_true, bne_iff_ne] at is
    exact is.1
  · intro some_
    obtain ⟨i, -, is, same, -⟩ := moved.from_old j some_
    simp only [live, Bool.and_eq_true, bne_iff_ne, beq_iff_eq] at is ⊢
    simp only [onto, same]
    exact is

/-- An entry of the new arrays has the key of the position it came from. -/
theorem Moved.keyAt_old {n j k : Nat} {new : (Nat → Nat) × (Nat → Nat)} (moved : Moved vm e n new)
    (here : (vm.onto new (2 ^ e)).keyAt j = some k) :
    ∃ i < n, vm.live i = true ∧ vm.keyAt i = some k ∧ new.1 j = vm.from_ i ∧ new.2 j = vm.to_ i := by
  unfold keyAt at here
  split at here
  · rename_i is
    obtain ⟨i, lt, live_, same, same'⟩ := moved.from_old j ((moved.live_iff j).mp is)
    refine ⟨i, lt, live_, ?_, same, same'⟩
    rw [keyAt, if_pos live_, ← same]
    exact here
  · cases here

theorem mask_eq (v : Nat) : v &&& 1099511627775 = v % 2 ^ 40 := Nat.and_two_pow_sub_one_eq_mod v 40

/-- An entry of this copy is moved. -/
theorem Moved.next (holds : Holds vm M) {n : Nat} {new : (Nat → Nat) × (Nat → Nat)} (lt : n < vm.cap)
    (more : vm.len + 1 < 2 ^ e) (moved : Moved vm e n new) : Moved vm e (n + 1) (vm.move (2 ^ e) new n) := by
  obtain ⟨e₀, -, cap⟩ := holds.power.resolve_left (by omega)
  unfold move
  split
  · rename_i is
    simp only
    rw [mask_eq]
    have here : vm.keyAt n = some (vm.from_ n % 2 ^ 40 - 1) := by rw [keyAt, if_pos is]
    have hashed : Hashed e (slot (2 ^ e)) (vm.onto new (2 ^ e)).keyAt := moved.hashed
    have absent : ∀ s < 2 ^ e, (vm.onto new (2 ^ e)).keyAt s ≠ some (vm.from_ n % 2 ^ 40 - 1) := by
      intro s _ there
      obtain ⟨i, lt', -, same, -⟩ := moved.keyAt_old there
      have at_ := (holds.hashed cap 0).1.inj (by omega) (by omega) same here
      omega
    obtain ⟨walk, free⟩ := hashed.seek_free absent
    have zero : (fun j => new.1 j == 0) = fun j => (vm.onto new (2 ^ e)).keyAt j == none := by
      funext j
      rw [Bool.eq_iff_iff, beq_iff_eq, beq_iff_eq, keyAt_eq_none, ← Bool.not_eq_true, moved.live_iff]
      exact not_not.symm
    have walk' : probe (fun j => new.1 j == 0) (fun j => (j + 1) &&& (2 ^ e - 1)) (2 ^ e)
        (slot (2 ^ e) (vm.from_ n % 2 ^ 40 - 1)) =
        seek e (slot (2 ^ e)) (vm.onto new (2 ^ e)).keyAt (vm.from_ n % 2 ^ 40 - 1) := by
      rw [zero]
      exact walk
    rw [walk']
    have in_range := hashed.seek_lt (vm.from_ n % 2 ^ 40 - 1)
    generalize at_p : seek e (slot (2 ^ e)) (vm.onto new (2 ^ e)).keyAt (vm.from_ n % 2 ^ 40 - 1) = p at *
    have empty : new.1 p = 0 := by
      by_contra some_
      have := (moved.live_iff p).mpr some_
      rw [keyAt_eq_none.mp free] at this
      cases this
    obtain ⟨ks, length, listed⟩ := holds.listed
    have besides : ∃ s < 2 ^ e, s ≠ p ∧ (vm.onto new (2 ^ e)).keyAt s = none := by
      refine free_besides p (by rw [length]; exact more) ?_ fun s s' k lt lt' => hashed.inj lt lt'
      intro s k _ there
      obtain ⟨i, lt', -, same, -⟩ := moved.keyAt_old there
      exact listed i k (by omega) same
    have keys : (vm.onto (Function.update new.1 p (vm.from_ n), Function.update new.2 p (vm.to_ n)) (2 ^ e)).keyAt =
        Function.update (vm.onto new (2 ^ e)).keyAt p (some (vm.from_ n % 2 ^ 40 - 1)) := by
      funext j
      by_cases same : j = p
      · subst same
        rw [Function.update_self, ← here]
        exact keyAt_congr (Function.update_self ..) rfl
      · rw [Function.update_of_ne same]
        exact keyAt_congr (Function.update_of_ne same ..) rfl
    refine ⟨?_, ?_, ?_⟩
    · intro j some_
      by_cases same : j = p
      · subst same
        exact ⟨n, by omega, is, Function.update_self .., Function.update_self ..⟩
      · simp only [Function.update_of_ne same] at some_ ⊢
        obtain ⟨i, lt', rest⟩ := moved.from_old j some_
        exact ⟨i, by omega, rest⟩
    · intro i lt' live_
      rcases Nat.lt_or_ge i n with earlier | here_
      · obtain ⟨j, in_new, same, same'⟩ := moved.all i earlier live_
        have off : j ≠ p := by
          rintro rfl
          rw [empty] at same
          simp [live, ← same] at live_
        exact ⟨j, in_new, by simp only [Function.update_of_ne off, same],
          by simp only [Function.update_of_ne off, same']⟩
      · obtain rfl : i = n := by omega
        exact ⟨p, in_range, Function.update_self .., Function.update_self ..⟩
    · have entered := hashed.enter (k := vm.from_ n % 2 ^ 40 - 1) (by rw [at_p]; exact free) (by rw [at_p]; exact besides)
      rw [at_p, ← keys] at entered
      exact entered
  · rename_i not
    refine ⟨?_, ?_, moved.hashed⟩
    · intro j some_
      obtain ⟨i, lt', rest⟩ := moved.from_old j some_
      exact ⟨i, by omega, rest⟩
    · intro i lt' live_
      rcases Nat.lt_or_ge i n with earlier | here_
      · exact moved.all i earlier live_
      · obtain rfl : i = n := by omega
        exact absurd live_ not

theorem moved_all (holds : Holds vm M) (more : vm.len + 1 < 2 ^ e) (n : Nat) (le : n ≤ vm.cap) :
    Moved vm e n ((List.range n).foldl (vm.move (2 ^ e)) (fun _ => 0, fun _ => 0)) := by
  induction n with
  | zero =>
    have none_ : ∀ j, ({ vm with from_ := fun _ => 0, to_ := fun _ => 0, cap := 2 ^ e } : Varmap).keyAt j = none := by
      intro j
      simp [keyAt, live]
    refine ⟨fun _ some_ => absurd rfl some_, fun i lt => absurd lt (Nat.not_lt_zero i), slot_lt e, ?_, ?_⟩
    · intro s k _ here
      exact absurd (here.symm.trans (none_ s)) (by simp)
    · exact ⟨0, Nat.two_pow_pos e, none_ 0⟩
  | succ n ih =>
    rw [List.range_succ, List.foldl_append]
    exact (ih (by omega)).next holds (by omega) more

/-- The grown table holds the same map. -/
theorem Holds.grow (holds : Holds vm M) (large : 5 ≤ e) (more : vm.len + 1 < 2 ^ e) (room : vm.len * 2 ≤ 2 ^ e) :
    Holds (vm.grow (2 ^ e)) M := by
  have moved := moved_all holds more vm.cap le_rfl
  obtain ⟨ks, length, listed⟩ := holds.listed
  refine ⟨.inr ⟨e, large, rfl⟩, room, ?_, ?_, ⟨ks, length, ?_⟩, ?_, ?_⟩
  · intro j is
    obtain ⟨i, -, live_, same, -⟩ := moved.from_old j ((moved.live_iff j).mp is)
    have at_ : (vm.grow (2 ^ e)).from_ j = vm.from_ i := same
    rw [at_]
    exact holds.low i live_
  · intro e' s k cap' lt here
    have same : e' = e := Nat.pow_right_injective (Nat.le_refl 2) cap'.symm
    subst same
    exact moved.hashed.found lt here
  · intro s k _ here
    obtain ⟨i, lt, -, same, -⟩ := moved.keyAt_old here
    exact listed i k lt same
  · intro j k _ here
    obtain ⟨i, lt, -, same, -, value⟩ := moved.keyAt_old here
    have at_ : (vm.grow (2 ^ e)).to_ j = vm.to_ i := value
    rw [at_]
    exact holds.value lt same
  · intro k v is
    obtain ⟨i, lt, here⟩ := holds.all is
    have live_ : vm.live i = true := by
      by_contra not
      rw [keyAt, if_neg not] at here
      cases here
    obtain ⟨j, in_new, same, -⟩ := moved.all i lt live_
    refine ⟨j, in_new, ?_⟩
    have at_ : (vm.grow (2 ^ e)).from_ j = vm.from_ i := same
    exact (keyAt_congr at_ rfl).trans here

/-- Made ready for one more, the table holds what it held and has room, or there was no
memory. -/
theorem Holds.ready (holds : Holds vm M) (room : Bool) :
    (vm.ready room = none ∧ room = false) ∨
      ∃ vm' e, vm.ready room = some vm' ∧ Holds vm' M ∧ vm'.epoch = vm.epoch ∧ vm'.cap = 2 ^ e ∧
        (vm'.len + 1) * 2 ≤ vm'.cap ∧
        (vm' = vm ∨ ∀ i, vm'.from_ i ≠ 0 → ∃ j, vm.live j = true ∧ vm'.from_ i = vm.from_ j) := by
  have small := holds.small
  unfold Varmap.ready
  split
  · rename_i full
    cases room with
    | false => exact .inl ⟨rfl, rfl⟩
    | true =>
      right
      obtain ⟨e, large, wanted, twice⟩ : ∃ e, 5 ≤ e ∧ (if vm.cap = 0 then 32 else vm.cap * 2) = 2 ^ e ∧
          (vm.len + 1) * 2 ≤ 2 ^ e := by
        rcases holds.power with none_ | ⟨e, le, cap⟩
        · exact ⟨5, le_rfl, if_pos none_, by omega⟩
        · have some_ := Nat.two_pow_pos e
          refine ⟨e + 1, by omega, ?_, ?_⟩
          · rw [if_neg (by omega), cap, Nat.pow_succ]
          · rw [Nat.pow_succ]
            omega
      have big : 32 ≤ 2 ^ e := Nat.pow_le_pow_right (by decide : 0 < 2) large
      rw [wanted]
      refine ⟨_, e, rfl, holds.grow large (by omega) (by omega), rfl, rfl, twice, .inr ?_⟩
      intro i some_
      obtain ⟨j, -, is, same, -⟩ := (moved_all holds (by omega) vm.cap le_rfl).from_old i some_
      exact ⟨j, is, same⟩
  · rename_i enough
    right
    obtain ⟨e, -, cap⟩ := holds.power.resolve_left (by omega)
    exact ⟨vm, e, rfl, holds, rfl, cap, by omega, .inl rfl⟩

/- Putting. -/

/-- No entry is of a later epoch than the map's. -/
def Dated (vm : Varmap) : Prop := ∀ i, vm.from_ i >>> 40 ≤ vm.epoch

theorem Dated.ready {vm' : Varmap} (dated : Dated vm) (epoch : vm'.epoch = vm.epoch)
    (entries : vm' = vm ∨ ∀ i, vm'.from_ i ≠ 0 → ∃ j, vm.live j = true ∧ vm'.from_ i = vm.from_ j) : Dated vm' := by
  rcases entries with rfl | entries
  · exact dated
  · intro i
    by_cases zero : vm'.from_ i = 0
    · rw [zero, Nat.zero_shiftRight]
      exact Nat.zero_le _
    · obtain ⟨j, -, same⟩ := entries i zero
      rw [same, epoch]
      exact dated j

theorem Dated.write (dated : Dated vm) (fits : Fits key) (i val : Nat) : Dated (vm.write i key val) := by
  intro j
  by_cases same : j = i
  · subst same
    have at_ : (vm.write j key val).from_ j = vm.epoch * 2 ^ 40 + (key + 1) := by
      rw [← entry_eq fits vm.epoch]
      exact Function.update_self ..
    have epoch : (vm.write j key val).epoch = vm.epoch := rfl
    unfold Fits at fits
    rw [at_, epoch, Nat.shiftRight_eq_div_pow]
    omega
  · have at_ : (vm.write i key val).from_ j = vm.from_ j := Function.update_of_ne same ..
    rw [at_]
    exact dated j

/-- A map in use: what it holds, its entries of its own epoch or earlier ones. -/
def Keeps (vm : Varmap) (M : Nat → Option Nat) : Prop := Holds vm M ∧ Dated vm

theorem Keeps.put_eq (keeps : Keeps vm M) (fits : Fits key) (val : Nat) (room : Bool) :
    ∃ ok vm', vm.put key val room = some (ok, vm') ∧ vm'.epoch = vm.epoch ∧
      ((ok = true ∧ Keeps vm' (Function.update M key (some val))) ∨ (ok = false ∧ room = false ∧ Keeps vm' M)) := by
  obtain ⟨holds, dated⟩ := keeps
  unfold put
  rcases holds.ready room with ⟨none_, no_room⟩ | ⟨vm₁, e, ready, holds₁, epoch, cap, space, entries⟩
  · rw [none_]
    exact ⟨false, vm, rfl, rfl, .inr ⟨rfl, no_room, holds, dated⟩⟩
  · have dated₁ := dated.ready epoch entries
    simp only [ready, holds₁.find_eq cap fits, Option.map_some]
    rcases holds₁.seek_cases cap key with ⟨is, here, -⟩ | ⟨is, free, -⟩
    · refine ⟨_, _, congrArg some (if_pos is), ?_⟩
      exact ⟨epoch, .inl ⟨rfl, holds₁.over_ cap here, dated₁⟩⟩
    · refine ⟨_, _, congrArg some (if_neg (by simp [is])), ?_⟩
      exact ⟨epoch, .inl ⟨rfl, holds₁.write cap fits space free, dated₁.write fits _ _⟩⟩

theorem Keeps.intern_eq (keeps : Keeps vm M) (fits : Fits key) (val : Nat) (room : Bool) :
    ∃ r vm', vm.intern key val room = some (r, vm') ∧ vm'.epoch = vm.epoch ∧
      ((∃ x, r = .old x ∧ M key = some x ∧ Keeps vm' M) ∨
        (r = .new ∧ M key = none ∧ Keeps vm' (Function.update M key (some val))) ∨
        (r = .failed ∧ room = false ∧ Keeps vm' M)) := by
  obtain ⟨holds, dated⟩ := keeps
  unfold intern
  rcases holds.ready room with ⟨none_, no_room⟩ | ⟨vm₁, e, ready, holds₁, epoch, cap, space, entries⟩
  · rw [none_]
    exact ⟨.failed, vm, rfl, rfl, .inr (.inr ⟨rfl, no_room, holds, dated⟩)⟩
  · have dated₁ := dated.ready epoch entries
    simp only [ready, holds₁.find_eq cap fits, Option.map_some]
    rcases holds₁.seek_cases cap key with ⟨is, -, value⟩ | ⟨is, free, value⟩
    · refine ⟨_, _, congrArg some (if_pos is), ?_⟩
      exact ⟨epoch, .inl ⟨_, rfl, value, holds₁, dated₁⟩⟩
    · refine ⟨_, _, congrArg some (if_neg (by simp [is])), ?_⟩
      exact ⟨epoch, .inr (.inl ⟨rfl, value, holds₁.write cap fits space free, dated₁.write fits _ _⟩)⟩

end Varmap

end Cocolog.Copy
