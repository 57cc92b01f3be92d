import Cocolog.Compact.Model
import Cocolog.Lib.Hashed

/-! The table of the compiled clauses, keyed again. What it holds is told by a list of
keys and programs; a growth moves every entry, and a growth refused leaves the table. -/

set_option linter.all false

namespace Cocolog.Compact

open Cocolog.Lib Cocolog.Store

namespace CodeTable

/-- The key at a position. -/
def keyAt (t : CodeTable) (i : Nat) : Option Nat := if t.keys i = 0 then none else some (t.keys i)

/-- An entry of the table. -/
def Has (t : CodeTable) (k : Nat) (v : Option Code) : Prop := ∃ s < t.cap, t.keyAt s = some k ∧ t.vals s = v

variable {t : CodeTable} {k e : Nat} {v : Option Code} {L : List (Nat × Code)}

theorem slot_lt (e key : Nat) : slot (2 ^ e) key < 2 ^ e := by
  simp only [slot, Nat.and_two_pow_sub_one_eq_mod]
  exact Nat.mod_lt _ (Nat.two_pow_pos e)

theorem keyAt_none {i : Nat} : t.keyAt i = none ↔ t.keys i = 0 := by
  unfold keyAt
  split
  · rename_i zero
    simp [zero]
  · rename_i some_
    simp [some_]

theorem keyAt_some {i : Nat} : t.keyAt i = some k ↔ t.keys i = k ∧ k ≠ 0 := by
  unfold keyAt
  split
  · rename_i zero
    simp only [reduceCtorEq, false_iff, not_and, not_not]
    rintro rfl
    exact zero
  · rename_i some_
    simp only [Option.some.injEq]
    exact ⟨fun is => ⟨is, is ▸ some_⟩, fun is => is.1⟩

/-- The loop of a look-up ends where the search does. -/
theorem find_stop (i : Nat) : (t.keys i == 0 || t.keys i == k) = ends t.keyAt k i := by
  rw [Bool.eq_iff_iff]
  simp only [ends, Bool.or_eq_true, beq_iff_eq, keyAt_none, keyAt_some]
  omega

theorem put_stop (i : Nat) : (t.keys i == 0) = (t.keyAt i == none) := by
  rw [Bool.eq_iff_iff]
  simp only [beq_iff_eq, keyAt_none]

theorem enter_keyAt (some_ : k ≠ 0) (v : Option Code) :
    (t.enter k v).keyAt = Function.update t.keyAt (t.position (fun i => t.keys i == 0) k) (some k) := by
  funext i
  by_cases at_ : i = t.position (fun i => t.keys i == 0) k
  · rw [at_, Function.update_self, keyAt_some]
    exact ⟨Function.update_self .., some_⟩
  · rw [Function.update_of_ne at_]
    unfold keyAt enter
    simp only [Function.update_of_ne at_]

/-- A key entered in a table that has not got it, with room left. -/
theorem enter_spec (hashed : Hashed e (slot (2 ^ e)) t.keyAt) (cap : t.cap = 2 ^ e) (some_ : k ≠ 0)
    (absent : ∀ s < 2 ^ e, t.keyAt s ≠ some k) (more : ∀ p, ∃ s < 2 ^ e, s ≠ p ∧ t.keyAt s = none) :
    Hashed e (slot (2 ^ e)) (t.enter k v).keyAt ∧
      ∀ k' v', (t.enter k v).Has k' v' ↔ t.Has k' v' ∨ (k' = k ∧ v' = v) := by
  obtain ⟨at_free, free⟩ := hashed.seek_free absent
  have is : t.position (fun i => t.keys i == 0) k = seek e (slot (2 ^ e)) t.keyAt k := by
    unfold position
    rw [cap, ← at_free]
    congr 1
    funext i
    exact put_stop i
  have lt := hashed.seek_lt k
  constructor
  · rw [enter_keyAt some_, is]
    exact hashed.enter free (more _)
  · intro k' v'
    have cap' : (t.enter k v).cap = 2 ^ e := cap
    have vals : (t.enter k v).vals = Function.update t.vals (seek e (slot (2 ^ e)) t.keyAt k) v := by
      rw [← is]
      rfl
    unfold Has
    rw [enter_keyAt some_, is, cap, cap', vals]
    constructor
    · rintro ⟨s, inside, key, value⟩
      by_cases here : s = seek e (slot (2 ^ e)) t.keyAt k
      · rw [here, Function.update_self] at key value
        exact .inr ⟨(Option.some.inj key).symm, value.symm⟩
      · rw [Function.update_of_ne here] at key value
        exact .inl ⟨s, inside, key, value⟩
    · rintro (⟨s, inside, key, value⟩ | ⟨rfl, rfl⟩)
      · have here : s ≠ seek e (slot (2 ^ e)) t.keyAt k := by
          rintro rfl
          rw [free] at key
          cases key
        exact ⟨s, inside, by rw [Function.update_of_ne here, key], by rw [Function.update_of_ne here, value]⟩
      · exact ⟨_, lt, Function.update_self .., Function.update_self ..⟩

/-- The table holds these keys and programs and no others. -/
structure Lists (t : CodeTable) (L : List (Nat × Code)) : Prop where
  power : t.cap = 0 ∨ ∃ e, 8 ≤ e ∧ t.cap = 2 ^ e
  small : t.len * 2 ≤ t.cap
  len : L.length = t.len
  once : (L.map Prod.fst).Nodup
  found : ∀ {e s k}, t.cap = 2 ^ e → s < 2 ^ e → t.keyAt s = some k → seek e (slot (2 ^ e)) t.keyAt k = s
  has : ∀ k v, t.Has k v ↔ ∃ cd, v = some cd ∧ (k, cd) ∈ L

namespace Lists

theorem besides (lists : Lists t L) (cap : t.cap = 2 ^ e) (room : t.len + 1 < 2 ^ e) (p : Nat) :
    ∃ s < 2 ^ e, s ≠ p ∧ t.keyAt s = none := by
  refine free_besides (l := L.map Prod.fst) p (by rw [List.length_map, lists.len]; exact room) ?_ ?_
  · intro s k lt here
    obtain ⟨cd, -, mem⟩ := (lists.has k (t.vals s)).mp ⟨s, by rw [cap]; exact lt, here, rfl⟩
    exact List.mem_map.mpr ⟨(k, cd), mem, rfl⟩
  · intro s s' k lt lt' here there
    exact (lists.found cap lt here).symm.trans (lists.found cap lt' there)

theorem hashed (lists : Lists t L) (cap : t.cap = 2 ^ e) : Hashed e (slot (2 ^ e)) t.keyAt := by
  have small := lists.small
  have large : 256 ≤ 2 ^ e := by
    rcases lists.power with none_ | ⟨e', le, cap'⟩
    · have := Nat.two_pow_pos e
      omega
    · rw [← cap, cap']
      exact Nat.pow_le_pow_right (by decide : 0 < 2) le
  obtain ⟨s, lt, -, free⟩ := lists.besides cap (by omega) 0
  exact ⟨slot_lt e, fun lt here => lists.found cap lt here, s, lt, free⟩

/-- What a table lists is found, and nothing else. -/
theorem find_eq (lists : Lists t L) (clause : Nat) :
    (∀ cd, (clause + 1, cd) ∈ L → t.find clause = some cd) ∧
      ((∀ cd, (clause + 1, cd) ∉ L) → t.find clause = none) := by
  unfold find
  rcases lists.power with none_ | ⟨e, -, cap⟩
  · have empty : L = [] := by
      have small := lists.small
      exact List.eq_nil_of_length_eq_zero (by rw [lists.len]; omega)
    rw [if_pos none_, empty]
    exact ⟨fun cd mem => (nomatch mem), fun _ => rfl⟩
  · have hashed := lists.hashed cap
    have some_ : t.cap ≠ 0 := by
      have := Nat.two_pow_pos e
      omega
    have at_ : t.position (fun i => t.keys i == 0 || t.keys i == clause + 1) (clause + 1) =
        seek e (slot (2 ^ e)) t.keyAt (clause + 1) := by
      unfold position
      rw [cap]
      congr 1
      funext i
      exact find_stop i
    rw [if_neg some_]
    simp only [at_]
    rcases hashed.seek_ends (clause + 1) with free | here
    · have other : t.keys (seek e (slot (2 ^ e)) t.keyAt (clause + 1)) ≠ clause + 1 := by
        rw [keyAt_none.mp free]
        omega
      rw [if_neg other]
      refine ⟨fun cd mem => ?_, fun _ => rfl⟩
      obtain ⟨s, lt, key, -⟩ := (lists.has (clause + 1) (some cd)).mpr ⟨cd, rfl, mem⟩
      have there := hashed.seek_some (by rw [← cap]; exact lt) key
      rw [free] at there
      cases there
    · rw [if_pos (keyAt_some.mp here).1]
      obtain ⟨cd', value, mem'⟩ := (lists.has (clause + 1) _).mp
        ⟨_, by rw [cap]; exact hashed.seek_lt (clause + 1), here, rfl⟩
      refine ⟨fun cd mem => ?_, fun none_ => absurd mem' (none_ cd')⟩
      obtain ⟨s, lt, key, is⟩ := (lists.has (clause + 1) (some cd)).mpr ⟨cd, rfl, mem⟩
      rw [hashed.found (by rw [← cap]; exact lt) key]
      exact is

/-- A table that is empty. -/
theorem empty (power : t.cap = 0 ∨ ∃ e, 8 ≤ e ∧ t.cap = 2 ^ e) (len : t.len = 0)
    (clear : ∀ i < t.cap, t.keys i = 0) : Lists t [] := by
  have free : ∀ i < t.cap, t.keyAt i = none := fun i lt => keyAt_none.mpr (clear i lt)
  refine ⟨power, by omega, len.symm, List.nodup_nil, ?_, ?_⟩
  · intro e s k cap lt here
    rw [free s (by rw [cap]; exact lt)] at here
    cases here
  · intro k v
    constructor
    · rintro ⟨s, lt, here, -⟩
      rw [free s lt] at here
      cases here
    · rintro ⟨_, -, mem⟩
      cases mem

end Lists

/-- The new arrays of a growth, with the entries before position `n` moved. -/
structure Moved (t : CodeTable) (e n : Nat) (g : CodeTable) : Prop where
  cap : g.cap = 2 ^ e
  len : g.len = t.len
  hashed : Hashed e (slot (2 ^ e)) g.keyAt
  has : ∀ k v, g.Has k v ↔ ∃ i < n, t.keyAt i = some k ∧ t.vals i = v

/-- The next entry moved: its key is not there yet, and there is a free position besides. -/
theorem Moved.next {g : CodeTable} {n : Nat} (lists : Lists t L) (moved : Moved t e n g) (lt : n < t.cap)
    (room : t.len + 1 < 2 ^ e) :
    Moved t e (n + 1) (if t.keys n = 0 then g else g.enter (t.keys n) (t.vals n)) := by
  obtain ⟨cap, len, hashed, has⟩ := moved
  split
  · rename_i zero
    refine ⟨cap, len, hashed, fun k v => (has k v).trans ⟨?_, ?_⟩⟩
    · rintro ⟨i, below, entry⟩
      exact ⟨i, by omega, entry⟩
    · rintro ⟨i, below, key, value⟩
      have here : i ≠ n := by
        rintro rfl
        rw [keyAt_none.mpr zero] at key
        cases key
      exact ⟨i, by omega, key, value⟩
  · rename_i some_
    have at_n : t.keyAt n = some (t.keys n) := keyAt_some.mpr ⟨rfl, some_⟩
    have absent : ∀ s < 2 ^ e, g.keyAt s ≠ some (t.keys n) := by
      intro s inside here
      obtain ⟨i, below, key, -⟩ := (has (t.keys n) (g.vals s)).mp ⟨s, by rw [cap]; exact inside, here, rfl⟩
      rcases lists.power with none_ | ⟨e', -, cap'⟩
      · omega
      · have := (lists.hashed cap').inj (by omega) (by omega) key at_n
        omega
    have more : ∀ p, ∃ s < 2 ^ e, s ≠ p ∧ g.keyAt s = none := by
      intro p
      refine free_besides (l := L.map Prod.fst) p (by rw [List.length_map, lists.len]; exact room) ?_ ?_
      · intro s k inside here
        obtain ⟨i, below, key, value⟩ := (has k (g.vals s)).mp ⟨s, by rw [cap]; exact inside, here, rfl⟩
        obtain ⟨cd, -, mem⟩ := (lists.has k (g.vals s)).mp ⟨i, by omega, key, value⟩
        exact List.mem_map.mpr ⟨(k, cd), mem, rfl⟩
      · exact fun s s' k inside inside' here there => hashed.inj inside inside' here there
    obtain ⟨hashed', has'⟩ := enter_spec (v := t.vals n) hashed cap some_ absent more
    refine ⟨cap, len, hashed', fun k v => (has' k v).trans ?_⟩
    rw [has]
    constructor
    · rintro (⟨i, below, entry⟩ | ⟨rfl, rfl⟩)
      · exact ⟨i, by omega, entry⟩
      · exact ⟨n, by omega, at_n, rfl⟩
    · rintro ⟨i, below, key, value⟩
      by_cases here : i = n
      · subst here
        exact .inr ⟨Option.some.inj (key.symm.trans at_n), value.symm⟩
      · exact .inl ⟨i, by omega, key, value⟩

/-- The arrays of a growth once the entries before position `n` are moved. -/
def grownTo (tbl : CodeTable) (n : Nat) : CodeTable :=
  (List.range n).foldl (fun t i => if tbl.keys i = 0 then t else t.enter (tbl.keys i) (tbl.vals i))
    { cap := if tbl.cap = 0 then 256 else tbl.cap * 2, len := tbl.len }

theorem grownTo_spec (lists : Lists t L) (cap : (if t.cap = 0 then 256 else t.cap * 2) = 2 ^ e)
    (room : t.len + 1 < 2 ^ e) {n : Nat} (le : n ≤ t.cap) : Moved t e n (t.grownTo n) := by
  induction n with
  | zero =>
    have free : ∀ s, (t.grownTo 0).keyAt s = none := fun s => keyAt_none.mpr rfl
    refine ⟨cap, rfl, ⟨slot_lt e, ?_, 0, Nat.two_pow_pos e, free 0⟩, fun k v => ⟨?_, ?_⟩⟩
    · intro s k _ here
      rw [free s] at here
      cases here
    · rintro ⟨s, -, here, -⟩
      rw [free s] at here
      cases here
    · rintro ⟨i, below, -⟩
      omega
  | succ n ih =>
    have next := (ih (by omega)).next lists (by omega) room
    rwa [grownTo, List.range_succ, List.foldl_append]

theorem grown_spec (lists : Lists t L) (cap : (if t.cap = 0 then 256 else t.cap * 2) = 2 ^ e)
    (room : t.len + 1 < 2 ^ e) : Moved t e t.cap t.grown :=
  grownTo_spec lists cap room le_rfl

/-- A table with room, and one key more. -/
theorem entered (hashed : Hashed e (slot (2 ^ e)) t.keyAt) (cap : t.cap = 2 ^ e) (large : 8 ≤ e)
    (has : ∀ k v, t.Has k v ↔ ∃ cd, v = some cd ∧ (k, cd) ∈ L) (len : L.length = t.len) (once : (L.map Prod.fst).Nodup)
    (room : (t.len + 1) * 2 ≤ t.cap) (some_ : k ≠ 0) (absent : k ∉ L.map Prod.fst) (cd : Code) :
    Lists { t.enter k (some cd) with len := t.len + 1 } ((k, cd) :: L) := by
  have size : 256 ≤ 2 ^ e := Nat.pow_le_pow_right (by decide : 0 < 2) large
  have listed : ∀ s k, s < 2 ^ e → t.keyAt s = some k → k ∈ L.map Prod.fst := by
    intro s k inside here
    obtain ⟨cd, -, mem⟩ := (has k (t.vals s)).mp ⟨s, by rw [cap]; exact inside, here, rfl⟩
    exact List.mem_map.mpr ⟨(k, cd), mem, rfl⟩
  obtain ⟨hashed', has'⟩ := enter_spec (v := some cd) hashed cap some_ (fun s inside here => absent (listed s k inside here))
    (fun p => free_besides (l := L.map Prod.fst) p (by rw [List.length_map, len]; omega) listed
      fun s s' k inside inside' here there => hashed.inj inside inside' here there)
  refine ⟨.inr ⟨e, large, cap⟩, room, congrArg (· + 1) len, List.nodup_cons.mpr ⟨absent, once⟩, ?_, ?_⟩
  · intro e' s k' cap' inside here
    obtain rfl : e' = e := Nat.pow_right_injective (le_refl 2) (cap'.symm.trans cap)
    exact hashed'.found inside here
  · intro k' v
    refine (has' k' v).trans ?_
    rw [has]
    constructor
    · rintro (⟨cd', is, mem⟩ | ⟨rfl, rfl⟩)
      · exact ⟨cd', is, List.mem_cons_of_mem _ mem⟩
      · exact ⟨cd, rfl, List.mem_cons_self⟩
    · rintro ⟨cd', is, mem⟩
      rcases List.mem_cons.mp mem with same | mem
      · obtain ⟨rfl, rfl⟩ := Prod.mk.inj same
        exact .inr ⟨rfl, is⟩
      · exact .inl ⟨cd', is, mem⟩

/-- What `coco_code_put` answers: whether the program was added. -/
def puts (tbl : CodeTable) (rooms : Nat → Bool) : Bool := decide ((tbl.len + 1) * 2 ≤ tbl.cap) || rooms 0

theorem put_refused {clause : Nat} {cd : Code} {rooms : Nat → Bool} (no : t.puts rooms = false) : (t.put clause cd rooms).1 = t := by
  rw [puts, Bool.or_eq_false_iff, decide_eq_false_iff_not] at no
  rw [put, if_neg no.1, if_neg (by rw [no.2]; decide)]

/-- The size of a growth, which has room for one entry more. -/
theorem Lists.growth (lists : Lists t L) : ∃ e, 8 ≤ e ∧ (if t.cap = 0 then 256 else t.cap * 2) = 2 ^ e ∧ (t.len + 1) * 2 ≤ 2 ^ e := by
  have small := lists.small
  rcases lists.power with none_ | ⟨e, large, cap⟩
  · exact ⟨8, le_rfl, by rw [if_pos none_]; rfl, by omega⟩
  · have size : 256 ≤ 2 ^ e := Nat.pow_le_pow_right (by decide : 0 < 2) large
    exact ⟨e + 1, by omega, by rw [if_neg (by omega), cap, Nat.pow_succ], by rw [Nat.pow_succ]; omega⟩

theorem put_entered (lists : Lists t L) {clause : Nat} (absent : clause + 1 ∉ L.map Prod.fst) (cd : Code) {rooms : Nat → Bool}
    (yes : t.puts rooms = true) : Lists (t.put clause cd rooms).1 ((clause + 1, cd) :: L) := by
  have small := lists.small
  rw [puts, Bool.or_eq_true, decide_eq_true_eq] at yes
  unfold put
  dsimp only
  split
  · rename_i room
    obtain ⟨e, large, cap⟩ := lists.power.resolve_left (by omega)
    exact entered (lists.hashed cap) cap large lists.has lists.len lists.once room (Nat.succ_ne_zero clause) absent cd
  · rename_i full
    rw [if_pos (yes.resolve_left full)]
    obtain ⟨e, large, cap, room⟩ := lists.growth
    have size : 256 ≤ 2 ^ e := Nat.pow_le_pow_right (by decide : 0 < 2) large
    obtain ⟨cap', len', hashed', has'⟩ := grown_spec lists cap (by omega)
    refine entered hashed' cap' large ?_ (lists.len.trans len'.symm) lists.once (by rw [len', cap']; exact room)
      (Nat.succ_ne_zero clause) absent cd
    intro k v
    rw [has']
    exact lists.has k v

/-- A put of a key that is not there: it is entered, or the growth it needed was refused
and nothing changed. -/
theorem put_spec (lists : Lists t L) {clause : Nat} (absent : clause + 1 ∉ L.map Prod.fst) (cd : Code)
    (rooms : Nat → Bool) :
    Lists (t.put clause cd rooms).1 ((clause + 1, cd) :: L) ∨
      ((t.put clause cd rooms).1 = t ∧ ∃ k, rooms k = false) := by
  cases answer : t.puts rooms with
  | true => exact .inl (put_entered lists absent cd answer)
  | false =>
    refine .inr ⟨put_refused answer, 0, ?_⟩
    rw [puts, Bool.or_eq_false_iff] at answer
    exact answer.2

end CodeTable

end Cocolog.Compact
