import Cocolog.Compact.Codes
import Cocolog.Lib.Gaps

/-! The table of the compiled clauses as clauses come and go: a clause's program is added when it
is compiled and dropped when it dies, the gap it leaves filled from the run after it. -/

set_option linter.all false

namespace Cocolog.Compact

open Cocolog.Lib Cocolog.Store

namespace CodeTable

/-- The loop of `coco_code_drop` that fills the hole at `i`, looked through as far as `j`; `none` when it
does not end in the turns given. -/
def closeUp : (turns : Nat) → CodeTable → (i j : Nat) → Option CodeTable
  | 0, _, _, _ => none
  | turns + 1, tbl, i, j =>
    let j := (j + 1) &&& (tbl.cap - 1)
    if tbl.keys j = 0 then some { tbl with keys := Function.update tbl.keys i 0, vals := Function.update tbl.vals i none }
    else
      let h := slot tbl.cap (tbl.keys j)
      if (if i ≤ j then i < h ∧ h ≤ j else i < h ∨ h ≤ j) then closeUp turns tbl i j
      else
        closeUp turns { tbl with keys := Function.update tbl.keys i (tbl.keys j), vals := Function.update tbl.vals i (tbl.vals j) } j j

/-- `coco_code_drop` on the table, with the program it retires. -/
def drop (tbl : CodeTable) (clause : Nat) : Option (CodeTable × Option Code) :=
  if tbl.len = 0 then some (tbl, none)
  else
    let i := tbl.position (fun i => tbl.keys i == 0 || tbl.keys i == clause + 1) (clause + 1)
    if tbl.keys i = clause + 1 then (closeUp tbl.cap { tbl with len := tbl.len - 1 } i i).map (·, tbl.vals i)
    else some (tbl, none)

variable {t : CodeTable} {e f i j k : Nat} {L : List (Nat × Code)}

/-- The table with a hole at `i`, and what is in it besides. -/
structure Closing (t : CodeTable) (e f i j : Nat) (L : List (Nat × Code)) : Prop where
  cap : t.cap = 2 ^ e
  gap : Gap (2 ^ e) (slot (2 ^ e)) (Function.update t.keyAt i none) f i j
  has : ∀ k v, (∃ s < 2 ^ e, s ≠ i ∧ t.keyAt s = some k ∧ t.vals s = v) ↔ ∃ cd, v = some cd ∧ (k, cd) ∈ L

namespace Closing

variable (closing : Closing t e f i j L)
include closing

theorem next_eq : (j + 1) &&& (t.cap - 1) = around e j := by rw [closing.cap, around]

theorem next_ne : around e j ≠ i := by
  intro same
  have next := closing.gap.next_ahead
  have := ahead_cases (2 ^ e) i i
  rw [same] at next
  omega

/-- The key at the next position, when it is not free. -/
theorem next_key (taken : t.keys (around e j) ≠ 0) :
    Function.update t.keyAt i none (around e j) = some (t.keys (around e j)) := by
  rw [Function.update_of_ne closing.next_ne, keyAt_some]
  exact ⟨rfl, taken⟩

/-- The hole becomes free. -/
theorem freed (free : t.keys (around e j) = 0) {t' : CodeTable}
    (is : t' = { t with keys := Function.update t.keys i 0, vals := Function.update t.vals i none }) :
    Hashed e (slot (2 ^ e)) t'.keyAt ∧ ∀ k v, t'.Has k v ↔ ∃ cd, v = some cd ∧ (k, cd) ∈ L := by
  have at_ : t'.keyAt = Function.update t.keyAt i none := by
    rw [is]
    funext s
    by_cases here : s = i
    · rw [here, Function.update_self, keyAt_none]
      exact Function.update_self ..
    · rw [Function.update_of_ne here]
      unfold keyAt
      simp only [Function.update_of_ne here]
  have none_ : Function.update t.keyAt i none (around e j) = none := by
    rw [Function.update_of_ne closing.next_ne, keyAt_none]
    exact free
  refine ⟨at_ ▸ closing.gap.closed none_, fun k v => ?_⟩
  rw [← closing.has, Has, at_, is]
  constructor
  · rintro ⟨s, lt, key, value⟩
    have off : s ≠ i := by
      rintro rfl
      rw [Function.update_self] at key
      cases key
    dsimp only at value
    rw [Function.update_of_ne off] at key value
    exact ⟨s, closing.cap ▸ lt, off, key, value⟩
  · rintro ⟨s, lt, off, key, value⟩
    refine ⟨s, closing.cap.symm ▸ lt, by rw [Function.update_of_ne off, key], ?_⟩
    dsimp only
    rw [Function.update_of_ne off, value]

/-- An entry goes back to the hole. -/
theorem moved (taken : t.keys (around e j) ≠ 0)
    (back : ¬(0 < ahead (2 ^ e) i (slot (2 ^ e) (t.keys (around e j))) ∧
      ahead (2 ^ e) i (slot (2 ^ e) (t.keys (around e j))) ≤ ahead (2 ^ e) i (around e j))) :
    Closing { t with
      keys := Function.update t.keys i (t.keys (around e j))
      vals := Function.update t.vals i (t.vals (around e j)) } e f (around e j) (around e j) L := by
  have other := closing.next_ne
  have here := closing.next_key taken
  have lti := closing.gap.inside.1
  have lt' := closing.gap.next_lt
  have at_ : ∀ {s}, s ≠ i → ({ t with
      keys := Function.update t.keys i (t.keys (around e j))
      vals := Function.update t.vals i (t.vals (around e j)) } : CodeTable).keyAt s = t.keyAt s := by
    intro s off
    unfold keyAt
    simp only [Function.update_of_ne off]
  have at_hole : ({ t with
      keys := Function.update t.keys i (t.keys (around e j))
      vals := Function.update t.vals i (t.vals (around e j)) } : CodeTable).keyAt i = some (t.keys (around e j)) := by
    rw [keyAt_some]
    exact ⟨Function.update_self .., taken⟩
  refine ⟨closing.cap, ?_, fun k v => ?_⟩
  · have gap := closing.gap.move here back
    convert gap using 1
    funext s
    by_cases there : s = around e j
    · rw [there, Function.update_self, Function.update_self]
    · rw [Function.update_of_ne there, Function.update_of_ne there]
      by_cases hole : s = i
      · rw [hole, at_hole, Function.update_self]
      · rw [at_ hole, Function.update_of_ne hole, Function.update_of_ne hole]
  · rw [← closing.has]
    constructor
    · rintro ⟨s, lt, off, key, value⟩
      by_cases hole : s = i
      · rw [hole] at key value
        rw [at_hole] at key
        dsimp only at value
        rw [Function.update_self] at value
        rw [Function.update_of_ne other] at here
        exact ⟨around e j, lt', other, here.trans key, value⟩
      · rw [at_ hole] at key
        dsimp only at value
        rw [Function.update_of_ne hole] at value
        exact ⟨s, lt, hole, key, value⟩
    · rintro ⟨s, lt, off, key, value⟩
      by_cases there : s = around e j
      · rw [Function.update_of_ne other, ← there] at here
        refine ⟨i, lti, fun same => other same.symm, ?_, ?_⟩
        · rw [at_hole, ← key, here, there]
        · dsimp only
          rw [Function.update_self, ← there, value]
      · refine ⟨s, lt, there, by rw [at_ off, key], ?_⟩
        dsimp only
        rw [Function.update_of_ne off, value]

end Closing

/-- The loop ends, with every entry where it is found. -/
theorem closeUp_spec (closing : Closing t e f i j L) {turns : Nat} (enough : ahead (2 ^ e) j f ≤ turns) :
    ∃ t', closeUp turns t i j = some t' ∧ t'.cap = 2 ^ e ∧ t'.len = t.len ∧ Hashed e (slot (2 ^ e)) t'.keyAt ∧
      ∀ k v, t'.Has k v ↔ ∃ cd, v = some cd ∧ (k, cd) ∈ L := by
  obtain ⟨lti, ltj, ltf⟩ := closing.gap.inside
  have other : j ≠ f := by
    rintro rfl
    exact Nat.lt_irrefl _ closing.gap.short
  have nearer := around_ahead ltj other ltf
  induction turns generalizing t i j with
  | zero => omega
  | succ turns ih =>
    rw [closeUp]
    dsimp only
    rw [closing.next_eq]
    split
    · rename_i free
      obtain ⟨hashed, has⟩ := closing.freed free rfl
      exact ⟨_, rfl, closing.cap, rfl, hashed, has⟩
    · rename_i taken
      have lt' := closing.gap.next_lt
      have begins : slot (2 ^ e) (t.keys (around e j)) < 2 ^ e := slot_lt e _
      rw [closing.cap]
      have here := closing.next_key taken
      have otherf : around e j ≠ f := by
        intro same
        rw [same, closing.gap.free] at here
        cases here
      have nearer' := around_ahead lt' otherf ltf
      by_cases between : 0 < ahead (2 ^ e) i (slot (2 ^ e) (t.keys (around e j))) ∧
          ahead (2 ^ e) i (slot (2 ^ e) (t.keys (around e j))) ≤ ahead (2 ^ e) i (around e j)
      · have closing' : Closing t e f i (around e j) L :=
          ⟨closing.cap, closing.gap.keep here between.1 between.2, closing.has⟩
        rw [if_pos ((between_iff begins lti lt').mpr between)]
        exact ih closing' (by omega) lti lt' otherf nearer'
      · have closing' := closing.moved taken between
        rw [closing.cap] at closing'
        rw [if_neg (mt (between_iff begins lti lt').mp between)]
        exact ih closing' (by omega) lt' lt' otherf nearer'

/-- Where the search for a clause's key ends. -/
theorem position_eq (cap : t.cap = 2 ^ e) (clause : Nat) :
    t.position (fun i => t.keys i == 0 || t.keys i == clause + 1) (clause + 1) = seek e (slot (2 ^ e)) t.keyAt (clause + 1) := by
  unfold position
  rw [cap]
  congr 1
  funext i
  exact find_stop i

/-- A drop takes a clause's entry, and leaves a table without it alone. -/
theorem drop_spec (lists : Lists t L) (clause : Nat) :
    ((∀ cd, (clause + 1, cd) ∉ L) ∧ t.drop clause = some (t, none)) ∨
      ∃ t' cd l l', L = l ++ (clause + 1, cd) :: l' ∧ t.drop clause = some (t', some cd) ∧ Lists t' (l ++ l') := by
  rw [drop]
  split
  · rename_i zero
    have empty : L = [] := List.eq_nil_of_length_eq_zero (by rw [lists.len, zero])
    exact .inl ⟨fun cd mem => (nomatch (empty ▸ mem : (clause + 1, cd) ∈ [])), rfl⟩
  rename_i some_
  have small := lists.small
  obtain ⟨e, large, cap⟩ := lists.power.resolve_left (by omega)
  have hashed := lists.hashed cap
  dsimp only
  rw [position_eq cap]
  rcases hashed.seek_ends (clause + 1) with free | here
  · have other : t.keys (seek e (slot (2 ^ e)) t.keyAt (clause + 1)) ≠ clause + 1 := by
      rw [keyAt_none.mp free]
      omega
    refine .inl ⟨fun cd mem => ?_, if_neg other⟩
    obtain ⟨s, lt, key, -⟩ := (lists.has (clause + 1) (some cd)).mpr ⟨cd, rfl, mem⟩
    have there := hashed.seek_some (cap ▸ lt) key
    rw [free] at there
    cases there
  · have lt := hashed.seek_lt (clause + 1)
    generalize seek e (slot (2 ^ e)) t.keyAt (clause + 1) = i at here lt
    obtain ⟨cd, value, mem⟩ := (lists.has (clause + 1) _).mp ⟨i, cap.symm ▸ lt, here, rfl⟩
    obtain ⟨l, l', rfl⟩ := List.append_of_mem mem
    obtain ⟨f, ltf, free⟩ := hashed.free
    have once := lists.once
    rw [List.map_append, List.map_cons, List.nodup_middle] at once
    obtain ⟨absent, once⟩ := List.nodup_cons.mp once
    rw [← List.map_append] at absent once
    have closing : Closing { t with len := t.len - 1 } e f i i (l ++ l') := by
      refine ⟨cap, .opened hashed lt here ltf free, fun k v => ⟨?_, ?_⟩⟩
      · rintro ⟨s, lts, off, key, is⟩
        obtain ⟨cd', is', mem'⟩ := (lists.has k v).mp ⟨s, cap.symm ▸ lts, key, is⟩
        refine ⟨cd', is', ?_⟩
        rcases List.mem_cons.mp (List.perm_middle.mem_iff.mp mem') with same | other
        · cases same
          exact absurd (hashed.inj lts lt key here) off
        · exact other
      · rintro ⟨cd', is', mem'⟩
        obtain ⟨s, lts, key, is⟩ := (lists.has k v).mpr ⟨cd', is', List.perm_middle.mem_iff.mpr (List.mem_cons_of_mem _ mem')⟩
        refine ⟨s, cap ▸ lts, ?_, key, is⟩
        rintro rfl
        rw [here] at key
        cases key
        exact absent (List.mem_map.mpr ⟨(clause + 1, cd'), mem', rfl⟩)
    have enough : ahead (2 ^ e) i f ≤ t.cap := by
      have := ahead_cases (2 ^ e) i f
      omega
    obtain ⟨t', closed, cap', len', hashed', has'⟩ := closeUp_spec closing enough
    have length := lists.len
    rw [List.length_append, List.length_cons] at length
    refine .inr ⟨t', cd, l, l', rfl, ?_, .inr ⟨e, large, cap'⟩, ?_, ?_, once, ?_, has'⟩
    · rw [if_pos (keyAt_some.mp here).1, closed, value]
      rfl
    · rw [len', cap', ← cap]
      dsimp only
      omega
    · rw [len', List.length_append]
      dsimp only
      omega
    · intro e' s k capt lts key
      obtain rfl : e' = e := Nat.pow_right_injective (le_refl 2) (capt.symm.trans cap')
      exact hashed'.found lts key

/- Runs. -/

/-- The tables a run of additions and drops comes to, each with the programs last added and not dropped since. -/
inductive Runs : CodeTable → (Nat → Option Code) → Prop where
  | start : Runs {} fun _ => none
  | put {t : CodeTable} {m : Nat → Option Code} (run : Runs t m) (clause : Nat) (new : m clause = none) (cd : Code) (rooms : Nat → Bool) :
      Runs (t.put clause cd rooms).1 (if t.puts rooms then Function.update m clause (some cd) else m)
  | drop {t t' : CodeTable} {m : Nat → Option Code} (run : Runs t m) (clause : Nat) {cd : Option Code}
      (dropped : t.drop clause = some (t', cd)) : Runs t' (Function.update m clause none)

/-- The table has the programs of the map. -/
def Records (t : CodeTable) (m : Nat → Option Code) : Prop :=
  ∃ L, Lists t L ∧ ∀ clause cd, (clause + 1, cd) ∈ L ↔ m clause = some cd

theorem Runs.records {m : Nat → Option Code} (run : Runs t m) : Records t m := by
  induction run with
  | start =>
    refine ⟨[], .empty (.inl rfl) rfl fun i lt => absurd lt (Nat.not_lt_zero i), fun clause cd => iff_of_false ?_ ?_⟩
    · exact List.not_mem_nil
    · exact fun is => (nomatch is)
  | @put t m run clause new cd rooms ih =>
    obtain ⟨L, lists, is⟩ := ih
    have absent : clause + 1 ∉ L.map Prod.fst := by
      rintro mem
      obtain ⟨⟨k, cd'⟩, mem, same⟩ := List.mem_map.mp mem
      dsimp only at same
      rw [same, is, new] at mem
      cases mem
    cases answer : t.puts rooms with
    | true =>
      refine ⟨_, put_entered lists absent cd answer, fun clause' cd' => ?_⟩
      rw [if_pos rfl, List.mem_cons, is, Prod.mk.injEq, Nat.add_right_cancel_iff]
      by_cases same : clause' = clause
      · rw [same, Function.update_self, new, Option.some.injEq]
        exact ⟨fun either => either.elim (fun both => both.2.symm) fun no => (nomatch no), fun eq => .inl ⟨rfl, eq.symm⟩⟩
      · rw [Function.update_of_ne same]
        exact ⟨fun either => either.elim (fun both => absurd both.1 same) id, .inr⟩
    | false => exact ⟨L, by rwa [put_refused answer], by rwa [if_neg Bool.false_ne_true]⟩
  | @drop t t' m run clause cd dropped ih =>
    obtain ⟨L, lists, is⟩ := ih
    have other : ∀ {clause' cd'}, clause' ≠ clause → ((clause' + 1, cd') ∈ L ↔ Function.update m clause none clause' = some cd') := by
      intro clause' cd' off
      rw [Function.update_of_ne off, is]
    rcases drop_spec lists clause with ⟨absent, same⟩ | ⟨t₁, cd₁, l, l', rfl, same, lists'⟩
    · rw [same] at dropped
      cases dropped
      refine ⟨L, lists, fun clause' cd' => ?_⟩
      by_cases here : clause' = clause
      · rw [here, Function.update_self]
        exact iff_of_false (absent cd') fun no => (nomatch no)
      · exact other here
    · rw [same] at dropped
      cases dropped
      refine ⟨l ++ l', lists', fun clause' cd' => ?_⟩
      by_cases here : clause' = clause
      · rw [here, Function.update_self]
        refine iff_of_false (fun mem => ?_) fun no => (nomatch no)
        have once := lists.once
        rw [List.map_append, List.map_cons, List.nodup_middle, ← List.map_append] at once
        exact (List.nodup_cons.mp once).1 (List.mem_map.mpr ⟨(clause + 1, cd'), mem, rfl⟩)
      · rw [← other here, List.perm_middle.mem_iff, List.mem_cons, Prod.mk.injEq]
        exact ⟨.inr, fun either => either.elim (fun both => absurd (Nat.add_right_cancel both.1) here) id⟩

/-- The search for a free position ends. -/
def Ends (t : CodeTable) : Prop := ∀ key,
  StopsAt (fun i => t.keys i == 0) (fun i => (i + 1) &&& (t.cap - 1)) t.cap (slot t.cap key) (t.position (fun i => t.keys i == 0) key)

theorem ends_of_hashed (cap : t.cap = 2 ^ e) (hashed : Hashed e (slot (2 ^ e)) t.keyAt) : Ends t := by
  intro key
  obtain ⟨s, lt, free⟩ := hashed.free
  obtain ⟨j, enough, meets⟩ := mask_walk_meets (slot_lt e key) lt
  rw [position, cap]
  refine probe_stopsAt ⟨j, enough, ?_⟩
  rw [meets, put_stop, free]
  rfl

/-- After every run the table has what the run recorded and nothing else, every entry stands where the search
from its own slot ends, and every loop over the table ends. -/
theorem runs_map {m : Nat → Option Code} (run : Runs t m) :
    (∀ clause, t.find clause = m clause) ∧
      (∀ s < t.cap, t.keys s ≠ 0 → t.position (fun i => t.keys i == 0 || t.keys i == t.keys s) (t.keys s) = s) ∧
      (t.cap ≠ 0 → ∀ clause, StopsAt (fun i => t.keys i == 0 || t.keys i == clause + 1) (fun i => (i + 1) &&& (t.cap - 1)) t.cap
        (slot t.cap (clause + 1)) (t.position (fun i => t.keys i == 0 || t.keys i == clause + 1) (clause + 1))) ∧
      (t.cap ≠ 0 → t.Ends) ∧ (∀ n ≤ t.cap, (t.grownTo n).Ends) ∧ ∀ clause, (t.drop clause).isSome := by
  obtain ⟨L, lists, is⟩ := run.records
  have power : t.cap ≠ 0 → ∃ e, t.cap = 2 ^ e := fun some_ => (lists.power.resolve_left some_).imp fun e both => both.2
  refine ⟨fun clause => ?_, fun s lt taken => ?_, fun some_ clause => ?_, fun some_ => ?_, fun n le => ?_, fun clause => ?_⟩
  · obtain ⟨found, absent⟩ := lists.find_eq clause
    cases recorded : m clause with
    | some cd => exact found cd ((is clause cd).mpr recorded)
    | none =>
      refine absent fun cd mem => ?_
      rw [is, recorded] at mem
      cases mem
  · obtain ⟨e, cap⟩ := power (by omega)
    obtain ⟨clause, key⟩ := Nat.exists_eq_succ_of_ne_zero taken
    rw [key]
    exact (position_eq cap clause).trans (lists.found cap (cap ▸ lt) (keyAt_some.mpr ⟨key, Nat.succ_ne_zero clause⟩))
  · obtain ⟨e, cap⟩ := power some_
    have stops := (lists.hashed cap).stops (clause + 1)
    rw [position_eq cap, cap]
    convert stops using 1
    · funext i
      exact find_stop i
    · rfl
  · obtain ⟨e, cap⟩ := power some_
    exact ends_of_hashed cap (lists.hashed cap)
  · obtain ⟨e, -, cap, room⟩ := lists.growth
    have moved := grownTo_spec lists cap (by omega) le
    exact ends_of_hashed moved.cap moved.hashed
  · rcases drop_spec lists clause with ⟨-, same⟩ | ⟨t', cd, l, l', -, same, -⟩
    · rw [same]
      rfl
    · rw [same]
      rfl

/-- The table after one addition. -/
theorem runs_map_one : (CodeTable.put {} 5 7 fun _ => true).1.find 5 = some 7 ∧ (CodeTable.put {} 5 7 fun _ => true).1.find 6 = none := by
  obtain ⟨found, -⟩ := runs_map (.put .start 5 rfl 7 fun _ => true)
  exact ⟨(found 5).trans rfl, (found 6).trans rfl⟩

end CodeTable

end Cocolog.Compact
