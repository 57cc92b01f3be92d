import Cocolog.Copy.Varmap

/-! The maps of copies inside copies. The machine lends its table to the copy that starts
and takes it back at its end, uncleared: the next copy has the next epoch. Over any run of
copies properly inside one another a map answers what was put in it since it was taken, so
long as the epoch does not come around inside a copy. When it does, the table lent to the
copy outside comes back with entries the new epochs will take for their own. -/

set_option linter.all false

namespace Cocolog.Copy

open Cocolog.Lib

/-- The members of `coco_machine` a map is lent from. A `cap` of zero is no table. -/
structure Spare where
  from_ : Nat → Nat
  to_ : Nat → Nat
  cap : Nat
  epoch : Nat

/-- `coco_varmap_take`: the map, and what the machine has left. -/
def varmapTake (m : Spare) : Varmap × Spare :=
  let m := { m with epoch := m.epoch + 1 }
  let m : Spare :=
    if 16777216 ≤ m.epoch then
      if m.cap ≠ 0 then { m with epoch := 1, from_ := fun _ => 0 } else { m with epoch := 1 }
    else m
  (⟨m.from_, m.to_, 0, m.cap, m.epoch⟩, ⟨fun _ => 0, fun _ => 0, 0, m.epoch⟩)

/-- `coco_varmap_give`. -/
def varmapGive (m : Spare) (vm : Varmap) : Spare :=
  if m.cap = 0 ∧ vm.cap ≠ 0 ∧ vm.cap ≤ 65536 then { m with from_ := vm.from_, to_ := vm.to_, cap := vm.cap } else m

/-- The machine, and the maps taken and not given back, innermost first. -/
structure Lending where
  spare : Spare
  maps : List Varmap

/-- A call: a map is taken, the innermost is given back, or the `n`th from the innermost is
put to or asked. `room` says whether there is memory to grow. -/
inductive Call where
  | take
  | give
  | put (n key val : Nat) (room : Bool)
  | intern (n key val : Nat) (room : Bool)
  | get (n key : Nat)

inductive Reply where
  | done
  | put (ok : Bool)
  | interned (r : Varmap.Interned)
  | got (val : Option Nat)
deriving DecidableEq

namespace Lending

/-- A call's effect. None when it is not proper, or has no end. -/
def step (s : Lending) : Call → Option (Lending × Reply)
  | .take => some (⟨(varmapTake s.spare).2, (varmapTake s.spare).1 :: s.maps⟩, .done)
  | .give =>
    match s.maps with
    | [] => none
    | vm :: rest => some (⟨varmapGive s.spare vm, rest⟩, .done)
  | .put n key val room =>
    (s.maps[n]?).bind fun vm =>
      (vm.put key val room).map fun r => (⟨s.spare, s.maps.set n r.2⟩, .put r.1)
  | .intern n key val room =>
    (s.maps[n]?).bind fun vm =>
      (vm.intern key val room).map fun r => (⟨s.spare, s.maps.set n r.2⟩, .interned r.1)
  | .get n key => (s.maps[n]?).bind fun vm => (vm.get key).map fun r => (s, .got r)

/-- A run of calls, with their answers. -/
def run (s : Lending) : List Call → Option (Lending × List Reply)
  | [] => some (s, [])
  | c :: cs => (s.step c).bind fun r => (r.1.run cs).map fun rest => (rest.1, r.2 :: rest.2)

/-- A machine that has copied nothing. -/
def start : Lending := ⟨⟨fun _ => 0, fun _ => 0, 0, 0⟩, []⟩

/-- The call is of a map there is, with a key that leaves the epoch's bits alone. -/
def Proper (s : Lending) : Call → Prop
  | .take => True
  | .give => s.maps ≠ []
  | .put n key _ _ | .intern n key _ _ | .get n key => n < s.maps.length ∧ Varmap.Fits key

/-- The epoch does not come around inside a map. -/
def Calm (s : Lending) : Call → Prop
  | .take => 16777216 ≤ s.spare.epoch + 1 → s.maps = []
  | _ => True

/-- Every call of the run meets the condition. -/
def Along (ok : Lending → Call → Prop) (s : Lending) : List Call → Prop
  | [] => True
  | c :: cs => ok s c ∧ ∀ s' r, s.step c = some (s', r) → Along ok s' cs

end Lending

/-- The maps as functions: what they are after a call so answered, none when the answer is
not theirs. A map is empty when it is taken; a put that failed had no memory. -/
def mapsAfter (maps : List (Nat → Option Nat)) : Call → Reply → Option (List (Nat → Option Nat))
  | .take, .done => some ((fun _ => none) :: maps)
  | .give, .done =>
    match maps with
    | [] => none
    | _ :: rest => some rest
  | .put n key val room, .put ok =>
    (maps[n]?).bind fun M =>
      if ok then some (maps.set n (Function.update M key (some val))) else if room then none else some maps
  | .intern n key val room, .interned r =>
    (maps[n]?).bind fun M =>
      match r with
      | .old x => if M key = some x then some maps else none
      | .new => if M key = none then some (maps.set n (Function.update M key (some val))) else none
      | .failed => if room then none else some maps
  | .get n key, .got r => (maps[n]?).bind fun M => if M key = r then some maps else none
  | _, _ => none

/-- The answers of a run are those of the maps. -/
def Right (maps : List (Nat → Option Nat)) : List Call → List Reply → Prop
  | [], [] => True
  | c :: cs, r :: rs =>
    match mapsAfter maps c r with
    | none => False
    | some maps => Right maps cs rs
  | _, _ => False

variable {s s' : Lending} {maps : List (Nat → Option Nat)} {c : Call}

/-- Every map in use keeps what it should, and no table has an entry of an epoch to come. -/
structure Lent (s : Lending) (maps : List (Nat → Option Nat)) : Prop where
  epoch : s.spare.epoch < 16777216
  power : s.spare.cap = 0 ∨ ∃ e, 5 ≤ e ∧ s.spare.cap = 2 ^ e
  empty : s.spare.cap = 0 → ∀ i, s.spare.from_ i = 0
  dated : ∀ i, s.spare.from_ i >>> 40 ≤ s.spare.epoch
  length : s.maps.length = maps.length
  keeps : ∀ (n : Nat) (vm : Varmap) M, s.maps[n]? = some vm → maps[n]? = some M →
    vm.Keeps M ∧ vm.epoch ≤ s.spare.epoch

/-- A table without an entry of its epoch holds the empty map. -/
theorem keeps_empty {vm : Varmap} (len : vm.len = 0) (power : vm.cap = 0 ∨ ∃ e, 5 ≤ e ∧ vm.cap = 2 ^ e)
    (none_ : ∀ i, vm.live i = false) (dated : vm.Dated) : vm.Keeps fun _ => none := by
  have free : ∀ {i k}, vm.keyAt i ≠ some k := by
    intro i k here
    rw [Varmap.keyAt_eq_none.mpr (none_ i)] at here
    cases here
  refine ⟨⟨power, by omega, ?_, ?_, ⟨[], by simp [len], ?_⟩, ?_, ?_⟩, dated⟩
  · intro i is
    rw [none_ i] at is
    cases is
  · exact fun _ _ here => absurd here free
  · exact fun _ _ _ here => absurd here free
  · exact fun _ here => absurd here free
  · exact fun is => (nomatch is)

/-- What is lent: the next epoch and the table with no entry of it, and what the machine is
left with. -/
theorem varmapTake_spec {m : Spare} (bound : m.epoch < 16777216) (dated : ∀ i, m.from_ i >>> 40 ≤ m.epoch)
    (none_ : m.cap = 0 → ∀ i, m.from_ i = 0) :
    ∃ epoch from_, varmapTake m = (⟨from_, m.to_, 0, m.cap, epoch⟩, ⟨fun _ => 0, fun _ => 0, 0, epoch⟩) ∧
      epoch < 16777216 ∧ (16777216 ≤ m.epoch + 1 ∨ epoch = m.epoch + 1) ∧
      (∀ i, from_ i >>> 40 ≤ epoch) ∧ ∀ i, from_ i ≠ 0 → from_ i >>> 40 ≠ epoch := by
  by_cases wraps : 16777216 ≤ m.epoch + 1
  · refine ⟨1, fun _ => 0, ?_, by decide, .inl wraps, fun i => by simp, fun i no => absurd rfl no⟩
    simp only [varmapTake, if_pos wraps]
    split
    · rfl
    · rename_i empty
      have zero : m.from_ = fun _ => 0 := funext (none_ (not_not.mp empty))
      rw [zero]
  · refine ⟨m.epoch + 1, m.from_, ?_, by omega, .inr rfl, fun i => Nat.le_succ_of_le (dated i), ?_⟩
    · simp only [varmapTake, if_neg wraps]
    · intro i _ same
      have := dated i
      omega

/-- A map taken. -/
theorem Lent.take (lent : Lent s maps) (calm : s.Calm .take) :
    Lent ⟨(varmapTake s.spare).2, (varmapTake s.spare).1 :: s.maps⟩ ((fun _ => none) :: maps) := by
  obtain ⟨bound, power, empty, dated, length, keeps⟩ := lent
  obtain ⟨epoch, from_, is, bound', next, dated', off⟩ := varmapTake_spec bound dated empty
  rw [is]
  refine ⟨bound', .inl rfl, fun _ _ => rfl, fun i => by simp, by simp [length], ?_⟩
  intro n vm M here there
  cases n with
  | zero =>
    simp only [List.getElem?_cons_zero, Option.some.injEq] at here there
    subst here there
    refine ⟨keeps_empty rfl power ?_ dated', le_rfl⟩
    intro i
    simp only [Varmap.live, Bool.and_eq_false_iff, bne_eq_false_iff_eq, beq_eq_false_iff_ne]
    by_cases zero : from_ i = 0
    · exact .inl zero
    · exact .inr (off i zero)
  | succ n =>
    simp only [List.getElem?_cons_succ] at here there
    obtain ⟨kept, le⟩ := keeps n vm M here there
    refine ⟨kept, ?_⟩
    rcases next with wraps | next
    · rw [calm wraps] at here
      cases here
    · simp only
      omega

/-- The innermost map given back. -/
theorem Lent.give {vm : Varmap} {rest : List Varmap} (lent : Lent s maps) (top : s.maps = vm :: rest) :
    ∃ M below, maps = M :: below ∧ Lent ⟨varmapGive s.spare vm, rest⟩ below := by
  obtain ⟨bound, power, empty, dated, length, keeps⟩ := lent
  cases is : maps with
  | nil =>
    rw [top, is] at length
    cases length
  | cons M below =>
    refine ⟨M, below, rfl, ?_⟩
    rw [top, is] at length keeps
    have length' : rest.length = below.length := by simpa using length
    have below_keeps : ∀ (n : Nat) (vm' : Varmap) M', rest[n]? = some vm' → below[n]? = some M' →
        vm'.Keeps M' ∧ vm'.epoch ≤ s.spare.epoch :=
      fun n vm' M' here there => keeps (n + 1) vm' M' (by simpa using here) (by simpa using there)
    obtain ⟨kept, le⟩ := keeps 0 vm M (by simp) (by simp)
    unfold varmapGive
    split
    · rename_i back
      exact ⟨bound, kept.1.power, fun none_ => absurd none_ back.2.1, fun i => (kept.2 i).trans le, length',
        below_keeps⟩
    · exact ⟨bound, power, empty, dated, length', below_keeps⟩

/-- A map changed. -/
theorem Lent.set {n : Nat} {vm vm' : Varmap} {M M' : Nat → Option Nat} (lent : Lent s maps)
    (here : s.maps[n]? = some vm) (there : maps[n]? = some M) (keeps' : vm'.Keeps M')
    (epoch : vm'.epoch = vm.epoch) : Lent ⟨s.spare, s.maps.set n vm'⟩ (maps.set n M') := by
  obtain ⟨bound, power, empty, dated, length, keeps⟩ := lent
  refine ⟨bound, power, empty, dated, by simp [length], ?_⟩
  intro j vm₁ M₁ here₁ there₁
  by_cases same : n = j
  · subst same
    have lt : n < s.maps.length := (List.getElem?_eq_some_iff.mp here).1
    rw [List.getElem?_set_self lt, Option.some.injEq] at here₁
    rw [List.getElem?_set_self (by omega), Option.some.injEq] at there₁
    subst here₁ there₁
    refine ⟨keeps', ?_⟩
    rw [epoch]
    exact (keeps n vm M here there).2
  · rw [List.getElem?_set_ne same] at here₁ there₁
    exact keeps j vm₁ M₁ here₁ there₁

theorem Lent.same {n : Nat} {vm vm' : Varmap} {M : Nat → Option Nat} (lent : Lent s maps)
    (here : s.maps[n]? = some vm) (there : maps[n]? = some M) (keeps' : vm'.Keeps M)
    (epoch : vm'.epoch = vm.epoch) : Lent ⟨s.spare, s.maps.set n vm'⟩ maps := by
  have set_ := lent.set here there keeps' epoch
  have lt : n < maps.length := (List.getElem?_eq_some_iff.mp there).1
  have unchanged : maps.set n M = maps := by
    rw [← (List.getElem?_eq_some_iff.mp there).2]
    exact List.set_getElem_self lt
  rwa [unchanged] at set_

/-- Every proper call with a calm epoch is answered as the maps answer it. -/
theorem Lent.step (lent : Lent s maps) (proper : s.Proper c) (calm : s.Calm c) :
    ∃ s' r maps', s.step c = some (s', r) ∧ mapsAfter maps c r = some maps' ∧ Lent s' maps' := by
  have both : ∀ {n}, n < s.maps.length → ∃ (vm : Varmap) (M : Nat → Option Nat), s.maps[n]? = some vm ∧
      maps[n]? = some M ∧ vm.Keeps M := by
    intro n lt
    obtain ⟨vm, here⟩ : ∃ vm, s.maps[n]? = some vm := ⟨_, List.getElem?_eq_getElem lt⟩
    obtain ⟨M, there⟩ : ∃ M, maps[n]? = some M := ⟨_, List.getElem?_eq_getElem (lent.length ▸ lt)⟩
    exact ⟨vm, M, here, there, (lent.keeps n vm M here there).1⟩
  cases c with
  | take => exact ⟨_, _, _, rfl, rfl, lent.take calm⟩
  | give =>
    cases top : s.maps with
    | nil => exact absurd top proper
    | cons vm rest =>
      obtain ⟨M, below, rfl, lent'⟩ := lent.give top
      exact ⟨_, _, below, by simp only [Lending.step, top]; rfl, rfl, lent'⟩
  | put n key val room =>
    obtain ⟨lt, fits⟩ := proper
    obtain ⟨vm, M, here, there, keeps⟩ := both lt
    obtain ⟨ok, vm', is, epoch, cases_⟩ := keeps.put_eq fits val room
    have stepped : s.step (.put n key val room) = some (⟨s.spare, s.maps.set n vm'⟩, .put ok) := by
      simp only [Lending.step, here, Option.bind_some, is, Option.map_some]
    rcases cases_ with ⟨rfl, keeps'⟩ | ⟨rfl, rfl, keeps'⟩
    · exact ⟨_, _, _, stepped, by simp only [mapsAfter, there, Option.bind_some]; rfl, lent.set here there keeps' epoch⟩
    · exact ⟨_, _, maps, stepped, by simp only [mapsAfter, there, Option.bind_some]; rfl,
        lent.same here there keeps' epoch⟩
  | intern n key val room =>
    obtain ⟨lt, fits⟩ := proper
    obtain ⟨vm, M, here, there, keeps⟩ := both lt
    obtain ⟨r, vm', is, epoch, cases_⟩ := keeps.intern_eq fits val room
    have stepped : s.step (.intern n key val room) = some (⟨s.spare, s.maps.set n vm'⟩, .interned r) := by
      simp only [Lending.step, here, Option.bind_some, is, Option.map_some]
    rcases cases_ with ⟨x, rfl, value, keeps'⟩ | ⟨rfl, value, keeps'⟩ | ⟨rfl, rfl, keeps'⟩
    · exact ⟨_, _, maps, stepped, by simp only [mapsAfter, there, Option.bind_some, if_pos value],
        lent.same here there keeps' epoch⟩
    · exact ⟨_, _, _, stepped, by simp only [mapsAfter, there, Option.bind_some, if_pos value],
        lent.set here there keeps' epoch⟩
    · exact ⟨_, _, maps, stepped, by simp only [mapsAfter, there, Option.bind_some]; rfl,
        lent.same here there keeps' epoch⟩
  | get n key =>
    obtain ⟨lt, fits⟩ := proper
    obtain ⟨vm, M, here, there, keeps⟩ := both lt
    refine ⟨s, .got (M key), maps, ?_, ?_, lent⟩
    · simp only [Lending.step, here, Option.bind_some, keeps.1.get_eq fits, Option.map_some]
    · simp only [mapsAfter, there, Option.bind_some, if_true]

theorem Lent.start : Lent .start [] :=
  ⟨by decide, .inl rfl, fun _ _ => rfl, fun _ => by simp [Lending.start], rfl, fun _ _ _ here => (nomatch here)⟩

theorem Lent.run {cs : List Call} (lent : Lent s maps)
    (along : s.Along (fun s c => s.Proper c ∧ s.Calm c) cs) :
    ∃ s' rs, s.run cs = some (s', rs) ∧ Right maps cs rs := by
  induction cs generalizing s maps with
  | nil => exact ⟨s, [], rfl, trivial⟩
  | cons c cs ih =>
    obtain ⟨⟨proper, calm⟩, rest⟩ := along
    obtain ⟨s', r, maps', stepped, after, lent'⟩ := lent.step proper calm
    obtain ⟨s'', rs, ran, right⟩ := ih lent' (rest s' r stepped)
    refine ⟨s'', r :: rs, ?_, ?_⟩
    · simp only [Lending.run, stepped, Option.bind_some, ran, Option.map_some]
    · simp only [Right, after]
      exact right

/-- Over every run of proper calls in which the epoch does not come around inside a map,
each map answers exactly what was last put for a key since it was taken. -/
theorem varmap_right (cs : List Call) (along : Lending.start.Along (fun s c => s.Proper c ∧ s.Calm c) cs) :
    ∃ s rs, Lending.start.run cs = some (s, rs) ∧ Right [] cs rs := Lent.start.run along

theorem step_put_length {n key val : Nat} {room : Bool} {r : Reply}
    (stepped : s.step (.put n key val room) = some (s', r)) : s'.maps.length = s.maps.length := by
  obtain ⟨vm, -, rest⟩ := Option.bind_eq_some_iff.mp stepped
  obtain ⟨x, -, is⟩ := Option.map_eq_some_iff.mp rest
  rw [← (Prod.mk.inj is).1]
  exact List.length_set

/-- A map taken, a key put and asked. -/
theorem varmap_right_once :
    Lending.start.Along (fun s c => s.Proper c ∧ s.Calm c) [.take, .put 0 5 7 true, .get 0 5] ∧
    ∃ s rs, Lending.start.run [.take, .put 0 5 7 true, .get 0 5] = some (s, rs) ∧
      Right [] [.take, .put 0 5 7 true, .get 0 5] rs := by
  have along : Lending.start.Along (fun s c => s.Proper c ∧ s.Calm c) [.take, .put 0 5 7 true, .get 0 5] := by
    refine ⟨⟨trivial, fun _ => rfl⟩, ?_⟩
    intro s r stepped
    obtain ⟨rfl, rfl⟩ := Prod.mk.inj (Option.some.inj stepped)
    refine ⟨⟨⟨Nat.zero_lt_one, by unfold Varmap.Fits; decide⟩, trivial⟩, ?_⟩
    intro s r stepped
    have length := step_put_length stepped
    refine ⟨⟨⟨?_, by unfold Varmap.Fits; decide⟩, trivial⟩, fun _ _ _ => trivial⟩
    rw [length]
    exact Nat.zero_lt_one
  exact ⟨along, varmap_right _ along⟩

/- The epoch comes around inside a map. -/

/-- A copy that meets no variable. -/
def laps (n : Nat) (cs : List Call) : List Call := (List.replicate n [Call.take, .give]).flatten ++ cs

/-- A key is put under the second epoch; `n` copies go by; a copy is made inside the next,
and after both another asks for the key. -/
def lapse (n : Nat) : List Call :=
  [Call.take, .give, .take, .put 0 5 7 true, .give] ++ laps n [.take, .take, .give, .give, .take, .get 0 5]

theorem laps_succ (n : Nat) (cs : List Call) : laps (n + 1) cs = .take :: .give :: laps n cs := by
  simp [laps, List.replicate_succ]

/-- A copy that meets no variable leaves the table, one epoch on. -/
theorem run_laps {m : Spare} {cs : List Call} {rs : List Reply} (n : Nat) (bound : m.epoch + n < 16777216)
    (some_ : m.cap ≠ 0) (small : m.cap ≤ 65536)
    (rest : Lending.run ⟨{ m with epoch := m.epoch + n }, []⟩ cs = some (s, rs)) :
    Lending.run ⟨m, []⟩ (laps n cs) = some (s, (List.replicate n [Reply.done, .done]).flatten ++ rs) := by
  induction n generalizing m with
  | zero => simpa [laps] using rest
  | succ n ih =>
    have lends : varmapTake m = (⟨m.from_, m.to_, 0, m.cap, m.epoch + 1⟩, ⟨fun _ => 0, fun _ => 0, 0, m.epoch + 1⟩) := by
      have stays : ¬ 16777216 ≤ m.epoch + 1 := by omega
      simp only [varmapTake, if_neg stays]
    have back : varmapGive ⟨fun _ => 0, fun _ => 0, 0, m.epoch + 1⟩ ⟨m.from_, m.to_, 0, m.cap, m.epoch + 1⟩ =
        { m with epoch := m.epoch + 1 } := by
      simp only [varmapGive]
      exact if_pos ⟨trivial, some_, small⟩
    have again := @ih { m with epoch := m.epoch + 1 } (by simp only; omega) some_ small (by
      simp only
      rw [Nat.add_assoc, Nat.add_comm 1 n]
      exact rest)
    rw [laps_succ]
    simp only [Lending.run, Lending.step, lends, back, Option.bind_some, again, Option.map_some, List.replicate_succ,
      List.flatten_cons, List.cons_append, List.nil_append]

theorem right_laps (n : Nat) (cs : List Call) (rs : List Reply) :
    Right [] (laps n cs) ((List.replicate n [Reply.done, .done]).flatten ++ rs) ↔ Right [] cs rs := by
  induction n with
  | zero => simp [laps]
  | succ n ih =>
    rw [laps_succ, List.replicate_succ, List.flatten_cons]
    exact ih

/-- The same entries under the same epoch answer the same. -/
theorem get_congr {vm vm' : Varmap} (from_ : vm'.from_ = vm.from_) (to_ : vm'.to_ = vm.to_) (cap : vm'.cap = vm.cap)
    (epoch : vm'.epoch = vm.epoch) (key : Nat) : vm'.get key = vm.get key := by
  unfold Varmap.get Varmap.find Varmap.live
  rw [from_, to_, cap, epoch]

/-- The key put under the second epoch. -/
theorem second_put :
    ∃ vm : Varmap, Varmap.put ⟨fun _ => 0, fun _ => 0, 0, 0, 2⟩ 5 7 true = some (true, vm) ∧ vm.epoch = 2 ∧
      vm.cap = 32 ∧ vm.get 5 = some (some 7) := by
  have fits : Varmap.Fits 5 := by
    unfold Varmap.Fits
    decide
  have keeps : Varmap.Keeps ⟨fun _ => 0, fun _ => 0, 0, 0, 2⟩ fun _ => none :=
    keeps_empty rfl (.inl rfl) (fun i => by simp [Varmap.live]) fun i => by simp
  obtain ⟨ok, vm, is, epoch, cases_⟩ := keeps.put_eq fits 7 true
  rcases cases_ with ⟨rfl, kept⟩ | ⟨-, no, -⟩
  · refine ⟨vm, is, epoch, ?_, ?_⟩
    · have cap : (Varmap.put ⟨fun _ => 0, fun _ => 0, 0, 0, 2⟩ 5 7 true).map (fun r => r.2.cap) = some 32 := by
        decide +kernel
      rw [is] at cap
      exact Option.some.inj cap
    · rw [kept.1.get_eq fits, Function.update_self]
  · cases no

/-- The maps in use after a call. -/
def depthAfter (depth : Nat) : Call → Nat
  | .take => depth + 1
  | .give => depth - 1
  | _ => depth

/-- The call is of one of `depth` maps in use. -/
def Fitting (depth : Nat) : Call → Prop
  | .take => True
  | .give => 0 < depth
  | .put n key _ _ | .intern n key _ _ | .get n key => n < depth ∧ Varmap.Fits key

/-- Calls properly inside one another, with `depth` maps in use before them. -/
def Nested (depth : Nat) : List Call → Prop
  | [] => True
  | c :: cs => Fitting depth c ∧ Nested (depthAfter depth c) cs

theorem step_depth {r : Reply} (stepped : s.step c = some (s', r)) :
    s'.maps.length = depthAfter s.maps.length c := by
  cases c with
  | take =>
    obtain ⟨rfl, -⟩ := Prod.mk.inj (Option.some.inj stepped)
    rfl
  | give =>
    simp only [Lending.step] at stepped
    split at stepped
    · cases stepped
    · rename_i vm rest top
      obtain ⟨rfl, -⟩ := Prod.mk.inj (Option.some.inj stepped)
      simp [depthAfter, top]
  | put n key val room => exact step_put_length stepped
  | intern n key val room =>
    obtain ⟨vm, -, rest⟩ := Option.bind_eq_some_iff.mp stepped
    obtain ⟨x, -, is⟩ := Option.map_eq_some_iff.mp rest
    rw [← (Prod.mk.inj is).1]
    exact List.length_set
  | get n key =>
    obtain ⟨vm, -, rest⟩ := Option.bind_eq_some_iff.mp stepped
    obtain ⟨x, -, is⟩ := Option.map_eq_some_iff.mp rest
    rw [← (Prod.mk.inj is).1]
    rfl

/-- Properly nested calls are proper along every run. -/
theorem Nested.along {cs : List Call} (nested : Nested s.maps.length cs) : s.Along Lending.Proper cs := by
  induction cs generalizing s with
  | nil => trivial
  | cons c cs ih =>
    obtain ⟨fitting, rest⟩ := nested
    refine ⟨?_, fun s' r stepped => ih (by rw [step_depth stepped]; exact rest)⟩
    cases c with
    | take => trivial
    | give =>
      intro none_
      simp [Fitting, none_] at fitting
    | put n key val room => exact fitting
    | intern n key val room => exact fitting
    | get n key => exact fitting

theorem nested_laps (n : Nat) {cs : List Call} (nested : Nested 0 cs) : Nested 0 (laps n cs) := by
  induction n with
  | zero => exact nested
  | succ n ih =>
    rw [laps_succ]
    exact ⟨trivial, Nat.zero_lt_one, ih⟩

/-- The run from the last epoch on. -/
theorem run_around {vm : Varmap} (epoch : vm.epoch = 2) (cap : vm.cap = 32) (value : vm.get 5 = some (some 7)) :
    ∃ s, Lending.run ⟨⟨vm.from_, vm.to_, vm.cap, 16777214⟩, []⟩ [.take, .take, .give, .give, .take, .get 0 5] =
      some (s, [.done, .done, .done, .done, .done, .got (some 7)]) := by
  have first : varmapTake ⟨vm.from_, vm.to_, vm.cap, 16777214⟩ =
      (⟨vm.from_, vm.to_, 0, vm.cap, 16777215⟩, ⟨fun _ => 0, fun _ => 0, 0, 16777215⟩) := by
    simp [varmapTake]
  have inner : varmapTake ⟨fun _ => 0, fun _ => 0, 0, 16777215⟩ =
      (⟨fun _ => 0, fun _ => 0, 0, 0, 1⟩, ⟨fun _ => 0, fun _ => 0, 0, 1⟩) := by
    simp [varmapTake]
  have back : varmapGive ⟨fun _ => 0, fun _ => 0, 0, 1⟩ ⟨fun _ => 0, fun _ => 0, 0, 0, 1⟩ =
      ⟨fun _ => 0, fun _ => 0, 0, 1⟩ := by
    simp [varmapGive]
  have back' : varmapGive ⟨fun _ => 0, fun _ => 0, 0, 1⟩ ⟨vm.from_, vm.to_, 0, vm.cap, 16777215⟩ =
      ⟨vm.from_, vm.to_, vm.cap, 1⟩ := by
    simp [varmapGive, cap]
  have last : varmapTake ⟨vm.from_, vm.to_, vm.cap, 1⟩ =
      (⟨vm.from_, vm.to_, 0, vm.cap, 2⟩, ⟨fun _ => 0, fun _ => 0, 0, 2⟩) := by
    simp [varmapTake]
  have asked : Varmap.get ⟨vm.from_, vm.to_, 0, vm.cap, 2⟩ 5 = some (some 7) := by
    rw [← value]
    exact @get_congr vm ⟨vm.from_, vm.to_, 0, vm.cap, 2⟩ rfl rfl rfl epoch.symm 5
  refine ⟨⟨⟨fun _ => 0, fun _ => 0, 0, 2⟩, [⟨vm.from_, vm.to_, 0, vm.cap, 2⟩]⟩, ?_⟩
  simp only [Lending.run, Lending.step, first, inner, back, back', last, asked, Option.bind_some, Option.map_some,
    List.getElem?_cons_zero]

/-- With as many copies as the epochs have left the calls are proper, and the last map
taken, which has had nothing put in it, answers what another had. -/
theorem lapse_answers {n : Nat} (around : n + 2 = 16777214) :
    Lending.start.Along Lending.Proper (lapse n) ∧
    ∃ s rs, Lending.start.run (lapse n) = some (s, rs) ∧ ¬ Right [] (lapse n) rs := by
  constructor
  · have fits : Varmap.Fits 5 := by
      unfold Varmap.Fits
      decide
    have once : Nested 0 [.take, .take, .give, .give, .take, .get 0 5] :=
      ⟨trivial, trivial, Nat.zero_lt_two, Nat.zero_lt_one, trivial, ⟨Nat.zero_lt_one, fits⟩, trivial⟩
    exact Nested.along ⟨trivial, Nat.zero_lt_one, trivial, ⟨Nat.zero_lt_one, fits⟩, Nat.zero_lt_one,
      nested_laps n once⟩
  · obtain ⟨vm, put, epoch, cap, value⟩ := second_put
    obtain ⟨s, last⟩ := run_around epoch cap value
    have first : varmapTake ⟨fun _ => 0, fun _ => 0, 0, 0⟩ =
        (⟨fun _ => 0, fun _ => 0, 0, 0, 1⟩, ⟨fun _ => 0, fun _ => 0, 0, 1⟩) := by
      simp [varmapTake]
    have back : varmapGive ⟨fun _ => 0, fun _ => 0, 0, 1⟩ ⟨fun _ => 0, fun _ => 0, 0, 0, 1⟩ =
        ⟨fun _ => 0, fun _ => 0, 0, 1⟩ := by
      simp [varmapGive]
    have second : varmapTake ⟨fun _ => 0, fun _ => 0, 0, 1⟩ =
        (⟨fun _ => 0, fun _ => 0, 0, 0, 2⟩, ⟨fun _ => 0, fun _ => 0, 0, 2⟩) := by
      simp [varmapTake]
    have back' : varmapGive ⟨fun _ => 0, fun _ => 0, 0, 2⟩ vm = ⟨vm.from_, vm.to_, vm.cap, 2⟩ := by
      simp [varmapGive, cap]
    have between := @run_laps s ⟨vm.from_, vm.to_, vm.cap, 2⟩ _ _ n (by simp only; omega) (by simp only; omega)
      (by simp only; omega) (by simp only; rw [Nat.add_comm 2 n, around]; exact last)
    refine ⟨s, [Reply.done, .done, .done, .put true, .done] ++ ((List.replicate n [Reply.done, .done]).flatten ++
      [Reply.done, .done, .done, .done, .done, .got (some 7)]), ?_, ?_⟩
    · simp only [lapse, Lending.start, List.cons_append, List.nil_append, Lending.run, Lending.step, first, back, second,
        put, back', between, Option.bind_some, Option.map_some, List.getElem?_cons_zero, List.set_cons_zero]
    · intro right
      have tail := (right_laps n [.take, .take, .give, .give, .take, .get 0 5]
        [.done, .done, .done, .done, .done, .got (some 7)]).mp right
      simp [Right, mapsAfter] at tail

/-- The epoch comes around inside a map, and a map answers what was never put in it. -/
theorem lapse_wrong :
    Lending.start.Along Lending.Proper (lapse 16777212) ∧
    ∃ s rs, Lending.start.run (lapse 16777212) = some (s, rs) ∧ ¬ Right [] (lapse 16777212) rs :=
  lapse_answers rfl

end Cocolog.Copy
