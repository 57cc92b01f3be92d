import Cocolog.State.Decode

/-! What restoring the frames does to the tables. Names and functors only come behind the
ones the image had; the strings, wide integers and rationals the backend's clauses hold come
in the order of the calls that asked for them, each predicate asked once. -/

set_option linter.all false

namespace Cocolog.State

open Cocolog.Lib.Wire Cocolog.Store

section

variable {α : Type} [DecidableEq α] {l : List α} {a b : α}

theorem prefix_enter (l : List α) (a : α) : l <+: enter l a := by
  unfold enter
  split
  · exact List.prefix_rfl
  · exact List.prefix_append l [a]

theorem mem_enter : b ∈ enter l a ↔ b ∈ l ∨ b = a := by
  unfold enter
  split
  · rename_i mem
    constructor
    · exact Or.inl
    · rintro (old | rfl)
      · exact old
      · exact mem
  · simp

theorem idxOf_of_prefix {l l' : List α} (front : l <+: l') (mem : a ∈ l) : l'.idxOf a = l.idxOf a := by
  obtain ⟨t, rfl⟩ := front
  exact List.idxOf_append_of_mem mem

end

namespace Entry

def string? : Entry → Option Bytes
  | string bytes => some bytes
  | _ => none

def big? : Entry → Option Int64
  | big v => some v
  | _ => none

def rat? : Entry → Option (Int64 × Int64)
  | rat n d => some (n, d)
  | _ => none

end Entry

/-- The machine after some entries were made in it, and names perhaps besides. -/
structure Grows (m m' : Machine) (made : List Entry) : Prop where
  atoms : m.atoms <+: m'.atoms
  functors : m.functors <+: m'.functors
  floats : m.floats <+: m'.floats
  strings : m'.strings = m.strings ++ made.filterMap Entry.string?
  bigs : m'.bigs = m.bigs ++ made.filterMap Entry.big?
  rats : m'.rats = m.rats ++ made.filterMap Entry.rat?
  heap : m'.heap = m.heap
  trail : m'.trail = m.trail
  doubleQuotes : m'.doubleQuotes = m.doubleQuotes
  textChars : m'.textChars = m.textChars
  fflags : m'.fflags = m.fflags

namespace Grows

variable {m m' m'' : Machine} {made made' : List Entry}

theorem refl (m : Machine) : Grows m m [] :=
  ⟨List.prefix_rfl, List.prefix_rfl, List.prefix_rfl, by simp, by simp, by simp, rfl, rfl, rfl, rfl,
    rfl⟩

theorem trans (one : Grows m m' made) (two : Grows m' m'' made') : Grows m m'' (made ++ made') where
  atoms := one.atoms.trans two.atoms
  functors := one.functors.trans two.functors
  floats := one.floats.trans two.floats
  strings := by rw [two.strings, one.strings, List.filterMap_append, List.append_assoc]
  bigs := by rw [two.bigs, one.bigs, List.filterMap_append, List.append_assoc]
  rats := by rw [two.rats, one.rats, List.filterMap_append, List.append_assoc]
  heap := two.heap.trans one.heap
  trail := two.trail.trans one.trail
  doubleQuotes := two.doubleQuotes.trans one.doubleQuotes
  textChars := two.textChars.trans one.textChars
  fflags := two.fflags.trans one.fflags

theorem internH (m : Machine) (a : Atom) : Grows m (m.internH a) [] :=
  { refl m with atoms := prefix_enter m.atoms a }

theorem functorId (m : Machine) (f : Functor) : Grows m (m.functorId f) [] :=
  { refl m with functors := prefix_enter m.functors f }

/-- A name or a functor is no boxed value. -/
theorem naming {e : Entry} (grows : Grows m m' []) (s : e.string? = none) (b : e.big? = none)
    (r : e.rat? = none) : Grows m m' [e] :=
  { grows with
    strings := by rw [grows.strings, List.filterMap_cons_none s]
    bigs := by rw [grows.bigs, List.filterMap_cons_none b]
    rats := by rw [grows.rats, List.filterMap_cons_none r] }

theorem make (m : Machine) (e : Entry) : Grows m (m.make e) [e] := by
  cases e with
  | atom a => exact (internH m a).naming rfl rfl rfl
  | functor name arity => exact ((internH m name).trans (functorId _ _)).naming rfl rfl rfl
  | float bits => exact { refl m with floats := List.prefix_append m.floats [bits] }
  | string bytes => exact { refl m with strings := rfl }
  | big v => exact { refl m with bigs := rfl }
  | rat n d => exact { refl m with rats := rfl }

theorem foldl_make (m : Machine) (made : List Entry) : Grows m (made.foldl Machine.make m) made := by
  induction made generalizing m with
  | nil => exact refl m
  | cons e made ih => exact (make m e).trans (ih (m.make e))

theorem idOf (grows : Grows m m' made) {a : Atom} (mem : a ∈ m.atoms) : m'.idOf a = m.idOf a :=
  idxOf_of_prefix grows.atoms mem

end Grows

theorem mem_internH (m : Machine) (a : Atom) : a ∈ (m.internH a).atoms := mem_enter.mpr (.inr rfl)

theorem idOf_inj {m : Machine} {a b : Atom} (ha : a ∈ m.atoms) (same : m.idOf a = m.idOf b)
    (hb : b ∈ m.atoms) : a = b := by
  have found := List.getElem?_idxOf ha
  have found' := List.getElem?_idxOf hb
  have eq : m.atoms.idxOf a = m.atoms.idxOf b := same
  rw [eq, found'] at found
  exact (Option.some.inj found).symm

/- The calls that are asked for. -/

section

variable {backend : Backend} {m : Machine} {st : List NamedPred}

/-- The predicate an open call is on, by its name and arity. -/
def callOf (m : Machine) (st : List NamedPred) (c : Choice) : Option (Bytes × UInt32) :=
  if opens c.kind = true then some (frozenName m st c, frozenArity st c) else none

/-- The predicates asked for, each where it comes first. -/
def asked (m : Machine) (st : List NamedPred) (cs : List Choice) : List (Bytes × UInt32) :=
  (cs.filterMap (callOf m st)).foldl enter []

/-- What the backend's clauses of a predicate make. -/
def holdings (backend : Backend) (k : Bytes × UInt32) : List Entry :=
  match backend k.1 k.2 with
  | .ok made => made
  | .error _ => []

def slotOf (m : Machine) (k : Bytes × UInt32) : Slot :=
  { name := m.idOf (.plain k.1), arity := k.2, loaded := true }

/-- The store's predicates are the ones asked for, and all are read. -/
structure Listed (w : Work) (ks : List (Bytes × UInt32)) : Prop where
  preds : w.preds = ks.map (slotOf w.m)
  named : ∀ k ∈ ks, Atom.plain k.1 ∈ w.m.atoms

theorem Listed.grows {w : Work} {ks : List (Bytes × UInt32)} (listed : Listed w ks) {w' : Work}
    {made : List Entry} (grows : Grows w.m w'.m made) (same : w'.preds = w.preds) : Listed w' ks where
  preds := by
    rw [same, listed.preds]
    refine List.map_congr_left ?_
    intro k hk
    rw [slotOf, slotOf, grows.idOf (listed.named k hk)]
  named k hk := grows.atoms.subset (listed.named k hk)

theorem slot_test {w : Work} {ks : List (Bytes × UInt32)} (listed : Listed w ks) {k : Bytes × UInt32}
    (named : Atom.plain k.1 ∈ w.m.atoms) {k' : Bytes × UInt32} (mem : k' ∈ ks) :
    ((slotOf w.m k').name == w.m.idOf (.plain k.1) && (slotOf w.m k').arity == k.2) = true ↔ k' = k := by
  rw [Bool.and_eq_true, beq_iff_eq, beq_iff_eq]
  constructor
  · rintro ⟨id, arity⟩
    have name := congrArg Atom.name (idOf_inj (listed.named k' mem) id named)
    exact Prod.ext name arity
  · rintro rfl
    exact ⟨rfl, rfl⟩

/-- A predicate asked for before is there, and read. -/
theorem predEnsure_known {w : Work} {ks : List (Bytes × UInt32)} (listed : Listed w ks)
    {k : Bytes × UInt32} (named : Atom.plain k.1 ∈ w.m.atoms) (known : k ∈ ks) (name : Bytes) :
    predIntern w.preds (w.m.idOf (.plain k.1)) k.2 = w.preds ∧
      predEnsure backend w (predIndex w.preds (w.m.idOf (.plain k.1)) k.2) name k.2 = .ok w := by
  have there : (w.preds.any fun s => s.name == w.m.idOf (.plain k.1) && s.arity == k.2) = true := by
    rw [List.any_eq_true]
    refine ⟨slotOf w.m k, ?_, (slot_test listed named known).mpr rfl⟩
    rw [listed.preds]
    exact List.mem_map_of_mem known
  have inside : predIndex w.preds (w.m.idOf (.plain k.1)) k.2 < w.preds.length := by
    rw [List.any_eq_true] at there
    exact List.findIdx_lt_length.mpr there
  refine ⟨if_pos there, ?_⟩
  have slot := List.getElem?_eq_getElem inside
  have loaded : (w.preds[predIndex w.preds (w.m.idOf (.plain k.1)) k.2]).loaded = true := by
    have mem := List.getElem_mem inside
    conv at mem => arg 1; rw [listed.preds]
    obtain ⟨k', -, eq⟩ := List.mem_map.mp mem
    rw [← eq]
    rfl
  rw [predEnsure, slot]
  exact if_pos loaded

/-- A predicate asked for the first time is made at the end and its clauses read. -/
theorem predEnsure_new {w : Work} {ks : List (Bytes × UInt32)} (listed : Listed w ks)
    {k : Bytes × UInt32} (named : Atom.plain k.1 ∈ w.m.atoms) (new : k ∉ ks) {made : List Entry}
    (answer : backend k.1 k.2 = .ok made) :
    predEnsure backend { w with preds := predIntern w.preds (w.m.idOf (.plain k.1)) k.2 }
        (predIndex (predIntern w.preds (w.m.idOf (.plain k.1)) k.2) (w.m.idOf (.plain k.1)) k.2) k.1 k.2 =
      .ok { w with m := made.foldl Machine.make w.m, preds := w.preds ++ [slotOf w.m k] } := by
  have absent : ∀ s ∈ w.preds, (s.name == w.m.idOf (.plain k.1) && s.arity == k.2) = false := by
    rw [listed.preds]
    intro s hs
    obtain ⟨k', mem, rfl⟩ := List.mem_map.mp hs
    have test := slot_test listed named mem
    exact Bool.eq_false_iff.mpr fun yes => new (test.mp yes ▸ mem)
  have none_ : (w.preds.any fun s => s.name == w.m.idOf (.plain k.1) && s.arity == k.2) = false := by
    rw [List.any_eq_false]
    intro s hs
    rw [absent s hs]
    exact Bool.false_ne_true
  have fresh : predIntern w.preds (w.m.idOf (.plain k.1)) k.2 =
      w.preds ++ [{ name := w.m.idOf (.plain k.1), arity := k.2 }] :=
    if_neg (by rw [none_]; exact Bool.false_ne_true)
  have last : predIndex (w.preds ++ [{ name := w.m.idOf (.plain k.1), arity := k.2 }])
      (w.m.idOf (.plain k.1)) k.2 = w.preds.length := by
    rw [predIndex, List.findIdx_append, List.findIdx_eq_length.mpr absent]
    simp
  rw [fresh, last, predEnsure]
  simp [answer, Except.map, slotOf]

theorem restorePred_spec {w : Work} {ks : List (Bytes × UInt32)} (listed : Listed w ks)
    {k : Bytes × UInt32} (text : cString k.1 = k.1) {made : List Entry}
    (answer : backend k.1 k.2 = .ok made) :
    ∃ w' i, restorePred backend w k.1 k.2 = .ok (w', i) ∧ w'.e = w.e ∧
      Grows w.m w'.m (if k ∈ ks then [] else made) ∧ Listed w' (enter ks k) := by
  have grows := Grows.internH w.m (.plain k.1)
  have listed' : Listed { w with m := w.m.internH (.plain k.1) } ks := listed.grows grows rfl
  have named := mem_internH w.m (.plain k.1)
  unfold restorePred
  simp only [text]
  by_cases known : k ∈ ks
  · obtain ⟨same, done⟩ := @predEnsure_known backend _ ks listed' k named known k.1
    dsimp only at same done
    rw [same, done, if_pos known, enter, if_pos known]
    exact ⟨_, _, rfl, rfl, grows, listed'⟩
  · have done := predEnsure_new listed' named known answer
    dsimp only at done
    rw [done, if_neg known, enter, if_neg known]
    have after := grows.trans (Grows.foldl_make (w.m.internH (.plain k.1)) made)
    refine ⟨_, _, rfl, rfl, after, ?_⟩
    have still := Grows.foldl_make (w.m.internH (.plain k.1)) made
    have front := @Listed.grows _ ks listed'
      { w with m := made.foldl Machine.make (w.m.internH (.plain k.1)) } made still rfl
    refine ⟨?_, ?_⟩
    · rw [List.map_append, ← front.preds]
      simp only [List.map_cons, List.map_nil, slotOf, still.idOf named]
    · intro k' mem
      rcases List.mem_append.mp mem with old | new
      · exact front.named k' old
      · rw [List.mem_singleton.mp new]
        exact still.atoms.subset named

/- Frames. -/

/-- A frame as it is restored: its predicate is the new store's, and the end of a call is not
settled yet. -/
def restoredFrame (st : List NamedPred) (c : Choice) (pred : UInt64) : Choice :=
  { frozenFrame st c with pred := pred, cend := if opens c.kind = true then unsettled else 0 }

/-- The engine but for its frames. -/
def Engine.counters (e : Engine) :
    UInt64 × UInt64 × UInt64 × UInt64 × Int32 × Int32 × UInt64 × UInt64 :=
  (e.goals, e.query, e.steps, e.maxSteps, e.resume, e.halted, e.frees, e.maxInf)

theorem pushFrame_spec (w : Work) (c : Choice) :
    Grows w.m (pushFrame w c).m [] ∧ (pushFrame w c).preds = w.preds ∧
      (pushFrame w c).e.choices = w.e.choices ++ [c] ∧ (pushFrame w c).e.counters = w.e.counters := by
  unfold pushFrame
  split
  · refine ⟨Grows.internH w.m sccFail, rfl, ?_, ?_⟩
    · dsimp only
      split <;> rfl
    · dsimp only
      split <;> rfl
  · exact ⟨Grows.refl w.m, rfl, rfl, rfl⟩

/-- The keys after a frame. -/
def noteCall (ks : List (Bytes × UInt32)) : Option (Bytes × UInt32) → List (Bytes × UInt32)
  | some k => enter ks k
  | none => ks

theorem restoreStep_spec {w : Work} {ks : List (Bytes × UInt32)} (listed : Listed w ks) {c : Choice}
    (answers : opens c.kind = true → ∃ made, backend (frozenName m st c) (frozenArity st c) = .ok made) :
    let w' := restoreStep backend m st w c
    Listed w' (noteCall ks (callOf m st c)) ∧
      Grows w.m w'.m (((noteCall ks (callOf m st c)).drop ks.length).flatMap (holdings backend)) ∧
      (∃ p, w'.e.choices = w.e.choices ++ [restoredFrame st c p]) ∧ w'.e.counters = w.e.counters := by
  intro w'
  have done := choiceRestore_ok answers w
  by_cases open_ : opens c.kind = true
  · obtain ⟨made, answer⟩ := answers open_
    have call : callOf m st c = some (frozenName m st c, frozenArity st c) := if_pos open_
    have all : holdings backend (frozenName m st c, frozenArity st c) = made := by rw [holdings, answer]
    obtain ⟨v, i, ran, engine, grows, listed'⟩ :=
      @restorePred_spec backend w ks listed (frozenName m st c, frozenArity st c)
        (cString_frozenName m st c) made answer
    dsimp only at ran
    rw [choiceRestore, if_pos (show opens (frozenFrame st c).kind = true from open_), ran] at done
    have frame : restoreStep backend m st w c = pushFrame v (restoredFrame st c i) := by
      rw [restoredFrame, if_pos open_]
      exact (Except.ok.inj done).symm
    obtain ⟨pushed, preds, frames, counters⟩ := pushFrame_spec v (restoredFrame st c i)
    rw [show w' = _ from frame, call]
    refine ⟨listed'.grows pushed preds, ?_, ⟨i, by rw [frames, engine]⟩, by rw [counters, engine]⟩
    have both := grows.trans pushed
    rw [List.append_nil] at both
    rw [noteCall, enter]
    split
    · rename_i known
      rw [if_pos known] at both
      simpa using both
    · rename_i new
      rw [if_neg new] at both
      simpa [all] using both
  · have call : callOf m st c = none := if_neg open_
    rw [choiceRestore, if_neg (show ¬ opens (frozenFrame st c).kind = true from open_)] at done
    have frame : restoreStep backend m st w c = pushFrame w (frozenFrame st c) := (Except.ok.inj done).symm
    obtain ⟨pushed, preds, frames, counters⟩ := pushFrame_spec w (frozenFrame st c)
    rw [show w' = _ from frame, call]
    refine ⟨listed.grows pushed preds, by simpa [noteCall] using pushed, ⟨0, ?_⟩, counters⟩
    rw [frames, restoredFrame, if_neg open_]
    rfl

theorem prefix_foldl_enter {α : Type} [DecidableEq α] (ks calls : List α) :
    ks <+: calls.foldl enter ks := by
  induction calls generalizing ks with
  | nil => exact List.prefix_rfl
  | cons k calls ih => exact (prefix_enter ks k).trans (ih (enter ks k))

/-- Every frame restored, one after another. -/
theorem restore_spec {cs : List Choice} (answers : Answers backend m st cs) (w : Work)
    {ks : List (Bytes × UInt32)} (listed : Listed w ks) :
    let w' := cs.foldl (restoreStep backend m st) w
    Grows w.m w'.m ((((cs.filterMap (callOf m st)).foldl enter ks).drop ks.length).flatMap
        (holdings backend)) ∧
      (∃ fs, w'.e.choices = w.e.choices ++ fs ∧
        List.Forall₂ (fun c f => ∃ p, f = restoredFrame st c p) cs fs) ∧
      w'.e.counters = w.e.counters := by
  induction cs generalizing w ks with
  | nil =>
    refine ⟨?_, ⟨[], by simp, .nil⟩, rfl⟩
    simpa using Grows.refl w.m
  | cons c cs ih =>
    obtain ⟨listed', grows, ⟨p, frame⟩, counters⟩ := restoreStep_spec listed (answers c (by simp))
    obtain ⟨later, ⟨fs, frames, each⟩, counters'⟩ :=
      ih (fun c' mem => answers c' (by simp [mem])) (restoreStep backend m st w c) listed'
    have keys : ((c :: cs).filterMap (callOf m st)).foldl enter ks =
        (cs.filterMap (callOf m st)).foldl enter (noteCall ks (callOf m st c)) := by
      cases call : callOf m st c with
      | none => rw [List.filterMap_cons_none call]; rfl
      | some k => rw [List.filterMap_cons_some call]; rfl
    have front : ks <+: noteCall ks (callOf m st c) := by
      cases callOf m st c with
      | none => exact List.prefix_rfl
      | some k => exact prefix_enter ks k
    have drop : ((cs.filterMap (callOf m st)).foldl enter (noteCall ks (callOf m st c))).drop ks.length =
        (noteCall ks (callOf m st c)).drop ks.length ++
          ((cs.filterMap (callOf m st)).foldl enter (noteCall ks (callOf m st c))).drop
            (noteCall ks (callOf m st c)).length := by
      obtain ⟨t, eq⟩ := prefix_foldl_enter (noteCall ks (callOf m st c)) (cs.filterMap (callOf m st))
      rw [← eq, List.drop_left, List.drop_append_of_le_length front.length_le]
    refine ⟨?_, ⟨restoredFrame st c p :: fs, ?_, .cons ⟨p, rfl⟩ each⟩, counters'.trans counters⟩
    · rw [keys, drop, List.flatMap_append]
      exact grows.trans later
    · rw [List.foldl_cons, frames, frame, List.append_assoc, List.singleton_append]

end

end Cocolog.State
