import Cocolog.State.RoundTrip
import Cocolog.Term.Cell

/-! What the terms of a thawed machine stand for. Its cells are the words they were, so a
term is what it was where every boxed cell it reaches names the entry it named; the image has
no section for the strings nor for `double_quotes`, and reading an open call's clauses may
box values before the image's own. -/

set_option linter.all false

namespace Cocolog.State

open Cocolog.Lib.Wire Cocolog.Store

/-- A word by its tag. -/
def cellOf (w : UInt64) : Term.Cell :=
  let p := (w >>> 4).toNat
  match (w &&& 15).toNat with
  | 0 => .ref p
  | 1 => .atom p
  | 2 => .int (w.toInt64 >>> 4).toInt
  | 3 => .func p
  | 4 => .flt p
  | 5 => .str p
  | 7 => .big p
  | 8 => .rat p
  | _ => .pos p

/-- What a node of a term is, with every table read. -/
inductive Value where
  | var (cell : Nat)
  | atom (a : Atom)
  | int (i : Int)
  | func (name : Atom) (arity : UInt32)
  | float (bits : UInt64)
  | string (bytes : Bytes)
  | big (v : Int64)
  | rat (n d : Int64)
deriving DecidableEq

namespace Machine

/-- The heap, a cell past its end being unbound. -/
def mem (m : Machine) : Term.Mem := fun i => m.heap[i]?.elim (.ref i) cellOf

/-- The value at a cell; none for an entry that is not there. -/
def value (m : Machine) (i : Nat) : Term.Cell → Option Value
  | .ref _ => some (.var i)
  | .atom a => m.atoms[a]?.map .atom
  | .int v => some (.int v)
  | .func f => m.functors[f]?.bind fun g => m.atoms[g.name.toNat]?.map fun a => .func a g.arity
  | .flt k => m.floats[k]?.map .float
  | .str k => m.strings[k]?.map .string
  | .pos _ => none
  | .big k => m.bigs[k]?.map .big
  | .rat k => m.rats[k]?.map fun r => .rat r.1 r.2

/-- `coco_arity` of a functor. -/
def arity (m : Machine) (f : Nat) : Nat := m.functors[f]?.elim 0 fun g => g.arity.toNat

/-- The cell a path down the term at `t` leads to. -/
def cellAt (m : Machine) (t : Nat) : List Nat → Option Nat
  | [] => some (Term.deref m.mem m.heap.length t)
  | k :: path =>
    let d := Term.deref m.mem m.heap.length t
    match m.mem d with
    | .func f => if k < m.arity f then m.cellAt (d + 1 + k) path else none
    | _ => none

/-- The term at a cell, as what stands at each path. -/
def term (m : Machine) (t : Nat) (path : List Nat) : Option Value :=
  (m.cellAt t path).bind fun i => m.value i (m.mem i)

/-- An index inside the tables. -/
def Inside (m : Machine) : Term.Cell → Prop
  | .atom a => a < m.atoms.length
  | .func f => ∃ g, m.functors[f]? = some g ∧ g.name.toNat < m.atoms.length
  | .flt k => k < m.floats.length
  | .str k => k < m.strings.length
  | .big k => k < m.bigs.length
  | .rat k => k < m.rats.length
  | _ => True

/-- Every cell names an entry that is there, and the flags have values they can have. -/
structure Sound (m : Machine) : Prop where
  inside : ∀ w ∈ m.heap, m.Inside (cellOf w)
  units : m.textChars = 0 ∨ m.textChars = 1
  flags : m.fflags &&& 15 = m.fflags

end Machine

/-- Where the terms of a proof start: the goals, the query, and each frame's goals and call. -/
def Engine.roots (e : Engine) : List Nat :=
  e.goals.toNat :: e.query.toNat :: e.choices.flatMap fun c => [c.goals.toNat, c.call.toNat]

/-- The proof goes on as it was: from the same roots the same terms, under the same flags. -/
structure SameProof (m : Machine) (e : Engine) (t : Thawed) : Prop where
  roots : t.e.roots = e.roots
  terms : ∀ r ∈ e.roots, t.m.term r = m.term r
  doubleQuotes : t.m.doubleQuotes = m.doubleQuotes
  textChars : t.m.textChars = m.textChars
  fflags : t.m.fflags = m.fflags

section

variable {m m' : Machine}

theorem inside_mem (sound : m.Sound) (i : Nat) : m.Inside (m.mem i) := by
  unfold Machine.mem
  cases at_ : m.heap[i]? with
  | none => exact trivial
  | some w => exact sound.inside w (List.mem_of_getElem? at_)

theorem getElem?_of_prefixed {α : Type} {l l' : List α} (front : l <+: l') {i : Nat} (lt : i < l.length) :
    l'[i]? = l[i]? := by
  obtain ⟨t, rfl⟩ := front
  exact List.getElem?_append_left lt

/-- A machine with the same heap, and the names and floats where they were. -/
structure Over (m m' : Machine) : Prop where
  heap : m'.heap = m.heap
  atoms : m.atoms <+: m'.atoms
  functors : m.functors <+: m'.functors
  floats : m.floats <+: m'.floats

theorem Over.arity (over_ : Over m m') {f : Nat} (inside : m.Inside (.func f)) :
    m'.arity f = m.arity f := by
  obtain ⟨g, at_, -⟩ := inside
  have lt := (List.getElem?_eq_some_iff.mp at_).1
  rw [Machine.arity, Machine.arity, getElem?_of_prefixed over_.functors lt]

theorem Over.mem (over_ : Over m m') : m'.mem = m.mem := by
  funext i
  rw [Machine.mem, Machine.mem, over_.heap]

theorem Over.cellAt (over_ : Over m m') (sound : m.Sound) (t : Nat) (path : List Nat) :
    m'.cellAt t path = m.cellAt t path := by
  induction path generalizing t with
  | nil => rw [Machine.cellAt, Machine.cellAt, over_.mem, over_.heap]
  | cons k path ih =>
    rw [Machine.cellAt, Machine.cellAt, over_.mem, over_.heap]
    have inside := inside_mem sound (Term.deref m.mem m.heap.length t)
    split
    · rename_i f held
      rw [held] at inside
      rw [over_.arity inside, ih]
    · rfl

/-- A boxed cell names the value it named. -/
def Boxed (m m' : Machine) : Term.Cell → Prop
  | .str k => m'.strings[k]? = m.strings[k]?
  | .big k => m'.bigs[k]? = m.bigs[k]?
  | .rat k => m'.rats[k]? = m.rats[k]?
  | _ => True

theorem map_eq_iff {α β : Type} {g : α → β} (inj : Function.Injective g) {o o' : Option α} :
    o.map g = o'.map g ↔ o = o' :=
  (Option.map_injective inj).eq_iff

theorem Over.value_iff (over_ : Over m m') {c : Term.Cell} (inside : m.Inside c) (i : Nat) :
    m'.value i c = m.value i c ↔ Boxed m m' c := by
  cases c with
  | ref p => exact ⟨fun _ => trivial, fun _ => rfl⟩
  | int v => exact ⟨fun _ => trivial, fun _ => rfl⟩
  | pos w => exact ⟨fun _ => trivial, fun _ => rfl⟩
  | atom a =>
    refine ⟨fun _ => trivial, fun _ => ?_⟩
    rw [Machine.value, Machine.value, getElem?_of_prefixed over_.atoms inside]
  | func f =>
    obtain ⟨g, at_, named⟩ := inside
    refine ⟨fun _ => trivial, fun _ => ?_⟩
    have lt := (List.getElem?_eq_some_iff.mp at_).1
    rw [Machine.value, Machine.value, getElem?_of_prefixed over_.functors lt, at_, Option.bind_some,
      Option.bind_some, getElem?_of_prefixed over_.atoms named]
  | flt k =>
    refine ⟨fun _ => trivial, fun _ => ?_⟩
    rw [Machine.value, Machine.value, getElem?_of_prefixed over_.floats inside]
  | str k => exact map_eq_iff fun _ _ same => by injection same
  | big k => exact map_eq_iff fun _ _ same => by injection same
  | rat k =>
    refine map_eq_iff fun r r' same => ?_
    injection same with n d
    exact Prod.ext n d

/-- The terms at some roots are the same where every boxed cell they reach is. -/
theorem Over.terms_iff (over_ : Over m m') (sound : m.Sound) (roots : List Nat) :
    (∀ r ∈ roots, m'.term r = m.term r) ↔
      ∀ r ∈ roots, ∀ path i, m.cellAt r path = some i → Boxed m m' (m.mem i) := by
  constructor
  · intro same r hr path i at_
    have here := congrFun (same r hr) path
    rw [Machine.term, Machine.term, over_.cellAt sound, at_, Option.bind_some, Option.bind_some,
      over_.mem] at here
    exact (over_.value_iff (inside_mem sound i) i).mp here
  · intro boxed r hr
    funext path
    rw [Machine.term, Machine.term, over_.cellAt sound, over_.mem]
    cases at_ : m.cellAt r path with
    | none => rfl
    | some i => exact (over_.value_iff (inside_mem sound i) i).mpr (boxed r hr path i at_)

end

section

variable {showDouble : UInt64 → Bytes} {strtod : Bytes → UInt64 × Nat} {backend : Backend}
  {m : Machine} {e : Engine} {ops : List OpDef} {st : List NamedPred}

/-- What a boxed cell needs to come back: `made` is what reading the open calls' clauses
boxed before it. -/
def BoxKept (made : List Entry) (m : Machine) : Term.Cell → Prop
  | .str k => (made.filterMap Entry.string?)[k]? = m.strings[k]?
  | .big k => (made.filterMap Entry.big? ++ m.bigs)[k]? = m.bigs[k]?
  | .rat k => (made.filterMap Entry.rat? ++ m.rats)[k]? = m.rats[k]?
  | _ => True

/-- The flag is at its default, and no cell the proof reaches is a string, or a boxed number
that the clauses of the open calls displace. -/
structure Kept (backend : Backend) (m : Machine) (e : Engine) (st : List NamedPred) : Prop where
  codes : m.doubleQuotes = 0
  boxes : ∀ r ∈ e.roots, ∀ path i, m.cellAt r path = some i →
    BoxKept ((asked m st e.choices).flatMap (holdings backend)) m (m.mem i)

theorem roots_restored {cs fs : List Choice}
    (each : List.Forall₂ (fun c f => ∃ p, f = restoredFrame st c p) cs fs) :
    ((List.zipWith settle (cs.map (frozenEnd st)) fs).flatMap fun c => [c.goals.toNat, c.call.toNat]) =
      cs.flatMap fun c => [c.goals.toNat, c.call.toNat] := by
  induction each with
  | nil => rfl
  | @cons c f _ _ frame _ ih =>
    obtain ⟨p, rfl⟩ := frame
    have goals : (settle (frozenEnd st c) (restoredFrame st c p)).goals = c.goals := by
      unfold settle
      split <;> rfl
    have call : (settle (frozenEnd st c) (restoredFrame st c p)).call = c.call := by
      unfold settle
      split <;> rfl
    rw [List.map_cons, List.zipWith_cons_cons, List.flatMap_cons, List.flatMap_cons, ih, goals, call]

theorem boxed_iff {m' : Machine} {made : List Entry}
    (strings : m'.strings = made.filterMap Entry.string?)
    (bigs : m'.bigs = made.filterMap Entry.big? ++ m.bigs)
    (rats : m'.rats = made.filterMap Entry.rat? ++ m.rats) (c : Term.Cell) :
    Boxed m m' c ↔ BoxKept made m c := by
  cases c with
  | str k => rw [Boxed, BoxKept, strings]
  | big k => rw [Boxed, BoxKept, bigs]
  | rat k => rw [Boxed, BoxKept, rats]
  | _ => exact Iff.rfl

theorem units_kept (sound : m.Sound) : (if wide m.textChars = 0 then (0 : Int32) else 1) = m.textChars := by
  rcases sound.units with zero | one
  · rw [zero]
    rfl
  · rw [one]
    rfl

/-- A machine thawed from its image goes on with the terms and flags it had exactly where
nothing it reaches is missing from the image or displaced. -/
theorem frozen_proof_iff (frozen : Frozen showDouble strtod backend m e ops st) (sound : m.Sound)
    (voc : Vocabulary) (ops' : List OpDef) :
    ∃ t, thaw strtod backend voc ops' (freezeImage showDouble m e ops st) = .ok t ∧
      (SameProof m e t ↔ Kept backend m e st) := by
  obtain ⟨grows, frames, counters⟩ := restored_spec frozen.answers
  have filled := Grows.idsFill voc (rebuilt backend m e ops st).m
  refine ⟨_, thaw_image frozen ops', ?_⟩
  have over_ : Over m ((rebuilt backend m e ops st).m.idsFill voc) :=
    ⟨filled.heap.trans grows.heap, grows.atoms.trans filled.atoms,
      grows.functors.trans filled.functors, grows.floats.trans filled.floats⟩
  have strings := (filled.strings.trans (List.append_nil _)).trans grows.strings
  have bigs := (filled.bigs.trans (List.append_nil _)).trans (congrArg (· ++ m.bigs) grows.bigs)
  have rats := (filled.rats.trans (List.append_nil _)).trans (congrArg (· ++ m.rats) grows.rats)
  have boxed := boxed_iff strings bigs rats
  have terms := over_.terms_iff sound e.roots
  simp only [boxed] at terms
  have quotes := filled.doubleQuotes.trans grows.doubleQuotes
  constructor
  · intro same
    exact ⟨same.doubleQuotes.symm.trans quotes, terms.mp same.terms⟩
  · intro kept
    simp only [Engine.counters, Prod.mk.injEq] at counters
    exact {
      roots := by
        simp only [Engine.roots, rebuilt, counters.1, counters.2.1, roots_restored frames]
      terms := terms.mpr kept.boxes
      doubleQuotes := quotes.trans kept.codes.symm
      textChars := filled.textChars.trans (units_kept sound)
      fflags := filled.fflags.trans sound.flags }

end

theorem sample_proof_iff : ∃ t,
    thaw readOne oneAtom ⟨[brackets], []⟩ [] (freezeImage showOne sampleMachine sampleEngine sampleOps sampleStore) =
      .ok t ∧ (SameProof sampleMachine sampleEngine t ↔ Kept oneAtom sampleMachine sampleEngine sampleStore) :=
  frozen_proof_iff sample_frozen
    ⟨by
      intro w hw
      simp only [sampleMachine, List.mem_cons, List.not_mem_nil, or_false] at hw
      rcases hw with rfl | rfl | rfl
      · exact trivial
      · exact (by decide : 0 < 1)
      · exact trivial, .inr rfl, rfl⟩ _ _

/-- A query that is the string `"hi"`. -/
def stringMachine : Machine where
  atoms := [nil]
  strings := [[104, 105]]
  heap := [5]

theorem string_frozen : Frozen showOne readOne noBackend stringMachine {} [] [] where
  machine := by constructor <;> decide
  doubles := by simp [stringMachine]
  frames_size := by decide
  operators := ⟨by simp, .nil⟩
  ops_size := by decide
  op_names_size := by simp
  answers := fun _ _ _ => ⟨_, rfl⟩

theorem string_is_lost : ∃ t,
    thaw readOne noBackend ⟨[brackets], []⟩ [] (freezeImage showOne stringMachine {} [] []) = .ok t ∧
      ¬ SameProof stringMachine {} t := by
  refine ⟨_, thaw_image string_frozen [], ?_⟩
  intro same
  have here := congrFun (same.terms 0 (by decide)) []
  revert here
  decide

/- Without a backend the condition is the flag and the strings. -/

theorem asked_noBackend (ks : List (Bytes × UInt32)) : ks.flatMap (holdings noBackend) = [] :=
  List.flatMap_eq_nil_iff.mpr fun _ _ => rfl

theorem kept_noBackend {m : Machine} {e : Engine} {st : List NamedPred} (sound : m.Sound) :
    Kept noBackend m e st ↔ m.doubleQuotes = 0 ∧
      ∀ r ∈ e.roots, ∀ path i, m.cellAt r path = some i → ∀ k, m.mem i ≠ .str k := by
  have none_ : ∀ i, BoxKept [] m (m.mem i) ↔ ∀ k, m.mem i ≠ .str k := by
    intro i
    have inside := inside_mem sound i
    cases held : m.mem i with
    | str k =>
      rw [held] at inside
      have there := List.getElem?_eq_getElem inside
      constructor
      · intro kept
        rw [BoxKept, there] at kept
        cases kept
      · intro other
        exact absurd rfl (other k)
    | big k => exact ⟨fun _ _ => by simp, fun _ => rfl⟩
    | rat k => exact ⟨fun _ _ => by simp, fun _ => rfl⟩
    | _ => exact ⟨fun _ _ => by simp, fun _ => trivial⟩
  constructor
  · rintro ⟨codes, boxes⟩
    rw [asked_noBackend] at boxes
    exact ⟨codes, fun r hr path i at_ => (none_ i).mp (boxes r hr path i at_)⟩
  · rintro ⟨codes, strings⟩
    refine ⟨codes, ?_⟩
    rw [asked_noBackend]
    exact fun r hr path i at_ => (none_ i).mpr (strings r hr path i at_)

end Cocolog.State
