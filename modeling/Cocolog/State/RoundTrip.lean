import Cocolog.State.Restore

/-! The whole image read back. A machine whose tables are as interning leaves them comes back
table for table and word for word, and every frame by its numbers. -/

set_option linter.all false

namespace Cocolog.State

open Cocolog.Lib.Wire Cocolog.Store

/-- A machine as the engine leaves it: an atom and a functor have one entry each, the list's
end is among the atoms (`coco_freeze` fills in the vocabulary first), and lengths are
`size_t`s. -/
structure Machine.Ok (m : Machine) : Prop where
  atoms_apart : m.atoms.Nodup
  ended : nil ∈ m.atoms
  functors_apart : m.functors.Nodup
  atoms_size : m.atoms.length < 2 ^ 64
  names_size : ∀ a ∈ m.atoms, a.name.length < 2 ^ 64
  functors_size : m.functors.length < 2 ^ 64
  floats_size : m.floats.length < 2 ^ 64
  bigs_size : m.bigs.length < 2 ^ 64
  rats_size : m.rats.length < 2 ^ 64
  heap_size : m.heap.length < 2 ^ 64
  trail_size : m.trail.length < 2 ^ 64

section

variable {showDouble : UInt64 → Bytes} {strtod : Bytes → UInt64 × Nat} {backend : Backend}
  {voc : Vocabulary} {m : Machine} {e : Engine} {ops : List OpDef} {st : List NamedPred}

/-- What a freeze and a thaw take for granted. -/
structure Frozen (showDouble : UInt64 → Bytes) (strtod : Bytes → UInt64 × Nat) (backend : Backend)
    (m : Machine) (e : Engine) (ops : List OpDef) (st : List NamedPred) : Prop where
  machine : m.Ok
  doubles : ∀ d ∈ m.floats, RoundTrips showDouble strtod d
  frames_size : e.choices.length < 2 ^ 64
  operators : OpsOk ops
  ops_size : ops.length < 2 ^ 64
  op_names_size : ∀ o ∈ ops, o.name.length < 2 ^ 64
  answers : Answers backend m st e.choices

theorem frozenName_size (ok : m.Ok) (c : Choice) : (frozenName m st c).length < 2 ^ 64 := by
  unfold frozenName
  split
  · refine Nat.lt_of_le_of_lt (List.takeWhile_sublist _).length_le ?_
    unfold Machine.atomName
    split
    · rename_i a at_
      exact ok.names_size a (List.mem_of_getElem? at_)
    · exact (by decide : 10 < 2 ^ 64)
  · exact (by decide : 0 < 2 ^ 64)

/- No byte of an image is zero. -/

theorem digit_ne_zero {d : Nat} (lt : d < 16) : digit d ≠ 0 := by
  have all : ∀ d : Fin 16, digit d ≠ 0 := by decide
  exact all ⟨d, lt⟩

theorem zero_notMem_numeral {base : Nat} (two : 1 < base) (small : base ≤ 16) (n : Nat) :
    0 ∉ numeral base n := by
  unfold numeral
  split
  · decide
  · intro mem
    obtain ⟨d, hd, eq⟩ := List.mem_map.mp mem
    have lt := Nat.digits_lt_base two (List.mem_reverse.mp hd)
    exact digit_ne_zero (by omega) eq

@[simp] theorem zero_notMem_putSz (v : UInt64) : 0 ∉ putSz v :=
  zero_notMem_numeral (by decide) (by decide) _

@[simp] theorem zero_notMem_putHex (v : UInt64) : 0 ∉ putHex v :=
  zero_notMem_numeral (by decide) (by decide) _

@[simp] theorem zero_notMem_count (n : Nat) : 0 ∉ numeral 10 n :=
  zero_notMem_numeral (by decide) (by decide) _

@[simp] theorem zero_notMem_nameText (name : Bytes) : 0 ∉ nameText name := by
  have bytes : 0 ∉ name.flatMap hexByte := by
    intro mem
    obtain ⟨c, -, hc⟩ := List.mem_flatMap.mp mem
    have lt := c.toNat_lt
    rcases List.mem_cons.mp hc with hi | lo
    · exact digit_ne_zero (by omega) hi.symm
    · exact digit_ne_zero (by omega) (List.mem_singleton.mp lo).symm
  simp [nameText, bytes]

theorem zero_notMem_wordLines {put : UInt64 → Bytes} (plain : ∀ v, 0 ∉ put v) (ws : List UInt64) :
    0 ∉ wordLines put ws := by
  have ends : ∀ i, lineEnd i ≠ 0 := by
    intro i
    unfold lineEnd
    split <;> decide
  simp only [wordLines, List.mem_append, List.mem_flatMap, List.mem_singleton, not_or, not_exists,
    not_and]
  exact ⟨fun p _ => ⟨plain p.1, (ends p.2).symm⟩, by decide⟩

theorem zero_notMem_image (doubles : ∀ d ∈ m.floats, RoundTrips showDouble strtod d) :
    0 ∉ freezeImage showDouble m e ops st := by
  have ends := zero_notMem_wordLines zero_notMem_putSz (e.choices.map (frozenEnd st))
  have heap := zero_notMem_wordLines zero_notMem_putHex m.heap
  have trail := zero_notMem_wordLines zero_notMem_putSz m.trail
  have floats : 0 ∉ m.floats.flatMap fun d => showDouble d ++ [10] := by
    intro mem
    obtain ⟨d, hd, h⟩ := List.mem_flatMap.mp mem
    rcases List.mem_append.mp h with text | line
    · exact (doubles d hd).2.1 text
    · revert line; decide
  have atoms : 0 ∉ freezeAtoms m := by
    have marks : ∀ q : Bool, (0 : UInt8) ∉ (if q = true then [32, 113] else []) := by decide
    simp [freezeAtoms, header, marks]
  have choices : ∀ c, 0 ∉ freezeChoice m st c := by
    intro c
    simp only [freezeChoice, freezeChoice_name]
    simp
  simp [freezeImage, atoms, choices, freezeFunctors, freezeFloats, floats, freezeHeap, heap, freezeTrail,
    trail, freezeEngine, freezeChoices, freezeOps, freezeFrees, freezeUnits, freezeBigs, freezeRats,
    freezeFlags, freezeEnds, ends, header]

/- The sections in a row. -/

theorem reads_version : Reads thawVersion [99, 111, 99, 111, 108, 111, 103, 32, 50, 10] 2 := by
  intro z rest at_
  obtain ⟨-, behind⟩ :=
    @reads_scanWord (Option String) 99 rfl [111, 99, 111, 108, 111, 103] z (32 :: 50 :: 10 :: rest) at_
  obtain ⟨two, behind'⟩ := (reads_sz 2 (c := 10) rfl).blank (c := 32) rfl _ rest behind
  unfold thawVersion
  revert behind two behind'
  rcases scanWord [99, 111, 99, 111, 108, 111, 103] z with ⟨u, z'⟩
  intro behind two behind'
  dsimp only at behind two behind' ⊢
  rw [if_neg (by rw [behind.2.1]; exact Bool.false_ne_true)]
  revert two behind'
  rcases (scanU64 10 : Reader UInt64) z' with ⟨v, z''⟩
  intro two behind'
  dsimp only at two behind' ⊢
  rw [two, if_neg (by decide)]
  exact ⟨rfl, behind'⟩

theorem reads_upgrade (m' : Machine) : Reads (thawUpgrade 2 m') [] m' := by
  intro z rest at_
  rw [thawUpgrade, if_neg (by simp)]
  exact ⟨rfl, at_⟩

/-- The atoms are read in front of the functors' letter. -/
theorem Reads.afterAtoms {β : Type} (ok : m.Ok) {f : Machine → Reader β} {u : Bytes} {b : β}
    (next : ∀ rest, (skip (u ++ rest)).head? = some 70)
    (reads : Reads (f { atoms := m.atoms }) u b) :
    Reads (thawAtoms {} >>= f) (freezeAtoms m ++ u) b := by
  rw [freezeAtoms_eq ok.atoms_apart ok.ended, List.append_assoc]
  have count := @reads_sectionCount 65 rfl _ ok.atoms_size
  intro z rest at_
  rw [List.append_assoc] at at_
  obtain ⟨value, behind⟩ := count z _ at_
  have lines := @thawAtom_lines m.atoms ok.names_size {} _ (u ++ rest)
    (by rwa [List.append_assoc] at behind) 70 (next rest) (by decide)
  have table := foldl_internH {} m.atoms
  rw [foldl_enter ok.atoms_apart] at table
  rw [table] at lines
  have run : (thawAtoms {} >>= f) z = (scanFor thawAtom (sectionCount 65 z).1.toNat {} >>= f)
      (sectionCount 65 z).2 := rfl
  rw [run, value, UInt64.toNat_ofNat_of_lt' ok.atoms_size]
  have then_ := reads _ rest lines.2
  rw [← lines.1] at then_
  exact then_

/-- The machine the frames are restored into. -/
def bare (m : Machine) : Machine :=
  { atoms := m.atoms, functors := m.functors, floats := m.floats, heap := m.heap, trail := m.trail }

/-- The work once every frame is restored. -/
def restored (backend : Backend) (m : Machine) (e : Engine) (st : List NamedPred) : Work :=
  e.choices.foldl (restoreStep backend m st)
    { m := bare m
      e := { goals := e.goals, query := e.query, steps := e.steps, maxSteps := e.maxSteps
             resume := e.resume, halted := e.halted } }

/-- What a thaw makes of an image, before it fills in the vocabulary. -/
def rebuilt (backend : Backend) (m : Machine) (e : Engine) (ops : List OpDef) (st : List NamedPred) :
    Thawed :=
  let w := restored backend m e st
  { m := { w.m with
      textChars := if wide m.textChars = 0 then 0 else 1
      bigs := w.m.bigs ++ m.bigs
      rats := w.m.rats ++ m.rats
      fflags := m.fflags &&& 15 }
    e := { w.e with
      frees := e.frees
      maxInf := e.maxInf
      choices := List.zipWith settle (e.choices.map (frozenEnd st)) w.e.choices }
    ops := ops
    preds := w.preds }

theorem restored_spec (answers : Answers backend m st e.choices) :
    Grows (bare m) (restored backend m e st).m ((asked m st e.choices).flatMap (holdings backend)) ∧
      List.Forall₂ (fun c f => ∃ p, f = restoredFrame st c p) e.choices
        (restored backend m e st).e.choices ∧
      (restored backend m e st).e.counters =
        (e.goals, e.query, e.steps, e.maxSteps, e.resume, e.halted, 0, 0) := by
  obtain ⟨grows, ⟨fs, frames, each⟩, counters⟩ := restore_spec answers
    { m := bare m
      e := { goals := e.goals, query := e.query, steps := e.steps, maxSteps := e.maxSteps
             resume := e.resume, halted := e.halted } } (⟨rfl, by simp⟩ : Listed _ [])
  rw [List.length_nil, List.drop_zero] at grows
  refine ⟨grows, ?_, counters⟩
  rw [restored, frames, List.nil_append]
  exact each

theorem functors_head (m : Machine) (s : Bytes) : (skip (freezeFunctors m ++ s)).head? = some 70 := by
  simp only [freezeFunctors, header, List.cons_append]
  rw [skip_solid rfl, List.head?_cons]

theorem reads_sections (frozen : Frozen showDouble strtod backend m e ops st) (ops' : List OpDef) :
    Reads (thawSections strtod backend ops') (freezeImage showDouble m e ops st)
      (rebuilt backend m e ops st) := by
  have ok := frozen.machine
  have same : e.choices.length = (restored backend m e st).e.choices.length :=
    (restored_spec frozen.answers).2.1.length_eq
  unfold thawSections freezeImage
  simp only [List.append_assoc]
  refine reads_version.bind (Reads.afterAtoms ok (fun rest => ?_) ?_)
  · rw [List.append_assoc]
    exact functors_head m _
  have functors := reads_functors ok.functors_size { atoms := m.atoms }
  rw [foldl_enter ok.functors_apart] at functors
  refine functors.bind ((reads_floats ok.floats_size frozen.doubles _).bind ?_)
  refine (reads_heap ok.heap_size _).bind ((reads_trail ok.trail_size _).bind ?_)
  refine (reads_engine e).bind ?_
  refine (reads_choices frozen.answers frozen.frames_size (fun c _ => frozenName_size ok c) _).bind ?_
  refine (reads_ops frozen.operators frozen.ops_size frozen.op_names_size ops').bind ?_
  refine (reads_frees e _).bind ((reads_units _).bind ?_)
  refine (reads_bigs ok.bigs_size _).bind ((reads_rats ok.rats_size _).bind ?_)
  refine (reads_upgrade _).before ((reads_flags _).bind ?_)
  have ends := @reads_ends st e frozen.frames_size
    { (restored backend m e st).e with frees := e.frees, maxInf := e.maxInf } same
  exact ends.map fun e' => { rebuilt backend m e ops st with e := e' }

theorem cString_of_plain {s : Bytes} (plain : 0 ∉ s) : cString s = s := by
  rw [cString, List.takeWhile_eq_self_iff]
  intro c hc
  exact bne_iff_ne.mpr fun zero => plain (zero ▸ hc)

theorem finish_good {z : Scan (Option String)} {s : Bytes} (at_ : z.At s) (len : Nat) (t : Thawed) :
    finish voc len t z = .ok { t with m := t.m.idsFill voc } := by
  rw [finish, at_.2.2, at_.2.1]
  rfl

/-- A frozen machine thaws to what its image says. -/
theorem thaw_image (frozen : Frozen showDouble strtod backend m e ops st) (ops' : List OpDef) :
    thaw strtod backend voc ops' (freezeImage showDouble m e ops st) =
      .ok { rebuilt backend m e ops st with m := (rebuilt backend m e ops st).m.idsFill voc } := by
  have text := cString_of_plain (@zero_notMem_image showDouble strtod m e ops st frozen.doubles)
  have all := reads_sections frozen ops' { rest := freezeImage showDouble m e ops st } []
  rw [List.append_nil] at all
  obtain ⟨value, behind⟩ := all ⟨rfl, rfl, rfl⟩
  unfold thaw
  rw [text]
  dsimp only
  rw [finish_good behind, value]

/- What comes back. -/

/-- The clauses the backend hands over for the open calls hold no integer past 60 bits and no
rational. -/
def Quiet (backend : Backend) (m : Machine) (st : List NamedPred) (cs : List Choice) : Prop :=
  ∀ k ∈ asked m st cs, ∀ e ∈ holdings backend k, e.big? = none ∧ e.rat? = none

theorem filterMap_quiet {β : Type} {g : Entry → Option β} {ks : List (Bytes × UInt32)}
    (none_ : ∀ k ∈ ks, ∀ e ∈ holdings backend k, g e = none) :
    (ks.flatMap (holdings backend)).filterMap g = [] := by
  rw [List.filterMap_eq_nil_iff]
  intro e mem
  obtain ⟨k, hk, he⟩ := List.mem_flatMap.mp mem
  exact none_ k hk e he

theorem Grows.idsFill (voc : Vocabulary) (m : Machine) : Grows m (m.idsFill voc) [] := by
  have names : ∀ (l : List Bytes) (m : Machine),
      Grows m (l.foldl (fun m name => m.internH (.plain name)) m) [] := by
    intro l
    induction l with
    | nil => exact Grows.refl
    | cons name l ih => exact fun m => (Grows.internH m _).trans (ih _)
  have functors : ∀ (l : List (Bytes × UInt32)) (m : Machine),
      Grows m (l.foldl (fun m f =>
        let m := m.internH (.plain f.1)
        m.functorId { name := UInt64.ofNat (m.idOf (.plain f.1)), arity := f.2 }) m) [] := by
    intro l
    induction l with
    | nil => exact Grows.refl
    | cons f l ih => exact fun m => ((Grows.internH m _).trans (Grows.functorId _ _)).trans (ih _)
  exact (names voc.names m).trans (functors voc.functors _)

/-- No clause of the store is dead. -/
def NoDead (st : List NamedPred) : Prop := ∀ np ∈ st, np.pred.ntomb = 0

theorem liveBefore_noDead (none_ : NoDead st) (i ix : Nat) :
    (st.getD i {}).pred.liveBefore ix = ix := by
  have alive : (st.getD i {}).pred.ntomb = 0 := by
    rw [List.getD_eq_getElem?_getD]
    cases at_ : st[i]? with
    | none => rfl
    | some np => exact none_ np (List.mem_of_getElem? at_)
  exact if_pos alive

/-- A frame by its numbers; a call's end is among them. -/
structure SameFrame (c f : Choice) : Prop where
  kind : f.kind = c.kind
  goals : f.goals = c.goals
  trailMark : f.trailMark = c.trailMark
  heapMark : f.heapMark = c.heapMark
  call : f.call = c.call
  clauseIx : f.clauseIx = c.clauseIx
  barrier : f.barrier = c.barrier
  cend : opens c.kind = true → f.cend = c.cend

/-- The end of a call is read back, settled or not. -/
theorem settle_end (none_ : NoDead st) {c : Choice} (open_ : opens c.kind = true) (p : UInt64) :
    (settle (frozenEnd st c) (restoredFrame st c p)).cend = c.cend := by
  have kind : opens (restoredFrame st c p).kind = true := open_
  by_cases last : c.cend = unsettled
  · have value : frozenEnd st c = 4294967295 := by
      rw [frozenEnd, if_neg (by rw [open_]; decide), if_pos last]
      rfl
    rw [settle, value, if_neg (fun both => absurd both.2 (by decide)), restoredFrame, if_pos open_, last]
  · have value : frozenEnd st c = UInt64.ofNat c.cend.toNat := by
      rw [frozenEnd, if_neg (by rw [open_]; decide), if_neg last, liveBefore_noDead none_]
    have below : UInt64.ofNat c.cend.toNat < 4294967295 := by
      have lt := c.cend.toNat_lt
      have apart : c.cend.toNat ≠ 4294967295 := fun eq => last (UInt32.toNat_inj.mp eq)
      rw [UInt64.lt_iff_toNat_lt, UInt64.toNat_ofNat_of_lt' (Nat.lt_trans lt (by decide))]
      exact Nat.lt_of_le_of_ne (Nat.le_of_lt_succ lt) apart
    rw [settle, value, if_pos ⟨kind, below⟩]
    exact (UInt64.toUInt32_ofNat' _).trans UInt32.ofNat_toNat

theorem sameFrame_restored (none_ : NoDead st) (c : Choice) (p : UInt64) :
    SameFrame c (settle (frozenEnd st c) (restoredFrame st c p)) := by
  have ix : frozenIx st c = c.clauseIx := by
    unfold frozenIx
    split
    · rw [liveBefore_noDead none_, UInt64.ofNat_toNat]
    · rfl
  have whole : settle (frozenEnd st c) (restoredFrame st c p) =
      { frozenFrame st c with
        pred := p, cend := (settle (frozenEnd st c) (restoredFrame st c p)).cend } := by
    unfold settle
    split <;> rfl
  have end_ := fun open_ => settle_end none_ (c := c) open_ p
  rw [whole]
  exact ⟨rfl, rfl, rfl, rfl, rfl, ix, rfl, end_⟩

/-- A machine and an engine rebuilt: the tables index for index, names added since behind
them, the heap and the trail word for word. -/
structure Rebuilt (m : Machine) (e : Engine) (ops : List OpDef) (t : Thawed) : Prop where
  atoms : m.atoms <+: t.m.atoms
  functors : m.functors <+: t.m.functors
  floats : m.floats <+: t.m.floats
  bigs : t.m.bigs = m.bigs
  rats : t.m.rats = m.rats
  heap : t.m.heap = m.heap
  trail : t.m.trail = m.trail
  ops : t.ops = ops
  counters : t.e.counters = e.counters
  frames : List.Forall₂ SameFrame e.choices t.e.choices

theorem forall₂_settle {cs fs : List Choice} (none_ : NoDead st)
    (each : List.Forall₂ (fun c f => ∃ p, f = restoredFrame st c p) cs fs) :
    List.Forall₂ SameFrame cs (List.zipWith settle (cs.map (frozenEnd st)) fs) := by
  induction each with
  | nil => exact .nil
  | cons frame _ ih =>
    obtain ⟨p, rfl⟩ := frame
    exact .cons (sameFrame_restored none_ _ p) ih

end

/- A machine with both atoms named `[]`, a boxed value of each kind the image has, a trailed
pair, and an open call between two other frames. -/

def sampleMachine : Machine where
  atoms := [nil, tnil, .plain [97, 0, 98], .plain [112]]
  functors := [⟨3, 2⟩, ⟨3, 0⟩]
  floats := [4607182418800017408]
  bigs := [-9223372036854775808]
  rats := [(1, 3)]
  heap := [18446744073709551615, 4, 0]
  trail := [1, 9223372036854775809, 9223372036854775810]
  textChars := 1

def sampleEngine : Engine where
  goals := 2
  steps := 12
  resume := -1
  choices := [{ kind := code .goal, goals := 1, call := 2 },
    { kind := code .clause, cend := 3, goals := 2, clauseIx := 1 }, { kind := code .spent, cend := 5 }]

def sampleOps : List OpDef := [⟨[43], 700, 0, 0⟩, ⟨[43], 200, 3, 1⟩]

def sampleStore : List NamedPred := [{ name := 3, arity := 1 }]

/-- The text of the double 1.0, and what is read from it. -/
def showOne : UInt64 → Bytes := fun _ => [49]

def readOne : Bytes → UInt64 × Nat
  | 49 :: _ => (4607182418800017408, 1)
  | _ => (0, 0)

/-- A knowledge base whose one clause names an atom. -/
def oneAtom : Backend := fun _ _ => .ok [.atom (.plain [121])]

theorem sample_frozen : Frozen showOne readOne oneAtom sampleMachine sampleEngine sampleOps sampleStore where
  machine := by constructor <;> decide
  doubles := by
    intro d hd
    rw [show d = 4607182418800017408 from List.mem_singleton.mp hd]
    exact ⟨⟨49, [], rfl, rfl⟩, by decide, fun _ => rfl⟩
  frames_size := by decide
  operators := ⟨by decide, by decide⟩
  ops_size := by decide
  op_names_size := by decide
  answers := fun _ _ _ => ⟨_, rfl⟩

end Cocolog.State
