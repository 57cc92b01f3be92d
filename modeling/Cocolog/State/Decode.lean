import Cocolog.State.Thaw
import Mathlib.Data.List.TakeWhile

/-! Each section read back from the text the freeze wrote for it. What comes out is what a
list of entries does one after another to the tables, and the tables that start empty come
out as they were. -/

set_option linter.all false

namespace Cocolog.State

open Cocolog.Lib.Wire Cocolog.Store

/- The readers of a thaw. -/

theorem reads_sz (v : UInt64) {c : UInt8} (h : blank c = true) :
    Reads (scanU64 10 : Reader UInt64) (putSz v ++ [c]) v :=
  reads_scanU64 (by decide) (by decide) v h

theorem reads_hex (v : UInt64) {c : UInt8} (h : blank c = true) :
    Reads (scanU64 16 : Reader UInt64) (putHex v ++ [c]) v :=
  reads_scanU64 (by decide) (by decide) v h

theorem reads_whenOk {p : Reader Unit} {t : Bytes} (reads : Reads p t ()) :
    Reads (whenOk p) t () := by
  intro z rest at_
  have runs : whenOk p z = p z := by simp [whenOk, at_.2.2]
  rw [runs]
  exact reads z rest at_

theorem reads_letter {β : Type} {tag : UInt8} (solid : blank tag = false) {f : Unit → Reader β}
    {u : Bytes} {b : β} (reads : Reads (f ()) u b) :
    Reads (whenOk (scanWord [tag]) >>= f) ([tag, 32] ++ u) b :=
  (reads_whenOk (reads_scanWord solid [])).bind (reads.blank rfl)

theorem reads_optional {α : Type} {tag : UInt8} (solid : blank tag = false) {a b : α} {p : Reader α}
    {t : Bytes} (reads : Reads p t b) : Reads (optional tag a p) ([tag, 32] ++ t) b := by
  intro z rest at_
  obtain ⟨there, behind⟩ := reads_scanSection solid z (32 :: t ++ rest) at_
  have runs : optional tag a p z = p (scanSection tag z).2 := by
    unfold optional
    rw [if_neg (by simp [at_.2.1, at_.2.2])]
    revert there
    rcases scanSection tag z with ⟨there, z'⟩
    intro there
    exact if_pos there
  rw [runs]
  exact reads.blank rfl _ rest behind

theorem reads_sz_bind {β : Type} (v : UInt64) {c : UInt8} (h : blank c = true) {f : UInt64 → Reader β}
    {u : Bytes} {b : β} (reads : Reads (f v) u b) :
    Reads (scanU64 10 >>= f) (putSz v ++ ([c] ++ u)) b := by
  rw [← List.append_assoc]
  exact (reads_sz v h).bind reads

theorem reads_hex_bind {β : Type} (v : UInt64) {c : UInt8} (h : blank c = true) {f : UInt64 → Reader β}
    {u : Bytes} {b : β} (reads : Reads (f v) u b) :
    Reads (scanU64 16 >>= f) (putHex v ++ ([c] ++ u)) b := by
  rw [← List.append_assoc]
  exact (reads_hex v h).bind reads

theorem reads_name_last {β : Type} {name : Bytes} (size : name.length < 2 ^ 64) {c : UInt8}
    (h : blank c = true) {f : Option Bytes → Reader β} {b : β} (reads : Reads (f (some name)) [] b) :
    Reads (scanName >>= f) (nameText name ++ [c]) b := by
  rw [← List.append_nil (nameText name ++ [c])]
  exact (reads_scanName size h).bind reads

theorem numeral_length {n : Nat} (size : n < 2 ^ 64) : numeral 10 n = putSz (UInt64.ofNat n) := by
  rw [putSz, UInt64.toNat_ofNat_of_lt' size]

theorem reads_sectionCount {tag : UInt8} (solid : blank tag = false) {n : Nat} (size : n < 2 ^ 64) :
    Reads (sectionCount tag) (header tag n) (UInt64.ofNat n) := by
  rw [header, List.append_assoc, numeral_length size]
  exact reads_letter solid (reads_sz _ rfl)

/-- A section of entries read one by one. -/
theorem reads_section {α γ : Type} (tag : UInt8) (solid : blank tag = false) {body : α → Reader α}
    {text : γ → Bytes} {step : α → γ → α} {xs : List γ} (size : xs.length < 2 ^ 64)
    (each : ∀ a, ∀ x ∈ xs, Reads (body a) (text x) (step a x)) (a : α) :
    Reads (sectionCount tag >>= fun n => scanFor body n.toNat a)
      (header tag xs.length ++ xs.flatMap text) (xs.foldl step a) := by
  refine (reads_sectionCount solid size).bind ?_
  rw [UInt64.toNat_ofNat_of_lt' size]
  exact reads_scanFor each a

/-- The same where older images have no such section. -/
theorem reads_optionalSection {α γ : Type} (tag : UInt8) (solid : blank tag = false)
    {body : α → Reader α} {text : γ → Bytes} {step : α → γ → α} {xs : List γ}
    (size : xs.length < 2 ^ 64) (each : ∀ a, ∀ x ∈ xs, Reads (body a) (text x) (step a x)) (a b : α) :
    Reads (optional tag b (scanU64 10 >>= fun n => scanFor body n.toNat a))
      (header tag xs.length ++ xs.flatMap text) (xs.foldl step a) := by
  rw [header, numeral_length size]
  simp only [List.append_assoc]
  refine reads_optional solid (reads_sz_bind _ rfl ?_)
  rw [UInt64.toNat_ofNat_of_lt' size]
  exact reads_scanFor each a

theorem blank_lineEnd (i : Nat) : blank (lineEnd i) = true := by
  unfold lineEnd
  split <;> rfl

theorem narrow_wide (v : Int32) : narrow (wide v) = v := by
  rw [narrow, wide, ← Int32.toBitVec_inj]
  simp only [UInt32.toBitVec_toInt32, UInt64.toBitVec_toUInt32, Int64.toBitVec_toUInt64]
  rw [Int32.toBitVec_toInt64]
  apply BitVec.eq_of_getLsbD_eq
  intro i hi
  have inside : i < 64 := by omega
  rw [BitVec.getLsbD_setWidth, BitVec.getLsbD_signExtend]
  simp [hi, inside]

/- The tables. -/

/-- Entries collected into a list that stands in a larger thing. -/
theorem foldl_collect {β μ : Type} (step : μ → β → μ) (put : List β → μ)
    (one : ∀ l x, step (put l) x = put (l ++ [x])) (l xs : List β) :
    xs.foldl step (put l) = put (l ++ xs) := by
  induction xs generalizing l with
  | nil => simp
  | cons x xs ih => rw [List.foldl_cons, one, ih, List.append_assoc, List.singleton_append]

section

variable {showDouble : UInt64 → Bytes} {strtod : Bytes → UInt64 × Nat} {m : Machine}

theorem foldl_functorId (m : Machine) (fs : List Functor) :
    fs.foldl Machine.functorId m = { m with functors := fs.foldl enter m.functors } := by
  induction fs generalizing m with
  | nil => rfl
  | cons f fs ih => rw [List.foldl_cons, List.foldl_cons, ih, Machine.functorId]

theorem reads_functors (size : m.functors.length < 2 ^ 64) (m' : Machine) :
    Reads (thawFunctors m') (freezeFunctors m)
      { m' with functors := m.functors.foldl enter m'.functors } := by
  rw [← foldl_functorId]
  refine reads_section 70 rfl size ?_ m'
  intro m' f _
  have last := (reads_sz f.arity.toUInt64 (c := 10) rfl).map fun ar =>
    m'.functorId { name := f.name, arity := ar.toUInt32 }
  rw [UInt32.toUInt32_toUInt64] at last
  exact (reads_sz f.name rfl).bind last

/-- `strtod` reads back what `%.17g` wrote for a double, up to the line's end, and the text
is a C string that begins with no blank. -/
def RoundTrips (showDouble : UInt64 → Bytes) (strtod : Bytes → UInt64 × Nat) (d : UInt64) : Prop :=
  (∃ c s, showDouble d = c :: s ∧ blank c = false) ∧ 0 ∉ showDouble d ∧
    ∀ rest, strtod (showDouble d ++ 10 :: rest) = (d, (showDouble d).length)

theorem reads_double {d : UInt64} (trips : RoundTrips showDouble strtod d) :
    Reads (scanDouble strtod) (showDouble d ++ [10]) d := by
  intro z rest ⟨left, good, going⟩
  obtain ⟨⟨c, s, head, solid⟩, -, value⟩ := trips
  rw [List.append_assoc, List.singleton_append] at left
  have front : skip (showDouble d ++ 10 :: rest) = showDouble d ++ 10 :: rest := by
    rw [head, List.cons_append, skip_solid solid]
  have some_ : (showDouble d).length ≠ 0 := by rw [head]; exact Nat.succ_ne_zero _
  simp only [scanDouble, left, front, value, some_, if_false, List.drop_left, good, going]
  exact ⟨trivial, skip_blank rfl rest, rfl, rfl⟩

theorem foldl_newFloat (m : Machine) (ds : List UInt64) :
    { ds.foldl Machine.newFloat m with heap := [] } = { m with floats := m.floats ++ ds, heap := [] } := by
  induction ds generalizing m with
  | nil => simp
  | cons d ds ih => rw [List.foldl_cons, ih]; simp [Machine.newFloat, Machine.push]

theorem reads_floats (size : m.floats.length < 2 ^ 64)
    (trips : ∀ d ∈ m.floats, RoundTrips showDouble strtod d) (m' : Machine) :
    Reads (thawFloats strtod m') (freezeFloats showDouble m)
      { m' with floats := m'.floats ++ m.floats, heap := [] } := by
  rw [← foldl_newFloat]
  have entries := reads_section 68 rfl size
    (fun (m' : Machine) d hd => (reads_double (trips d hd)).map fun d => m'.newFloat d) m'
  exact entries.map fun m : Machine => { m with heap := [] }

theorem reads_wordLines {α : Type} {put : UInt64 → Bytes} {base : Nat}
    (reads : ∀ v {c}, blank c = true → Reads (scanU64 base : Reader UInt64) (put v ++ [c]) v)
    (step : α → UInt64 → α) (ws : List UInt64) (a : α) :
    Reads (scanFor (fun a => scanU64 base >>= fun w => pure (step a w)) ws.length a : Reader α)
      (wordLines put ws) (ws.foldl step a) := by
  have lines := @reads_scanFor (Option String) α (UInt64 × Nat) _ _ _ ws.zipIdx
    (fun a p _ => (reads p.1 (blank_lineEnd p.2)).map fun w => step a w) a
  have values : ws.zipIdx.foldl (fun a p => step a p.1) a = ws.foldl step a := by
    conv_rhs => rw [← List.zipIdx_map_fst 0 ws, List.foldl_map]
  rw [List.length_zipIdx, values] at lines
  exact lines.trail rfl

theorem reads_wordSection {α : Type} (tag : UInt8) (solid : blank tag = false)
    {put : UInt64 → Bytes} {base : Nat}
    (reads : ∀ v {c}, blank c = true → Reads (scanU64 base : Reader UInt64) (put v ++ [c]) v)
    (step : α → UInt64 → α) {ws : List UInt64} (size : ws.length < 2 ^ 64) (a : α) :
    Reads (sectionCount tag >>= fun n =>
        scanFor (fun a => scanU64 base >>= fun w => pure (step a w)) n.toNat a)
      (header tag ws.length ++ wordLines put ws) (ws.foldl step a) := by
  refine (reads_sectionCount solid size).bind ?_
  rw [UInt64.toNat_ofNat_of_lt' size]
  exact reads_wordLines reads step ws a

theorem foldl_push (m : Machine) (ws : List UInt64) :
    ws.foldl Machine.push m = { m with heap := m.heap ++ ws } :=
  foldl_collect Machine.push (fun l => { m with heap := l }) (fun _ _ => rfl) m.heap ws

theorem reads_heap (size : m.heap.length < 2 ^ 64) (m' : Machine) :
    Reads (thawHeap m') (freezeHeap m) { m' with heap := m'.heap ++ m.heap } := by
  rw [← foldl_push]
  exact reads_wordSection 72 rfl (fun v _ => reads_hex v) Machine.push size m'

theorem foldl_trailPush (m : Machine) (ws : List UInt64) :
    ws.foldl Machine.trailPush m = { m with trail := m.trail ++ ws } :=
  foldl_collect Machine.trailPush (fun l => { m with trail := l }) (fun _ _ => rfl) m.trail ws

theorem reads_trail (size : m.trail.length < 2 ^ 64) (m' : Machine) :
    Reads (thawTrail m') (freezeTrail m) { m' with trail := m'.trail ++ m.trail } := by
  rw [← foldl_trailPush]
  exact reads_wordSection 84 rfl (fun v _ => reads_sz v) Machine.trailPush size m'

theorem foldl_bigEntry (m : Machine) (vs : List Int64) :
    vs.foldl Machine.bigEntry m = { m with bigs := m.bigs ++ vs } :=
  foldl_collect Machine.bigEntry (fun l => { m with bigs := l }) (fun _ _ => rfl) m.bigs vs

theorem reads_bigs (size : m.bigs.length < 2 ^ 64) (m' : Machine) :
    Reads (thawBigs m') (freezeBigs m) { m' with bigs := m'.bigs ++ m.bigs } := by
  rw [← foldl_bigEntry]
  refine reads_optionalSection 66 rfl size ?_ m' m'
  intro m' v _
  exact (reads_hex v.toUInt64 rfl).map fun v => m'.bigEntry v.toInt64

theorem foldl_ratEntry (m : Machine) (rs : List (Int64 × Int64)) :
    rs.foldl (fun m r => m.ratEntry r.1 r.2) m = { m with rats := m.rats ++ rs } :=
  foldl_collect (fun m r => m.ratEntry r.1 r.2) (fun l => { m with rats := l }) (fun _ _ => rfl) m.rats rs

theorem reads_rats (size : m.rats.length < 2 ^ 64) (m' : Machine) :
    Reads (thawRats m') (freezeRats m) { m' with rats := m'.rats ++ m.rats } := by
  rw [← foldl_ratEntry]
  refine reads_optionalSection 82 rfl size ?_ m' m'
  intro m' r _
  simp only [List.append_assoc]
  exact reads_hex_bind r.1.toUInt64 rfl
    ((reads_hex r.2.toUInt64 rfl).map fun d => m'.ratEntry r.1.toUInt64.toInt64 d.toInt64)

theorem reads_engine (e : Engine) :
    Reads thawEngine (freezeEngine e)
      { goals := e.goals, query := e.query, steps := e.steps, maxSteps := e.maxSteps
        resume := e.resume, halted := e.halted } := by
  have last := (reads_sz (wide e.halted) (c := 10) rfl).map fun halted =>
    ({ goals := e.goals, query := e.query, steps := e.steps, maxSteps := e.maxSteps
       resume := narrow (wide e.resume), halted := narrow halted } : Engine)
  rw [narrow_wide, narrow_wide] at last
  unfold freezeEngine thawEngine
  simp only [List.append_assoc]
  refine reads_letter rfl ?_
  refine reads_sz_bind _ rfl (reads_sz_bind _ rfl (reads_sz_bind _ rfl ?_))
  refine reads_sz_bind _ rfl (reads_sz_bind _ rfl ?_)
  rw [narrow_wide]
  exact last

theorem reads_frees (e e' : Engine) :
    Reads (thawFrees e') (freezeFrees e) { e' with frees := e.frees, maxInf := e.maxInf } := by
  unfold freezeFrees thawFrees
  simp only [List.append_assoc]
  refine reads_optional rfl (reads_sz_bind _ rfl ?_)
  exact (reads_sz e.maxInf (c := 10) rfl).map fun maxInf => { e' with frees := e.frees, maxInf }

theorem reads_units (m' : Machine) :
    Reads (thawUnits m') (freezeUnits m)
      { m' with textChars := if wide m.textChars = 0 then 0 else 1 } :=
  reads_optional rfl ((reads_sz (wide m.textChars) rfl).map fun v =>
    { m' with textChars := if v = 0 then 0 else 1 })

theorem reads_flags (m' : Machine) :
    Reads (thawFlags m') (freezeFlags m) { m' with fflags := m.fflags &&& 15 } := by
  have field := (reads_sz (wide m.fflags) (c := 10) rfl).map fun v =>
    { m' with fflags := narrow v &&& 15 }
  rw [narrow_wide] at field
  exact reads_optional rfl field

/- Atoms. -/

/-- An atom's line: the atom `'[]'` is marked. -/
def atomLine (a : Atom) : Bytes := nameText a.name ++ (if a.turned = true then [32, 113] else []) ++ [10]

theorem atomIsTnil_eq (distinct : m.atoms.Nodup) (ended : nil ∈ m.atoms) {a : Atom} {i : Nat}
    (at_ : m.atoms[i]? = some a) : m.atomIsTnil a i = a.turned := by
  obtain ⟨lt, eq⟩ := List.getElem?_eq_some_iff.mp at_
  have place : m.nilId = i ↔ a = nil := by
    constructor
    · intro same
      have found := List.getElem?_idxOf ended
      rw [← Machine.nilId, same, at_] at found
      exact Option.some.inj found
    · intro same
      rw [Machine.nilId, ← same, ← eq]
      exact distinct.idxOf_getElem i lt
  obtain ⟨name, turned, only⟩ := a
  rw [Machine.atomIsTnil]
  cases turned with
  | true =>
    have text : name = brackets := only rfl
    have apart : i ≠ m.nilId := fun same => by
      have := congrArg Atom.turned (place.mp same.symm)
      cases this
    simp [text, apart]
  | false =>
    by_cases text : name = brackets
    · have same : m.nilId = i := place.mpr (by simp [nil, Atom.plain, text])
      simp [same]
    · simp [text]

theorem freezeAtoms_eq (distinct : m.atoms.Nodup) (ended : nil ∈ m.atoms) :
    freezeAtoms m = header 65 m.atoms.length ++ m.atoms.flatMap atomLine := by
  have lines : (m.atoms.zipIdx.map fun p =>
      nameText p.1.name ++ (if m.atomIsTnil p.1 p.2 = true then [32, 113] else []) ++ [10]) =
      m.atoms.map atomLine := by
    conv_rhs => rw [← List.zipIdx_map_fst 0 m.atoms, List.map_map]
    refine List.map_congr_left ?_
    intro p hp
    obtain ⟨a, i⟩ := p
    rw [atomIsTnil_eq distinct ended (List.mem_zipIdx_iff_getElem?.mp hp)]
    rfl
  rw [freezeAtoms, List.flatMap_def, lines, List.flatMap_def]

theorem atomLine_head (a : Atom) (s : Bytes) :
    ∃ c, (skip (atomLine a ++ s)).head? = some c ∧ c ≠ 113 := by
  obtain ⟨d, t, lt, eq⟩ := @numeral_head 10 (by decide) (by decide) a.name.length
  have digits : ∀ d : Fin 16, digit d ≠ 113 := by decide
  refine ⟨digit d, ?_, digits ⟨d, lt⟩⟩
  simp only [atomLine, nameText, eq, List.cons_append]
  rw [skip_solid (blank_of_digitValue (digitValue_digit lt)), List.head?_cons]

/-- A line is read as its atom, as long as what follows cannot be taken for the mark. -/
theorem thawAtom_line {a : Atom} (size : a.name.length < 2 ^ 64) (m' : Machine)
    {z : Scan (Option String)} {rest : Bytes} (at_ : z.At (atomLine a ++ rest)) {c : UInt8}
    (next : (skip rest).head? = some c) (other : c ≠ 113) :
    (thawAtom m' z).1 = m'.internH a ∧ (thawAtom m' z).2.At rest := by
  obtain ⟨name, turned, only⟩ := a
  cases turned with
  | true =>
    have text : name = brackets := only rfl
    have mark : Reads (scanSection 113 : Reader Bool) ([113] ++ [10]) true :=
      (reads_scanSection rfl).trail rfl
    have line : Reads (thawAtom m') (nameText name ++ [32] ++ ([113] ++ [10] ++ [])) (m'.internH tnil) :=
      (reads_scanName size rfl).bind (mark.bind (Reads.pure _))
    have same : (⟨name, true, only⟩ : Atom) = tnil := by simp [tnil, text]
    rw [same]
    refine line z rest ?_
    simpa [atomLine] using at_
  | false =>
    have line : z.At (nameText name ++ [10] ++ rest) := by simpa [atomLine] using at_
    obtain ⟨value, behind⟩ := reads_scanName size rfl z rest line
    obtain ⟨absent, behind⟩ := scanSection_absent behind next other
    have run : thawAtom m' z =
        (m'.internH (.plain name), (scanSection 113 (scanName z).2).2) := by
      have bound (f : Option Bytes → Reader Machine) :
          (scanName >>= f) z = f (scanName z).1 (scanName z).2 := rfl
      rw [thawAtom, bound, value]
      show (if (scanSection 113 (scanName z).2).1 = true then pure (m'.internH tnil)
        else pure (m'.internH (.plain name)) : Reader Machine) (scanSection 113 (scanName z).2).2 = _
      rw [absent]
      rfl
    rw [run]
    exact ⟨rfl, behind⟩

/-- The lines of a table, in front of a section that begins with no mark. -/
theorem thawAtom_lines {as : List Atom} (sizes : ∀ a ∈ as, a.name.length < 2 ^ 64) (m' : Machine)
    {z : Scan (Option String)} {rest : Bytes} (at_ : z.At (as.flatMap atomLine ++ rest)) {c : UInt8}
    (next : (skip rest).head? = some c) (other : c ≠ 113) :
    (scanFor thawAtom as.length m' z).1 = as.foldl Machine.internH m' ∧
      (scanFor thawAtom as.length m' z).2.At rest := by
  induction as generalizing m' z with
  | nil => exact ⟨rfl, at_⟩
  | cons a as ih =>
    rw [List.flatMap_cons, List.append_assoc] at at_
    obtain ⟨d, next', other'⟩ : ∃ d, (skip (as.flatMap atomLine ++ rest)).head? = some d ∧ d ≠ 113 := by
      cases as with
      | nil => exact ⟨c, next, other⟩
      | cons b bs =>
        rw [List.flatMap_cons, List.append_assoc]
        exact atomLine_head b _
    obtain ⟨value, behind⟩ := thawAtom_line (sizes a (by simp)) m' at_ next' other'
    have turn : scanFor thawAtom (a :: as).length m' z =
        scanFor thawAtom as.length (thawAtom m' z).1 (thawAtom m' z).2 := by
      simp only [List.length_cons, scanFor, at_.2.2]
      rfl
    rw [turn, value]
    exact ih (fun b hb => sizes b (by simp [hb])) (m'.internH a) behind

theorem foldl_internH (m : Machine) (as : List Atom) :
    as.foldl Machine.internH m = { m with atoms := as.foldl enter m.atoms } := by
  induction as generalizing m with
  | nil => rfl
  | cons a as ih => rw [List.foldl_cons, List.foldl_cons, ih, Machine.internH]

theorem foldl_enter {α : Type} [DecidableEq α] {l : List α} (distinct : l.Nodup) :
    l.foldl enter [] = l := by
  have general : ∀ (l front : List α), (front ++ l).Nodup → l.foldl enter front = front ++ l := by
    intro l
    induction l with
    | nil => intro front _; simp
    | cons a l ih =>
      intro front distinct
      have fresh : a ∉ front := fun mem =>
        (List.nodup_append.mp distinct).2.2 a mem a List.mem_cons_self rfl
      rw [List.foldl_cons, enter, if_neg fresh, ih]
      · simp
      · simpa using distinct
  exact general l [] (by simpa using distinct)

end

/- Operators. -/

/-- A table of operators: a name is a C string, and has one entry of a kind. -/
structure OpsOk (ops : List OpDef) : Prop where
  names : ∀ o ∈ ops, cString o.name = o.name
  apart : ops.Pairwise fun o o' => ¬ (o.kind = o'.kind ∧ o.name = o'.name)

theorem foldl_opDefine {ops : List OpDef} (ok : OpsOk ops) :
    ops.foldl (fun l o => opDefine l o.name o.prec o.type o.kind) [] = ops := by
  have general : ∀ (l front : List OpDef), OpsOk (front ++ l) →
      l.foldl (fun l o => opDefine l o.name o.prec o.type o.kind) front = front ++ l := by
    intro l
    induction l with
    | nil => intro front _; simp
    | cons o l ih =>
      intro front ok
      have fresh : (front.any fun o' => o'.kind == o.kind && o'.name == o.name) = false := by
        rw [List.any_eq_false]
        intro o' mem
        have apart := (List.pairwise_append.mp ok.apart).2.2 o' mem o List.mem_cons_self
        simpa using apart
      have name := ok.names o (by simp)
      rw [List.foldl_cons, opDefine, name, if_neg (by simp [fresh]), ih]
      · simp
      · simpa using ok
  exact general ops [] ok

theorem reads_ops {ops : List OpDef} (ok : OpsOk ops) (size : ops.length < 2 ^ 64)
    (sizes : ∀ o ∈ ops, o.name.length < 2 ^ 64) (ops' : List OpDef) :
    Reads (thawOps ops') (freezeOps ops) ops := by
  have table := foldl_opDefine ok
  conv => arg 3; rw [← table]
  refine reads_optionalSection 79 rfl size ?_ [] ops'
  intro l o mem
  simp only [List.append_assoc, ok.names o mem]
  refine reads_sz_bind _ rfl (reads_sz_bind _ rfl (reads_sz_bind _ rfl ?_))
  refine reads_name_last (sizes o mem) rfl ?_
  simp only [narrow_wide]
  exact Reads.pure _

/- Frames. -/

/-- The number of the next clause, as the image has it. -/
def frozenIx (st : List NamedPred) (c : Choice) : UInt64 :=
  if opens c.kind = true then UInt64.ofNat ((st.getD c.pred.toNat {}).pred.liveBefore c.clauseIx.toNat)
  else c.clauseIx

/-- The predicate a frame names. -/
def frozenName (m : Machine) (st : List NamedPred) (c : Choice) : Bytes :=
  if opens c.kind = true then cString (m.atomName (st.getD c.pred.toNat {}).name) else []

def frozenArity (st : List NamedPred) (c : Choice) : UInt32 :=
  if opens c.kind = true then UInt32.ofNat (st.getD c.pred.toNat {}).arity else 0

/-- A frame as the image has it, before its predicate is found. -/
def frozenFrame (st : List NamedPred) (c : Choice) : Choice :=
  { kind := c.kind, goals := c.goals, trailMark := c.trailMark, heapMark := c.heapMark
    call := c.call, clauseIx := frozenIx st c, barrier := c.barrier }

section

variable {backend : Backend} {m : Machine} {st : List NamedPred}

/-- What a frame does to the machine it is restored into. -/
def restoreStep (backend : Backend) (m : Machine) (st : List NamedPred) (w : Work) (c : Choice) : Work :=
  match choiceRestore backend w (frozenFrame st c) (frozenName m st c) (frozenArity st c) with
  | .ok w => w
  | .error _ => w

/-- The backend answers for every predicate an open call is on. -/
def Answers (backend : Backend) (m : Machine) (st : List NamedPred) (cs : List Choice) : Prop :=
  ∀ c ∈ cs, opens c.kind = true → ∃ made, backend (frozenName m st c) (frozenArity st c) = .ok made

theorem cString_cString (s : Bytes) : cString (cString s) = cString s := by
  rw [cString, cString, List.takeWhile_idem]

theorem cString_frozenName (m : Machine) (st : List NamedPred) (c : Choice) :
    cString (frozenName m st c) = frozenName m st c := by
  unfold frozenName
  split
  · exact cString_cString _
  · rfl

theorem choiceRestore_ok {c : Choice} (answers : opens c.kind = true →
    ∃ made, backend (frozenName m st c) (frozenArity st c) = .ok made) (w : Work) :
    choiceRestore backend w (frozenFrame st c) (frozenName m st c) (frozenArity st c) =
      .ok (restoreStep backend m st w c) := by
  have done : ∃ w', choiceRestore backend w (frozenFrame st c) (frozenName m st c) (frozenArity st c) =
      .ok w' := by
    unfold choiceRestore
    by_cases open_ : opens c.kind = true
    · obtain ⟨made, eq⟩ := answers open_
      rw [if_pos (show opens (frozenFrame st c).kind = true from open_), restorePred, predEnsure,
        cString_frozenName, eq]
      dsimp only
      split
      · split
        · exact ⟨_, rfl⟩
        · exact ⟨_, rfl⟩
      · exact ⟨_, rfl⟩
    · rw [if_neg (show ¬ opens (frozenFrame st c).kind = true from open_)]
      exact ⟨_, rfl⟩
  obtain ⟨w', eq⟩ := done
  rw [restoreStep, eq]

theorem freezeChoice_name (c : Choice) :
    (if opens c.kind = true then nameText (cString (m.atomName (st.getD c.pred.toNat {}).name)) else [48, 32]) =
      nameText (frozenName m st c) := by
  unfold frozenName
  split <;> rfl

theorem reads_choice {c : Choice} (answers : opens c.kind = true →
    ∃ made, backend (frozenName m st c) (frozenArity st c) = .ok made)
    (size : (frozenName m st c).length < 2 ^ 64) (w : Work) :
    Reads (thawChoice backend w) (freezeChoice m st c) (restoreStep backend m st w c) := by
  have arity : (if opens c.kind = true then UInt64.ofNat (st.getD c.pred.toNat {}).arity else 0).toUInt32 =
      frozenArity st c := by
    unfold frozenArity
    split
    · exact UInt64.toUInt32_ofNat' _
    · rfl
  unfold thawChoice freezeChoice
  simp only [freezeChoice_name, List.append_assoc]
  refine reads_sz_bind _ rfl (reads_sz_bind _ rfl (reads_sz_bind _ rfl ?_))
  refine reads_sz_bind _ rfl (reads_sz_bind _ rfl (reads_sz_bind _ rfl ?_))
  refine reads_sz_bind _ rfl (reads_sz_bind _ rfl ?_)
  refine reads_name_last size rfl ?_
  have done := choiceRestore_ok answers w
  simp only [narrow_wide, arity]
  rw [frozenFrame, frozenIx] at done
  rw [done]
  exact Reads.pure _

theorem reads_choices {e : Engine} (answers : Answers backend m st e.choices)
    (size : e.choices.length < 2 ^ 64) (sizes : ∀ c ∈ e.choices, (frozenName m st c).length < 2 ^ 64)
    (w : Work) :
    Reads (thawChoices backend w) (freezeChoices m e st)
      (e.choices.foldl (restoreStep backend m st) w) :=
  reads_section 67 rfl size (fun w c mem => reads_choice (answers c mem) (sizes c mem) w) w

/-- A frame's end, once it is read. -/
def settle (v : UInt64) (c : Choice) : Choice :=
  if opens c.kind = true ∧ v < 4294967295 then { c with cend := v.toUInt32 } else c

def endStep (p : Nat × List Choice) (v : UInt64) : Nat × List Choice :=
  (p.1 + 1, p.2.modify p.1 (settle v))

theorem foldl_endStep (vs : List UInt64) (front cs : List Choice) (same : vs.length = cs.length) :
    vs.foldl endStep (front.length, front ++ cs) =
      (front.length + vs.length, front ++ List.zipWith settle vs cs) := by
  induction vs generalizing front cs with
  | nil =>
    have empty : cs = [] := List.eq_nil_of_length_eq_zero same.symm
    simp [empty]
  | cons v vs ih =>
    obtain ⟨c, cs, rfl⟩ : ∃ c cs', cs = c :: cs' := List.exists_cons_of_length_eq_add_one same.symm
    have step : endStep (front.length, front ++ c :: cs) v =
        ((front ++ [settle v c]).length, (front ++ [settle v c]) ++ cs) := by
      simp [endStep, List.modify_eq_take_cons_drop]
    rw [List.foldl_cons, step, ih _ _ (by simpa using same)]
    simp
    omega

theorem reads_ends {e : Engine} (size : e.choices.length < 2 ^ 64) (e' : Engine)
    (same : e.choices.length = e'.choices.length) :
    Reads (thawEnds e') (freezeEnds e st)
      { e' with choices := List.zipWith settle (e.choices.map (frozenEnd st)) e'.choices } := by
  have folded := foldl_endStep (e.choices.map (frozenEnd st)) [] e'.choices (by simpa using same)
  have lines := reads_wordLines (fun v _ => reads_sz v) endStep (e.choices.map (frozenEnd st))
    (0, e'.choices)
  rw [List.length_nil, List.nil_append, List.nil_append] at folded
  rw [folded, List.length_map] at lines
  unfold thawEnds freezeEnds
  rw [header, numeral_length size]
  simp only [List.append_assoc]
  refine reads_optional rfl (reads_sz_bind _ rfl ?_)
  rw [UInt64.toNat_ofNat_of_lt' size]
  exact lines.map fun p => { e' with choices := p.2 }

end

end Cocolog.State
