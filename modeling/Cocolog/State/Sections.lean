import Cocolog.Lib.Alike
import Cocolog.State.Restore

/-! What the sections of a text carry, collected without making anything of it, and the
machine that is made of them. A thaw accepts a text exactly when its sections can be read and
the machine can be made, and it is that machine. -/

set_option linter.all false

namespace Cocolog.State

open Cocolog.Lib.Wire Cocolog.Store

/-- A frame as the image has it: its predicate goes by name. -/
structure Frame where
  choice : Choice
  name : Bytes
  arity : UInt32

/-- The entries of the sections, as often as they stand there. -/
structure Carried where
  version : Int32
  atoms : List Atom
  functors : List Functor
  floats : List UInt64
  words : List UInt64
  trail : List UInt64
  engine : Engine
  frames : List Frame
  bigs : List Int64
  rats : List (Int64 × Int64)

/-- One more entry. -/
def collect {γ : Type} (p : Reader γ) (l : List γ) : Reader (List γ) := do
  let x ← p
  pure (l ++ [x])

def readAtom (l : List Atom) : Reader (List Atom) := do
  match ← scanName with
  | none =>
    giveUp none
    pure l
  | some name =>
    if (← scanSection 113) = true then pure (l ++ [tnil]) else pure (l ++ [.plain name])

def readFunctor : Reader Functor := do
  let name ← scanU64 10
  let ar ← scanU64 10
  pure { name, arity := ar.toUInt32 }

def readBig : Reader Int64 := do
  let v ← scanU64 16
  pure v.toInt64

def readRat : Reader (Int64 × Int64) := do
  let n ← scanU64 16
  let d ← scanU64 16
  pure (n.toInt64, d.toInt64)

def readFrame (l : List Frame) : Reader (List Frame) := do
  let kind ← scanU64 10
  let goals ← scanU64 10
  let tmark ← scanU64 10
  let hmark ← scanU64 10
  let call ← scanU64 10
  let cix ← scanU64 10
  let barrier ← scanU64 10
  let parity ← scanU64 10
  match ← scanName with
  | none =>
    giveUp none
    pure l
  | some name =>
    let c : Choice := { kind := narrow kind, goals, trailMark := tmark, heapMark := hmark, call,
                        clauseIx := cix, barrier }
    pure (l ++ [⟨c, name, parity.toUInt32⟩])

/-- A section that has to be there. -/
def readSection {γ : Type} (tag : UInt8) (body : List γ → Reader (List γ)) : Reader (List γ) := do
  let n ← sectionCount tag
  scanFor body n.toNat []

/-- A section older images do not have: none of its entries. -/
def readOptional {γ : Type} (tag : UInt8) (body : List γ → Reader (List γ)) : Reader (List γ) :=
  optional tag [] do
    let n ← scanU64 10
    scanFor body n.toNat []

def sections (strtod : Bytes → UInt64 × Nat) : Reader Carried := do
  let version ← thawVersion
  let atoms ← readSection 65 readAtom
  let functors ← readSection 70 (collect readFunctor)
  let floats ← readSection 68 (collect (scanDouble strtod))
  let words ← readSection 72 (collect (scanU64 16))
  let trail ← readSection 84 (collect (scanU64 10))
  let engine ← thawEngine
  let frames ← readSection 67 readFrame
  let _ ← thawOps []
  let _ ← thawFrees {}
  let _ ← thawUnits {}
  let bigs ← readOptional 66 (collect readBig)
  let rats ← readOptional 82 (collect readRat)
  let _ ← thawFlags {}
  let _ ← thawEnds {}
  pure { version, atoms, functors, floats, words, trail, engine, frames, bigs, rats }

/-- What a text carries, if each of its sections can be read as far as its count says. -/
def carried (strtod : Bytes → UInt64 × Nat) (text : Bytes) : Option Carried :=
  let r := sections strtod { rest := cString text }
  if r.2.stop.isSome = false ∧ r.2.bad = false then some r.1 else none

/-- Frames put back one by one, the backend asked for their predicates. -/
def restoreFrames (backend : Backend) (w : Work) (l : List Frame) : Except String Work :=
  l.foldlM (fun w f => choiceRestore backend w f.choice f.name f.arity) w

namespace Carried

/-- The tables, the heap and the trail before a frame is restored. -/
def bare (c : Carried) : Machine where
  atoms := c.atoms.foldl enter []
  functors := c.functors.foldl enter []
  floats := c.floats
  heap := c.words
  trail := c.trail

def restored (backend : Backend) (c : Carried) : Except String Work :=
  restoreFrames backend { m := c.bare, e := c.engine } c.frames

/-- The heap in the layout of today, over the integers boxed already. -/
def upgraded (c : Carried) (bigs : List Int64) : Option (List Int64 × List UInt64) :=
  if c.version = 1 then upgradeWords bigs c.words else some (bigs, c.words)

/-- The machine the sections make, but for its two flags and the vocabulary. -/
def rebuild (backend : Backend) (c : Carried) : Option Machine :=
  match c.restored backend with
  | .ok w => (c.upgraded (w.m.bigs ++ c.bigs)).map fun r =>
    { w.m with bigs := r.1, heap := r.2, rats := w.m.rats ++ c.rats }
  | .error _ => none

end Carried

section

variable {γ μ : Type} {tag : UInt8}

/-- A section that builds by `step` does to `a` what its entries do one after another. -/
theorem alike_section {body : μ → Reader μ} {body' : List γ → Reader (List γ)} {step : μ → γ → μ} {a : μ}
    (each : ∀ l, Alike (body (l.foldl step a)) (body' l) fun b l => b = l.foldl step a) :
    Alike (sectionCount tag >>= fun n => scanFor body n.toNat a) (readSection tag body') fun b l => b = l.foldl step a := by
  refine (Alike.refl _).bind fun n n' same => ?_
  subst same
  refine alike_scanFor (fun b l built => ?_) _ rfl
  subst built
  exact each l

theorem alike_collect (p : Reader γ) (step : μ → γ → μ) (a : μ) (l : List γ) :
    Alike (p >>= fun x => pure (step (l.foldl step a) x)) (collect p l) fun b l => b = l.foldl step a := by
  refine (Alike.refl p).bind fun x x' same => ?_
  subst same
  exact Alike.pure (by simp)

theorem alike_optional {p : Reader μ} {q : Reader γ} {R : μ → γ → Prop} {a : μ} {b : γ} (present : Alike p q R)
    (absent : R a b) : Alike (optional tag a p) (optional tag b q) R := by
  intro z
  unfold optional
  split
  · exact ⟨rfl, absent⟩
  · rcases scanSection tag z with ⟨there, z'⟩
    cases there with
    | true => exact present z'
    | false => exact ⟨rfl, absent⟩

theorem lasting_optional {p : Reader μ} {a : μ} : Lasting (optional tag a p) := by
  intro z stopped
  simp [optional, stopped]

end

section

variable {strtod : Bytes → UInt64 × Nat} {backend : Backend} (m : Machine) (e : Engine)

theorem alike_atoms : Alike (thawAtoms m) (readSection 65 readAtom) fun m' l => m' = l.foldl Machine.internH m := by
  refine alike_section fun l => (Alike.refl scanName).bind fun name name' same => ?_
  subst same
  cases name with
  | none =>
    refine (Alike.refl (giveUp none)).bind fun _ _ _ => Alike.pure rfl
  | some name =>
    refine (Alike.refl (scanSection 113)).bind fun there there' same => ?_
    subst same
    cases there with
    | true => exact Alike.pure (by simp)
    | false => exact Alike.pure (by simp)

theorem alike_functors :
    Alike (thawFunctors m) (readSection 70 (collect readFunctor)) fun m' l => m' = l.foldl Machine.functorId m :=
  alike_section fun l => alike_collect readFunctor Machine.functorId m l

theorem alike_floats : Alike (thawFloats strtod m) (readSection 68 (collect (scanDouble strtod))) fun m' l =>
    m' = { l.foldl Machine.newFloat m with heap := [] } := by
  have entries : Alike (sectionCount 68 >>= fun n => scanFor (fun m => scanDouble strtod >>= fun d => pure (m.newFloat d)) n.toNat m)
      (readSection 68 (collect (scanDouble strtod))) fun m' l => m' = l.foldl Machine.newFloat m :=
    alike_section fun l => alike_collect (scanDouble strtod) Machine.newFloat m l
  have dropped := @Alike.bind _ _ _ _ _ _ _ _ (fun m' l => m' = { l.foldl Machine.newFloat m with heap := [] })
    (fun m' : Machine => pure { m' with heap := [] }) pure entries fun m' l built => Alike.pure (by rw [built])
  exact dropped

theorem alike_heap :
    Alike (thawHeap m) (readSection 72 (collect (scanU64 16))) fun m' l => m' = l.foldl Machine.push m :=
  alike_section fun l => alike_collect (scanU64 16) Machine.push m l

theorem alike_trail :
    Alike (thawTrail m) (readSection 84 (collect (scanU64 10))) fun m' l => m' = l.foldl Machine.trailPush m :=
  alike_section fun l => alike_collect (scanU64 10) Machine.trailPush m l

theorem alike_bigs : Alike (thawBigs m) (readOptional 66 (collect readBig)) fun m' l => m' = l.foldl Machine.bigEntry m := by
  refine alike_optional ((Alike.refl _).bind fun n n' same => ?_) rfl
  subst same
  refine alike_scanFor (fun b l built => ?_) _ rfl
  subst built
  exact alike_collect readBig Machine.bigEntry m l

theorem alike_rats : Alike (thawRats m) (readOptional 82 (collect readRat)) fun m' l =>
    m' = l.foldl (fun m r => m.ratEntry r.1 r.2) m := by
  refine alike_optional ((Alike.refl _).bind fun n n' same => ?_) rfl
  subst same
  refine alike_scanFor (fun b l built => ?_) _ rfl
  subst built
  exact alike_collect readRat (fun m r => m.ratEntry r.1 r.2) m l

/- The sections that leave the tables alone. -/

theorem alike_ops (ops : List OpDef) : Alike (thawOps ops) (thawOps []) fun _ _ => True :=
  alike_optional (fun _ => ⟨rfl, trivial⟩) trivial

theorem alike_frees : Alike (thawFrees e) (thawFrees {}) fun _ _ => True :=
  alike_optional (fun _ => ⟨rfl, trivial⟩) trivial

theorem alike_units : Alike (thawUnits m) (thawUnits {}) fun m' _ => m' = { m with textChars := m'.textChars } := by
  refine alike_optional ((Alike.refl (scanU64 10)).bind fun v v' same => Alike.pure rfl) rfl

theorem alike_flags : Alike (thawFlags m) (thawFlags {}) fun m' _ => m' = { m with fflags := m'.fflags } := by
  refine alike_optional ((Alike.refl (scanU64 10)).bind fun v v' same => Alike.pure rfl) rfl

theorem alike_ends : Alike (thawEnds e) (thawEnds {}) fun _ _ => True := by
  refine alike_optional ((Alike.refl (scanU64 10)).bind fun n n' same => ?_) trivial
  subst same
  have ends : Alike (scanFor thawEnd n.toNat (0, e.choices)) (scanFor thawEnd n.toNat (0, [])) fun _ _ => True :=
    alike_scanFor (fun _ _ _ => (Alike.refl (scanU64 10)).bind fun _ _ _ => Alike.pure trivial) _ trivial
  exact ends.bind fun _ _ _ => Alike.pure trivial

theorem restoreFrames_append (start : Work) (l l' : List Frame) :
    restoreFrames backend start (l ++ l') = restoreFrames backend start l >>= fun w => restoreFrames backend w l' :=
  List.foldlM_append

theorem restoreFrames_snoc {start w : Work} {l : List Frame} (so_far : restoreFrames backend start l = .ok w) (f : Frame) :
    restoreFrames backend start (l ++ [f]) = choiceRestore backend w f.choice f.name f.arity := by
  rw [restoreFrames_append, so_far]
  exact bind_pure (choiceRestore backend w f.choice f.name f.arity)

/-- A frame is restored as it is collected, or the backend does not answer for it. -/
theorem follows_choice (start : Work) (w : Work) (l : List Frame)
    (so_far : restoreFrames backend start l = .ok w) :
    Follows (thawChoice backend w) (readFrame l) (fun w l => restoreFrames backend start l = .ok w)
      fun l => ∃ why, restoreFrames backend start l = .error why := by
  refine (Alike.refl (scanU64 10)).bindFollows fun kind _ same => ?_
  subst same
  refine (Alike.refl (scanU64 10)).bindFollows fun goals _ same => ?_
  subst same
  refine (Alike.refl (scanU64 10)).bindFollows fun tmark _ same => ?_
  subst same
  refine (Alike.refl (scanU64 10)).bindFollows fun hmark _ same => ?_
  subst same
  refine (Alike.refl (scanU64 10)).bindFollows fun call _ same => ?_
  subst same
  refine (Alike.refl (scanU64 10)).bindFollows fun cix _ same => ?_
  subst same
  refine (Alike.refl (scanU64 10)).bindFollows fun barrier _ same => ?_
  subst same
  refine (Alike.refl (scanU64 10)).bindFollows fun parity _ same => ?_
  subst same
  refine (Alike.refl scanName).bindFollows fun name _ same => ?_
  subst same
  cases name with
  | none => exact fun _ => .inl ⟨rfl, so_far⟩
  | some name =>
    intro z
    simp only
    cases next : choiceRestore backend w { kind := narrow kind, goals, trailMark := tmark, heapMark := hmark, call,
                                           clauseIx := cix, barrier } name parity.toUInt32 with
    | ok w' =>
      refine .inl ⟨rfl, ?_⟩
      refine (restoreFrames_snoc so_far _).trans next
    | error why =>
      refine .inr ⟨rfl, .inr ⟨why, ?_⟩⟩
      exact (restoreFrames_snoc so_far _).trans next

theorem yields_frame {start : Work} (l : List Frame) (failed : ∃ why, restoreFrames backend start l = .error why) :
    Yields (readFrame l) fun l => ∃ why, restoreFrames backend start l = .error why := by
  obtain ⟨why, failed⟩ := failed
  have more : ∀ f, ∃ why, restoreFrames backend start (l ++ [f]) = .error why := fun f =>
    ⟨why, by rw [restoreFrames_append, failed]; rfl⟩
  iterate 9 refine Yields.bind fun _ => ?_
  split
  · exact Yields.bind fun _ => Yields.pure ⟨why, failed⟩
  · exact Yields.pure (more _)

theorem follows_choices (w : Work) : Follows (thawChoices backend w) (readSection 67 readFrame)
    (fun w' l => restoreFrames backend w l = .ok w') fun l => ∃ why, restoreFrames backend w l = .error why := by
  refine (Alike.refl (sectionCount 67)).bindFollows fun n _ same => ?_
  subst same
  exact follows_scanFor (fun w' l so_far => follows_choice w w' l so_far) (fun l failed => yields_frame l failed) _ rfl

/-- The heap goes over to the layout of today, or does not fit it. -/
theorem follows_upgrade (ver : Int32) : Follows (thawUpgrade ver m) (pure ())
    (fun m' _ => (if ver = 1 then upgradeWords m.bigs m.heap else some (m.bigs, m.heap)) = some (m'.bigs, m'.heap) ∧
      m' = { m with bigs := m'.bigs, heap := m'.heap })
    fun _ => ver = 1 ∧ upgradeWords m.bigs m.heap = none := by
  intro z
  have stays : (pure () : Reader Unit) z = ((), z) := rfl
  unfold thawUpgrade
  rw [stays]
  cases going : z.stop.isSome with
  | true => exact .inr ⟨by simp [going], .inl rfl⟩
  | false =>
    by_cases first : ver = 1
    · cases up : upgradeWords m.bigs m.heap with
      | none => exact .inr ⟨by simp [first], .inr ⟨first, rfl⟩⟩
      | some r => exact .inl (by simp [first])
    · exact .inl (by simp [first])

/-- The thawed machine is the one the sections make, but for its flags. -/
def Makes (backend : Backend) (t : Thawed) (c : Carried) : Prop :=
  ∃ m, c.rebuild backend = some m ∧ t.m = { m with textChars := t.m.textChars, fflags := t.m.fflags }

theorem sections_bare (atoms : List Atom) (functors : List Functor) (floats words trail : List UInt64) :
    trail.foldl Machine.trailPush (words.foldl Machine.push { floats.foldl Machine.newFloat (functors.foldl Machine.functorId
      (atoms.foldl Machine.internH {})) with heap := [] }) =
    { atoms := atoms.foldl enter [], functors := functors.foldl enter [], floats, heap := words, trail } := by
  rw [foldl_newFloat, foldl_push, foldl_functorId, foldl_internH, foldl_trailPush]
  simp

/-- The name of every functor is an atom of the table. -/
def Machine.NamesIn (m : Machine) : Prop := ∀ f ∈ m.functors, f.name.toNat < m.atoms.length

/-- The tables grew, and no functor without a name came in. -/
def Builds (m m' : Machine) : Prop := (∃ made, Grows m m' made) ∧ (m.NamesIn → m'.NamesIn)

namespace Builds

variable {m m' m'' : Machine}

theorem refl (m : Machine) : Builds m m := ⟨⟨[], Grows.refl m⟩, fun named => named⟩

theorem trans (one : Builds m m') (two : Builds m' m'') : Builds m m'' := by
  obtain ⟨⟨made, grows⟩, named⟩ := one
  obtain ⟨⟨made', grows'⟩, named'⟩ := two
  exact ⟨⟨_, grows.trans grows'⟩, fun names => named' (named names)⟩

/-- Only other tables than the functors grew. -/
theorem other {made : List Entry} (grows : Grows m m' made) (functors : m'.functors = m.functors) : Builds m m' :=
  ⟨⟨made, grows⟩, fun named f listed => Nat.lt_of_lt_of_le (named f (functors ▸ listed)) grows.atoms.length_le⟩

theorem internH (m : Machine) (a : Atom) : Builds m (m.internH a) := other (Grows.internH m a) rfl

/-- A functor made under a name of the table. -/
theorem functorId {a : Atom} (mem : a ∈ m.atoms) (arity : UInt32) :
    Builds m (m.functorId ⟨UInt64.ofNat (m.idOf a), arity⟩) := by
  refine ⟨⟨[], Grows.functorId m _⟩, fun named f listed => ?_⟩
  rcases mem_enter.mp listed with old | rfl
  · exact named f old
  · refine Nat.lt_of_le_of_lt ?_ (List.idxOf_lt_length_of_mem mem)
    rw [UInt64.toNat_ofNat']
    exact Nat.mod_le _ _

theorem make (m : Machine) (e : Entry) : Builds m (m.make e) := by
  cases e with
  | atom a => exact internH m a
  | functor name arity => exact (internH m name).trans (functorId (mem_internH m name) arity)
  | float bits => exact other (Grows.make m (.float bits)) rfl
  | string bytes => exact other (Grows.make m (.string bytes)) rfl
  | big v => exact other (Grows.make m (.big v)) rfl
  | rat n d => exact other (Grows.make m (.rat n d)) rfl

theorem foldl {γ : Type} {f : Machine → γ → Machine} (each : ∀ m x, Builds m (f m x)) (m : Machine) (l : List γ) :
    Builds m (l.foldl f m) := by
  induction l generalizing m with
  | nil => exact refl m
  | cons x l ih => exact (each m x).trans (ih (f m x))

theorem idsFill (voc : Vocabulary) (m : Machine) : Builds m (m.idsFill voc) :=
  (foldl (fun m name => internH m (.plain name)) m voc.names).trans
    (foldl (fun m f => (internH m (.plain f.1)).trans (functorId (mem_internH m _) f.2)) _ voc.functors)

end Builds

theorem predEnsure_builds {w w' : Work} {i : Nat} {name : Bytes} {arity : UInt32}
    (done : predEnsure backend w i name arity = .ok w') : Builds w.m w'.m := by
  unfold predEnsure at done
  split at done
  · split at done
    · cases done
      exact Builds.refl _
    · cases answer : backend name arity with
      | error why =>
        rw [answer] at done
        cases done
      | ok made =>
        rw [answer] at done
        cases done
        exact Builds.foldl Builds.make w.m made
  · cases done
    exact Builds.refl _

theorem pushFrame_builds (w : Work) (c : Choice) : Builds w.m (pushFrame w c).m := by
  unfold pushFrame
  split
  · exact Builds.internH w.m sccFail
  · exact Builds.refl _

theorem restorePred_builds {w : Work} {name : Bytes} {arity : UInt32} {r : Work × UInt64}
    (done : restorePred backend w name arity = .ok r) : Builds w.m r.1.m := by
  unfold restorePred at done
  simp only at done
  generalize ensured : predEnsure backend _ _ _ _ = found at done
  cases found with
  | error why => cases done
  | ok w' =>
    cases done
    exact (Builds.internH w.m _).trans (predEnsure_builds ensured)

theorem choiceRestore_builds {w w' : Work} {c : Choice} {name : Bytes} {arity : UInt32}
    (done : choiceRestore backend w c name arity = .ok w') : Builds w.m w'.m := by
  unfold choiceRestore at done
  split at done
  · cases found : restorePred backend w name arity with
    | error why =>
      rw [found] at done
      cases done
    | ok r =>
      rw [found] at done
      cases done
      exact (restorePred_builds found).trans (pushFrame_builds r.1 _)
  · cases done
    exact pushFrame_builds w c

/-- Restoring only adds to the tables, and leaves the heap and the trail alone. -/
theorem restoreFrames_builds {w w' : Work} {l : List Frame} (done : restoreFrames backend w l = .ok w') :
    Builds w.m w'.m := by
  induction l generalizing w with
  | nil =>
    cases done
    exact Builds.refl _
  | cons f l ih =>
    cases first : choiceRestore backend w f.choice f.name f.arity with
    | error why =>
      rw [restoreFrames, List.foldlM_cons, first] at done
      cases done
    | ok v =>
      rw [restoreFrames, List.foldlM_cons, first] at done
      exact (choiceRestore_builds first).trans (ih done)

theorem lasting_upgrade (ver : Int32) : Lasting (thawUpgrade ver m) := by
  intro z stopped
  simp [thawUpgrade, stopped]

/-- The sections behind the frames, over the machine and the engine that came of those. -/
theorem follows_rest (ops : List OpDef) {w : Work} {c : Carried} (restored : c.restored backend = .ok w) :
    Follows
      (do
        let ops ← thawOps ops
        let e ← thawFrees w.e
        let m ← thawUnits w.m
        let m ← thawBigs m
        let m ← thawRats m
        let m ← thawUpgrade c.version m
        let m ← thawFlags m
        let e ← thawEnds e
        pure ({ m, e, ops, preds := w.preds } : Thawed))
      (do
        let _ ← thawOps []
        let _ ← thawFrees {}
        let _ ← thawUnits {}
        let bigs ← readOptional 66 (collect readBig)
        let rats ← readOptional 82 (collect readRat)
        let _ ← thawFlags {}
        let _ ← thawEnds {}
        pure { c with bigs, rats })
      (Makes backend) fun c => c.rebuild backend = none := by
  refine (alike_ops ops).bindFollows fun ops _ _ => ?_
  refine (alike_frees w.e).bindFollows fun e _ _ => ?_
  refine (alike_units w.m).bindFollows fun m _ units => ?_
  refine (alike_bigs m).bindFollows fun _ bigs made => ?_
  subst made
  refine (alike_rats _).bindFollows fun _ rats made => ?_
  subst made
  rw [foldl_bigEntry, foldl_ratEntry]
  have heap : m.heap = c.words := by
    obtain ⟨⟨made, grows⟩, _⟩ := restoreFrames_builds restored
    rw [units]
    exact grows.heap
  have boxes : m.bigs = w.m.bigs := by rw [units]
  have rebuilt : ({ c with bigs, rats } : Carried).rebuild backend =
      (c.upgraded (w.m.bigs ++ bigs)).map fun r => { w.m with bigs := r.1, heap := r.2, rats := w.m.rats ++ rats } := by
    have same : ({ c with bigs, rats } : Carried).restored backend = .ok w := restored
    rw [Carried.rebuild, same]
    rfl
  refine (follows_upgrade _ c.version).alone (fun m' up => ?_) (fun m' => ?_) ?_ fun fails => ?_
  · simp only [heap, boxes] at up
    refine (alike_flags m').bindFollows fun m'' _ flags => ?_
    refine (alike_ends e).bindFollows fun e' _ _ => ?_
    refine (Alike.pure ?_).follows
    refine ⟨{ w.m with bigs := m'.bigs, heap := m'.heap, rats := w.m.rats ++ rats }, ?_, ?_⟩
    · rw [rebuilt, Carried.upgraded, up.1]
      rfl
    · obtain ⟨_, kept⟩ := up
      show m'' = _
      rw [flags, kept, units]
  · exact lasting_optional.bind fun _ => lasting_optional.bind fun _ => Lasting.pure _
  · exact lasting_optional.bind fun _ => lasting_optional.bind fun _ => Lasting.pure _
  · simp only [heap, boxes] at fails
    refine Yields.bind fun _ => Yields.bind fun _ => Yields.pure ?_
    rw [rebuilt, Carried.upgraded, if_pos fails.1, fails.2]
    rfl

theorem follows_sections (strtod : Bytes → UInt64 × Nat) (backend : Backend) (ops : List OpDef) :
    Follows (thawSections strtod backend ops) (sections strtod) (Makes backend) fun c => c.rebuild backend = none := by
  refine (Alike.refl thawVersion).bindFollows fun version _ same => ?_
  subst same
  refine (alike_atoms {}).bindFollows fun _ atoms made => ?_
  subst made
  refine (alike_functors _).bindFollows fun _ functors made => ?_
  subst made
  refine (alike_floats _).bindFollows fun _ floats made => ?_
  subst made
  refine (alike_heap _).bindFollows fun _ words made => ?_
  subst made
  refine (alike_trail _).bindFollows fun _ trail made => ?_
  subst made
  refine (Alike.refl thawEngine).bindFollows fun engine _ same => ?_
  subst same
  rw [sections_bare]
  refine (follows_choices _).bind (fun w frames restored => ?_) (fun w => ?_) (fun frames => ?_) fun frames failed => ?_
  · exact follows_rest (c := ⟨version, atoms, functors, floats, words, trail, engine, frames, [], []⟩) ops restored
  · exact lasting_optional.bind fun _ => lasting_optional.bind fun _ => lasting_optional.bind fun _ =>
      lasting_optional.bind fun _ => lasting_optional.bind fun _ => (lasting_upgrade _ _).bind fun _ =>
      lasting_optional.bind fun _ => lasting_optional.bind fun _ => Lasting.pure _
  · exact lasting_optional.bind fun _ => lasting_optional.bind fun _ => lasting_optional.bind fun _ =>
      lasting_optional.bind fun _ => lasting_optional.bind fun _ => lasting_optional.bind fun _ =>
      lasting_optional.bind fun _ => Lasting.pure _
  · obtain ⟨why, failed⟩ := failed
    iterate 7 refine Yields.bind fun _ => ?_
    refine Yields.pure ?_
    unfold Carried.rebuild Carried.restored
    exact failed ▸ rfl

/-- A machine under other flags. -/
def Machine.flagged (m : Machine) (chars flags : Int32) : Machine := { m with textChars := chars, fflags := flags }

/-- A thaw accepts a text exactly when its sections can be read and make a machine, and then it
is that machine with the vocabulary filled in. -/
theorem thaw_carried {voc : Vocabulary} {ops : List OpDef} {text : Bytes} {t : Thawed}
    (accepted : thaw strtod backend voc ops text = .ok t) :
    ∃ c m chars flags, carried strtod text = some c ∧ c.rebuild backend = some m ∧
      t.m = (m.flagged chars flags).idsFill voc := by
  have follows := follows_sections strtod backend ops { rest := cString text }
  unfold thaw at accepted
  simp only at accepted
  unfold carried
  simp only
  revert accepted follows
  generalize thawSections strtod backend ops { rest := cString text } = r
  generalize sections strtod { rest := cString text } = q
  intro accepted follows
  unfold finish at accepted
  split at accepted
  · cases accepted
  · cases accepted
  rename_i going
  split at accepted
  · cases accepted
  rename_i good
  cases accepted
  rcases follows with ⟨place, m, makes, same⟩ | ⟨stopped, _⟩
  · refine ⟨q.1, m, r.1.m.textChars, r.1.m.fflags, ?_, makes, ?_⟩
    · rw [← place]
      simp [going, good]
    · have flagged : r.1.m = m.flagged r.1.m.textChars r.1.m.fflags := same
      exact congrArg (Machine.idsFill voc) flagged
  · rw [going] at stopped
    cases stopped

theorem carried_thaw (voc : Vocabulary) (ops : List OpDef) {text : Bytes} {c : Carried} {m : Machine}
    (reads : carried strtod text = some c) (makes : c.rebuild backend = some m) :
    ∃ t chars flags, thaw strtod backend voc ops text = .ok t ∧ t.m = (m.flagged chars flags).idsFill voc := by
  have follows := follows_sections strtod backend ops { rest := cString text }
  unfold carried at reads
  simp only at reads
  unfold thaw
  simp only
  revert reads follows
  generalize thawSections strtod backend ops { rest := cString text } = r
  generalize sections strtod { rest := cString text } = q
  intro reads follows
  split at reads
  · rename_i good
    cases reads
    rcases follows with ⟨place, m', makes', same⟩ | ⟨_, stopped | fails⟩
    · cases Option.some.inj (makes.symm.trans makes')
      refine ⟨{ r.1 with m := r.1.m.idsFill voc }, r.1.m.textChars, r.1.m.fflags, ?_, ?_⟩
      · have going : q.2.stop = none := by simpa using good.1
        simp [finish, place, going, good.2]
      · have flagged : r.1.m = m.flagged r.1.m.textChars r.1.m.fflags := same
        exact congrArg (Machine.idsFill voc) flagged
    · rw [good.1] at stopped
      cases stopped
    · rw [makes] at fails
      cases fails
  · cases reads

end

end Cocolog.State
