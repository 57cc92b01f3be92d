import Cocolog.Zigurat.Conn
import Mathlib.Data.UInt

/-! The fields of the protocol: a descriptor byte and the value it announces. The writers, the
readers and the layout the two sides agree on. -/

set_option linter.all false

namespace Cocolog.Zigurat

open Cocolog.Lib.Intake

def tdbIsNull : UInt8 := 0x80
def tdbScaleMask : UInt8 := 0x60
def tdbScaleAtom : UInt8 := 0x00
def tdbScaleByte : UInt8 := 0x20
def tdbScaleWord : UInt8 := 0x40
def tdbScaleDwrd : UInt8 := 0x60
def tdbTypeMask : UInt8 := 0x07
def tdbBool : UInt8 := 0x09
def tdbInt : UInt8 := 0x0B
def tdbLong : UInt8 := 0x0C
def tdbDouble : UInt8 := 0x1C
def tdbString : UInt8 := 0x29
def tdbText : UInt8 := 0x49

def zgMaxString : Nat := 255
def zgMaxText : Nat := 65535

/-! ## Writing parameters -/

def wrField (tdb : UInt8) (v n : Nat) : Talk Conn Unit := do
  wrU8 tdb
  wrBe n v

def zgWriteBool (v : Bool) : Talk Conn Unit := wrField tdbBool (if v then 1 else 0) 1

def zgWriteInt (v : Int32) : Talk Conn Unit := wrField tdbInt v.toUInt32.toNat 4

def zgWriteLong (v : Int64) : Talk Conn Unit := wrField tdbLong v.toUInt64.toNat 8

/-- A double is its bits. -/
def zgWriteDouble (v : UInt64) : Talk Conn Unit := wrField tdbDouble v.toNat 8

def wrStdString (s : List UInt8) : Talk Conn Unit :=
  if zgMaxString < s.length then say "a String is limited to 255 bytes" else do
    wrU8 (UInt8.ofNat s.length)
    if s.length ≠ 0 then wr s else pure ()

def wrStdText (s : List UInt8) : Talk Conn Unit :=
  if zgMaxText < s.length then say "a Text is limited to 65535 bytes" else do
    wrU16 s.length
    if s.length ≠ 0 then wr s else pure ()

def zgWriteString (s : List UInt8) : Talk Conn Unit :=
  if zgMaxString < s.length then say "a String is limited to 255 bytes" else do
    wrU8 tdbString
    wrStdString s

def zgWriteText (s : List UInt8) : Talk Conn Unit :=
  if zgMaxText < s.length then say "a Text is limited to 65535 bytes" else do
    wrU8 tdbText
    wrStdText s

/-- The loop of `zg_write_dvector`. -/
def wrElements : List UInt64 → Talk Conn Unit
  | [] => pure ()
  | v :: vs => do
    wrU8 tdbDouble
    wrBe 8 v.toNat
    wrElements vs

def zgWriteDvector (vs : List UInt64) : Talk Conn Unit := do
  wrU8 (tdbScaleDwrd ||| tdbDouble)
  wrBe 4 vs.length
  wrElements vs

/-! ## Reading fields -/

/-- What a reader hands its caller. -/
inductive Value where
  | null
  | bool (v : Bool)
  | int (v : Int32)
  | long (v : Int64)
  | double (v : UInt64)
  | text (s : List UInt8)
  | doubles (vs : List UInt64)
  /-- So many elements follow, each a whole field of its own. -/
  | vector (veclen : Nat)
  | skipped
deriving DecidableEq

/-- The descriptor byte, and whether it says that no value follows. -/
def fieldHead : Talk Conn (UInt8 × Bool) := do
  let tdb ← rdU8
  pure (UInt8.ofNat tdb, UInt8.ofNat tdb &&& tdbIsNull != 0)

/-- A field's head, and its value unless the field is null. -/
def unlessNull (null : α) (value : UInt8 → Talk Conn α) : Talk Conn α := do
  let (tdb, isNull) ← fieldHead
  if isNull then pure null else value tdb

def rdScalar (n : Nat) : Talk Conn (Option Nat) :=
  unlessNull none fun _ => do
    let v ← rdBe n
    pure (some v)

def zgReadBool : Talk Conn Value := do
  match ← rdScalar 1 with
  | none => pure .null
  | some b => pure (.bool (b != 0))

def zgReadInt : Talk Conn Value := do
  match ← rdScalar 4 with
  | none => pure .null
  | some v => pure (.int (UInt32.ofNat v).toInt32)

def zgReadLong : Talk Conn Value := do
  match ← rdScalar 8 with
  | none => pure .null
  | some v => pure (.long (UInt64.ofNat v).toInt64)

def zgReadDouble : Talk Conn Value := do
  match ← rdScalar 8 with
  | none => pure .null
  | some v => pure (.double (UInt64.ofNat v))

/-- The bytes a length announced, into a buffer of `cap` with its closing NUL. -/
def rdInto (n cap : Nat) (what : String) : Talk Conn (List UInt8) :=
  if cap < n + 1 then do
    -- the bytes still have to come off the wire
    skip n
    say what
  else if n ≠ 0 then rd n
  else pure []

def rdStdString (cap : Nat) : Talk Conn (List UInt8) := do
  let n ← rdU8
  rdInto n cap "the answer does not fit in the buffer given"

def rdStdText (cap : Nat) : Talk Conn (List UInt8) := do
  let n ← rdU16
  rdInto n cap "the Text does not fit in the buffer given"

def zgReadString (cap : Nat) : Talk Conn Value :=
  unlessNull .null fun _ => do
    let s ← rdStdString cap
    pure (.text s)

def zgReadText (cap : Nat) : Talk Conn Value :=
  unlessNull .null fun _ => do
    let s ← rdStdText cap
    pure (.text s)

/-- `granted` says whether there is memory for the text. -/
def zgReadTextAlloc (granted : Bool) : Talk Conn Value :=
  unlessNull .null fun _ => do
    let n ← rdU16
    if granted then do
      let s ← (if n ≠ 0 then rd n else pure [])
      pure (.text s)
    else fun c => say "out of memory reading a Text" (skip n c).2

/-- One element of a vector of doubles, whatever its descriptor says. -/
def rdElement : Talk Conn UInt64 := do
  let _ ← rdU8
  let v ← rdBe 8
  pure (UInt64.ofNat v)

def zgReadDvector (cap : Nat) : Talk Conn Value :=
  unlessNull .null fun tdb =>
    if tdb &&& tdbScaleMask ≠ tdbScaleDwrd then say "the field is not a vector" else do
      let count ← rdU32
      if cap < count then say "a vector wider than the caller's buffer" else do
        let vs ← repeated rdElement count
        pure (.doubles vs)

/-- The value of a field, each element of a vector skipped by `field`. -/
def skipValue (field : Talk Conn Unit) (tdb : UInt8) : Talk Conn Unit :=
  let esize := if tdb &&& tdbTypeMask ≠ 0 then 2 ^ ((tdb &&& tdbTypeMask).toNat - 1) else 0
  if tdb &&& tdbScaleMask = tdbScaleAtom then skip esize
  else if tdb &&& tdbScaleMask = tdbScaleByte then do
    let n ← rdU8
    skip (n * esize)
  else if tdb &&& tdbScaleMask = tdbScaleWord then do
    let n ← rdU16
    skip (n * esize)
  else if tdb &&& tdbScaleMask = tdbScaleDwrd then do
    let n ← rdU32
    let _ ← repeated field n
    pure ()
  else say "a field arrived with a type this client does not know"

/-- `zg_skip_field`, so many calls deep at most. -/
def skipField : Nat → Talk Conn Unit
  | 0 => say ""
  | depth + 1 => unlessNull () (skipValue (skipField depth))

/-- Each call takes a byte before the next, so that more calls than bytes to come are never
needed. -/
def zgSkipField : Talk Conn Unit := fun c => skipField (c.coming.length + 1) c

/-- One field of any type; of a vector the head only. -/
def zgReadField (cap : Nat) : Talk Conn Value :=
  unlessNull .null fun tdb =>
    if tdb = tdbBool then do
      let b ← rdBe 1
      pure (.long (if b ≠ 0 then 1 else 0))
    else if tdb = tdbInt then do
      let v ← rdBe 4
      pure (.long (UInt32.ofNat v).toInt32.toInt64)
    else if tdb = tdbLong then do
      let v ← rdBe 8
      pure (.long (UInt64.ofNat v).toInt64)
    else if tdb = tdbDouble then do
      let v ← rdBe 8
      pure (.double (UInt64.ofNat v))
    else if tdb = tdbString then do
      let s ← rdStdString cap
      pure (.text s)
    else if tdb = tdbText then do
      let s ← rdStdText cap
      pure (.text s)
    else if tdb &&& tdbScaleMask = tdbScaleDwrd then do
      let n ← rdU32
      pure (.vector n)
    else say "a field arrived with a type this client does not know"

/-! ## The layout -/

inductive Shape where
  | bool
  | int
  | long
  | double
  | string
  | text
  | vector (of : Shape)
deriving DecidableEq

/-- The descriptor of a type; a vector's is the scale of vectors over its elements'. -/
def Shape.tdb : Shape → UInt8
  | bool => tdbBool
  | int => tdbInt
  | long => tdbLong
  | double => tdbDouble
  | string => tdbString
  | text => tdbText
  | vector of => tdbScaleDwrd ||| of.tdb

inductive Field where
  | null (s : Shape)
  | bool (v : Bool)
  | int (v : Int32)
  | long (v : Int64)
  | double (v : UInt64)
  | string (s : List UInt8)
  | text (s : List UInt8)
  | vector (of : Shape) (fs : List Field)

namespace Field

def shape : Field → Shape
  | null s => s
  | bool _ => .bool
  | int _ => .int
  | long _ => .long
  | double _ => .double
  | string _ => .string
  | text _ => .text
  | vector of _ => .vector of

/-- The lengths are within what their counts can say, and the elements are of one type. -/
inductive Laid : Field → Prop where
  | null (s : Shape) : Laid (null s)
  | bool (v : Bool) : Laid (bool v)
  | int (v : Int32) : Laid (int v)
  | long (v : Int64) : Laid (long v)
  | double (v : UInt64) : Laid (double v)
  | string {s : List UInt8} (short : s.length ≤ zgMaxString) : Laid (string s)
  | text {s : List UInt8} (short : s.length ≤ zgMaxText) : Laid (text s)
  | vector {of : Shape} {fs : List Field} (counted : fs.length < 2 ^ 32)
      (alike : ∀ f ∈ fs, f.shape = of) (each : ∀ f ∈ fs, Laid f) : Laid (vector of fs)

/-- A vector's descriptor and count. -/
def vectorHead (of : Shape) (n : Nat) : List UInt8 := (Shape.vector of).tdb :: toBe 4 n

mutual
def bytes : Field → List UInt8
  | null s => [s.tdb ||| tdbIsNull]
  | bool v => tdbBool :: toBe 1 (if v then 1 else 0)
  | int v => tdbInt :: toBe 4 v.toUInt32.toNat
  | long v => tdbLong :: toBe 8 v.toUInt64.toNat
  | double v => tdbDouble :: toBe 8 v.toNat
  | string s => tdbString :: (toBe 1 s.length ++ s)
  | text s => tdbText :: (toBe 2 s.length ++ s)
  | vector of fs => vectorHead of fs.length ++ layout fs

/-- Fields one after the other. -/
def layout : List Field → List UInt8
  | [] => []
  | f :: fs => f.bytes ++ layout fs
end

theorem layout_eq (fs : List Field) : layout fs = fs.flatMap bytes := by
  induction fs with
  | nil => rw [layout]; rfl
  | cons f fs ih => rw [layout, ih, List.flatMap_cons]

theorem layout_append (fs gs : List Field) : layout (fs ++ gs) = layout fs ++ layout gs := by
  rw [layout_eq, layout_eq, layout_eq, List.flatMap_append]

def isNull : Field → Bool
  | null _ => true
  | _ => false

end Field

/-! ## Descriptors -/

namespace Shape

theorem vector_tdb (s : Shape) : (vector s).tdb ∈ [0x69, 0x6B, 0x6C, 0x7C] := by
  induction s with
  | vector s ih =>
    rw [tdb]
    generalize (vector s).tdb = b at *
    simp only [List.mem_cons, List.not_mem_nil, or_false] at ih
    rcases ih with rfl | rfl | rfl | rfl <;> decide
  | _ => decide

theorem tdb_mem (s : Shape) : s.tdb ∈ [0x09, 0x0B, 0x0C, 0x1C, 0x29, 0x49, 0x69, 0x6B, 0x6C, 0x7C] := by
  cases s with
  | vector s => exact List.mem_append_right [0x09, 0x0B, 0x0C, 0x1C, 0x29, 0x49] (vector_tdb s)
  | _ => decide

theorem tdb_notNull (s : Shape) : s.tdb &&& tdbIsNull = 0 := by
  have all : [0x09, 0x0B, 0x0C, 0x1C, 0x29, 0x49, 0x69, 0x6B, 0x6C, 0x7C].all
    (fun b : UInt8 => b &&& tdbIsNull == 0) = true := by decide +kernel
  exact eq_of_beq (List.all_eq_true.mp all _ s.tdb_mem)

theorem tdb_null (s : Shape) : (s.tdb ||| tdbIsNull) &&& tdbIsNull ≠ 0 := by
  have all : [0x09, 0x0B, 0x0C, 0x1C, 0x29, 0x49, 0x69, 0x6B, 0x6C, 0x7C].all
    (fun b : UInt8 => (b ||| tdbIsNull) &&& tdbIsNull != 0) = true := by decide +kernel
  exact bne_iff_ne.mp (List.all_eq_true.mp all _ s.tdb_mem)

theorem vector_scale (s : Shape) : (vector s).tdb &&& tdbScaleMask = tdbScaleDwrd := by
  have all : [0x69, 0x6B, 0x6C, 0x7C].all (fun b => b &&& tdbScaleMask == tdbScaleDwrd) = true := by decide +kernel
  exact eq_of_beq (List.all_eq_true.mp all _ s.vector_tdb)

/-- A vector is none of the types a reader takes by their descriptors. -/
theorem vector_other (s : Shape) :
    ∀ b ∈ [tdbBool, tdbInt, tdbLong, tdbDouble, tdbString, tdbText], (vector s).tdb ≠ b := by
  have all : [0x69, 0x6B, 0x6C, 0x7C].all (fun v =>
    [tdbBool, tdbInt, tdbLong, tdbDouble, tdbString, tdbText].all (v != ·)) = true := by decide +kernel
  exact fun b mem => bne_iff_ne.mp (List.all_eq_true.mp (List.all_eq_true.mp all _ s.vector_tdb) b mem)

end Shape

/-! ## What the parts of a field take -/

theorem rdByte_exact (b : UInt8) : Exact Conn.source rdU8 [b] (some b.toNat) := by
  have read := rdBe_exact [b]
  rwa [show ofBe [b] = b.toNat from by simp [ofBe]] at read

theorem fieldHead_exact (b : UInt8) :
    Exact Conn.source fieldHead [b] (some (b, b &&& tdbIsNull != 0)) := by
  have done := (rdByte_exact b).bind
    (q := fun tdb => pure (UInt8.ofNat tdb, UInt8.ofNat tdb &&& tdbIsNull != 0)) (.done _)
  rwa [UInt8.ofNat_toNat] at done

variable {k : UInt8 → Talk Conn α} {v : α} {a : Option α} {w : List UInt8}

theorem unlessNull_null (s : Shape) :
    Exact Conn.source (unlessNull v k) [s.tdb ||| tdbIsNull] (some v) := by
  refine (fieldHead_exact (s.tdb ||| tdbIsNull)).bind (v := []) ?_
  dsimp only
  rw [if_pos (by simpa using s.tdb_null)]
  exact .done v

theorem unlessNull_value {s : Shape} (next : Exact Conn.source (k s.tdb) w a) :
    Exact Conn.source (unlessNull v k) (s.tdb :: w) a := by
  refine (fieldHead_exact s.tdb).bind (v := w) ?_
  dsimp only
  rw [if_neg (by simpa using s.tdb_notNull)]
  exact next

theorem rdInto_exact (s : List UInt8) (cap : Nat) (what : String) :
    Exact Conn.source (rdInto s.length cap what) s (if s.length < cap then some s else none) := by
  rw [rdInto]
  by_cases fits : s.length < cap
  · rw [if_neg (by omega), if_pos fits]
    split
    · exact rd_exact s
    · rename_i empty
      rw [List.length_eq_zero_iff.mp (not_not.mp empty)]
      exact .done []
  · rw [if_pos (by omega), if_neg fits]
    have skipped := (skip_exact (w := s) rfl).bind
      (q := fun _ => (say what : Talk Conn (List UInt8))) (say_exact what)
    rwa [List.append_nil] at skipped

theorem rdStdString_exact {s : List UInt8} (short : s.length ≤ zgMaxString) (cap : Nat) :
    Exact Conn.source (rdStdString cap) (toBe 1 s.length ++ s)
      (if s.length < cap then some s else none) :=
  (rdBe_toBe 1 (by rw [zgMaxString] at short; omega)).bind (rdInto_exact s cap _)

theorem rdStdText_exact {s : List UInt8} (short : s.length ≤ zgMaxText) (cap : Nat) :
    Exact Conn.source (rdStdText cap) (toBe 2 s.length ++ s)
      (if s.length < cap then some s else none) :=
  (rdBe_toBe 2 (by rw [zgMaxText] at short; omega)).bind (rdInto_exact s cap _)

/-! ## What the writers send -/

theorem Lays.none {p : Talk Conn α} (refuses : ∀ c, (p c).1 = none) (w : List UInt8) : Lays p w :=
  fun c answered => absurd (refuses c) answered

theorem Lays.bind {β : Type} {p : Talk Conn α} {q : α → Talk Conn β} {w' : List UInt8}
    (first : Lays p w) (next : ∀ a, Lays (q a) w') : Lays (p >>= q) (w ++ w') := by
  intro c answered
  cases h : (p c).1 with
  | none => exact absurd (by rw [bind_none q h]) answered
  | some a =>
    rw [bind_some q h] at answered ⊢
    rw [next a _ answered, first c (by rw [h]; exact Option.some_ne_none a), List.append_assoc]

theorem wrNow_sends (w : List UInt8) (c : Conn) (answered : (wrNow w c).1 ≠ none) :
    (wrNow w c).2.wire = c.wire ++ w ∧ (wrNow w c).2.out = c.out := by
  rw [wrNow] at answered ⊢
  split at answered
  · exact absurd rfl answered
  · rename_i open'
    rw [if_neg open']
    by_cases goes : Conn.goes c.sends w = true
    · obtain ⟨l, eq⟩ := (wrNowLoop_spec c.sends w c).1 goes
      rw [eq]
      exact ⟨rfl, rfl⟩
    · exact absurd ((wrNowLoop_spec c.sends w c).2 goes).1 answered

theorem flushOut_sends (c : Conn) (answered : (flushOut c).1 ≠ none) :
    (flushOut c).2.wire = c.wire ++ c.out ∧ (flushOut c).2.out = [] := by
  rw [flushOut] at answered ⊢
  split at answered
  · rename_i empty
    rw [if_pos empty]
    exact ⟨by rw [empty, List.append_nil], empty⟩
  · rename_i some'
    rw [if_neg some']
    exact wrNow_sends c.out { c with out := [] } answered

theorem wr_lays (w : List UInt8) : Lays (wr w) w := by
  intro c answered
  rw [wr] at answered ⊢
  split at answered
  · exact absurd rfl answered
  rename_i open'
  rw [if_neg open']
  split at answered
  · rename_i long
    rw [if_pos long]
    cases h : (flushOut c).1 with
    | none => exact absurd (by rw [bind_none _ h]) answered
    | some u =>
      rw [bind_some _ h] at answered ⊢
      obtain ⟨wire, out⟩ := flushOut_sends c (by rw [h]; exact Option.some_ne_none u)
      obtain ⟨wire', out'⟩ := wrNow_sends w _ answered
      rw [wire', out', wire, out, List.append_nil]
  rename_i held
  rw [if_neg held]
  split at answered
  · rename_i full
    rw [if_pos full]
    cases h : (flushOut c).1 with
    | none => exact absurd (by rw [bind_none _ h]) answered
    | some u =>
      rw [bind_some _ h]
      obtain ⟨wire, out⟩ := flushOut_sends c (by rw [h]; exact Option.some_ne_none u)
      simp only [hold, wire, out, List.nil_append]
  · rename_i room
    rw [if_neg room]
    exact (List.append_assoc _ _ _).symm

theorem wrBe_lays {n : Nat} (fits : n ≤ 16) (v : Nat) : Lays (wrBe n v) (toBe n v) := by
  rw [wrBe, if_neg (by omega)]
  exact wr_lays _

theorem wrField_lays (tdb : UInt8) (v : Nat) {n : Nat} (fits : n ≤ 16) :
    Lays (wrField tdb v n) (tdb :: toBe n v) :=
  (wr_lays [tdb]).bind fun _ => wrBe_lays fits v

/-- The bytes a length announces. -/
theorem wrBytes_lays (s : List UInt8) : Lays (if s.length ≠ 0 then wr s else pure ()) s := by
  split
  · exact wr_lays s
  · rename_i empty
    rw [List.length_eq_zero_iff.mp (not_not.mp empty)]
    intro c _
    exact (List.append_nil _).symm

theorem wrElements_lays (vs : List UInt64) :
    Lays (wrElements vs) (Field.layout (vs.map .double)) := by
  induction vs with
  | nil =>
    intro c _
    exact (List.append_nil _).symm
  | cons v vs ih =>
    exact (wr_lays [tdbDouble]).bind fun _ => (wrBe_lays (by decide) v.toNat).bind fun _ => ih

/-- Each writer lays its value out as a field. -/
theorem zgWrite_lays :
    (∀ v, Lays (zgWriteBool v) (Field.bool v).bytes) ∧
    (∀ v, Lays (zgWriteInt v) (Field.int v).bytes) ∧
    (∀ v, Lays (zgWriteLong v) (Field.long v).bytes) ∧
    (∀ v, Lays (zgWriteDouble v) (Field.double v).bytes) ∧
    (∀ s, Lays (zgWriteString s) (Field.string s).bytes) ∧
    (∀ s, Lays (zgWriteText s) (Field.text s).bytes) ∧
    ∀ vs, Lays (zgWriteDvector vs) (Field.vector .double (vs.map .double)).bytes := by
  refine ⟨fun v => ?_, fun v => ?_, fun v => ?_, fun v => ?_, fun s => ?_, fun s => ?_, fun vs => ?_⟩
  · exact wrField_lays tdbBool _ (by decide)
  · exact wrField_lays tdbInt _ (by decide)
  · exact wrField_lays tdbLong _ (by decide)
  · exact wrField_lays tdbDouble _ (by decide)
  · rw [zgWriteString, wrStdString]
    split
    · exact .none (fun _ => rfl) _
    · exact (wr_lays [tdbString]).bind fun _ =>
        (wr_lays [UInt8.ofNat s.length]).bind fun _ => wrBytes_lays s
  · rw [zgWriteText, wrStdText]
    split
    · exact .none (fun _ => rfl) _
    · exact (wr_lays [tdbText]).bind fun _ =>
        (wrBe_lays (by decide) s.length).bind fun _ => wrBytes_lays s
  · have laid := (wr_lays [tdbScaleDwrd ||| tdbDouble]).bind fun _ =>
      (wrBe_lays (n := 4) (by decide) vs.length).bind fun _ => wrElements_lays vs
    rw [Field.bytes, List.length_map]
    exact laid

end Cocolog.Zigurat
