import Cocolog.Zigurat.Fields

/-! Readers and the fields they are put to: what each takes of the stream and what it answers,
for one field and for a sequence of them. -/

set_option linter.all false

namespace Cocolog.Zigurat

open Cocolog.Lib.Intake

inductive Reader where
  | bool
  | int
  | long
  | double
  | string (cap : Nat)
  | text (cap : Nat)
  | textAlloc (granted : Bool)
  | dvector (cap : Nat)
  | skip
  | field (cap : Nat)

namespace Reader

def read : Reader → Talk Conn Value
  | bool => zgReadBool
  | int => zgReadInt
  | long => zgReadLong
  | double => zgReadDouble
  | string cap => zgReadString cap
  | text cap => zgReadText cap
  | textAlloc granted => zgReadTextAlloc granted
  | dvector cap => zgReadDvector cap
  | skip => do
    let _ ← zgSkipField
    pure .skipped
  | field cap => zgReadField cap

/-- The one type the reader takes, if it does not take all. -/
def shape : Reader → Option Shape
  | bool => some .bool
  | int => some .int
  | long => some .long
  | double => some .double
  | string _ => some .string
  | text _ => some .text
  | textAlloc _ => some .text
  | dvector _ => some (.vector .double)
  | skip => none
  | field _ => none

def Admits (r : Reader) (f : Field) : Prop := ∀ s ∈ r.shape, f.shape = s

/-- The reader looks at the type and does not take it. -/
def Refuses (r : Reader) (f : Field) : Prop :=
  (∃ cap, r = .dvector cap) ∧ f.isNull = false ∧ ∀ of, f.shape ≠ .vector of

end Reader

/-- The bits of a double. -/
def Field.bits : Field → UInt64
  | double v => v
  | _ => 0

namespace Reader

/-- What the reader is to answer to a field of a type it takes. -/
def answer : Reader → Field → Option Value
  | skip, _ => some .skipped
  | _, .null _ => some .null
  | bool, .bool v => some (.bool v)
  | int, .int v => some (.int v)
  | long, .long v => some (.long v)
  | double, .double v => some (.double v)
  | string cap, .string s => if s.length < cap then some (.text s) else none
  | text cap, .text s => if s.length < cap then some (.text s) else none
  | textAlloc granted, .text s => if granted then some (.text s) else none
  | dvector cap, .vector _ fs => if fs.length ≤ cap then some (.doubles (fs.map Field.bits)) else none
  | field _, .bool v => some (.long (if v then 1 else 0))
  | field _, .int v => some (.long v.toInt64)
  | field _, .long v => some (.long v)
  | field _, .double v => some (.double v)
  | field cap, .string s => if s.length < cap then some (.text s) else none
  | field cap, .text s => if s.length < cap then some (.text s) else none
  | field _, .vector _ fs => some (.vector fs.length)
  | _, _ => none

/-- The bytes that are the reader's to take: of a vector `zg_read_field` takes the head. -/
def takes : Reader → Field → List UInt8
  | field _, .vector of fs => Field.vectorHead of fs.length
  | _, f => f.bytes

/-- The fields that then stand before the next one. -/
def after : Reader → Field → List Field
  | field _, .vector _ fs => fs
  | _, _ => []

theorem takes_after (r : Reader) (f : Field) : r.takes f ++ Field.layout (r.after f) = f.bytes := by
  unfold takes after
  split <;> simp [Field.bytes, Field.layout]

end Reader

/-! ## What each reader takes -/

variable {f : Field} {cap : Nat}

theorem rdScalar_value {s : Shape} {n v : Nat} (below : v < 256 ^ n) :
    Exact Conn.source (rdScalar n) (s.tdb :: toBe n v) (some (some v)) :=
  unlessNull_value ((rdBe_toBe n below).map some)

theorem rdScalar_null (s : Shape) (n : Nat) :
    Exact Conn.source (rdScalar n) [s.tdb ||| tdbIsNull] (some none) :=
  unlessNull_null s

/-- What a scalar reader makes of a scalar. -/
theorem scalar_exact {s : Shape} {n v : Nat} {q : Option Nat → Talk Conn Value} {x : Value}
    (below : v < 256 ^ n) (value : q (some v) = pure x) :
    Exact Conn.source (rdScalar n >>= q) (s.tdb :: toBe n v) (some x) := by
  have done := (rdScalar_value (s := s) below).bind (q := q) (v := []) (b := some x)
    (by rw [value]; exact .done x)
  rwa [List.append_nil] at done

theorem scalar_null {s : Shape} {n : Nat} {q : Option Nat → Talk Conn Value}
    (value : q none = pure .null) :
    Exact Conn.source (rdScalar n >>= q) [s.tdb ||| tdbIsNull] (some .null) :=
  (rdScalar_null s n).bind (q := q) (v := []) (by rw [value]; exact .done _)

theorem zgReadDvector_null (s : Shape) :
    Exact Conn.source (zgReadDvector cap) (Field.null s).bytes (some .null) := by
  rw [Field.bytes]
  exact unlessNull_null s

/-- Of a field that is no vector nothing but the descriptor is taken. -/
theorem zgReadDvector_other {s : Shape} (other : ∀ of, s ≠ .vector of) :
    Exact Conn.source (zgReadDvector cap) [s.tdb] none := by
  refine unlessNull_value ?_
  rw [if_pos]
  · exact say_exact _
  · cases s with
    | vector of => exact absurd rfl (other of)
    | _ => decide

/-- The head of a vector read, and what becomes of its elements. -/
theorem zgReadDvector_counted {of : Shape} {count : Nat} (counted : count < 2 ^ 32) {w : List UInt8}
    {a : Option Value}
    (next : Exact Conn.source
      (if cap < count then say "a vector wider than the caller's buffer" else do
        let vs ← repeated rdElement count
        pure (Value.doubles vs) : Talk Conn Value) w a) :
    Exact Conn.source (zgReadDvector cap) (Field.vectorHead of count ++ w) a := by
  refine unlessNull_value (s := .vector of) (w := toBe 4 count ++ w) ?_
  rw [if_neg (by simp [Shape.vector_scale])]
  exact (rdBe_toBe 4 counted).bind next

/-- Of a vector too wide for the caller's buffer nothing but the head is taken. -/
theorem zgReadDvector_wide {of : Shape} {count : Nat} (counted : count < 2 ^ 32) (wide : cap < count) :
    Exact Conn.source (zgReadDvector cap) (Field.vectorHead of count) none := by
  have head : Exact Conn.source (zgReadDvector cap) (Field.vectorHead of count ++ []) none :=
    zgReadDvector_counted counted (by rw [if_pos wide]; exact say_exact _)
  rwa [List.append_nil] at head

theorem rdElement_exact (b : UInt8) {w : List UInt8} (eight : w.length = 8) :
    Exact Conn.source rdElement (b :: w) (some (UInt64.ofNat (ofBe w))) := by
  have value := (rdBe_exact w).map UInt64.ofNat
  rw [eight] at value
  exact (rdByte_exact b).bind (q := fun _ => do let v ← rdBe 8; pure (UInt64.ofNat v)) value

/-- Of any other vector the reader takes nine bytes an element, whatever they say. -/
theorem zgReadDvector_taken (of : Shape) {es : List (UInt8 × List UInt8)} (counted : es.length < 2 ^ 32)
    (fits : es.length ≤ cap) (eight : ∀ e ∈ es, e.2.length = 8) :
    Exact Conn.source (zgReadDvector cap)
      (Field.vectorHead of es.length ++ es.flatMap fun e => e.1 :: e.2)
      (some (.doubles (es.map fun e => UInt64.ofNat (ofBe e.2)))) := by
  refine zgReadDvector_counted counted ?_
  rw [if_neg (by omega)]
  exact (Exact.each fun e mem => rdElement_exact e.1 (eight e mem)).map Value.doubles

/-! ## Skipping -/

theorem fieldHead_takes : Takes Conn.source fieldHead := by
  intro c answered
  cases h : (rdU8 c).1 with
  | none => exact absurd (by rw [fieldHead, bind_none _ h]) answered
  | some b =>
    rw [fieldHead, bind_some _ h]
    exact rdBe_takes (by decide) c (by rw [← rdU8, h]; exact Option.some_ne_none b)

theorem fieldHead_falls : Falls Conn.source fieldHead := (rdBe_falls 1).bind fun _ => .done _

theorem skipValue_falls {field : Talk Conn Unit} (falls : Falls Conn.source field) (tdb : UInt8) :
    Falls Conn.source (skipValue field tdb) := by
  rw [skipValue]
  split
  · exact skip_falls _
  split
  · exact (rdBe_falls 1).bind fun _ => skip_falls _
  split
  · exact (rdBe_falls 2).bind fun _ => skip_falls _
  split
  · exact (rdBe_falls 4).bind fun n => (falls.each n).bind fun _ => .done ()
  · exact fun _ => le_rfl

theorem skipField_falls (depth : Nat) : Falls Conn.source (skipField depth) := by
  induction depth with
  | zero => exact fun _ => le_rfl
  | succ depth ih =>
    refine fieldHead_falls.bind fun x => ?_
    split
    split
    · exact .done ()
    · exact skipValue_falls ih _

theorem skipValue_agree {n : Nat} {field field' : Talk Conn Unit} (same : Agree Conn.source n field field')
    (falls : Falls Conn.source field) (tdb : UInt8) :
    Agree Conn.source n (skipValue field tdb) (skipValue field' tdb) := by
  rw [skipValue, skipValue]
  split
  · exact .refl _
  split
  · exact .refl _
  split
  · exact .refl _
  split
  · exact (Agree.refl _).bind (rdBe_falls 4) fun m => (same.each falls m).bind (falls.each m) fun _ => .refl _
  · exact .refl _

/-- More calls than bytes to come make no difference. -/
theorem skipField_agree {n : Nat} :
    ∀ {depth : Nat}, n ≤ depth → Agree Conn.source n (skipField n) (skipField depth) := by
  induction n with
  | zero => exact fun _ c none' => absurd none' (Nat.not_lt_zero _)
  | succ n ih =>
    intro depth deeper
    obtain ⟨depth, rfl⟩ := Nat.exists_eq_add_of_lt deeper
    refine Agree.bind_takes fieldHead_takes fun x => ?_
    split
    split
    · exact .refl _
    · exact skipValue_agree (ih (by omega)) (skipField_falls n) _

theorem skipValue_atom {field : Talk Conn Unit} {tdb : UInt8} {w : List UInt8}
    (atom : tdb &&& tdbScaleMask = tdbScaleAtom) (typed : tdb &&& tdbTypeMask ≠ 0)
    (size : w.length = 2 ^ ((tdb &&& tdbTypeMask).toNat - 1)) :
    Exact Conn.source (skipValue field tdb) w (some ()) := by
  rw [skipValue, if_pos atom, if_pos typed]
  exact skip_exact size

theorem skipValue_byte {field : Talk Conn Unit} {tdb : UInt8} {w : List UInt8}
    (scale : tdb &&& tdbScaleMask = tdbScaleByte) (typed : (tdb &&& tdbTypeMask).toNat = 1)
    (short : w.length ≤ zgMaxString) :
    Exact Conn.source (skipValue field tdb) (toBe 1 w.length ++ w) (some ()) := by
  have size : (if tdb &&& tdbTypeMask ≠ 0 then 2 ^ ((tdb &&& tdbTypeMask).toNat - 1) else 0) = 1 := by
    rw [if_pos (by rintro none'; rw [none'] at typed; cases typed), typed]
    rfl
  rw [skipValue, size, if_neg (by rw [scale]; decide), if_pos scale]
  refine (rdBe_toBe 1 (by rw [zgMaxString] at short; omega)).bind ?_
  exact skip_exact (Nat.mul_one _).symm

theorem skipValue_word {field : Talk Conn Unit} {tdb : UInt8} {w : List UInt8}
    (scale : tdb &&& tdbScaleMask = tdbScaleWord) (typed : (tdb &&& tdbTypeMask).toNat = 1)
    (short : w.length ≤ zgMaxText) :
    Exact Conn.source (skipValue field tdb) (toBe 2 w.length ++ w) (some ()) := by
  have size : (if tdb &&& tdbTypeMask ≠ 0 then 2 ^ ((tdb &&& tdbTypeMask).toNat - 1) else 0) = 1 := by
    rw [if_pos (by rintro none'; rw [none'] at typed; cases typed), typed]
    rfl
  rw [skipValue, size, if_neg (by rw [scale]; decide), if_neg (by rw [scale]; decide), if_pos scale]
  refine (rdBe_toBe 2 (by rw [zgMaxText] at short; omega)).bind ?_
  exact skip_exact (Nat.mul_one _).symm

theorem skipValue_vector {field : Talk Conn Unit} {of : Shape} {fs : List Field}
    (counted : fs.length < 2 ^ 32) (each : ∀ f ∈ fs, Exact Conn.source field f.bytes (some ())) :
    Exact Conn.source (skipValue field (Shape.vector of).tdb) (toBe 4 fs.length ++ Field.layout fs)
      (some ()) := by
  have scale := Shape.vector_scale of
  rw [skipValue, if_neg (by rw [scale]; decide), if_neg (by rw [scale]; decide),
    if_neg (by rw [scale]; decide), if_pos scale, Field.layout_eq]
  exact (rdBe_toBe 4 counted).bind ((Exact.each each).map fun _ => ())

theorem Field.bytes_pos (f : Field) : 0 < f.bytes.length := by
  cases f <;> simp [Field.bytes, Field.vectorHead]

theorem Field.bytes_le_layout {fs : List Field} (mem : f ∈ fs) :
    f.bytes.length ≤ (Field.layout fs).length := by
  rw [Field.layout_eq]
  exact (List.sublist_flatten_of_mem (List.mem_map_of_mem mem)).length_le

/-- The skipper takes a field whole, given calls enough. -/
theorem skipField_exact (laid : f.Laid) :
    ∀ {depth : Nat}, f.bytes.length ≤ depth + 1 →
      Exact Conn.source (skipField (depth + 1)) f.bytes (some ()) := by
  induction laid with
  | null s =>
    intro depth _
    rw [Field.bytes]
    exact unlessNull_null s
  | bool v =>
    intro depth _
    rw [Field.bytes]
    exact unlessNull_value (s := .bool) (skipValue_atom (by decide) (by decide) (toBe_length _ _))
  | int v =>
    intro depth _
    rw [Field.bytes]
    exact unlessNull_value (s := .int) (skipValue_atom (by decide) (by decide) (toBe_length _ _))
  | long v =>
    intro depth _
    rw [Field.bytes]
    exact unlessNull_value (s := .long) (skipValue_atom (by decide) (by decide) (toBe_length _ _))
  | double v =>
    intro depth _
    rw [Field.bytes]
    exact unlessNull_value (s := .double) (skipValue_atom (by decide) (by decide) (toBe_length _ _))
  | string short =>
    intro depth _
    rw [Field.bytes]
    exact unlessNull_value (s := .string) (skipValue_byte (by decide) (by decide) short)
  | text short =>
    intro depth _
    rw [Field.bytes]
    exact unlessNull_value (s := .text) (skipValue_word (by decide) (by decide) short)
  | @vector of fs counted alike each ih =>
    intro depth deep
    rw [Field.bytes, Field.vectorHead] at deep ⊢
    refine unlessNull_value (s := .vector of) (skipValue_vector counted fun e mem => ?_)
    -- each element is shorter than the vector it stands in
    have shorter := Field.bytes_le_layout mem
    have some' := e.bytes_pos
    simp only [List.length_append, List.length_cons, toBe_length] at deep
    obtain ⟨depth, rfl⟩ : ∃ d, depth = d + 1 := ⟨depth - 1, by omega⟩
    exact ih e mem (by omega)

theorem zgSkipField_exact (laid : f.Laid) : Exact Conn.source zgSkipField f.bytes (some ()) := by
  intro c is
  have same : zgSkipField c = skipField (c.coming.length + f.bytes.length + 1) c :=
    skipField_agree (n := c.coming.length + 1) (by omega) c (Nat.lt_succ_self _)
  exact (skipField_exact laid (by omega) c is).onward (u := []) same rfl id

/-! ## What each reader answers -/

theorem zgReadBool_exact (is : f.shape = .bool) :
    Exact Conn.source zgReadBool f.bytes (Reader.bool.answer f) := by
  cases f with
  | null s =>
    rw [Field.bytes]
    exact scalar_null rfl
  | bool v =>
    rw [Field.bytes]
    exact scalar_exact (s := .bool) (by cases v <;> decide) (by cases v <;> rfl)
  | _ => cases is

theorem zgReadInt_exact (is : f.shape = .int) :
    Exact Conn.source zgReadInt f.bytes (Reader.int.answer f) := by
  cases f with
  | null s =>
    rw [Field.bytes]
    exact scalar_null rfl
  | int v =>
    rw [Field.bytes]
    exact scalar_exact (s := .int) v.toUInt32.toNat_lt (by simp only [UInt32.ofNat_toNat]; rfl)
  | _ => cases is

theorem zgReadLong_exact (is : f.shape = .long) :
    Exact Conn.source zgReadLong f.bytes (Reader.long.answer f) := by
  cases f with
  | null s =>
    rw [Field.bytes]
    exact scalar_null rfl
  | long v =>
    rw [Field.bytes]
    exact scalar_exact (s := .long) v.toUInt64.toNat_lt (by simp only [UInt64.ofNat_toNat]; rfl)
  | _ => cases is

theorem zgReadDouble_exact (is : f.shape = .double) :
    Exact Conn.source zgReadDouble f.bytes (Reader.double.answer f) := by
  cases f with
  | null s =>
    rw [Field.bytes]
    exact scalar_null rfl
  | double v =>
    rw [Field.bytes]
    exact scalar_exact (s := .double) v.toNat_lt (by simp only [UInt64.ofNat_toNat])
  | _ => cases is

/-- A text that fits is handed on, and one that does not is refused. -/
theorem map_fits (s : List UInt8) (cap : Nat) :
    (if s.length < cap then some s else none).map Value.text =
      if s.length < cap then some (.text s) else none := by
  split <;> rfl

theorem zgReadString_exact (is : f.shape = .string) (laid : f.Laid) :
    Exact Conn.source (zgReadString cap) f.bytes ((Reader.string cap).answer f) := by
  cases laid with
  | null s =>
    rw [Field.bytes]
    exact unlessNull_null s
  | @string s short =>
    rw [Field.bytes, Reader.answer, ← map_fits]
    exact unlessNull_value (s := .string) ((rdStdString_exact short cap).map Value.text)
  | _ => cases is

theorem zgReadText_exact (is : f.shape = .text) (laid : f.Laid) :
    Exact Conn.source (zgReadText cap) f.bytes ((Reader.text cap).answer f) := by
  cases laid with
  | null s =>
    rw [Field.bytes]
    exact unlessNull_null s
  | @text s short =>
    rw [Field.bytes, Reader.answer, ← map_fits]
    exact unlessNull_value (s := .text) ((rdStdText_exact short cap).map Value.text)
  | _ => cases is

/-- A skip whose answer is not looked at, before the reader says why it refuses. -/
theorem skip_say_exact (s : List UInt8) (what : String) :
    Exact Conn.source (fun c => say what (skip s.length c).2 : Talk Conn Value) s none := by
  intro c is
  have skipped := skip_exact (w := s) rfl c is
  constructor
  · intro rest arrives
    rcases skipped.whole arrives with ok | ⟨lost, blocked⟩
    · exact .inl ⟨rfl, ok.isOpen, ok.left, ok.clear⟩
    · exact .inr ⟨⟨rfl, lost.2⟩, blocked⟩
  · intro before other
    exact ⟨rfl, (skipped.short before other).2⟩

theorem zgReadTextAlloc_exact (is : f.shape = .text) (laid : f.Laid) (granted : Bool) :
    Exact Conn.source (zgReadTextAlloc granted) f.bytes ((Reader.textAlloc granted).answer f) := by
  cases laid with
  | null s =>
    rw [Field.bytes]
    exact unlessNull_null s
  | @text s short =>
    rw [Field.bytes, Reader.answer]
    refine unlessNull_value (s := .text) ((rdBe_toBe 2 (by rw [zgMaxText] at short; omega)).bind ?_)
    cases granted with
    | false => exact skip_say_exact s _
    | true =>
      refine Exact.map (p := if s.length ≠ 0 then rd s.length else pure []) (o := some s) ?_ Value.text
      split
      · exact rd_exact s
      · rename_i empty
        rw [List.length_eq_zero_iff.mp (not_not.mp empty)]
        exact .done []
  | _ => cases is

theorem zgReadField_scalar (is : ∀ of fs, f ≠ .vector of fs) (laid : f.Laid) :
    Exact Conn.source (zgReadField cap) f.bytes ((Reader.field cap).answer f) := by
  cases laid with
  | null s =>
    rw [Field.bytes]
    exact unlessNull_null s
  | bool v =>
    rw [Field.bytes]
    refine unlessNull_value (s := .bool) ?_
    rw [if_pos (by decide)]
    have read := (rdBe_toBe 1 (v := if v then 1 else 0) (by cases v <;> decide)).map
      fun b => Value.long (if b ≠ 0 then 1 else 0)
    cases v <;> exact read
  | int v =>
    rw [Field.bytes]
    refine unlessNull_value (s := .int) ?_
    rw [if_neg (by decide), if_pos (by decide)]
    have read := (rdBe_toBe 4 v.toUInt32.toNat_lt).map fun n => Value.long (UInt32.ofNat n).toInt32.toInt64
    rw [Option.map_some, UInt32.ofNat_toNat] at read
    exact read
  | long v =>
    rw [Field.bytes]
    refine unlessNull_value (s := .long) ?_
    rw [if_neg (by decide), if_neg (by decide), if_pos (by decide)]
    have read := (rdBe_toBe 8 v.toUInt64.toNat_lt).map fun n => Value.long (UInt64.ofNat n).toInt64
    rw [Option.map_some, UInt64.ofNat_toNat] at read
    exact read
  | double v =>
    rw [Field.bytes]
    refine unlessNull_value (s := .double) ?_
    rw [if_neg (by decide), if_neg (by decide), if_neg (by decide), if_pos (by decide)]
    have read := (rdBe_toBe 8 v.toNat_lt).map fun n => Value.double (UInt64.ofNat n)
    rw [Option.map_some, UInt64.ofNat_toNat] at read
    exact read
  | string short =>
    rw [Field.bytes, Reader.answer, ← map_fits]
    refine unlessNull_value (s := .string) ?_
    rw [if_neg (by decide), if_neg (by decide), if_neg (by decide), if_neg (by decide), if_pos (by decide)]
    exact (rdStdString_exact short cap).map Value.text
  | text short =>
    rw [Field.bytes, Reader.answer, ← map_fits]
    refine unlessNull_value (s := .text) ?_
    rw [if_neg (by decide), if_neg (by decide), if_neg (by decide), if_neg (by decide),
      if_neg (by decide), if_pos (by decide)]
    exact (rdStdText_exact short cap).map Value.text
  | vector => exact absurd rfl (is _ _)

theorem zgReadField_vector {of : Shape} {n : Nat} (counted : n < 2 ^ 32) :
    Exact Conn.source (zgReadField cap) (Field.vectorHead of n) (some (.vector n)) := by
  have other := Shape.vector_other of
  refine unlessNull_value (s := .vector of) (w := toBe 4 n) ?_
  rw [if_neg (other _ (by decide)), if_neg (other _ (by decide)), if_neg (other _ (by decide)),
    if_neg (other _ (by decide)), if_neg (other _ (by decide)), if_neg (other _ (by decide)),
    if_pos (Shape.vector_scale of)]
  exact (rdBe_toBe 4 counted).map Value.vector

/-- A double that is there is its descriptor and its eight bytes. -/
theorem Field.bytes_double (is : f.shape = .double) (there : f.isNull = false) :
    f.bytes = tdbDouble :: toBe 8 f.bits.toNat := by
  cases f with
  | double v => rw [Field.bytes, Field.bits]
  | null s => cases there
  | _ => cases is

namespace Reader

/-- Where the reader is put to a field it takes whole: a vector of doubles is no wider than the
caller's buffer and none of its elements is null. -/
def Meets : Reader → Field → Prop
  | dvector cap, .vector _ fs => fs.length ≤ cap ∧ ∀ f ∈ fs, f.isNull = false
  | dvector _, f => f.isNull = true
  | _, _ => True

theorem read_exact {r : Reader} (laid : f.Laid) (admits : r.Admits f) (meets : r.Meets f) :
    Exact Conn.source r.read (r.takes f) (r.answer f) := by
  cases r with
  | bool => exact zgReadBool_exact (admits _ rfl)
  | int => exact zgReadInt_exact (admits _ rfl)
  | long => exact zgReadLong_exact (admits _ rfl)
  | double => exact zgReadDouble_exact (admits _ rfl)
  | string cap => exact zgReadString_exact (admits _ rfl) laid
  | text cap => exact zgReadText_exact (admits _ rfl) laid
  | textAlloc granted => exact zgReadTextAlloc_exact (admits _ rfl) laid granted
  | skip => exact (zgSkipField_exact laid).map fun _ => Value.skipped
  | field cap =>
    cases f with
    | vector of fs =>
      cases laid with
      | vector counted => exact zgReadField_vector counted
    | _ => exact zgReadField_scalar (fun _ _ same => by cases same) laid
  | dvector cap =>
    cases laid with
    | null s => exact zgReadDvector_null s
    | @vector of fs counted alike =>
      obtain ⟨fits, there⟩ := meets
      have double (e : Field) (mem : e ∈ fs) := Field.bytes_double
        ((alike e mem).trans (Shape.vector.inj (admits _ rfl))) (there e mem)
      let es := fs.map fun e => (tdbDouble, toBe 8 e.bits.toNat)
      have same : es.length = fs.length := List.length_map _
      have taken := zgReadDvector_taken of (show es.length < 2 ^ 32 from same ▸ counted) (same ▸ fits)
        (by simp [es])
      rw [same, List.flatMap_map, List.map_map] at taken
      have texts : Field.layout fs = fs.flatMap fun e => tdbDouble :: toBe 8 e.bits.toNat := by
        rw [Field.layout_eq]
        exact List.flatMap_congr double
      have values : (fs.map fun e => UInt64.ofNat (ofBe (toBe 8 e.bits.toNat))) = fs.map Field.bits := by
        refine List.map_congr_left fun e _ => ?_
        rw [ofBe_toBe, Nat.mod_eq_of_lt (show e.bits.toNat < 256 ^ 8 from e.bits.toNat_lt), UInt64.ofNat_toNat]
      rw [answer, if_pos fits, ← values]
      change Exact Conn.source (zgReadDvector cap) (Field.vector of fs).bytes _
      rw [Field.bytes, texts]
      exact taken
    | _ => cases admits _ rfl

/-- Put to no other field of a type it takes, the reader of vectors is put to one too wide or
with a null in it. -/
theorem meets_of_admits {r : Reader} (admits : r.Admits f) :
    r.Meets f ∨ ∃ cap fs, r = .dvector cap ∧ f = .vector .double fs ∧
      (cap < fs.length ∨ ∃ e ∈ fs, e.isNull = true) := by
  cases r with
  | dvector cap =>
    cases f with
    | null s => exact .inl rfl
    | vector of fs =>
      obtain rfl := Shape.vector.inj (admits _ rfl)
      by_cases wide : cap < fs.length
      · exact .inr ⟨cap, fs, rfl, rfl, .inl wide⟩
      by_cases gap : ∃ e ∈ fs, e.isNull = true
      · exact .inr ⟨cap, fs, rfl, rfl, .inr gap⟩
      · refine .inl ⟨by omega, fun e mem => ?_⟩
        simpa using fun null => gap ⟨e, mem, null⟩
    | _ => cases admits _ rfl
  | _ => exact .inl trivial

end Reader

/-! ## Runs -/

/-- The read of one field is whole. Where the field's bytes all come and nothing else closes the
connection it answers the field's value; where it answers at all it has taken exactly the bytes
that were its own, and so it has where it refuses and the connection stays open. -/
structure ReadWhole (r : Reader) (f : Field) (c : Conn) : Prop where
  value : r.Admits f →
    ((r.read c).1 = r.answer f ∧ (r.read c).2.isOpen ∧
      c.coming = r.takes f ++ (r.read c).2.coming) ∨
    ((r.read c).1 = none ∧ ¬(r.read c).2.isOpen ∧ ¬(r.takes f <+: c.coming ∧ c.clear))
  refused : (r.read c).1 = none → (r.read c).2.isOpen →
    c.coming = r.takes f ++ (r.read c).2.coming

/-- Readers put to fields one after the other, up to where the connection is closed. -/
def ReadsWhole : List Reader → List Field → Conn → Prop
  | r :: rs, f :: fs, c =>
    ReadWhole r f c ∧ ((r.read c).2.isOpen → ReadsWhole rs (r.after f ++ fs) (r.read c).2)
  | _, _, _ => True

/-- What holds of each reader and the field it is put to. -/
def AtEach (P : Reader → Field → Prop) : List Reader → List Field → Prop
  | r :: rs, f :: fs => P r f ∧ AtEach P rs (r.after f ++ fs)
  | _, _ => True

/-- A reader put to a field of its type, or one that looks at the type and does not take it. -/
def Chosen (r : Reader) (f : Field) : Prop := r.Admits f ∨ r.Refuses f

theorem Field.Laid.after (laid : f.Laid) (r : Reader) : ∀ e ∈ r.after f, e.Laid := by
  unfold Reader.after
  split
  · cases laid with
    | vector _ _ each => exact each
  · simp

/-- Fields still to come after a read, elements of a vector among them. -/
theorem Reader.takes_layout (r : Reader) (f : Field) (fs : List Field) :
    r.takes f ++ Field.layout (r.after f ++ fs) = Field.layout (f :: fs) := by
  rw [Field.layout_append, ← List.append_assoc, r.takes_after, Field.layout]

/-- Where the condition is met, a read is whole, and what comes after it are the fields left. -/
theorem ReadWhole.of_meets {r : Reader} {c : Conn} {u : List UInt8} (laid : f.Laid)
    (chosen : Chosen r f) (meets : r.Meets f) (is : c.isOpen) (comes : c.coming <+: r.takes f ++ u) :
    ReadWhole r f c ∧ ((r.read c).2.isOpen → (r.read c).2.coming <+: u) := by
  have admits : r.Admits f := by
    rcases chosen with admits | ⟨⟨cap, rfl⟩, there, other⟩
    · exact admits
    · cases f with
      | vector of fs => exact absurd rfl (other of)
      | null s => cases there
      | _ => cases meets
  have at' := Reader.read_exact laid admits meets c is
  by_cases whole : r.takes f <+: c.coming
  · obtain ⟨more, all⟩ := whole
    rcases at'.whole all.symm with ok | ⟨lost, blocked⟩
    · have left : (r.read c).2.coming = more := ok.left
      refine ⟨⟨fun _ => .inl ⟨ok.answer, ok.isOpen, by rw [left]; exact all.symm⟩,
        fun _ _ => by rw [left]; exact all.symm⟩, fun _ => ?_⟩
      rw [← all, List.prefix_append_right_inj] at comes
      rwa [left]
    · exact ⟨⟨fun _ => .inr ⟨lost.1, lost.2.1, fun h => blocked h.2⟩,
        fun _ open' => absurd open' lost.2.1⟩, fun open' => absurd open' lost.2.1⟩
  · have cut : c.coming <+: r.takes f :=
      (List.prefix_or_prefix_of_prefix comes (List.prefix_append _ u)).resolve_right whole
    have lost := at'.short cut fun eq => whole (eq ▸ List.prefix_refl _)
    exact ⟨⟨fun _ => .inr ⟨lost.1, lost.2.1, fun h => whole h.1⟩,
      fun _ open' => absurd open' lost.2.1⟩, fun open' => absurd open' lost.2.1⟩

/-- Where every read meets the condition, every read is whole. -/
theorem readsWhole_of_meets {rs : List Reader} :
    ∀ {fs : List Field} {c : Conn} {u : List UInt8}, (∀ f ∈ fs, f.Laid) → AtEach Chosen rs fs →
      AtEach Reader.Meets rs fs → c.isOpen → c.coming <+: Field.layout fs ++ u →
      ReadsWhole rs fs c := by
  induction rs with
  | nil => exact fun _ _ _ _ _ => trivial
  | cons r rs ih =>
    intro fs c u laid chosen meets is comes
    cases fs with
    | nil => trivial
    | cons f fs =>
      rw [← r.takes_layout, List.append_assoc] at comes
      obtain ⟨whole, left⟩ := ReadWhole.of_meets (laid f List.mem_cons_self) chosen.1 meets.1 is comes
      refine ⟨whole, fun open' => ih (fun e mem => ?_) chosen.2 meets.2 open' (left open')⟩
      rcases List.mem_append.mp mem with part | later
      · exact (laid f List.mem_cons_self).after r e part
      · exact laid e (List.mem_cons_of_mem f later)

/-! ## Where a read is not whole -/

theorem Field.bytes_there (there : f.isNull = false) : ∃ w, f.bytes = f.shape.tdb :: w ∧ w ≠ [] := by
  cases f with
  | null s => cases there
  | bool v => exact ⟨_, by rw [Field.bytes]; rfl, List.ne_nil_of_length_pos (by rw [toBe_length]; decide)⟩
  | int v => exact ⟨_, by rw [Field.bytes]; rfl, List.ne_nil_of_length_pos (by rw [toBe_length]; decide)⟩
  | long v => exact ⟨_, by rw [Field.bytes]; rfl, List.ne_nil_of_length_pos (by rw [toBe_length]; decide)⟩
  | double v => exact ⟨_, by rw [Field.bytes]; rfl, List.ne_nil_of_length_pos (by rw [toBe_length]; decide)⟩
  | string s =>
    refine ⟨toBe 1 s.length ++ s, by rw [Field.bytes]; rfl, List.ne_nil_of_length_pos ?_⟩
    rw [List.length_append, toBe_length]
    omega
  | text s =>
    refine ⟨toBe 2 s.length ++ s, by rw [Field.bytes]; rfl, List.ne_nil_of_length_pos ?_⟩
    rw [List.length_append, toBe_length]
    omega
  | vector of fs =>
    refine ⟨toBe 4 fs.length ++ Field.layout fs, by rw [Field.bytes, Field.vectorHead]; rfl,
      List.ne_nil_of_length_pos ?_⟩
    rw [List.length_append, toBe_length]
    omega

/-- A reader that takes less than the field and refuses leaves the connection out of step. -/
theorem ReadWhole.not_of_short {r : Reader} {c : Conn} {w w' : List UInt8}
    (refuses : Exact Conn.source r.read w none) (is : c.isOpen) (clear : c.clear)
    (own : r.takes f = w ++ w') (more : w' ≠ []) (comes : r.takes f <+: c.coming) :
    ¬ReadWhole r f c := by
  intro whole
  obtain ⟨rest, all⟩ := comes
  rw [own, List.append_assoc] at all
  rcases (refuses c is).whole all.symm with ok | ⟨_, blocked⟩
  · have left : (r.read c).2.coming = w' ++ rest := ok.left
    have taken := whole.refused ok.answer ok.isOpen
    rw [own, left, ← all] at taken
    have lengths := congrArg List.length taken
    have some' := List.length_pos_of_ne_nil more
    simp only [List.length_append] at lengths
    omega
  · exact blocked clear

/-- Any bytes, nine at a time. -/
theorem exists_elements {n : Nat} {w : List UInt8} (nines : w.length = 9 * n) :
    ∃ es : List (UInt8 × List UInt8), es.length = n ∧ (∀ e ∈ es, e.2.length = 8) ∧
      es.flatMap (fun e => e.1 :: e.2) = w := by
  induction n generalizing w with
  | zero => exact ⟨[], rfl, by simp, (List.length_eq_zero_iff.mp nines).symm⟩
  | succ n ih =>
    obtain ⟨b, w, rfl⟩ := List.exists_cons_of_length_pos (l := w) (by omega)
    rw [List.length_cons] at nines
    obtain ⟨es, length, eight, texts⟩ := ih (w := w.drop 8) (by rw [List.length_drop]; omega)
    refine ⟨(b, w.take 8) :: es, by rw [List.length_cons, length], ?_, ?_⟩
    · intro e mem
      rcases List.mem_cons.mp mem with rfl | mem
      · exact List.length_take.trans (by omega)
      · exact eight e mem
    · rw [List.flatMap_cons, texts, List.cons_append, List.take_append_drop]

/-- With a null among them the elements are fewer bytes than nine each. -/
theorem Field.layout_short {fs : List Field} (alike : ∀ e ∈ fs, e.shape = .double) :
    (Field.layout fs).length ≤ 9 * fs.length ∧
      ((∃ e ∈ fs, e.isNull = true) → (Field.layout fs).length < 9 * fs.length) := by
  induction fs with
  | nil => simp [Field.layout]
  | cons f fs ih =>
    obtain ⟨most, less⟩ := ih fun e mem => alike e (List.mem_cons_of_mem f mem)
    have length : (Field.layout (f :: fs)).length = f.bytes.length + (Field.layout fs).length := by
      rw [Field.layout, List.length_append]
    rw [length, List.length_cons]
    cases null : f.isNull with
    | true =>
      have one : f.bytes.length = 1 := by
        cases f with
        | null s => rw [Field.bytes]; rfl
        | _ => cases null
      omega
    | false =>
      have nine : f.bytes.length = 9 := by
        rw [Field.bytes_double (alike f List.mem_cons_self) null, List.length_cons, toBe_length]
      refine ⟨by omega, ?_⟩
      rintro ⟨e, mem, isNull⟩
      rcases List.mem_cons.mp mem with rfl | mem
      · rw [null] at isNull
        cases isNull
      · have := less ⟨e, mem, isNull⟩
        omega

/-- Whatever comes after the head, the reader of vectors takes nine bytes an element of it. -/
theorem zgReadDvector_nines {of : Shape} {n : Nat} (counted : n < 2 ^ 32) (fits : n ≤ cap) {c : Conn}
    (is : c.isOpen) {rest : List UInt8} (comes : c.coming = Field.vectorHead of n ++ rest)
    (open' : (zgReadDvector cap c).2.isOpen) :
    (zgReadDvector cap c).2.coming.length + 9 * n = rest.length := by
  by_cases enough : 9 * n ≤ rest.length
  · obtain ⟨es, rfl, eight, texts⟩ := exists_elements (n := n) (w := rest.take (9 * n))
      (by rw [List.length_take]; omega)
    have read := zgReadDvector_taken of counted fits eight c is
    rw [texts] at read
    have split : c.coming = Field.vectorHead of es.length ++ rest.take (9 * es.length) ++
        rest.drop (9 * es.length) := by
      rw [comes, List.append_assoc, List.take_append_drop]
    rcases read.whole split with ok | ⟨lost, _⟩
    · rw [show (zgReadDvector cap c).2.coming = _ from ok.left, List.length_drop]
      omega
    · exact absurd open' lost.2.1
  · obtain ⟨es, rfl, eight, texts⟩ := exists_elements (n := n)
      (w := rest ++ List.replicate (9 * n - rest.length) 0)
      (by rw [List.length_append, List.length_replicate]; omega)
    have read := zgReadDvector_taken of counted fits eight c is
    rw [texts] at read
    have lost := read.short ⟨_, by rw [show Conn.source.coming c = _ from comes, List.append_assoc]⟩
      fun eq => by
        have lengths := congrArg List.length ((show c.coming = _ from eq).symm.trans comes)
        simp only [List.length_append, List.length_replicate] at lengths
        omega
    exact absurd open' lost.2.1

/-- The reader of vectors reads past a vector with a null in it. -/
theorem ReadWhole.not_of_gap {fs : List Field} {c : Conn} (laid : (Field.vector .double fs).Laid)
    (fits : fs.length ≤ cap) (gap : ∃ e ∈ fs, e.isNull = true) (is : c.isOpen) (clear : c.clear)
    (comes : (Field.vector .double fs).bytes <+: c.coming) :
    ¬ReadWhole (.dvector cap) (.vector .double fs) c := by
  intro whole
  obtain ⟨counted, less⟩ : fs.length < 2 ^ 32 ∧ (Field.layout fs).length < 9 * fs.length := by
    cases laid with
    | vector counted alike => exact ⟨counted, (Field.layout_short alike).2 gap⟩
  rcases whole.value (fun s mem => by cases mem; rfl) with ⟨_, open', taken⟩ | ⟨_, _, blocked⟩
  · change c.coming = (Field.vector .double fs).bytes ++ (zgReadDvector cap c).2.coming at taken
    rw [Field.bytes, List.append_assoc] at taken
    have nines := zgReadDvector_nines counted fits is taken open'
    rw [List.length_append] at nines
    omega
  · exact blocked ⟨comes, clear⟩

/-- A whole read of a field that has all come meets the condition. -/
theorem ReadWhole.meets {r : Reader} {c : Conn} (whole : ReadWhole r f c) (laid : f.Laid)
    (chosen : Chosen r f) (is : c.isOpen) (clear : c.clear) (comes : r.takes f <+: c.coming) :
    r.Admits f ∧ r.Meets f := by
  rcases chosen with admits | ⟨⟨cap, rfl⟩, there, other⟩
  · refine ⟨admits, (Reader.meets_of_admits admits).resolve_right ?_⟩
    rintro ⟨cap, fs, rfl, rfl, bad⟩
    have counted : fs.length < 2 ^ 32 := by
      cases laid with
      | vector counted => exact counted
    by_cases wide : cap < fs.length
    · have own : (Reader.dvector cap).takes (.vector .double fs) =
          Field.vectorHead .double fs.length ++ Field.layout fs := by
        rw [← Field.bytes]
        rfl
      refine ReadWhole.not_of_short (r := .dvector cap) (zgReadDvector_wide counted wide) is clear own
        ?_ comes whole
      obtain ⟨e, fs, rfl⟩ := List.exists_cons_of_length_pos (l := fs) (by omega)
      have := e.bytes_pos
      exact List.ne_nil_of_length_pos (by rw [Field.layout, List.length_append]; omega)
    · exact ReadWhole.not_of_gap laid (by omega) (bad.resolve_left wide) is clear comes whole
  · obtain ⟨w, bytes, more⟩ := Field.bytes_there there
    exact absurd whole (ReadWhole.not_of_short (zgReadDvector_other other) is clear
      (show f.bytes = [f.shape.tdb] ++ w from bytes) more comes)

theorem meets_of_readsWhole {rs : List Reader} :
    ∀ {fs : List Field} {c : Conn}, (∀ f ∈ fs, f.Laid) → AtEach Chosen rs fs → c.isOpen → c.clear →
      Field.layout fs <+: c.coming → ReadsWhole rs fs c → AtEach Reader.Meets rs fs := by
  induction rs with
  | nil => exact fun _ _ _ _ _ _ => trivial
  | cons r rs ih =>
    intro fs c laid chosen is clear comes whole
    cases fs with
    | nil => trivial
    | cons f fs =>
      rw [← r.takes_layout] at comes
      have own : r.takes f <+: c.coming := (List.prefix_append _ _).trans comes
      have laidf := laid f List.mem_cons_self
      obtain ⟨admits, meets⟩ := whole.1.meets laidf chosen.1 is clear own
      obtain ⟨more, all⟩ := comes
      rw [List.append_assoc] at all
      rcases (Reader.read_exact laidf admits meets c is).whole all.symm with ok | ⟨_, blocked⟩
      · refine ⟨meets, ih (fun e mem => ?_) chosen.2 ok.isOpen (ok.clear clear) ?_ (whole.2 ok.isOpen)⟩
        · rcases List.mem_append.mp mem with part | later
          · exact laidf.after r e part
          · exact laid e (List.mem_cons_of_mem f later)
        · exact ⟨more, (show (r.read c).2.coming = _ from ok.left).symm⟩
      · exact absurd clear blocked

/-- Readers put to a sequence of fields read each whole, however the bytes arrive, where the
reader of vectors is put to nothing but nulls and vectors of doubles, none of them null, no wider
than its buffer; and where all the fields arrive they do so nowhere else. -/
theorem fields_read_whole {rs : List Reader} {fs : List Field} {c : Conn} {u : List UInt8}
    (laid : ∀ f ∈ fs, f.Laid) (chosen : AtEach Chosen rs fs) (is : c.isOpen)
    (comes : c.coming <+: Field.layout fs ++ u) :
    (AtEach Reader.Meets rs fs → ReadsWhole rs fs c) ∧
      (Field.layout fs <+: c.coming → c.clear → ReadsWhole rs fs c → AtEach Reader.Meets rs fs) :=
  ⟨fun meets => readsWhole_of_meets laid chosen meets is comes,
    fun all clear => meets_of_readsWhole laid chosen is clear all⟩

/-- A vector of two doubles, an int after it, and their bytes read ahead. -/
def wideFields : List Field := [.vector .double [.double 0, .double 0], .int 7]

def wideConn : Conn :=
  { fd := 3, err := "", ahead := Field.layout wideFields, arrivals := [], out := [], sends := [], wire := [] }

theorem fields_read_whole_sample :
    (AtEach Reader.Meets [.dvector 2, .int] wideFields → ReadsWhole [.dvector 2, .int] wideFields wideConn) ∧
      (Field.layout wideFields <+: wideConn.coming → wideConn.clear →
        ReadsWhole [.dvector 2, .int] wideFields wideConn → AtEach Reader.Meets [.dvector 2, .int] wideFields) :=
  fields_read_whole (u := [])
    (by
      intro f mem
      rcases List.mem_cons.mp mem with rfl | mem
      · refine .vector (by decide) ?_ ?_
        · simp [Field.shape]
        · intro f mem
          obtain rfl : f = .double 0 := by simpa using mem
          exact .double 0
      · rw [List.mem_singleton.mp mem]
        exact .int 7)
    ⟨.inl fun s mem => by cases mem; rfl, .inl fun s mem => by cases mem; rfl, trivial⟩
    (by decide : (0 : Int) ≤ 3) (by simp [Conn.coming, wideConn, Conn.arriving])

/-- With room for one double the reader of vectors refuses, the connection stays open, and the
two doubles are still to come. -/
theorem dvector_out_of_step :
    AtEach Chosen [.dvector 1, .int] wideFields ∧ wideConn.isOpen ∧
      wideConn.coming = Field.layout wideFields ∧
      ¬ReadsWhole [.dvector 1, .int] wideFields wideConn := by
  refine ⟨⟨.inl fun s mem => by cases mem; rfl, .inl fun s mem => by cases mem; rfl, trivial⟩,
    (by decide : (0 : Int) ≤ 3), by simp [Conn.coming, wideConn, Conn.arriving], ?_⟩
  intro whole
  have refused := whole.1.refused (by decide +kernel) (by decide +kernel : (0 : Int) ≤ _)
  have lengths := congrArg List.length refused
  revert lengths
  decide +kernel

end Cocolog.Zigurat
