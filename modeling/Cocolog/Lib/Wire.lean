import Mathlib.Data.Nat.Digits.Defs
import Mathlib.Data.Nat.Digits.Lemmas
import Mathlib.Data.UInt

/-! Texts made of tokens between blanks, and scanners that skip the blanks before a token.
What a scanner makes of a text is stated up to leading blanks, so that scanners compose as
the texts they read are appended. -/

set_option linter.all false

namespace Cocolog.Lib.Wire

abbrev Bytes := List UInt8

/-- Space, line feed, carriage return and tab. -/
def blank (c : UInt8) : Bool := c == 32 || c == 10 || c == 13 || c == 9

def skip (s : Bytes) : Bytes := s.dropWhile blank

@[simp] theorem skip_nil : skip [] = [] := rfl

theorem skip_blank {c : UInt8} (h : blank c = true) (s : Bytes) : skip (c :: s) = skip s := by
  rw [skip, List.dropWhile_cons_of_pos h, skip]

theorem skip_solid {c : UInt8} (h : blank c = false) (s : Bytes) : skip (c :: s) = c :: s := by
  rw [skip, List.dropWhile_cons_of_neg (by rw [h]; exact Bool.false_ne_true)]

@[simp] theorem skip_skip (s : Bytes) : skip (skip s) = skip s := by
  induction s with
  | nil => rfl
  | cons c s ih =>
    cases h : blank c with
    | true => rw [skip_blank h, ih]
    | false => rw [skip_solid h, skip_solid h]

/- Numerals. -/

/-- A digit below sixteen, in lower case. -/
def digit (d : Nat) : UInt8 := if d < 10 then UInt8.ofNat (48 + d) else UInt8.ofNat (87 + d)

/-- The value of a digit of either case. -/
def digitValue (c : UInt8) : Option Nat :=
  if 48 ≤ c ∧ c ≤ 57 then some (c.toNat - 48)
  else if 97 ≤ c ∧ c ≤ 102 then some (10 + (c.toNat - 97))
  else if 65 ≤ c ∧ c ≤ 70 then some (10 + (c.toNat - 65))
  else none

theorem digitValue_digit {d : Nat} (h : d < 16) : digitValue (digit d) = some d := by
  have all : ∀ d : Fin 16, digitValue (digit d) = some d.val := by decide
  exact all ⟨d, h⟩

theorem digitValue_blank {c : UInt8} (h : blank c = true) : digitValue c = none := by
  simp only [blank, Bool.or_eq_true, beq_iff_eq] at h
  rcases h with ((rfl | rfl) | rfl) | rfl <;> rfl

theorem blank_of_digitValue {c : UInt8} {d : Nat} (h : digitValue c = some d) :
    blank c = false := by
  cases is : blank c with
  | false => rfl
  | true => rw [digitValue_blank is] at h; cases h

/-- A number in a base up to sixteen, as `%llu` and `%llx` write it. -/
def numeral (base n : Nat) : Bytes :=
  if n = 0 then [digit 0] else (Nat.digits base n).reverse.map digit

/-- The digits at the front, as far as they are digits of the base, added to a value that
wraps, and whether there was one. -/
def digits (base : Nat) : UInt64 → Bool → Bytes → UInt64 × Bool × Bytes
  | v, any, [] => (v, any, [])
  | v, any, c :: s =>
    match digitValue c with
    | some d =>
      if d < base then digits base (v * UInt64.ofNat base + UInt64.ofNat d) true s
      else (v, any, c :: s)
    | none => (v, any, c :: s)

theorem digits_stop {c : UInt8} (h : digitValue c = none) (base : Nat) (v : UInt64) (any : Bool)
    (s : Bytes) : digits base v any (c :: s) = (v, any, c :: s) := by
  rw [digits, h]

theorem digits_run {base : Nat} (small : base ≤ 16) {ds : List Nat} (below : ∀ d ∈ ds, d < base)
    {c : UInt8} (h : digitValue c = none) (v : UInt64) (any : Bool) (s : Bytes) :
    digits base v any (ds.map digit ++ c :: s) =
      (ds.foldl (fun v d => v * UInt64.ofNat base + UInt64.ofNat d) v, any || !ds.isEmpty,
        c :: s) := by
  induction ds generalizing v any with
  | nil => simp [digits_stop h]
  | cons d ds ih =>
    have first := below d (by simp)
    rw [List.map_cons, List.cons_append, digits, digitValue_digit (by omega)]
    simp only [first, if_true, ih fun e he => below e (by simp [he])]
    simp

theorem foldl_digits (base : Nat) (ds : List Nat) (n : Nat) :
    ds.foldl (fun v d => v * UInt64.ofNat base + UInt64.ofNat d) (UInt64.ofNat n) =
      UInt64.ofNat (ds.foldl (fun n d => n * base + d) n) := by
  induction ds generalizing n with
  | nil => rfl
  | cons d ds ih => rw [List.foldl_cons, List.foldl_cons, ← ih, UInt64.ofNat_add, UInt64.ofNat_mul]

theorem foldl_reverse_digits {base : Nat} (n : Nat) :
    (Nat.digits base n).reverse.foldl (fun n d => n * base + d) 0 = n := by
  rw [List.foldl_reverse]
  conv_rhs => rw [← Nat.ofDigits_digits base n, Nat.ofDigits_eq_foldr]
  congr 1
  funext d n
  simp [Nat.add_comm, Nat.mul_comm]

/-- A numeral ended by something that is no digit is read as its number. -/
theorem digits_numeral {base : Nat} (two : 1 < base) (small : base ≤ 16) (n : UInt64) {c : UInt8}
    (h : digitValue c = none) (s : Bytes) :
    digits base 0 false (numeral base n.toNat ++ c :: s) = (n, true, c :: s) := by
  unfold numeral
  split
  · rename_i zero
    have eq : n = 0 := UInt64.toNat_inj.mp zero
    have one := @digits_run base small [0] (by simp; omega) c h 0 false s
    rw [eq]
    simpa using one
  · rename_i pos
    have below : ∀ d ∈ (Nat.digits base n.toNat).reverse, d < base := by
      intro d hd
      exact Nat.digits_lt_base two (List.mem_reverse.mp hd)
    rw [digits_run small below h]
    have fold := foldl_digits base (Nat.digits base n.toNat).reverse 0
    rw [foldl_reverse_digits, UInt64.ofNat_toNat] at fold
    have some_ : (Nat.digits base n.toNat).reverse.isEmpty = false := by
      rw [List.isEmpty_reverse, List.isEmpty_eq_false_iff]
      exact Nat.digits_ne_nil_iff_ne_zero.mpr pos
    rw [some_]
    exact Prod.ext fold rfl

theorem numeral_head {base : Nat} (two : 1 < base) (small : base ≤ 16) (n : Nat) :
    ∃ d s, d < 16 ∧ numeral base n = digit d :: s := by
  unfold numeral
  split
  · exact ⟨0, [], by omega, rfl⟩
  · rename_i pos
    obtain ⟨d, ds, eq⟩ := List.exists_cons_of_ne_nil
      (List.reverse_ne_nil_iff.mpr (Nat.digits_ne_nil_iff_ne_zero.mpr pos) :
        (Nat.digits base n).reverse ≠ [])
    refine ⟨d, ds.map digit, ?_, by rw [eq, List.map_cons]⟩
    have mem : d ∈ (Nat.digits base n).reverse := by rw [eq]; exact List.mem_cons_self
    have := Nat.digits_lt_base two (List.mem_reverse.mp mem)
    omega

theorem numeral_solid {base : Nat} (two : 1 < base) (small : base ≤ 16) (n : Nat) (s : Bytes) :
    skip (numeral base n ++ s) = numeral base n ++ s := by
  obtain ⟨d, t, lt, eq⟩ := numeral_head two small n
  rw [eq, List.cons_append, skip_solid (blank_of_digitValue (digitValue_digit lt))]

/- Scanners. -/

/-- A text being scanned: what is left of it, whether a token was not what it had to be, and
why the reading was given up, if it was. -/
structure Scan (φ : Type) where
  rest : Bytes
  bad : Bool := false
  stop : Option φ := none

abbrev Scanner (φ α : Type) := StateM (Scan φ) α

section

variable {φ α β : Type}

/-- A number in a base, its value wrapping at 64 bits; no digit at all is bad. -/
def scanU64 (base : Nat) : Scanner φ UInt64 := fun z =>
  let (v, any, rest) := digits base 0 false (skip z.rest)
  (v, { z with rest, bad := z.bad || !any })

/-- The next token begins with this word, or the text is bad. -/
def scanWord (w : Bytes) : Scanner φ Unit := fun z =>
  let s := skip z.rest
  if w.isPrefixOf s = true then ((), { z with rest := s.drop w.length })
  else ((), { z with rest := s, bad := true })

/-- Whether the next thing is this byte, which is then read. -/
def scanSection (tag : UInt8) : Scanner φ Bool := fun z =>
  match skip z.rest with
  | c :: s => if c = tag then (true, { z with rest := s }) else (false, { z with rest := c :: s })
  | [] => (false, { z with rest := [] })

/-- Bytes of two digits each, as far as they go. -/
def pairs : Nat → Bytes → Bytes → Bool × Bytes × Bytes
  | 0, acc, s => (true, acc, s)
  | n + 1, acc, hi :: lo :: s =>
    match digitValue hi, digitValue lo with
    | some h, some l => pairs n (acc ++ [UInt8.ofNat (h * 16 + l)]) s
    | _, _ => (false, acc, hi :: lo :: s)
  | _ + 1, acc, s => (false, acc, s)

/-- A name, its length before its bytes; none when it cannot be read. -/
def scanName : Scanner φ (Option Bytes) := fun z =>
  let (n, z) := scanU64 10 z
  if z.bad = true then (none, z)
  else
    let (done, name, rest) := pairs n.toNat [] (skip z.rest)
    if done = true then (some name, { z with rest }) else (none, { z with rest, bad := true })

/-- So many turns, as long as the reading is not given up. -/
def scanFor (body : α → Scanner φ α) : Nat → α → Scanner φ α
  | 0, a => pure a
  | n + 1, a => fun z =>
    if z.stop.isSome = true then (a, z)
    else
      let (a, z) := body a z
      scanFor body n a z

/- What is read. -/

/-- The text left is this one, up to leading blanks, and nothing went wrong so far. -/
def Scan.At (z : Scan φ) (s : Bytes) : Prop :=
  skip z.rest = skip s ∧ z.bad = false ∧ z.stop = none

/-- On a text that goes on with `t`, the scanner answers `a` and stands behind `t`. -/
def Reads (p : Scanner φ α) (t : Bytes) (a : α) : Prop :=
  ∀ z rest, Scan.At z (t ++ rest) → (p z).1 = a ∧ Scan.At (p z).2 rest

theorem Reads.pure (a : α) : Reads (pure a : Scanner φ α) [] a := fun _ _ at_ => ⟨rfl, at_⟩

theorem Reads.bind {p : Scanner φ α} {f : α → Scanner φ β} {t u : Bytes} {a : α} {b : β}
    (first : Reads p t a) (second : Reads (f a) u b) : Reads (p >>= f) (t ++ u) b := by
  intro z rest at_
  rw [List.append_assoc] at at_
  obtain ⟨value, behind⟩ := first z (u ++ rest) at_
  have then_ := second (p z).2 rest behind
  rw [← value] at then_
  exact then_

theorem Reads.before {p : Scanner φ α} {f : α → Scanner φ β} {u : Bytes} {a : α} {b : β}
    (first : Reads p [] a) (second : Reads (f a) u b) : Reads (p >>= f) u b := first.bind second

theorem Reads.map {p : Scanner φ α} {t : Bytes} {a : α} (reads : Reads p t a) (g : α → β) :
    Reads (p >>= fun a => Pure.pure (g a)) t (g a) := by
  rw [← List.append_nil t]
  exact reads.bind (Reads.pure (g a))

theorem Reads.blank {p : Scanner φ α} {t : Bytes} {a : α} {c : UInt8} (h : blank c = true)
    (reads : Reads p t a) : Reads p (c :: t) a := by
  intro z rest at_
  refine reads z rest ⟨?_, at_.2⟩
  rw [at_.1, List.cons_append, skip_blank h]

theorem Scan.At.blank {z : Scan φ} {c : UInt8} (h : Wire.blank c = true) {s : Bytes} :
    z.At (c :: s) ↔ z.At s := by
  unfold Scan.At
  rw [skip_blank h]

theorem Reads.trail {p : Scanner φ α} {t : Bytes} {a : α} {c : UInt8} (h : Wire.blank c = true)
    (reads : Reads p t a) : Reads p (t ++ [c]) a := by
  intro z rest at_
  rw [List.append_assoc] at at_
  obtain ⟨value, behind⟩ := reads z _ at_
  exact ⟨value, (Scan.At.blank h).mp behind⟩

theorem reads_scanFor {γ : Type} {body : α → Scanner φ α} {text : γ → Bytes} {step : α → γ → α}
    {xs : List γ} (each : ∀ a, ∀ x ∈ xs, Reads (body a) (text x) (step a x)) (a : α) :
    Reads (scanFor body xs.length a) (xs.flatMap text) (xs.foldl step a) := by
  induction xs generalizing a with
  | nil => exact Reads.pure a
  | cons x xs ih =>
    intro z rest at_
    rw [List.flatMap_cons, List.append_assoc] at at_
    obtain ⟨value, behind⟩ := each a x (by simp) z _ at_
    have later := ih (fun a y hy => each a y (by simp [hy])) (step a x) (body a z).2 rest behind
    have turn : scanFor body (x :: xs).length a z =
        scanFor body xs.length (body a z).1 (body a z).2 := by
      simp only [List.length_cons, scanFor, at_.2.2]
      rfl
    rw [turn, value]
    exact later

theorem reads_scanU64 {base : Nat} (two : 1 < base) (small : base ≤ 16) (n : UInt64) {c : UInt8}
    (h : blank c = true) : Reads (scanU64 base : Scanner φ UInt64) (numeral base n.toNat ++ [c]) n := by
  intro z rest ⟨left, good, going⟩
  rw [List.append_assoc, List.singleton_append, numeral_solid two small] at left
  have value := digits_numeral two small n (digitValue_blank h) rest
  simp only [scanU64, left, value, good, going]
  exact ⟨trivial, skip_blank h rest, rfl, rfl⟩

theorem reads_scanWord {c : UInt8} (solid : blank c = false) (w : Bytes) :
    Reads (scanWord (c :: w) : Scanner φ Unit) (c :: w) () := by
  intro z rest ⟨left, good, going⟩
  rw [List.cons_append, skip_solid solid, ← List.cons_append] at left
  have front : (c :: w).isPrefixOf ((c :: w) ++ rest) = true :=
    List.isPrefixOf_iff_prefix.mpr (List.prefix_append _ _)
  simp only [scanWord, left, front, if_true, List.drop_left, good, going]
  exact ⟨trivial, rfl, rfl, rfl⟩

theorem reads_scanSection {c : UInt8} (solid : blank c = false) :
    Reads (scanSection c : Scanner φ Bool) [c] true := by
  intro z rest ⟨left, good, going⟩
  rw [List.singleton_append, skip_solid solid] at left
  simp only [scanSection, left, if_true, good, going]
  exact ⟨trivial, rfl, rfl, rfl⟩

/-- The byte a section would begin with is not there: nothing is read. -/
theorem scanSection_absent {z : Scan φ} {s : Bytes} {c d : UInt8} (at_ : z.At s)
    (next : (skip s).head? = some d) (other : d ≠ c) :
    (scanSection c z).1 = false ∧ (scanSection c z).2.At s := by
  obtain ⟨left, good, going⟩ := at_
  obtain ⟨t, eq⟩ : ∃ t, skip s = d :: t := by
    cases is : skip s with
    | nil => rw [is] at next; cases next
    | cons e t =>
      rw [is, List.head?_cons] at next
      exact ⟨t, by rw [Option.some.inj next]⟩
  simp only [scanSection, left, eq, other, if_false, good, going]
  refine ⟨trivial, ?_, rfl, rfl⟩
  rw [← eq, skip_skip]

/- Names. -/

/-- A byte as two digits. -/
def hexByte (c : UInt8) : Bytes := [digit (c.toNat / 16), digit (c.toNat % 16)]

theorem pairs_hex (name : Bytes) (acc s : Bytes) :
    pairs name.length acc (name.flatMap hexByte ++ s) = (true, acc ++ name, s) := by
  induction name generalizing acc with
  | nil => simp [pairs]
  | cons c name ih =>
    have lt := c.toNat_lt
    have whole : UInt8.ofNat (c.toNat / 16 * 16 + c.toNat % 16) = c := by
      rw [Nat.div_add_mod', UInt8.ofNat_toNat]
    rw [List.flatMap_cons, hexByte, List.length_cons]
    simp only [List.cons_append, List.nil_append, pairs,
      digitValue_digit (show c.toNat / 16 < 16 by omega),
      digitValue_digit (show c.toNat % 16 < 16 by omega), whole, ih, List.append_assoc]

theorem skip_hex (name : Bytes) {c : UInt8} (h : blank c = true) (s : Bytes) :
    ∃ t, skip (name.flatMap hexByte ++ c :: s) = name.flatMap hexByte ++ t ∧ skip t = skip s := by
  cases name with
  | nil => exact ⟨skip s, by simp [skip_blank h], skip_skip s⟩
  | cons d name =>
    have lt := d.toNat_lt
    have solid := blank_of_digitValue (digitValue_digit (show d.toNat / 16 < 16 by omega))
    refine ⟨c :: s, ?_, skip_blank h s⟩
    rw [List.flatMap_cons, hexByte]
    exact skip_solid solid _

/-- A name: its length, and its bytes in hex. -/
def nameText (name : Bytes) : Bytes := numeral 10 name.length ++ [32] ++ name.flatMap hexByte

theorem reads_scanName {name : Bytes} (size : name.length < 2 ^ 64) {c : UInt8}
    (h : blank c = true) :
    Reads (scanName : Scanner φ (Option Bytes)) (nameText name ++ [c]) (some name) := by
  intro z rest at_
  have count := @reads_scanU64 φ 10 (by omega) (by omega)
    (UInt64.ofNat name.length) 32 rfl z (name.flatMap hexByte ++ c :: rest)
  rw [UInt64.toNat_ofNat_of_lt' size] at count
  have text : nameText name ++ [c] ++ rest =
      numeral 10 name.length ++ [32] ++ (name.flatMap hexByte ++ c :: rest) := by
    simp [nameText]
  rw [text] at at_
  obtain ⟨value, left, good, going⟩ := count at_
  obtain ⟨t, solid, behind⟩ := skip_hex name h rest
  have bytes := pairs_hex name [] t
  rw [scanName]
  revert value left good going
  generalize scanU64 10 z = r
  obtain ⟨n, z'⟩ := r
  intro value left good going
  dsimp only at value left good going ⊢
  rw [value, left, solid, good, UInt64.toNat_ofNat_of_lt' size, bytes, List.nil_append]
  exact ⟨rfl, behind, rfl, going⟩

end

end Cocolog.Lib.Wire
