import Cocolog.Lib.Taking
import Cocolog.WebSocket.Frame
import Mathlib.Tactic.NormNum

/-! Reading a frame undoes writing it, from a list and from a socket that delivers the bytes
in any chunks. -/

set_option linter.all false

namespace Cocolog.WebSocket

open Lib

/-! ## What is to come from a source -/

def comingOf : List Arrival → List Nat
  | .bytes b bs :: rest => (b :: bs).map UInt8.toNat ++ comingOf rest
  | _ => []

def beyondOf : List Arrival → List Arrival
  | .bytes _ _ :: rest => beyondOf rest
  | l => l

/-- The bytes that reads find before the first timeout, error or end. -/
def Conn.coming (c : Conn) : List Nat := comingOf c.arrivals

/-- The timeout, error or end, and what follows it. -/
def Conn.beyond (c : Conn) : List Arrival := beyondOf c.arrivals

/-- Both sources of the reader. What no goal changes is none for a list. -/
def feed : Feed Source Nat (Option (List Arrival)) where
  coming
    | .bytes codes => codes
    | .conn c => c.coming
  frame
    | .bytes _ => none
    | .conn c => some c.beyond
  ends frame := frame = none

/-- A read finds some of the bytes to come, as many as it asked for at most. -/
theorem read_coming (c : Conn) {max : Nat} (asks : 0 < max) (some_ : c.coming ≠ []) :
    ∃ chunk c', wsSockRead c max = (some chunk, c') ∧ chunk ≠ [] ∧ chunk.length ≤ max ∧
      chunk ++ c'.coming = c.coming ∧ c'.beyond = c.beyond := by
  obtain ⟨arrivals, why⟩ := c
  match arrivals with
  | [] => exact absurd rfl some_
  | .silence :: _ => exact absurd rfl some_
  | .lost _ :: _ => exact absurd rfl some_
  | .bytes b bs :: rest =>
    obtain ⟨k, rfl⟩ := Nat.exists_eq_succ_of_ne_zero (Nat.ne_of_gt asks)
    have split : (b :: bs).take (k + 1) ++ (b :: bs).drop (k + 1) = b :: bs := List.take_append_drop _ _
    refine ⟨((b :: bs).take (k + 1)).map UInt8.toNat, _, rfl, by simp, ?_, ?_, ?_⟩
    · rw [List.length_map, List.length_take]
      exact Nat.min_le_left _ _
    · cases left : (b :: bs).drop (k + 1) with
      | nil =>
        rw [left, List.append_nil] at split
        rw [split]
        rfl
      | cons b' bs' =>
        rw [left] at split
        show _ ++ ((b' :: bs').map UInt8.toNat ++ comingOf rest) = (b :: bs).map UInt8.toNat ++ comingOf rest
        have whole := congrArg (List.map UInt8.toNat) split
        rw [List.map_append] at whole
        rw [← List.append_assoc, whole]
    · cases (b :: bs).drop (k + 1) <;> rfl

theorem readExact_coming (k n : Nat) (enough : n ≤ k) (c : Conn) (fits : n ≤ c.coming.length) :
    ∃ chunks c', wsReadExact_ k n c = (some chunks, c') ∧ chunks.flatten = c.coming.take n ∧
      c'.coming = c.coming.drop n ∧ c'.beyond = c.beyond := by
  induction k generalizing n c with
  | zero =>
    obtain rfl := Nat.le_zero.mp enough
    exact ⟨[], c, rfl, rfl, rfl, rfl⟩
  | succ k ih =>
    cases n with
    | zero => exact ⟨[], c, rfl, rfl, rfl, rfl⟩
    | succ n =>
      have some_ : c.coming ≠ [] := by
        intro none_
        rw [none_] at fits
        exact absurd fits (Nat.not_succ_le_zero n)
      have asks : 0 < min (n + 1) 1048576 := by omega
      obtain ⟨chunk, c₁, read, full, most, comes, beyond⟩ := read_coming c asks some_
      have least := List.length_pos_iff.mpr full
      have most' : chunk.length ≤ n + 1 := most.trans (Nat.min_le_left _ _)
      have total : c.coming.length = chunk.length + c₁.coming.length := by rw [← comes, List.length_append]
      obtain ⟨chunks, c₂, more, flat, left, beyond'⟩ :=
        ih (n + 1 - chunk.length) (by omega) c₁ (by omega)
      refine ⟨chunk :: chunks, c₂, ?_, ?_, ?_, beyond'.trans beyond⟩
      · simp only [wsReadExact_, read, more]
      · rw [List.flatten_cons, flat, ← comes, List.take_append, List.take_of_length_le most']
      · rw [left, ← comes, List.drop_append, List.drop_of_length_le most', List.nil_append]

/-- Taking `n` is exact for any text of that length. -/
theorem take_exact {w : List Nat} {n : Nat} (length : w.length = n) : feed.Exact (wsTake · n) w w where
  whole src rest comes := by
    cases src with
    | bytes codes =>
      have comes : codes = w ++ rest := comes
      subst comes
      refine ⟨.bytes rest, ?_, rfl, rfl⟩
      show (if n ≤ (w ++ rest).length then _ else _) = _
      rw [if_pos (by rw [List.length_append]; omega), List.take_left' length, List.drop_left' length]
    | conn c =>
      have comes : c.coming = w ++ rest := comes
      have fits : n ≤ c.coming.length := by
        rw [comes, List.length_append]
        omega
      obtain ⟨chunks, c', read, flat, left, beyond⟩ := readExact_coming n n (Nat.le_refl n) c fits
      refine ⟨.conn c', ?_, ?_, congrArg some beyond⟩
      · simp only [wsTake, wsReadExact, read]
        rw [flat, comes, List.take_left' length]
      · show c'.coming = rest
        rw [left, comes, List.drop_left' length]
  short src ends before other := by
    cases src with
    | bytes codes =>
      have before : codes <+: w := before
      have other : codes ≠ w := other
      have less : codes.length < w.length :=
        Nat.lt_of_le_of_ne before.length_le fun same => other (before.eq_of_length same)
      show (if n ≤ codes.length then _ else _) = _
      rw [if_neg (by omega)]
    | conn c => cases ends

/-! ## Bits -/

theorem join_eq (hi : Nat) {lo : Nat} (k : Nat) (small : lo < 2 ^ k) : hi <<< k ||| lo = hi * 2 ^ k + lo := by
  rw [← Nat.shiftLeft_add_eq_or_of_lt small, Nat.shiftLeft_eq]

theorem join_twice (a : Nat) {b : Nat} (k n : Nat) (small : b < 2 ^ k) :
    a <<< (k + n) ||| b <<< n = (a * 2 ^ k + b) <<< n := by
  rw [Nat.shiftLeft_add, ← Nat.shiftLeft_or_distrib, join_eq a k small]

/-- Four bytes, the high one first. -/
theorem join_four {e f g h : Nat} (bytes : e < 256 ∧ f < 256 ∧ g < 256 ∧ h < 256) :
    e <<< 24 ||| f <<< 16 ||| g <<< 8 ||| h = ((e * 256 + f) * 256 + g) * 256 + h := by
  have ef : e <<< 24 ||| f <<< 16 = (e * 256 + f) <<< 16 := join_twice e 8 16 bytes.2.1
  have efg : (e * 256 + f) <<< 16 ||| g <<< 8 = ((e * 256 + f) * 256 + g) <<< 8 := join_twice _ 8 8 bytes.2.2.1
  rw [ef, efg]
  exact join_eq _ 8 bytes.2.2.2

theorem low_byte (v : Nat) : v &&& 255 = v % 256 := Nat.and_two_pow_sub_one_eq_mod v 8

theorem shift_byte (v : Nat) : v >>> 8 = v / 256 := Nat.shiftRight_eq_div_pow v 8

/-- The first byte of a frame says its Fin and opcode and no RSV bit. -/
theorem first_byte (fin : Nat) {op : Nat} (nibble : op < 16) :
    (fin <<< 7 ||| op) >>> 7 = fin ∧ (fin <<< 7 ||| op) &&& 15 = op ∧ (fin <<< 7 ||| op) >>> 4 &&& 7 = 0 := by
  rw [join_eq fin 7 (by omega), Nat.and_two_pow_sub_one_eq_mod _ 4, Nat.and_two_pow_sub_one_eq_mod _ 3,
    Nat.shiftRight_eq_div_pow, Nat.shiftRight_eq_div_pow]
  omega

/-- The second byte says whether there is a key, and the length or its form. -/
theorem second_byte {l0 : Nat} (low : l0 < 128) (masked : Bool) :
    ((if masked then 128 else 0) ||| l0) >>> 7 = (if masked then 1 else 0) ∧
      ((if masked then 128 else 0) ||| l0) &&& 127 = l0 := by
  have joined : ((if masked then 128 else 0) ||| l0) = (if masked then 128 else 0) + l0 := by
    cases masked
    · simp
    · exact join_eq 1 7 low
  rw [joined, Nat.and_two_pow_sub_one_eq_mod _ 7, Nat.shiftRight_eq_div_pow]
  cases masked <;> simp <;> omega

/-! ## The texts of a frame -/

/-- The length `len` as the low bits of the second byte and the bytes that follow it. -/
inductive LengthText : Nat → List Nat → Nat → Prop
  | short {len : Nat} (small : len < 126) : LengthText len [] len
  | two {h l : Nat} (bytes : h < 256 ∧ l < 256) : LengthText 126 [h, l] (h * 256 + l)
  | eight {e f g h : Nat} (bytes : e < 256 ∧ f < 256 ∧ g < 256 ∧ h < 256) :
    LengthText 127 [0, 0, 0, 0, e, f, g, h] (((e * 256 + f) * 256 + g) * 256 + h)

theorem LengthText.low {l0 len : Nat} {ext : List Nat} (text : LengthText l0 ext len) : l0 < 128 := by
  cases text <;> omega

def unmask : Mask → List Nat → List Nat
  | some [k0, k1, k2, k3], raw => wsMask4 raw k0 k1 k2 k3
  | _, raw => raw

/-- A text that the reader takes as a frame, its payload at most `max` long. -/
structure FrameText (w : List Nat) (max : Nat) (frame : Frame) : Prop where
  fin : frame.fin ≤ 1
  op : wsOpcode frame.op = true
  control : 8 ≤ frame.op → frame.fin = 1 ∧ frame.payload.length ≤ 125
  key : ∀ key ∈ frame.mask, ∃ k0 k1 k2 k3, key = [k0, k1, k2, k3]
  fits : frame.payload.length ≤ max
  text : ∃ l0 ext raw, LengthText l0 ext frame.payload.length ∧ (8 ≤ frame.op → l0 ≤ 125) ∧
    unmask frame.mask raw = frame.payload ∧ raw.length = frame.payload.length ∧
    w = (frame.fin <<< 7 ||| frame.op) :: ((if frame.mask.isSome then 128 else 0) ||| l0) ::
      (ext ++ (frame.mask.getD [] ++ raw))

theorem wsOpcode_lt {op : Nat} (defined : wsOpcode op = true) : op < 16 := by
  simp only [wsOpcode, Bool.or_eq_true, decide_eq_true_eq] at defined
  omega

theorem rule_of {goal : Prop} [Decidable goal] (holds : goal) (code : Nat) (why : String) (src : Source) :
    wsRule goal code why src = .one () := if_pos holds

/-- What is made of the two bytes of a length. -/
def twoBytes (max : Nat) : List Nat × Source → Answers Ball (Nat × Source)
  | ([h, l], src) => do
    wsFits (h <<< 8 ||| l) max src
    .one (h <<< 8 ||| l, src)
  | _ => .fail

/-- What is made of the eight bytes of a length. -/
def eightBytes (max : Nat) : List Nat × Source → Answers Ball (Nat × Source)
  | ([a, b, c, d, e, f, g, h], src) =>
    if a = 0 ∧ b = 0 ∧ c = 0 ∧ d = 0 then do
      wsFits (e <<< 24 ||| f <<< 16 ||| g <<< 8 ||| h) max src
      .one (e <<< 24 ||| f <<< 16 ||| g <<< 8 ||| h, src)
    else .throw (⟨1009, "a frame longer than four gigabytes"⟩, src)
  | _ => .fail

theorem payloadLength_exact {l0 len max : Nat} {ext : List Nat} (text : LengthText l0 ext len) (fits : len ≤ max) :
    feed.Exact (wsPayloadLength l0 · max) ext len := by
  cases text with
  | @short len small =>
    refine Feed.Exact.congr (.done _) fun src => ?_
    rw [wsPayloadLength, if_pos small, wsFits, rule_of fits, Answers.one_bind]
  | @two h l bytes =>
    have join : h <<< 8 ||| l = h * 256 + l := join_eq h 8 bytes.2
    refine Feed.Exact.congr ((take_exact (w := [h, l]) rfl).bind (f := twoBytes max) (v := []) (b := h * 256 + l) ?_) fun src => ?_
    · refine Feed.Exact.congr (.done _) fun src => ?_
      simp only [twoBytes, join, wsFits, rule_of fits, Answers.one_bind]
    · rw [wsPayloadLength, if_neg (by omega), if_pos rfl]
      rfl
  | @eight e f g h bytes =>
    have join := join_four bytes
    refine Feed.Exact.congr ((take_exact (w := [0, 0, 0, 0, e, f, g, h]) rfl).bind (f := eightBytes max) (v := []) (b := ((e * 256 + f) * 256 + g) * 256 + h) ?_) fun src => ?_
    · refine Feed.Exact.congr (.done _) fun src => ?_
      simp only [eightBytes, join, wsFits, rule_of fits, Answers.one_bind, and_self, if_true]
    · rw [wsPayloadLength, if_neg (by omega), if_neg (by omega), if_pos rfl]
      rfl

theorem takeMask_exact {mask : Mask} (key : ∀ key ∈ mask, ∃ k0 k1 k2 k3, key = [k0, k1, k2, k3]) :
    feed.Exact (wsTakeMask (if mask.isSome then 1 else 0) ·) (mask.getD []) mask := by
  cases mask with
  | none => exact .done none
  | some key_ =>
    obtain ⟨k0, k1, k2, k3, rfl⟩ := key key_ rfl
    exact Feed.Exact.bind (take_exact (w := [k0, k1, k2, k3]) rfl) (.done (some [k0, k1, k2, k3]))

theorem unmask_eq {mask : Mask} (key : ∀ key ∈ mask, ∃ k0 k1 k2 k3, key = [k0, k1, k2, k3]) (raw : List Nat) :
    wsUnmask mask raw = .one (unmask mask raw) := by
  cases mask with
  | none => rfl
  | some key_ =>
    obtain ⟨k0, k1, k2, k3, rfl⟩ := key key_ rfl
    rfl

/-- The reader is exact for the text of a frame behind its first byte. -/
theorem frameRest_exact {w : List Nat} {max : Nat} {frame : Frame} (text : FrameText w max frame) :
    ∃ b0 tail, w = b0 :: tail ∧ feed.Exact (wsFrameRest · b0 max) tail frame := by
  obtain ⟨l0, ext, raw, length, small, body, size, rfl⟩ := text.text
  obtain ⟨fin, op, rsv⟩ := first_byte frame.fin (wsOpcode_lt text.op)
  obtain ⟨masked, low⟩ := second_byte length.low frame.mask.isSome
  refine ⟨_, _, rfl, ?_⟩
  have whole : ¬(8 ≤ frame.op ∧ frame.fin = 0) := fun both => by
    rw [(text.control both.1).1] at both
    cases both.2
  have little : ¬(8 ≤ frame.op ∧ 125 < l0) := fun both => absurd (small both.1) (Nat.not_le.mpr both.2)
  refine (take_exact (w := [_]) rfl).bind (v := ext ++ (frame.mask.getD [] ++ raw)) ?_
  simp only [fin, op, rsv, masked, low]
  simp only [rule_of trivial, rule_of text.op, rule_of whole, rule_of little, Answers.one_bind]
  refine (payloadLength_exact length text.fits).bind ?_
  dsimp only
  refine (takeMask_exact text.key).bind ?_
  dsimp only
  rw [← List.append_nil raw]
  refine (take_exact size).bind (.congr (.done frame) fun src => ?_)
  rw [unmask_eq text.key, Answers.one_bind, body]

/-- A connection that has the text of a frame to come, in any chunks, is read as that frame. -/
theorem FrameText.read {w : List Nat} {max : Nat} {frame : Frame} (text : FrameText w max frame) {c : Conn}
    {rest : List Nat} (comes : c.coming = w ++ rest) : ∃ b0 c₁ c₂, wsSockRead c 1 = (some [b0], c₁) ∧
      wsFrameRest (.conn c₁) b0 max = .one (frame, .conn c₂) ∧ c₂.coming = rest ∧ c₂.beyond = c.beyond := by
  obtain ⟨b0, tail, rfl, exact_⟩ := frameRest_exact text
  obtain ⟨chunk, c₁, read, full, most, comes', beyond⟩ := read_coming c Nat.one_pos (by rw [comes]; exact nofun)
  obtain ⟨b, rfl⟩ := List.length_eq_one_iff.mp (Nat.le_antisymm most (List.length_pos_iff.mpr full))
  obtain ⟨rfl, left⟩ := List.cons.inj (comes'.trans comes)
  obtain ⟨src, one, rest_, frame_⟩ := exact_.whole (.conn c₁) rest left
  cases src with
  | bytes codes => cases frame_
  | conn c₂ => exact ⟨b, c₁, c₂, read, one, rest_, (Option.some.inj frame_).trans beyond⟩

/-! ## The written frame -/

/-- Fin a bit, a defined opcode, no key or one of four bytes, and a control frame short and whole. -/
structure Frame.Sendable (frame : Frame) : Prop where
  fin : frame.fin ≤ 1
  op : wsOpcode frame.op = true
  key : ∀ key ∈ frame.mask, key.length = 4
  control : 8 ≤ frame.op → frame.fin = 1 ∧ frame.payload.length ≤ 125

/-- `form` bytes of length can say `len`: seven bits, sixteen or sixty-four. -/
def Says (form len : Nat) : Prop :=
  form = 1 ∧ len < 126 ∨ form = 3 ∧ len < 2 ^ 16 ∨ form = 9 ∧ len < 2 ^ 64

theorem beBytes_eight {v : Nat} (small : v < 2 ^ 32) :
    wsBeBytes 8 v = [0, 0, 0, 0, v / 256 / 256 / 256, v / 256 / 256 % 256, v / 256 % 256, v % 256] := by
  simp only [wsBeBytes, wsBeBytes_, low_byte, shift_byte, List.cons.injEq, and_true]
  omega

/-- The length is written in the fewest bytes that say it. -/
theorem lengthBytes_text {len : Nat} (small : len < 2 ^ 32) (m : Nat) : ∃ l0 ext,
    wsLengthBytes len m = (m ||| l0) :: ext ∧ LengthText l0 ext len ∧ (len ≤ 125 → l0 ≤ 125) ∧
      IsLeast {form | Says form len} (ext.length + 1) := by
  unfold wsLengthBytes
  split
  · rename_i short
    refine ⟨len, [], rfl, .short short, id, .inl ⟨rfl, short⟩, ?_⟩
    rintro form (⟨rfl, _⟩ | ⟨rfl, _⟩ | ⟨rfl, _⟩) <;> simp
  rename_i long
  split
  · rename_i two
    have split_ : len / 256 * 256 + len % 256 = len := Nat.div_add_mod' len 256
    refine ⟨126, [len / 256, len % 256], ?_, ?_, fun le => absurd (Nat.lt_succ_of_le le) long, .inr (.inl ⟨rfl, two⟩), ?_⟩
    · rw [low_byte, shift_byte]
    · have text := LengthText.two (h := len / 256) (l := len % 256) ⟨by omega, Nat.mod_lt _ (by decide)⟩
      rwa [split_] at text
    · rintro form (⟨rfl, short⟩ | ⟨rfl, _⟩ | ⟨rfl, _⟩)
      · exact absurd short long
      · exact Nat.le_refl _
      · simp
  · rename_i more
    refine ⟨127, _, rfl, ?_, fun le => absurd (Nat.lt_succ_of_le le) long, ?_⟩
    · rw [beBytes_eight small]
      have split_ : ((len / 256 / 256 / 256 * 256 + len / 256 / 256 % 256) * 256 + len / 256 % 256) * 256 + len % 256 =
          len := by omega
      have text := LengthText.eight (e := len / 256 / 256 / 256) (f := len / 256 / 256 % 256) (g := len / 256 % 256)
        (h := len % 256) ⟨by omega, Nat.mod_lt _ (by decide), Nat.mod_lt _ (by decide), Nat.mod_lt _ (by decide)⟩
      rwa [split_] at text
    · rw [beBytes_eight small]
      refine ⟨.inr (.inr ⟨rfl, by omega⟩), ?_⟩
      rintro form (⟨rfl, short⟩ | ⟨rfl, two⟩ | ⟨rfl, _⟩)
      · exact absurd short long
      · exact absurd two more
      · exact Nat.le_refl _

theorem key_bytes {mask : Mask} (key : ∀ key ∈ mask, key.length = 4) :
    ∀ key ∈ mask, ∃ k0 k1 k2 k3, key = [k0, k1, k2, k3] := by
  intro bytes mem
  match bytes, key bytes mem with
  | [k0, k1, k2, k3], _ => exact ⟨k0, k1, k2, k3, rfl⟩

/-- The writer answers once, with a text of the frame whose length is in the shortest form. -/
theorem frameBytes_text {frame : Frame} (sendable : frame.Sendable) {max : Nat} (small : max < 2 ^ 32)
    (fits : frame.payload.length ≤ max) : ∃ bytes,
    wsFrameBytes (ε := Ball) frame.fin frame.op frame.mask frame.payload = .one bytes ∧ FrameText bytes max frame ∧
      ∃ form, bytes.length = 1 + form + (frame.mask.getD []).length + frame.payload.length ∧
        IsLeast {form | Says form frame.payload.length} form := by
  have key := key_bytes sendable.key
  obtain ⟨l0, ext, length, text, low, least⟩ :=
    lengthBytes_text (Nat.lt_of_le_of_lt fits small) (if frame.mask.isSome then 128 else 0)
  have masked : ∃ body, wsFrameBytes (ε := Ball) frame.fin frame.op frame.mask frame.payload =
      .one ((frame.fin <<< 7 ||| frame.op) ::
        wsLengthBytes frame.payload.length (if frame.mask.isSome then 128 else 0) ++ (frame.mask.getD [] ++ body)) ∧
      unmask frame.mask body = frame.payload ∧ body.length = frame.payload.length := by
    obtain ⟨fin, op, mask, payload⟩ := frame
    cases mask with
    | none => exact ⟨payload, rfl, rfl, rfl⟩
    | some bytes =>
      obtain ⟨k0, k1, k2, k3, rfl⟩ := key bytes rfl
      refine ⟨wsMask4 payload k0 k1 k2 k3, ?_, wsMask4_twice .., wsMask4_length ..⟩
      simp only [wsFrameBytes, wsMask, Answers.one_bind]
      rfl
  obtain ⟨body, written, undone, size⟩ := masked
  rw [length] at written
  refine ⟨_, written, ⟨sendable.fin, sendable.op, sendable.control, key, fits, l0, ext, body, text,
    fun large => low (sendable.control large).2, undone, size, rfl⟩, ext.length + 1, ?_, least⟩
  simp only [List.cons_append, List.length_cons, List.length_append, size]
  omega

/-- Reading undoes writing: from a list with anything after it, with no answer for a part of
the bytes, and from a connection that delivers them in any chunks. -/
theorem frame_round_trip (frame : Frame) (sendable : frame.Sendable) (max : Nat) (small : max < 2 ^ 32)
    (fits : frame.payload.length ≤ max) : ∃ bytes,
    wsFrameBytes (ε := Ball) frame.fin frame.op frame.mask frame.payload = .one bytes ∧
    (∀ rest, wsFrame (bytes ++ rest) max = .one (frame, rest)) ∧
    (∀ part, part <+: bytes → part ≠ bytes → wsFrame part max = .fail) ∧
    (∃ form, bytes.length = 1 + form + (frame.mask.getD []).length + frame.payload.length ∧
      IsLeast {form | Says form frame.payload.length} form) ∧
    ∀ (c : Conn) rest, c.coming = bytes ++ rest → ∃ b0 c₁ c₂, wsSockRead c 1 = (some [b0], c₁) ∧
      wsFrameRest (.conn c₁) b0 max = .one (frame, .conn c₂) ∧ c₂.coming = rest ∧ c₂.beyond = c.beyond := by
  obtain ⟨bytes, written, text, form⟩ := frameBytes_text sendable small fits
  obtain ⟨b0, tail, rfl, exact_⟩ := frameRest_exact text
  refine ⟨_, written, fun rest => ?_, fun part before other => ?_, form, fun c rest comes => ?_⟩
  · obtain ⟨src, one, left, frame_⟩ := exact_.whole (.bytes (tail ++ rest)) rest rfl
    cases src with
    | conn c => cases frame_
    | bytes codes =>
      have left : codes = rest := left
      subst left
      show (wsFrameRest (.bytes (tail ++ codes)) b0 max >>= _) = _
      rw [show wsFrameRest (.bytes (tail ++ codes)) b0 max = .one (frame, .bytes codes) from one, Answers.one_bind]
  · cases part with
    | nil => rfl
    | cons b part =>
      obtain ⟨rfl, within⟩ := List.cons_prefix_cons.mp before
      have none_ := exact_.short (.bytes part) rfl within fun same => other (congrArg _ same)
      show (wsFrameRest (.bytes part) b max >>= _) = _
      rw [show wsFrameRest (.bytes part) b max = .fail from none_, Answers.fail_bind]
  · exact text.read comes

/-- The masked text frame of RFC 6455's own example, "Hello". -/
theorem frame_round_trip_hello : ∃ bytes,
    wsFrameBytes (ε := Ball) 1 1 (some [55, 250, 33, 61]) [72, 101, 108, 108, 111] = .one bytes ∧
    (∀ rest, wsFrame (bytes ++ rest) 16777216 = .one (⟨1, 1, some [55, 250, 33, 61], [72, 101, 108, 108, 111]⟩, rest)) ∧
    ∀ part, part <+: bytes → part ≠ bytes → wsFrame part 16777216 = .fail := by
  obtain ⟨bytes, written, whole, short, _⟩ := frame_round_trip
    ⟨1, 1, some [55, 250, 33, 61], [72, 101, 108, 108, 111]⟩
    ⟨by decide, by decide, fun key mem => by cases mem; rfl, by decide⟩ 16777216 (by decide) (by decide)
  exact ⟨bytes, written, whole, short⟩

example : (wsFrameBytes 1 1 (some [55, 250, 33, 61]) [72, 101, 108, 108, 111] : Answers Ball (List Nat)) =
    .one [129, 133, 55, 250, 33, 61, 127, 159, 77, 81, 88] := by
  decide

end Cocolog.WebSocket
