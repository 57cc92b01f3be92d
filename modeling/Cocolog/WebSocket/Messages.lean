import Cocolog.WebSocket.Closing

/-! The messages of a conversation are those the peer's frames make up, for any frames, cut
into any fragments and delivered in any chunks. -/

set_option linter.all false

namespace Cocolog.WebSocket

open Lib

/-! ## Frames the peer sends -/

/-- A length as the low bits of the second byte and the bytes that follow it, in any form. -/
inductive Length : Nat → List Nat → Nat → Prop
  | short {len : Nat} (small : len < 126) : Length len [] len
  | two {h l : Nat} (bytes : h < 256 ∧ l < 256) : Length 126 [h, l] (h * 256 + l)
  | eight {a b c d e f g h : Nat} (high : a < 256 ∧ b < 256 ∧ c < 256 ∧ d < 256)
      (bytes : e < 256 ∧ f < 256 ∧ g < 256 ∧ h < 256) :
    Length 127 [a, b, c, d, e, f, g, h]
      ((((a * 256 + b) * 256 + c) * 256 + d) * 2 ^ 32 + (((e * 256 + f) * 256 + g) * 256 + h))

/-- Any frame: RSV bits, an opcode without a meaning and a length in a form longer than it
needs included. `raw` is the payload as it travels. -/
structure Sent where
  fin : Nat
  rsv : Nat
  op : Nat
  l0 : Nat
  ext : List Nat
  mask : Mask
  raw : List Nat
  bit : fin ≤ 1
  bits : rsv < 8
  nibble : op < 16
  length : Length l0 ext raw.length
  key : ∀ key ∈ mask, ∃ k0 k1 k2 k3, key = [k0, k1, k2, k3]

namespace Sent

def payload (f : Sent) : List Nat := unmask f.mask f.raw

def text (f : Sent) : List Nat :=
  (f.fin <<< 7 ||| (f.rsv <<< 4 ||| f.op)) :: ((if f.mask.isSome then 128 else 0) ||| f.l0) ::
    (f.ext ++ (f.mask.getD [] ++ f.raw))

def frame (f : Sent) : Frame := ⟨f.fin, f.op, f.mask, f.payload⟩

/-- The code that a frame is refused with before its payload is read. -/
def refusal (max : Nat) (f : Sent) : Option Nat :=
  if f.rsv ≠ 0 ∨ wsOpcode f.op = false ∨ 8 ≤ f.op ∧ (f.fin = 0 ∨ 125 < f.l0) then some 1002
  else if max < f.raw.length ∨ 2 ^ 32 ≤ f.raw.length then some 1009
  else none

theorem payload_length (f : Sent) : f.payload.length = f.raw.length := by
  unfold payload unmask
  split
  · rw [wsMask4_length]
  · rfl

end Sent

theorem Length.low {l0 len : Nat} {ext : List Nat} (length : Length l0 ext len) : l0 < 128 := by
  cases length <;> omega

/-- A length below 2^32 has the top half of its long form zero. -/
theorem Length.text {l0 len : Nat} {ext : List Nat} (length : Length l0 ext len) (small : len < 2 ^ 32) :
    LengthText l0 ext len := by
  cases length with
  | short short => exact .short short
  | two bytes => exact .two bytes
  | @eight a b c d e f g h high bytes =>
    obtain ⟨rfl, rfl, rfl, rfl⟩ : a = 0 ∧ b = 0 ∧ c = 0 ∧ d = 0 := by omega
    simpa using LengthText.eight bytes

theorem LengthText.short_len {l0 len : Nat} {ext : List Nat} (text : LengthText l0 ext len) (low : l0 ≤ 125) :
    len ≤ 125 := by
  cases text <;> omega

theorem Sent.keeps {f : Sent} (kept : ¬(f.rsv ≠ 0 ∨ wsOpcode f.op = false ∨ 8 ≤ f.op ∧ (f.fin = 0 ∨ 125 < f.l0))) :
    f.rsv = 0 ∧ wsOpcode f.op = true ∧ ¬(8 ≤ f.op ∧ f.fin = 0) ∧ ¬(8 ≤ f.op ∧ 125 < f.l0) := by
  rw [not_or, not_or, not_not, Bool.not_eq_false] at kept
  obtain ⟨rsv, op, control⟩ := kept
  exact ⟨rsv, op, fun part => control ⟨part.1, .inl part.2⟩, fun long => control ⟨long.1, .inr long.2⟩⟩

/-- A frame that is not refused is a text that the reader takes. -/
theorem Sent.frameText {f : Sent} {max : Nat} (taken : f.refusal max = none) : FrameText f.text max f.frame := by
  unfold refusal at taken
  split at taken
  · cases taken
  rename_i kept
  split at taken
  · cases taken
  rename_i fits
  obtain ⟨rsv, op, part, long⟩ := keeps kept
  have whole (large : 8 ≤ f.op) : f.fin = 1 ∧ f.l0 ≤ 125 := by
    have bit := f.bit
    omega
  have small : f.raw.length < 2 ^ 32 := by omega
  have lengthText := f.length.text small
  have length := f.payload_length
  refine ⟨f.bit, op, fun large => ⟨(whole large).1, ?_⟩, f.key, ?_, ?_⟩
  · show f.payload.length ≤ 125
    rw [length]
    exact lengthText.short_len (whole large).2
  · show f.payload.length ≤ max
    omega
  · refine ⟨f.l0, f.ext, f.raw, ?_, fun large => (whole large).2, rfl, length.symm, ?_⟩
    · show LengthText f.l0 f.ext f.payload.length
      rwa [length]
    · show f.text = _
      rw [text, rsv, Nat.zero_shiftLeft, Nat.zero_or]
      rfl

/-! ## Frames refused -/

theorem first_byte_rsv (fin : Nat) {rsv op : Nat} (bits : rsv < 8) (nibble : op < 16) :
    (fin <<< 7 ||| (rsv <<< 4 ||| op)) >>> 7 = fin ∧ (fin <<< 7 ||| (rsv <<< 4 ||| op)) &&& 15 = op ∧
      (fin <<< 7 ||| (rsv <<< 4 ||| op)) >>> 4 &&& 7 = rsv := by
  have low : rsv <<< 4 ||| op = rsv * 16 + op := join_eq rsv 4 nibble
  rw [low, join_eq fin 7 (by omega), Nat.and_two_pow_sub_one_eq_mod _ 4, Nat.and_two_pow_sub_one_eq_mod _ 3,
    Nat.shiftRight_eq_div_pow, Nat.shiftRight_eq_div_pow]
  omega

/-- A refusal in words of the library's own. -/
def Refuses {α : Type} (p : Answers Ball α) (code : Nat) : Prop :=
  ∃ why c, p = .throw (⟨code, why⟩, .conn c) ∧ wsUtf8 (wordsBytes why) = true

theorem Refuses.bind {α β : Type} {p : Answers Ball α} {code : Nat} (refuses : Refuses p code)
    (f : α → Answers Ball β) : Refuses (p >>= f) code := by
  obtain ⟨why, c, rfl, ascii⟩ := refuses
  exact ⟨why, c, rfl, ascii⟩

theorem rule_refuses {goal : Prop} [Decidable goal] (broken : ¬goal) (code : Nat) {why : String}
    (ascii : wsUtf8 (wordsBytes why) = true) (c : Conn) : Refuses (wsRule goal code why (.conn c)) code :=
  ⟨why, c, if_neg broken, ascii⟩

theorem fits_refuses {len max : Nat} (past : max < len) (c : Conn) : Refuses (wsFits len max (.conn c)) 1009 :=
  rule_refuses (Nat.not_le.mpr past) 1009 (words_ascii (by decide)) c

/-- Taking from a connection what it has. -/
theorem take_conn {w rest : List Nat} {n : Nat} (length : w.length = n) {c : Conn} (comes : c.coming = w ++ rest) :
    ∃ c', wsTake (.conn c) n = .one (w, .conn c') ∧ c'.coming = rest ∧ c'.beyond = c.beyond := by
  obtain ⟨src, one, left, frame⟩ := (take_exact length).whole (.conn c) rest comes
  cases src with
  | bytes codes => cases frame
  | conn c' => exact ⟨c', one, left, Option.some.inj frame⟩

theorem payloadLength_refuses {l0 len max : Nat} {ext : List Nat} (length : Length l0 ext len)
    (past : max < len ∨ 2 ^ 32 ≤ len) {c : Conn} {rest : List Nat} (comes : c.coming = ext ++ rest) :
    Refuses (wsPayloadLength l0 (.conn c) max) 1009 := by
  unfold wsPayloadLength
  cases length with
  | short small =>
    rw [if_pos small]
    exact (fits_refuses (by omega) c).bind _
  | @two h l bytes =>
    obtain ⟨c', one, -, -⟩ := take_conn (n := 2) rfl comes
    have join : h <<< 8 ||| l = h * 256 + l := join_eq h 8 bytes.2
    rw [if_neg (by omega), if_pos rfl, one, Answers.one_bind]
    dsimp only
    rw [join]
    exact (fits_refuses (by omega) c').bind _
  | @eight a b c d e f g h high bytes =>
    obtain ⟨c', one, -, -⟩ := take_conn (n := 8) rfl comes
    rw [if_neg (by omega), if_neg (by omega), if_pos rfl, one, Answers.one_bind]
    dsimp only
    split
    · rename_i top
      obtain ⟨rfl, rfl, rfl, rfl⟩ := top
      rw [join_four bytes]
      exact (fits_refuses (by omega) c').bind _
    · exact ⟨_, c', rfl, words_ascii (by decide)⟩

/-- A frame that is refused is refused whatever follows its first bytes. -/
theorem Sent.refuses {f : Sent} {max code : Nat} (refused : f.refusal max = some code) {c : Conn}
    {rest : List Nat} (comes : c.coming = f.text ++ rest) : (code = 1002 ∨ code = 1009) ∧
      ∃ b0 c₁, wsSockRead c 1 = (some [b0], c₁) ∧ Refuses (wsFrameRest (.conn c₁) b0 max) code := by
  obtain ⟨chunk, c₁, read, full, most, comes', -⟩ := read_coming c Nat.one_pos (by rw [comes]; exact nofun)
  obtain ⟨b, rfl⟩ := List.length_eq_one_iff.mp (Nat.le_antisymm most (List.length_pos_iff.mpr full))
  obtain ⟨rfl, left⟩ := List.cons.inj (comes'.trans comes)
  obtain ⟨c₂, second, left', -⟩ := take_conn (w := [_]) (n := 1) rfl left
  obtain ⟨fin, op, rsv⟩ := first_byte_rsv f.fin f.bits f.nibble
  obtain ⟨masked, low⟩ := second_byte f.length.low f.mask.isSome
  have bit := f.bit
  suffices refuses : (code = 1002 ∨ code = 1009) ∧ Refuses (wsFrameRest (.conn c₁) _ max) code from
    ⟨refuses.1, _, c₁, read, refuses.2⟩
  rw [wsFrameRest, second, Answers.one_bind]
  dsimp only
  rw [fin, op, rsv, low]
  unfold refusal at refused
  split at refused
  · rename_i broken
    obtain rfl := Option.some.inj refused
    refine ⟨.inl rfl, ?_⟩
    by_cases clear : f.rsv = 0
    · rw [rule_of clear, Answers.one_bind]
      by_cases defined : wsOpcode f.op = true
      · rw [rule_of defined, Answers.one_bind]
        by_cases whole : 8 ≤ f.op ∧ f.fin = 0
        · exact (rule_refuses (not_not.mpr whole) 1002 (words_ascii (by decide)) c₂).bind _
        · rw [rule_of whole, Answers.one_bind]
          have long : 8 ≤ f.op ∧ 125 < f.l0 := by
            rcases broken with set_ | other | large
            · exact absurd clear set_
            · rw [defined] at other
              cases other
            · exact ⟨large.1, large.2.resolve_left fun part => whole ⟨large.1, part⟩⟩
          exact (rule_refuses (not_not.mpr long) 1002 (words_ascii (by decide)) c₂).bind _
      · exact (rule_refuses defined 1002 (words_ascii (by decide)) c₂).bind _
    · exact (rule_refuses clear 1002 (words_ascii (by decide)) c₂).bind _
  rename_i kept
  split at refused
  · rename_i past
    obtain rfl := Option.some.inj refused
    refine ⟨.inr rfl, ?_⟩
    obtain ⟨clear, defined, whole, short⟩ := keeps kept
    rw [rule_of clear, Answers.one_bind, rule_of defined, Answers.one_bind, rule_of whole, Answers.one_bind,
      rule_of short, Answers.one_bind]
    exact (payloadLength_refuses f.length past (left'.trans (List.append_assoc ..))).bind _
  · cases refused

/-! ## What the frames say -/

def opOf : Kind → Nat
  | .text => 1
  | .binary => 2

/-- What `ws_receive/3` can return: a message under its kind, a pong, or the end. -/
inductive Event
  | said (kind : Kind) (payload : List Nat)
  | pong (data : List Nat)
  | ended (code : Nat)
  deriving DecidableEq, Repr

section Grammar

variable (role : Role) (max : Nat)

/-- A frame that breaks no rule of its own and is masked as the role requires. -/
def Good (f : Sent) : Prop := f.refusal max = none ∧ wsMaskRight role f.mask = true

def Legible (kind : Kind) (payload : List Nat) : Prop := kind = .text → IsUtf8 payload

/-- A message that has begun and is not finished: its first fragment and continuations, pings
and pongs between them, with its kind and the payloads so far. -/
inductive Half : List Sent → Kind → List Nat → Prop
  | first {f : Sent} {kind : Kind} (good : Good role max f) (op : f.op = opOf kind) (fin : f.fin = 0) :
    Half [f] kind f.payload
  | control {hs : List Sent} {kind : Kind} {p : List Nat} {f : Sent} (half : Half hs kind p)
    (good : Good role max f) (op : f.op = 9 ∨ f.op = 10) : Half (hs ++ [f]) kind p
  | more {hs : List Sent} {kind : Kind} {p : List Nat} {f : Sent} (half : Half hs kind p) (good : Good role max f)
    (op : f.op = 0) (fin : f.fin = 0) (fits : p.length + f.payload.length ≤ max) : Half (hs ++ [f]) kind (p ++ f.payload)

/-- Frames with no message left unfinished, and what they say. -/
inductive Complete : List Sent → List Event → Prop
  | nil : Complete [] []
  | ping {f : Sent} {fs : List Sent} {es : List Event} (good : Good role max f) (op : f.op = 9)
    (rest : Complete fs es) : Complete (f :: fs) es
  | pong {f : Sent} {fs : List Sent} {es : List Event} (good : Good role max f) (op : f.op = 10)
    (rest : Complete fs es) : Complete (f :: fs) (.pong f.payload :: es)
  | single {f : Sent} {fs : List Sent} {es : List Event} {kind : Kind} (good : Good role max f) (op : f.op = opOf kind)
    (fin : f.fin = 1) (utf8 : Legible kind f.payload) (rest : Complete fs es) :
    Complete (f :: fs) (.said kind f.payload :: es)
  | fragments {hs fs : List Sent} {es : List Event} {kind : Kind} {p : List Nat} {f : Sent} (half : Half role max hs kind p)
    (good : Good role max f) (op : f.op = 0) (fin : f.fin = 1) (fits : p.length + f.payload.length ≤ max)
    (utf8 : Legible kind (p ++ f.payload)) (rest : Complete fs es) :
    Complete (hs ++ f :: fs) (.said kind (p ++ f.payload) :: es)

/-- Nothing unfinished, or a message of a kind and the payloads so far. -/
def At (hs : List Sent) : Option (Kind × List Nat) → Prop
  | none => hs = []
  | some (kind, p) => Half role max hs kind p

/-- The code that a close frame's payload ends the conversation with. -/
def closeCode (payload : List Nat) : Nat :=
  match payload with
  | [] => 1005
  | [_] => 1002
  | h :: l :: reason =>
    if h * 256 + l ≠ 1005 ∧ ¬wsCodeSendable (h * 256 + l : Nat) then 1002
    else if ¬wsUtf8 reason then 1007
    else h * 256 + l

/-- A frame that ends the conversation, and with which code. -/
inductive Ends : Option (Kind × List Nat) → Sent → Nat → Prop
  | refused {pending : Option (Kind × List Nat)} {f : Sent} {code : Nat} (refused : f.refusal max = some code) :
    Ends pending f code
  | mask {pending : Option (Kind × List Nat)} {f : Sent} (taken : f.refusal max = none)
    (wrong : wsMaskRight role f.mask = false) : Ends pending f 1002
  | close {pending : Option (Kind × List Nat)} {f : Sent} (good : Good role max f) (op : f.op = 8) :
    Ends pending f (closeCode f.payload)
  | stray {f : Sent} (good : Good role max f) (op : f.op = 0) : Ends none f 1002
  | inside {kind : Kind} {message : Kind × List Nat} {f : Sent} (good : Good role max f) (op : f.op = opOf kind) :
    Ends (some message) f 1002
  | long {kind : Kind} {p : List Nat} {f : Sent} (good : Good role max f) (op : f.op = 0)
    (long : max < p.length + f.payload.length) : Ends (some (kind, p)) f 1009
  | single {f : Sent} (good : Good role max f) (op : f.op = 1) (fin : f.fin = 1) (bad : ¬IsUtf8 f.payload) :
    Ends none f 1007
  | last {p : List Nat} {f : Sent} (good : Good role max f) (op : f.op = 0) (fin : f.fin = 1)
    (fits : p.length + f.payload.length ≤ max) (bad : ¬IsUtf8 (p ++ f.payload)) : Ends (some (.text, p)) f 1007

def texts (fs : List Sent) : List Nat := fs.flatMap Sent.text

/-- What a connection has to say, with `quiets` reads on it that time out, none of them inside
a message: messages and pongs, and then the end, at a frame or with the connection. -/
inductive Arrives : List Arrival → List Event → Nat → Prop
  | quiet {arrivals rest : List Arrival} {fs : List Sent} {es es' : List Event} {quiets : Nat}
    (comes : comingOf arrivals = texts fs) (beyond : beyondOf arrivals = .silence :: rest)
    (complete : Complete role max fs es) (later : Arrives rest es' quiets) : Arrives arrivals (es ++ es') (quiets + 1)
  | ended {arrivals : List Arrival} {fs hs : List Sent} {f : Sent} {bytes : List Nat} {es : List Event}
    {pending : Option (Kind × List Nat)} {code : Nat}
    (comes : comingOf arrivals = texts fs ++ (texts hs ++ (f.text ++ bytes))) (complete : Complete role max fs es)
    (pends : At role max hs pending) (ends : Ends role max pending f code) : Arrives arrivals (es ++ [.ended code]) 0
  | lost {arrivals : List Arrival} {fs hs : List Sent} {es : List Event} {pending : Option (Kind × List Nat)}
    (comes : comingOf arrivals = texts fs ++ texts hs)
    (beyond : beyondOf arrivals = [] ∨ ∃ why rest, why ≠ "timeout" ∧ beyondOf arrivals = .lost why :: rest)
    (complete : Complete role max fs es) (pends : At role max hs pending) : Arrives arrivals (es ++ [.ended 1006]) 0

end Grammar

/-! ## One frame read -/

/-- The conversation goes on with `rest` to come. -/
structure Onward (s s' : Session) (rest : List Nat) : Prop where
  role : s'.role = s.role
  done : s'.done = s.done
  coming : s'.conn.coming = rest
  beyond : s'.conn.beyond = s.conn.beyond

theorem Onward.trans {s s' s'' : Session} {rest rest' : List Nat} (first : Onward s s' rest)
    (next : Onward s' s'' rest') : Onward s s'' rest' :=
  ⟨next.role.trans first.role, next.done.trans first.done, next.coming, next.beyond.trans first.beyond⟩

section Reading

variable {units : Units} {max : Nat} {s : Session} {f : Sent} {rest : List Nat} {begun : Option Begun} {fin op : Nat}
  {mask : Mask} {payload : List Nat}

/-! What `ws_next_frame/7` makes of each frame that is masked as the role requires. -/

theorem turn_ping (right : wsMaskRight s.role mask = true) (is : op = 9) :
    wsNextFrame units max (.inr ⟨fin, op, mask, payload⟩) s begun =
      (.next begun, if s.closing then s else (wsSendFrame s 1 10 payload).2) := by
  simp only [wsNextFrame]
  rw [if_neg (not_not.mpr right), if_pos is]
  split <;> rfl

theorem turn_pong (right : wsMaskRight s.role mask = true) (is : op = 10) :
    wsNextFrame units max (.inr ⟨fin, op, mask, payload⟩) s begun =
      if begun = none then (.answer (.one (.pong payload)), s) else (.next begun, s) := by
  simp only [wsNextFrame]
  rw [if_neg (not_not.mpr right), if_neg (by omega), if_pos is]

theorem turn_close (right : wsMaskRight s.role mask = true) (is : op = 8) :
    wsNextFrame units max (.inr ⟨fin, op, mask, payload⟩) s begun = answering (wsCloseReceived units s payload) := by
  simp only [wsNextFrame]
  rw [if_neg (not_not.mpr right), if_neg (by omega), if_neg (by omega), if_pos is]

theorem turn_stray (right : wsMaskRight s.role mask = true) (is : op = 0) :
    wsNextFrame units max (.inr ⟨fin, op, mask, payload⟩) s none =
      answering (wsFailConnection units s 1002 "a continuation with no message to continue") := by
  simp only [wsNextFrame]
  rw [if_neg (not_not.mpr right), if_neg (by omega), if_neg (by omega), if_neg (by omega), if_pos is]

theorem turn_more (right : wsMaskRight s.role mask = true) (is : op = 0) (b : Begun) :
    wsNextFrame units max (.inr ⟨fin, op, mask, payload⟩) s (some b) =
      if max < b.size + payload.length then answering (wsFailConnection units s 1009 "a message over max_message")
      else if fin = 1 then answering (wsMessage units s b.kind (payload :: b.chunks).reverse.flatten)
      else (.next (some ⟨b.kind, b.size + payload.length, payload :: b.chunks⟩), s) := by
  simp only [wsNextFrame]
  rw [if_neg (not_not.mpr right), if_neg (by omega), if_neg (by omega), if_neg (by omega), if_pos is]

theorem opOf_range (kind : Kind) : 1 ≤ opOf kind ∧ opOf kind ≤ 2 := by
  cases kind <;> decide

theorem turn_inside (right : wsMaskRight s.role mask = true) {kind : Kind} (is : op = opOf kind) (b : Begun) :
    wsNextFrame units max (.inr ⟨fin, op, mask, payload⟩) s (some b) =
      answering (wsFailConnection units s 1002 "a new message inside a fragmented one") := by
  have range := opOf_range kind
  simp only [wsNextFrame]
  rw [if_neg (not_not.mpr right), if_neg (by omega), if_neg (by omega), if_neg (by omega), if_neg (by omega),
    if_pos (by simp)]

theorem turn_data (right : wsMaskRight s.role mask = true) {kind : Kind} (is : op = opOf kind) :
    wsNextFrame units max (.inr ⟨fin, op, mask, payload⟩) s none =
      if fin = 1 then answering (wsMessage units s kind payload)
      else (.next (some ⟨kind, payload.length, [payload]⟩), s) := by
  have range := opOf_range kind
  have kind_ : wsKind op = some kind := by
    rw [is]
    cases kind <;> rfl
  simp only [wsNextFrame]
  rw [if_neg (not_not.mpr right), if_neg (by omega), if_neg (by omega), if_neg (by omega), if_neg (by omega),
    if_neg (not_not.mpr rfl), kind_]

theorem turn_mask (wrong : wsMaskRight s.role mask = false) :
    wsNextFrame units max (.inr ⟨fin, op, mask, payload⟩) s begun =
      answering (wsFailConnection units s 1002 (wsMaskWrong s.role)) := by
  simp only [wsNextFrame]
  rw [if_pos (by simp [wrong])]

theorem next_of (units : Units) (begun begun' : Option Begun) (good : Good s.role max f) (comes : s.conn.coming = f.text ++ rest)
    (turn : ∀ s' : Session, wsMaskRight s'.role f.mask = true →
      wsNextFrame units max (.inr f.frame) s' begun = (.next begun', s')) :
    ∃ s', Onward s s' rest ∧ ∀ k, wsNext_ units max (k + 1) s begun = wsNext_ units max k s' begun' := by
  obtain ⟨c, left, beyond, next⟩ := (Sent.frameText good.1).next units comes
  exact ⟨{ s with conn := c }, ⟨rfl, rfl, left, beyond⟩, fun k => (next k begun _).1 begun' (turn _ good.2)⟩

theorem answer_of (units : Units) (begun : Option Begun) (outcome : Outcome Message) (good : Good s.role max f) (comes : s.conn.coming = f.text ++ rest)
    (turn : ∀ s' : Session, wsMaskRight s'.role f.mask = true →
      wsNextFrame units max (.inr f.frame) s' begun = (.answer outcome, s')) :
    ∃ s', Onward s s' rest ∧ ∀ k, wsNext_ units max (k + 1) s begun = (outcome, s') := by
  obtain ⟨c, left, beyond, next⟩ := (Sent.frameText good.1).next units comes
  exact ⟨{ s with conn := c }, ⟨rfl, rfl, left, beyond⟩, fun k => (next k begun _).2 outcome (turn _ good.2)⟩

/-- A ping is answered and changes nothing else. -/
theorem ping_next (units : Units) (good : Good s.role max f) (op : f.op = 9) (comes : s.conn.coming = f.text ++ rest) :
    ∃ s', Onward s s' rest ∧ ∀ k begun, wsNext_ units max (k + 1) s begun = wsNext_ units max k s' begun := by
  obtain ⟨c, left, beyond, next⟩ := (Sent.frameText good.1).next units comes
  refine ⟨_, ?_, fun k begun => (next k begun _).1 begun (turn_ping good.2 op)⟩
  split
  · exact ⟨rfl, rfl, left, beyond⟩
  · obtain ⟨s', sent, wrote⟩ := sendFrame_spec { s with conn := c } 1 10 f.payload
    rw [sent]
    exact ⟨wrote.role, wrote.done, by rw [wrote.conn]; exact left, by rw [wrote.conn]; exact beyond⟩

/-- The conversation is over with this code. -/
def Over (units : Units) (max : Nat) (s : Session) (begun : Option Begun) (code : Nat) : Prop :=
  ∃ why s', s'.done = true ∧ ∀ k, wsNext_ units max (k + 1) s begun = (.one (.close code why), s')

theorem over_of {code : Nat} (good : f.refusal max = none) (comes : s.conn.coming = f.text ++ rest)
    (turn : ∀ s₁ : Session, s₁.role = s.role → ∃ why s', s'.done = true ∧
      wsNextFrame units max (.inr f.frame) s₁ begun = (.answer (.one (.close code why)), s')) :
    Over units max s begun code := by
  obtain ⟨c, -, -, next⟩ := (Sent.frameText good).next units comes
  obtain ⟨why, s', done, is⟩ := turn { s with conn := c } rfl
  exact ⟨why, s', done, fun k => (next k begun _).2 _ is⟩

theorem failed_over {code : Nat} {r : Outcome Message × Session} (failed : FailedWith s code r) :
    ∃ why s', s'.done = true ∧ answering r = (.answer (.one (.close code why)), s') := by
  obtain ⟨why, message⟩ := failed.message
  exact ⟨.words why, r.2, failed.ended, by rw [answering, message]⟩

theorem allowed_own {code : Nat} (own : code = 1002 ∨ code = 1007 ∨ code = 1009) : Allowed code := by
  unfold Allowed
  omega

theorem refused_over {code : Nat} (refused : f.refusal max = some code) (comes : s.conn.coming = f.text ++ rest) :
    Over units max s begun code := by
  obtain ⟨own, b0, c₁, read, why, c₂, thrown, ascii⟩ := Sent.refuses refused comes
  have out : wsReadFrame c₁ b0 max = some (.inl ⟨code, why⟩, c₂) := by
    rw [wsReadFrame, thrown]
    rfl
  have allowed : Allowed code := allowed_own (by omega)
  obtain ⟨why', s', done, is⟩ := failed_over (failConnection_failed units { s with conn := c₂ } allowed ascii)
  have turn : wsNextFrame units max (.inl ⟨code, why⟩) { s with conn := c₂ } begun =
      (.answer (.one (.close code why')), s') := by
    rw [← is, wsNextFrame]
    exact if_neg (by omega)
  exact ⟨why', s', done, fun k => by simp only [wsNext_, read, out, turn]⟩

theorem closeReceived_over (units : Units) (s : Session) (payload : List Nat) (bytes : ∀ b ∈ payload, b < 256) :
    ∃ why s', s'.done = true ∧
      answering (wsCloseReceived units s payload) = (.answer (.one (.close (closeCode payload) why)), s') := by
  have checked (code : Nat) (reason : List Nat) : ∃ why s', s'.done = true ∧
      answering (wsCloseReceived.checked units s code reason) =
        (.answer (.one (.close (if code ≠ 1005 ∧ ¬wsCodeSendable code then 1002 else if ¬wsUtf8 reason then 1007
          else code) why)), s') := by
    unfold wsCloseReceived.checked
    by_cases bad : code ≠ 1005 ∧ ¬wsCodeSendable code
    · rw [if_pos bad, if_pos bad]
      exact failed_over (failConnection_failed units s (allowed_own (by omega)) (words_ascii (by decide)))
    rw [if_neg bad, if_neg bad]
    by_cases utf8 : ¬wsUtf8 reason
    · rw [if_pos utf8, if_pos utf8]
      exact failed_over (failConnection_failed units s (allowed_own (by omega)) (words_ascii (by decide)))
    · rw [if_neg utf8, if_neg utf8]
      exact ⟨.said reason, _, finished_done _, rfl⟩
  match payload with
  | [] =>
    have told := checked 1005 []
    have empty : wsUtf8 [] = true := rfl
    rw [if_neg (fun both => both.1 rfl), if_neg (not_not.mpr empty)] at told
    exact told
  | [b] =>
    rw [show closeCode [b] = 1002 from rfl,
      show wsCloseReceived units s [b] = wsFailConnection units s 1002 "a close frame of one byte" from rfl]
    exact failed_over (failConnection_failed units s (allowed_own (by omega)) (words_ascii (by decide)))
  | h :: l :: reason =>
    have code : h <<< 8 ||| l = h * 256 + l := join_eq h 8 (bytes l (by simp))
    have is : wsCloseReceived units s (h :: l :: reason) = wsCloseReceived.checked units s (h * 256 + l) reason :=
      congrArg (wsCloseReceived.checked units s · reason) code
    rw [is]
    exact checked (h * 256 + l) reason

theorem message_text {bytes : List Nat} (utf8 : IsUtf8 bytes) :
    wsMessage units s .text bytes = (.one (.text (wsBytesCodes units bytes)), s) :=
  if_pos ((wsUtf8_iff bytes).mpr utf8)

theorem message_bad {bytes : List Nat} (bad : ¬IsUtf8 bytes) :
    FailedWith s 1007 (wsMessage units s .text bytes) := by
  rw [wsMessage, if_neg (mt (wsUtf8_iff bytes).mp bad)]
  exact failConnection_failed units s (allowed_own (by omega)) (words_ascii (by decide))

end Reading

/-! ## What is returned -/

/-- The bytes that a text's codes are on the wire. -/
def codeBytes (units : Units) (codes : List Int) : List Nat :=
  match units with
  | .bytes => codes.map Int.toNat
  | .characters => (codes.flatMap Text.utf8Enc).map UInt8.toNat

def heard (units : Units) : Outcome Message → Option Event
  | .one (.text codes) => some (.said .text (codeBytes units codes))
  | .one (.binary bytes) => some (.said .binary bytes)
  | .one (.pong data) => some (.pong data)
  | .one (.close code _) => some (.ended code)
  | _ => none

theorem IsUtf8.bytes {bytes : List Nat} (utf8 : IsUtf8 bytes) : ∀ b ∈ bytes, b < 256 := by
  obtain ⟨l, scalars, rfl⟩ := utf8
  intro b mem
  obtain ⟨c, in_, mem⟩ := List.mem_flatMap.mp mem
  obtain ⟨top, -⟩ := scalars c in_
  unfold scalarBytes at mem
  split at mem
  · rw [List.mem_singleton.mp mem]
    omega
  split at mem
  · simp only [List.mem_cons, List.not_mem_nil, or_false] at mem
    omega
  split at mem
  · simp only [List.mem_cons, List.not_mem_nil, or_false] at mem
    omega
  · simp only [List.mem_cons, List.not_mem_nil, or_false] at mem
    omega

/-- No byte is lost between the wire and the codes. -/
theorem codeBytes_codes (units : Units) {bytes : List Nat} (small : ∀ b ∈ bytes, b < 256) :
    codeBytes units (wsBytesCodes units bytes) = bytes := by
  cases units with
  | bytes =>
    show (bytes.map Int.ofNat).map Int.toNat = bytes
    rw [List.map_map]
    exact List.map_id bytes
  | characters =>
    show ((Text.decode (bytes.map UInt8.ofNat)).flatMap Text.utf8Enc).map UInt8.toNat = bytes
    rw [Text.decode, (Text.decodeFrom_spec _ 0).2, List.drop_zero, List.map_map]
    have same : bytes.map (UInt8.toNat ∘ UInt8.ofNat) = bytes.map id :=
      List.map_congr_left fun b mem => Nat.mod_eq_of_lt (small b mem)
    rw [same, List.map_id]

section Receiving

variable {units : Units} {max : Nat} {role : Role}

/-- A message that may be returned is, under its kind and with its bytes. -/
theorem message_heard (units : Units) {kind : Kind} {bytes : List Nat} (legible : Legible kind bytes) :
    ∃ m, (∀ s, wsMessage units s kind bytes = (.one m, s)) ∧ heard units (.one m) = some (.said kind bytes) := by
  cases kind with
  | binary => exact ⟨_, fun _ => rfl, rfl⟩
  | text =>
    have utf8 := legible rfl
    refine ⟨_, fun _ => message_text utf8, ?_⟩
    rw [heard, codeBytes_codes units utf8.bytes]

theorem half_next (units : Units) {hs : List Sent} {kind : Kind} {p : List Nat} (half : Half role max hs kind p) {s : Session}
    (is : s.role = role) {rest : List Nat} (comes : s.conn.coming = texts hs ++ rest) :
    ∃ s' chunks, Onward s s' rest ∧ chunks.reverse.flatten = p ∧
      ∀ k, wsNext_ units max (k + hs.length) s none = wsNext_ units max k s' (some ⟨kind, p.length, chunks⟩) := by
  subst is
  induction half generalizing rest with
  | @first f kind good op fin =>
    have comes : s.conn.coming = f.text ++ rest := by rw [comes, texts, List.flatMap_singleton]
    obtain ⟨s', onward, next⟩ := next_of units none (some ⟨kind, f.payload.length, [f.payload]⟩) good comes
      fun s' right => (turn_data right op).trans (if_neg (by rw [fin]; decide))
    exact ⟨s', [f.payload], onward, by simp, next⟩
  | @control hs kind p f half good op ih =>
    have split : s.conn.coming = texts hs ++ (f.text ++ rest) := by simp [comes, texts]
    obtain ⟨s₁, chunks, onward, flat, next⟩ := ih split
    rw [← onward.role] at good
    have one : ∃ s', Onward s₁ s' rest ∧ ∀ k, wsNext_ units max (k + 1) s₁ (some ⟨kind, p.length, chunks⟩) =
        wsNext_ units max k s' (some ⟨kind, p.length, chunks⟩) := by
      rcases op with ping | pong
      · obtain ⟨s', onward', next'⟩ := ping_next units good ping onward.coming
        exact ⟨s', onward', fun k => next' k _⟩
      · exact next_of units _ _ good onward.coming fun s' right => (turn_pong right pong).trans (if_neg nofun)
    obtain ⟨s', onward', next'⟩ := one
    refine ⟨s', chunks, onward.trans onward', flat, fun k => ?_⟩
    rw [List.length_append, List.length_singleton, show k + (hs.length + 1) = k + 1 + hs.length by omega, next, next']
  | @more hs kind p f half good op fin fits ih =>
    have split : s.conn.coming = texts hs ++ (f.text ++ rest) := by simp [comes, texts]
    obtain ⟨s₁, chunks, onward, flat, next⟩ := ih split
    rw [← onward.role] at good
    obtain ⟨s', onward', next'⟩ :=
      next_of units _ (some ⟨kind, p.length + f.payload.length, f.payload :: chunks⟩) good onward.coming
        fun s' right => by
          rw [Sent.frame, turn_more right op ⟨kind, p.length, chunks⟩]
          rw [if_neg (Nat.not_lt.mpr fits), if_neg (by rw [fin]; decide)]
    refine ⟨s', f.payload :: chunks, onward.trans onward', by simp [flat], fun k => ?_⟩
    rw [List.length_append, List.length_singleton, show k + (hs.length + 1) = k + 1 + hs.length by omega, next, next',
      List.length_append]

/-- What `ws_next/6` holds of a message that has begun. -/
def Holds : Option (Kind × List Nat) → Option Begun → Prop
  | none, begun => begun = none
  | some (kind, p), begun => ∃ chunks, begun = some ⟨kind, p.length, chunks⟩ ∧ chunks.reverse.flatten = p

theorem at_next (units : Units) {hs : List Sent} {pending : Option (Kind × List Nat)} (pends : At role max hs pending) {s : Session}
    (is : s.role = role) {rest : List Nat} (comes : s.conn.coming = texts hs ++ rest) :
    ∃ s' begun, Onward s s' rest ∧ Holds pending begun ∧
      ∀ k, wsNext_ units max (k + hs.length) s none = wsNext_ units max k s' begun := by
  cases pending with
  | none =>
    obtain rfl : hs = [] := pends
    exact ⟨s, none, ⟨rfl, rfl, comes, rfl⟩, rfl, fun k => rfl⟩
  | some message =>
    obtain ⟨kind, p⟩ := message
    obtain ⟨s', chunks, onward, flat, next⟩ := half_next units pends is comes
    exact ⟨s', _, onward, ⟨chunks, rfl, flat⟩, next⟩

theorem ends_next (units : Units) {pending : Option (Kind × List Nat)} {f : Sent} {code : Nat}
    (ends : Ends role max pending f code) {s : Session} (is : s.role = role) {begun : Option Begun}
    (holds : Holds pending begun) {rest : List Nat} (comes : s.conn.coming = f.text ++ rest) :
    Over units max s begun code := by
  subst is
  cases ends with
  | refused refused => exact refused_over refused comes
  | mask taken wrong =>
    refine over_of taken comes fun s₁ role => ?_
    have turn : wsNextFrame units max (.inr f.frame) s₁ begun =
        answering (wsFailConnection units s₁ 1002 (wsMaskWrong s₁.role)) := turn_mask (role ▸ wrong)
    rw [turn]
    refine failed_over (failConnection_failed units s₁ (allowed_own (by omega)) ?_)
    cases s₁.role <;> exact words_ascii (by decide)
  | close good op =>
    have bytes := (Sent.frameText good.1).payload_byte fun b mem =>
      coming_byte s.conn b (comes ▸ List.mem_append_left _ mem)
    refine over_of good.1 comes fun s₁ role => ?_
    obtain ⟨why, s', done, closed⟩ := closeReceived_over units s₁ f.payload bytes
    exact ⟨why, s', done, (turn_close (role ▸ good.2) op).trans closed⟩
  | stray good op =>
    obtain rfl : begun = none := holds
    refine over_of good.1 comes fun s₁ role => ?_
    rw [Sent.frame, turn_stray (role ▸ good.2) op]
    exact failed_over (failConnection_failed units s₁ (allowed_own (by omega)) (words_ascii (by decide)))
  | inside good op =>
    obtain ⟨chunks, rfl, -⟩ := holds
    refine over_of good.1 comes fun s₁ role => ?_
    rw [Sent.frame, turn_inside (role ▸ good.2) op]
    exact failed_over (failConnection_failed units s₁ (allowed_own (by omega)) (words_ascii (by decide)))
  | long good op long =>
    obtain ⟨chunks, rfl, -⟩ := holds
    refine over_of good.1 comes fun s₁ role => ?_
    rw [Sent.frame, turn_more (role ▸ good.2) op, if_pos long]
    exact failed_over (failConnection_failed units s₁ (allowed_own (by omega)) (words_ascii (by decide)))
  | single good op fin bad =>
    obtain rfl : begun = none := holds
    refine over_of good.1 comes fun s₁ role => ?_
    rw [Sent.frame, turn_data (role ▸ good.2) (show f.op = opOf .text from op), if_pos fin]
    exact failed_over (message_bad bad)
  | last good op fin fits bad =>
    obtain ⟨chunks, rfl, rfl⟩ := holds
    refine over_of good.1 comes fun s₁ role => ?_
    rw [Sent.frame, turn_more (role ▸ good.2) op, if_neg (Nat.not_lt.mpr fits), if_pos fin, List.reverse_cons,
      List.flatten_append, List.flatten_singleton]
    exact failed_over (message_bad bad)

/-- Complete frames are passed over where they say nothing, and else the first thing they say
is returned and they go on complete. -/
theorem complete_next (units : Units) {fs : List Sent} {es : List Event} (complete : Complete role max fs es) {s : Session}
    (is : s.role = role) {rest : List Nat} (comes : s.conn.coming = texts fs ++ rest) :
    (es = [] ∧ ∃ s', Onward s s' rest ∧ ∀ k, wsNext_ units max (k + fs.length) s none = wsNext_ units max k s' none) ∨
      ∃ e es' fs' m s', es = e :: es' ∧ Complete role max fs' es' ∧ Onward s s' (texts fs' ++ rest) ∧
        heard units (.one m) = some e ∧ ∀ k, wsNext_ units max (k + fs.length) s none = (.one m, s') := by
  induction complete generalizing s with
  | nil => exact .inl ⟨rfl, s, ⟨rfl, rfl, comes, rfl⟩, fun k => rfl⟩
  | @ping f fs es good op more ih =>
    rw [texts, List.flatMap_cons, List.append_assoc] at comes
    obtain ⟨s₁, onward, next⟩ := ping_next units (is ▸ good) op comes
    have shift (k : Nat) : wsNext_ units max (k + (f :: fs).length) s none = wsNext_ units max (k + fs.length) s₁ none := by
      rw [List.length_cons, ← Nat.add_assoc, next]
    rcases ih (onward.role.trans is) onward.coming with ⟨none_, s', onward', next'⟩ | ⟨e, es', fs', m, s', rest_⟩
    · exact .inl ⟨none_, s', onward.trans onward', fun k => (shift k).trans (next' k)⟩
    · obtain ⟨first, complete, onward', hears, next'⟩ := rest_
      exact .inr ⟨e, es', fs', m, s', first, complete, onward.trans onward', hears, fun k => (shift k).trans (next' k)⟩
  | @pong f fs es good op more ih =>
    rw [texts, List.flatMap_cons, List.append_assoc] at comes
    obtain ⟨s', onward, next⟩ := answer_of units none (.one (.pong f.payload))
      (is ▸ good) comes fun s' right => (turn_pong right op).trans (if_pos rfl)
    exact .inr ⟨_, es, fs, .pong f.payload, s', rfl, more, onward, rfl, fun k => by
      rw [List.length_cons, ← Nat.add_assoc, next]⟩
  | @single f fs es kind good op fin utf8 more ih =>
    rw [texts, List.flatMap_cons, List.append_assoc] at comes
    obtain ⟨m, message, hears⟩ := message_heard units utf8
    obtain ⟨s', onward, next⟩ := answer_of units none (.one m)
      (is ▸ good) comes fun s' right => by
        rw [Sent.frame, turn_data right op, if_pos fin, message, answering]
    exact .inr ⟨_, es, fs, m, s', rfl, more, onward, hears, fun k => by
      rw [List.length_cons, ← Nat.add_assoc, next]⟩
  | @fragments hs fs es kind p f half good op fin fits utf8 more ih =>
    have split : s.conn.coming = texts hs ++ (f.text ++ (texts fs ++ rest)) := by simp [comes, texts]
    obtain ⟨s₁, chunks, onward, flat, next⟩ := half_next units half is split
    obtain ⟨m, message, hears⟩ := message_heard units utf8
    obtain ⟨s', onward', next'⟩ := answer_of units (some ⟨kind, p.length, chunks⟩)
      (.one m) (onward.role.trans is ▸ good) onward.coming fun s' right => by
        rw [Sent.frame, turn_more right op, if_neg (Nat.not_lt.mpr fits), if_pos fin, List.reverse_cons,
          List.flatten_append, List.flatten_singleton, flat, message, answering]
    refine .inr ⟨_, es, fs, m, s', rfl, more, onward.trans onward', hears, fun k => ?_⟩
    rw [List.length_append, List.length_cons, show k + (hs.length + (fs.length + 1)) = k + fs.length + 1 + hs.length by omega,
      next, next']

/-! ## One call -/

theorem coming_le_size (c : Conn) : c.coming.length ≤ c.size := by
  obtain ⟨arrivals, why⟩ := c
  unfold Conn.coming Conn.size
  dsimp only
  induction arrivals with
  | nil => exact Nat.le_refl 0
  | cons arrival rest ih =>
    rw [List.map_cons, List.sum_cons]
    cases arrival with
    | silence => exact Nat.zero_le _
    | lost why => exact Nat.zero_le _
    | bytes b bs =>
      rw [comingOf, List.length_append, List.length_map, List.length_cons]
      exact Nat.add_le_add_left ih _

theorem texts_length (fs : List Sent) : fs.length ≤ (texts fs).length := by
  induction fs with
  | nil => exact Nat.le_refl 0
  | cons f fs ih =>
    rw [texts, List.flatMap_cons, List.length_append, List.length_cons]
    have one : 1 ≤ f.text.length := Nat.succ_le_succ (Nat.zero_le _)
    have more : fs.length ≤ (fs.flatMap Sent.text).length := ih
    omega

theorem arrivals_of_none {c : Conn} (none_ : c.coming = []) : c.arrivals = c.beyond := by
  obtain ⟨arrivals, why⟩ := c
  cases arrivals with
  | nil => rfl
  | cons arrival rest =>
    cases arrival with
    | silence => rfl
    | lost why => rfl
    | bytes b bs => cases none_

theorem silence_next (units : Units) {s : Session} {rest : List Arrival} (quiet : s.conn.arrivals = .silence :: rest)
    (k : Nat) : wsNext_ units max (k + 1) s none = (.fail, { s with conn := ⟨rest, "timeout"⟩ }) := by
  simp only [wsNext_, wsSockRead, quiet, if_true]

/-- The connection is at its end, or is lost. -/
theorem lost_next (max : Nat) (units : Units) {s : Session} (begun : Option Begun)
    (ends : s.conn.arrivals = [] ∨ ∃ why rest, why ≠ "timeout" ∧ s.conn.arrivals = .lost why :: rest) :
    Over units max s begun 1006 := by
  rcases ends with none_ | ⟨why, rest, other, lost⟩
  · refine ⟨.words "end of stream", _, finished_done { s with conn := ⟨[], "end of stream"⟩ }, fun k => ?_⟩
    simp only [wsNext_, wsSockRead, none_, String.reduceEq, if_false, wsLost]
  · refine ⟨.words why, _, finished_done { s with conn := ⟨rest, why⟩ }, fun k => ?_⟩
    simp only [wsNext_, wsSockRead, lost, if_neg other, wsLost]

/-- What the conversation has still to say: nothing once it is over. -/
inductive Told (max : Nat) (s : Session) : List Event → Nat → Prop
  | ended (done : s.done = true) : Told max s [] 0
  | going {events : List Event} {quiets : Nat} (going : s.done = false)
    (arrives : Arrives s.role max s.conn.arrivals events quiets) : Told max s events quiets

/-- One call returns the first event to come, or times out once. -/
theorem receive_told (units : Units) {s : Session} {events : List Event} {quiets : Nat} (going : s.done = false)
    (arrives : Arrives s.role max s.conn.arrivals events quiets) :
    (∃ m s' e es, wsReceive units s max = (.one m, s') ∧ heard units (.one m) = some e ∧ events = e :: es ∧
      Told max s' es quiets) ∨
    ∃ s' n, wsReceive units s max = (.fail, s') ∧ quiets = n + 1 ∧ Told max s' events n := by
  have receive : wsReceive units s max = wsNext_ units max (s.conn.size + 1) s none := by
    rw [wsReceive, if_neg (by simp [going]), wsNext]
  have size := coming_le_size s.conn
  generalize is : s.conn.arrivals = arrivals at arrives
  have coming : s.conn.coming = comingOf arrivals := congrArg comingOf is
  have beyond_ : s.conn.beyond = beyondOf arrivals := congrArg beyondOf is
  cases arrives with
  | @quiet _ rest fs es es' n comes beyond complete later =>
    rw [coming, comes] at size
    have frames := texts_length fs
    obtain ⟨k, fuel⟩ : ∃ k, s.conn.size + 1 = k + 1 + fs.length := ⟨s.conn.size - fs.length, by omega⟩
    rw [comes, ← List.append_nil (texts fs)] at coming
    rcases complete_next units complete rfl coming with ⟨rfl, s', onward, next⟩ | ⟨e, es₁, fs', m, s', first⟩
    · have quiet : s'.conn.arrivals = .silence :: rest := by
        rw [arrivals_of_none onward.coming, onward.beyond, beyond_, beyond]
      refine .inr ⟨{ s' with conn := ⟨rest, "timeout"⟩ }, n, ?_, rfl, .going (onward.done.trans going) ?_⟩
      · rw [receive, fuel, next, silence_next units quiet]
      · exact onward.role ▸ later
    · obtain ⟨rfl, complete', onward, hears, next⟩ := first
      refine .inl ⟨m, s', e, es₁ ++ es', ?_, hears, rfl, .going (onward.done.trans going) ?_⟩
      · rw [receive, fuel, show k + 1 + fs.length = (k + 1) + fs.length from rfl, next]
      · rw [onward.role]
        refine .quiet (onward.coming.trans (List.append_nil _)) ?_ complete' later
        exact onward.beyond.trans (beyond_.trans beyond)
  | @ended _ fs hs f bytes es pending code comes complete pends ends =>
    rw [coming, comes] at size
    have frames := texts_length fs
    have frames' := texts_length hs
    simp only [List.length_append] at size
    obtain ⟨k, fuel⟩ : ∃ k, s.conn.size + 1 = k + 1 + hs.length + fs.length :=
      ⟨s.conn.size - fs.length - hs.length, by omega⟩
    rw [comes] at coming
    rcases complete_next units complete rfl coming with ⟨rfl, s₁, onward, next⟩ | ⟨e, es₁, fs', m, s', first⟩
    · obtain ⟨s₂, begun, onward', holds, next'⟩ := at_next units pends onward.role onward.coming
      obtain ⟨why, s', done, next''⟩ :=
        ends_next units ends (onward'.role.trans onward.role) holds onward'.coming
      refine .inl ⟨.close code why, s', .ended code, [], ?_, rfl, rfl, .ended done⟩
      rw [receive, fuel, next, next', next'']
    · obtain ⟨rfl, complete', onward, hears, next⟩ := first
      refine .inl ⟨m, s', e, es₁ ++ [.ended code], ?_, hears, rfl, .going (onward.done.trans going) ?_⟩
      · rw [receive, fuel, next]
      · rw [onward.role]
        exact .ended onward.coming complete' pends ends
  | @lost _ fs hs es pending comes beyond complete pends =>
    rw [coming, comes] at size
    have frames := texts_length fs
    have frames' := texts_length hs
    simp only [List.length_append] at size
    obtain ⟨k, fuel⟩ : ∃ k, s.conn.size + 1 = k + 1 + hs.length + fs.length :=
      ⟨s.conn.size - fs.length - hs.length, by omega⟩
    rw [comes] at coming
    rcases complete_next units complete rfl coming with ⟨rfl, s₁, onward, next⟩ | ⟨e, es₁, fs', m, s', first⟩
    · have split : s₁.conn.coming = texts hs ++ [] := onward.coming.trans (List.append_nil _).symm
      obtain ⟨s₂, begun, onward', -, next'⟩ := at_next units pends onward.role split
      have last : s₂.conn.arrivals = beyondOf arrivals := by
        rw [arrivals_of_none onward'.coming, onward'.beyond, onward.beyond, beyond_]
      obtain ⟨why, s', done, next''⟩ := lost_next max units begun (last ▸ beyond)
      refine .inl ⟨.close 1006 why, s', .ended 1006, [], ?_, rfl, rfl, .ended done⟩
      rw [receive, fuel, next, next', next'']
    · obtain ⟨rfl, complete', onward, hears, next⟩ := first
      refine .inl ⟨m, s', e, es₁ ++ [.ended 1006], ?_, hears, rfl, .going (onward.done.trans going) ?_⟩
      · rw [receive, fuel, next]
      · rw [onward.role]
        refine .lost onward.coming ?_ complete' pends
        rw [show beyondOf s'.conn.arrivals = beyondOf arrivals from onward.beyond.trans beyond_]
        exact beyond

end Receiving

end Cocolog.WebSocket
