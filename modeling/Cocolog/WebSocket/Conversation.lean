import Cocolog.WebSocket.Frame
import Cocolog.WebSocket.Utf8

/-! A conversation of `library(websocket)`: what one side sends and receives on a connection,
its closing handshake and the two marks it keeps of it. A goal answers once at most and hands
on the conversation as it leaves it. -/

set_option linter.all false

namespace Cocolog.WebSocket

open Lib

inductive Role
  | client
  | server
  deriving DecidableEq, Repr

/-- The flag `text_units`. -/
inductive Units
  | bytes
  | characters
  deriving DecidableEq, Repr

/-- A text or the data of a program's message: a list of integers, an atom or a string as its
UTF-8, or a term that is none of these. -/
inductive Text
  | codes (l : List Int)
  | name (utf8 : List Nat)
  | other
  deriving DecidableEq, Repr

/-- What a program sends. A close code that is no integer is none. -/
inductive Outgoing
  | text (t : Text)
  | binary (b : Text)
  | ping (d : Text)
  | pong (d : Text)
  | close (code : Option Int) (why : Text)
  | other
  deriving DecidableEq, Repr

/-- The second argument of a `close/2`: the peer's reason as its bytes, or this side's words. -/
inductive Reason
  | said (bytes : List Nat)
  | words (text : String)
  deriving DecidableEq, Repr

inductive Message
  | text (codes : List Int)
  | binary (bytes : List Nat)
  | pong (data : List Nat)
  | close (code : Nat) (why : Reason)
  deriving DecidableEq, Repr

inductive Error
  | permission (action type : String)
  | domain (domain : String)
  | type (type : String)
  deriving DecidableEq, Repr

inductive Outcome (α : Type)
  | one (a : α)
  | fail
  | throw (e : Error)
  deriving DecidableEq, Repr

/-- `wire` is what the writes that went through have written, oldest first. Whether the next
writes go through, the keys that /dev/urandom has next and the next readings of the clock in
milliseconds come from outside. -/
structure Session where
  role : Role
  conn : Conn
  closing : Bool
  done : Bool
  wire : List (List Nat)
  writes : Nat → Bool
  keys : Nat → UInt8 × UInt8 × UInt8 × UInt8
  clock : Nat → Int

/-! ## Sending -/

/-- `ws_random_bytes(4, Mask)`. -/
def wsRandomBytes (s : Session) : List Nat × Session :=
  let (a, b, c, d) := s.keys 0
  ([a.toNat, b.toNat, c.toNat, d.toNat], { s with keys := fun n => s.keys (n + 1) })

def wsSockWrite (s : Session) (codes : List Nat) : Bool × Session :=
  (s.writes 0,
    { s with writes := fun n => s.writes (n + 1), wire := if s.writes 0 then s.wire ++ [codes] else s.wire })

/-- `ws_send_frame/4`: whether it succeeds. -/
def wsSendFrame (s : Session) (fin op : Nat) (payload : List Nat) : Bool × Session :=
  let (mask, s) : Mask × Session := match s.role with
    | .client => let (key, s) := wsRandomBytes s; (some key, s)
    | .server => (none, s)
  match (wsFrameBytes (ε := Ball) fin op mask payload).found with
  | bytes :: _ => wsSockWrite s bytes
  | [] => (false, s)

def wsByteList : List Int → Outcome (List Nat)
  | [] => .one []
  | b :: bs =>
    if 0 ≤ b ∧ b ≤ 255 then
      match wsByteList bs with
      | .one l => .one (b.toNat :: l)
      | .fail => .fail
      | .throw e => .throw e
    else .throw (.type "byte")

/-- `string_bytes(T, Bytes, utf8)` of a list of codes under `characters`. -/
def stringBytes (l : List Int) : Option (List Nat) := (Text.encode l).map (·.map UInt8.toNat)

def wsTextBytes (units : Units) : Text → Outcome (List Nat)
  | .codes l =>
    match units with
    | .bytes => wsByteList l
    | .characters =>
      match stringBytes l with
      | some bytes => .one bytes
      | none => .throw (.type "text")
  | .name utf8 => .one utf8
  | .other => .throw (.type "text")

def wsDataBytes : Text → Outcome (List Nat)
  | .codes l => wsByteList l
  | .name utf8 => .one utf8
  | .other => .throw (.type "text")

def wsControlSize (bytes : List Nat) : Outcome Unit :=
  if bytes.length ≤ 125 then .one () else .throw (.domain "control_frame_payload")

/-- The opcode and the payload; a close and a term that is no message have none. -/
def wsMessageFrame (units : Units) : Outgoing → Outcome (Nat × List Nat)
  | .text t =>
    match wsTextBytes units t with
    | .one bytes => if wsUtf8 bytes then .one (1, bytes) else .throw (.domain "utf8_text")
    | .fail => .fail
    | .throw e => .throw e
  | .binary b =>
    match wsDataBytes b with
    | .one bytes => .one (2, bytes)
    | .fail => .fail
    | .throw e => .throw e
  | .ping d => control 9 d
  | .pong d => control 10 d
  | _ => .fail
where
  control (op : Nat) (d : Text) : Outcome (Nat × List Nat) :=
    match wsDataBytes d with
    | .one bytes =>
      match wsControlSize bytes with
      | .one () => .one (op, bytes)
      | .fail => .fail
      | .throw e => .throw e
    | .fail => .fail
    | .throw e => .throw e

def wsCodeSendable (c : Int) : Bool :=
  1000 ≤ c && c ≤ 1003 || 1007 ≤ c && c ≤ 1014 || 3000 ≤ c && c ≤ 4999

/-- `ws_utf8_whole/2` of at most `n` bytes. -/
def wsUtf8Whole : Nat → List Nat → List Nat
  | 0, _ => []
  | n + 1, p => if wsUtf8 p then p else wsUtf8Whole n p.dropLast

def wsCutReason (bytes : List Nat) : List Nat :=
  if bytes.length ≤ 123 then bytes else wsUtf8Whole 123 (bytes.take 123)

theorem wsUtf8Whole_longest (n : Nat) (p : List Nat) (short : p.length ≤ n) :
    ∃ k ≤ p.length, wsUtf8Whole n p = p.take k ∧ wsUtf8 (p.take k) = true ∧
      ∀ j ≤ p.length, wsUtf8 (p.take j) = true → j ≤ k := by
  induction n generalizing p with
  | zero =>
    have none_ : p = [] := List.eq_nil_of_length_eq_zero (by omega)
    subst none_
    exact ⟨0, Nat.le_refl _, rfl, rfl, fun j le _ => le⟩
  | succ n ih =>
    rw [wsUtf8Whole]
    split
    · rename_i whole_
      exact ⟨p.length, Nat.le_refl _, List.take_length.symm, by rwa [List.take_length], fun j le _ => le⟩
    · rename_i cut
      have length := @List.length_dropLast _ p
      have same : ∀ j, j < p.length → p.dropLast.take j = p.take j := fun j lt => by
        rw [List.dropLast_eq_take, List.take_take, Nat.min_eq_left (by omega)]
      obtain ⟨k, le, is, valid, longest⟩ := ih p.dropLast (by omega)
      have some_ : 0 < p.length := by
        rw [List.length_pos_iff]
        intro none_
        rw [none_] at cut
        exact cut rfl
      rw [same k (by omega)] at is valid
      refine ⟨k, by omega, is, valid, fun j le' accepted => ?_⟩
      have other : j ≠ p.length := fun all => cut (by rwa [all, List.take_length] at accepted)
      exact longest j (by omega) (by rwa [same j (by omega)])

/-- The check accepts the bytes of scalar values and no others, and a reason it accepts is cut to
its longest beginning of 123 bytes that it accepts. -/
theorem utf8_cut (bytes : List Nat) : (wsUtf8 bytes = true ↔ IsUtf8 bytes) ∧
    (wsUtf8 bytes = true → ∃ k ≤ bytes.length, k ≤ 123 ∧ wsCutReason bytes = bytes.take k ∧ wsUtf8 (bytes.take k) = true ∧
      ∀ j ≤ bytes.length, j ≤ 123 → wsUtf8 (bytes.take j) = true → j ≤ k) := by
  refine ⟨wsUtf8_iff bytes, fun accepted => ?_⟩
  rw [wsCutReason]
  split
  · rename_i short
    refine ⟨bytes.length, Nat.le_refl _, short, List.take_length.symm, ?_, fun j le _ _ => le⟩
    rwa [List.take_length]
  · rename_i long
    have length : (bytes.take 123).length = 123 := List.length_take_of_le (by omega)
    obtain ⟨k, le, is, valid, longest⟩ := wsUtf8Whole_longest 123 (bytes.take 123) (by omega)
    have same : ∀ j, j ≤ 123 → (bytes.take 123).take j = bytes.take j := fun j le => by
      rw [List.take_take, Nat.min_eq_left le]
    rw [same k (by omega)] at is valid
    exact ⟨k, by omega, by omega, is, valid, fun j _ le' accepted => longest j (by omega) (by rwa [same j le'])⟩

def wsClosePayload (units : Units) (code : Option Int) (why : Text) : Outcome (List Nat) :=
  match code with
  | none => .throw (.domain "websocket_close_code")
  | some code =>
    if wsCodeSendable code then
      match wsTextBytes units why with
      | .one bytes =>
        if wsUtf8 bytes then .one (code.toNat >>> 8 :: (code.toNat &&& 255) :: wsCutReason bytes)
        else .throw (.domain "utf8_text")
      | .fail => .fail
      | .throw e => .throw e
    else .throw (.domain "websocket_close_code")

def wsSendCloseFrame (units : Units) (s : Session) (code : Option Int) (why : Text) : Outcome Unit × Session :=
  match wsClosePayload units code why with
  | .one payload =>
    if s.closing then (.one (), s)
    else
      match wsSendFrame { s with closing := true } 1 8 payload with
      | (true, s) => (.one (), s)
      | (false, s) => (.fail, { s with closing := false })
  | .fail => (.fail, s)
  | .throw e => (.throw e, s)

/-- `ws_send/2`. -/
def wsSend (units : Units) (s : Session) (message : Outgoing) : Outcome Unit × Session :=
  if s.done then (.throw (.permission "send" "closed_websocket"), s)
  else match message with
  | .close code why => wsSendCloseFrame units s code why
  | message =>
    if s.closing then (.throw (.permission "send" "closing_websocket"), s)
    else
      match wsMessageFrame units message with
      | .one (op, payload) =>
        match wsSendFrame s 1 op payload with
        | (true, s) => (.one (), s)
        | (false, s) => (.fail, s)
      | .fail => (.throw (.domain "websocket_message"), s)
      | .throw e => (.throw e, s)

/-! ## The end of a conversation -/

/-- The bytes to come, and one for each read that finds none. -/
def Conn.size (c : Conn) : Nat :=
  (c.arrivals.map fun
    | .bytes _ bs => bs.length + 1
    | _ => 1).sum

/-- `ws_drain/2`, in at most `k` reads. -/
def wsDrain_ : Nat → Conn → Conn
  | 0, c => c
  | k + 1, c =>
    match wsSockRead c 65536 with
    | (some _, c) => wsDrain_ k c
    | (none, c) => c

def wsDrain (c : Conn) : Conn := wsDrain_ (c.size + 1) c

def wsFinished (s : Session) : Session :=
  match s.role with
  | .client => { s with conn := wsDrain s.conn, closing := false, done := true }
  | .server => { s with closing := false, done := true }

/-- The bytes of an atom of the library's own, all of them ASCII. -/
def wordsBytes (words : String) : List Nat := words.toList.map Char.toNat

def wsFailConnection (units : Units) (s : Session) (code : Nat) (why : String) : Outcome Message × Session :=
  if s.closing then (.one (.close code (.words why)), wsFinished s)
  else
    match wsClosePayload units (some code) (.name (wordsBytes why)) with
    | .one payload =>
      let (_, s) := wsSendFrame s 1 8 payload
      (.one (.close code (.words why)), wsFinished s)
    | .fail => (.fail, s)
    | .throw e => (.throw e, s)

def wsLost (s : Session) (why : String) : Outcome Message × Session :=
  (.one (.close 1006 (.words why)), wsFinished s)

/-! ## Receiving -/

inductive Kind
  | text
  | binary
  deriving DecidableEq, Repr

/-- `partial(Kind, Size, Chunks)`, the last chunk first. -/
structure Begun where
  kind : Kind
  size : Nat
  chunks : List (List Nat)
  deriving DecidableEq, Repr

def wsKind : Nat → Option Kind
  | 1 => some .text
  | 2 => some .binary
  | _ => none

def wsMaskRight : Role → Mask → Bool
  | .server, mask => mask.isSome
  | .client, mask => mask.isNone

def wsMaskWrong : Role → String
  | .server => "an unmasked frame from a client"
  | .client => "a masked frame from a server"

def wsBytesCodes (units : Units) (bytes : List Nat) : List Int :=
  match units with
  | .bytes => bytes.map Int.ofNat
  | .characters => Text.decode (bytes.map UInt8.ofNat)

def wsMessage (units : Units) (s : Session) (kind : Kind) (bytes : List Nat) : Outcome Message × Session :=
  match kind with
  | .text =>
    if wsUtf8 bytes then (.one (.text (wsBytesCodes units bytes)), s)
    else wsFailConnection units s 1007 "a text message that is not UTF-8"
  | .binary => (.one (.binary bytes), s)

/-- The echo of a close frame. -/
def wsEcho (code : Nat) : List Nat := if code = 1005 then [] else [code >>> 8, code &&& 255]

def wsCloseReceived (units : Units) (s : Session) (payload : List Nat) : Outcome Message × Session :=
  match payload with
  | [] => checked 1005 []
  | [_] => wsFailConnection units s 1002 "a close frame of one byte"
  | h :: l :: reason => checked (h <<< 8 ||| l) reason
where
  checked (code : Nat) (reason : List Nat) : Outcome Message × Session :=
    if code ≠ 1005 ∧ ¬wsCodeSendable code then wsFailConnection units s 1002 "a close code nobody may send"
    else if ¬wsUtf8 reason then wsFailConnection units s 1007 "a close reason that is not UTF-8"
    else
      let s := if s.closing then s else (wsSendFrame s 1 8 (wsEcho code)).2
      (.one (.close code (.said reason)), wsFinished s)

/-- What a frame leads to: the next one, with what is begun, or an answer. -/
inductive Turn
  | next (begun : Option Begun)
  | answer (outcome : Outcome Message)
  deriving DecidableEq, Repr

def answering (p : Outcome Message × Session) : Turn × Session := (.answer p.1, p.2)

/-- `catch((ws_frame_rest(conn(C, T), B0, Max, Frame, _), Out = Frame), ws_fail(Code, Why),
Out = failed(Code, Why))`. -/
def wsReadFrame (c : Conn) (b0 max : Nat) : Option ((Fail ⊕ Frame) × Conn) :=
  match wsFrameRest (.conn c) b0 max with
  | ⟨(frame, .conn c) :: _, _⟩ => some (.inr frame, c)
  | ⟨[], some (fail, .conn c)⟩ => some (.inl fail, c)
  | _ => none

/-- `ws_next_frame/7` up to its calls of `ws_next/6`. -/
def wsNextFrame (units : Units) (max : Nat) (out : Fail ⊕ Frame) (s : Session) (begun : Option Begun) :
    Turn × Session :=
  match out with
  | .inl ⟨code, why⟩ =>
    if code = 1006 then answering (wsLost s why) else answering (wsFailConnection units s code why)
  | .inr ⟨fin, op, mask, payload⟩ =>
    if ¬wsMaskRight s.role mask then answering (wsFailConnection units s 1002 (wsMaskWrong s.role))
    else if op = 9 then
      if s.closing then (.next begun, s) else (.next begun, (wsSendFrame s 1 10 payload).2)
    else if op = 10 then
      if begun = none then (.answer (.one (.pong payload)), s) else (.next begun, s)
    else if op = 8 then answering (wsCloseReceived units s payload)
    else if op = 0 then
      match begun with
      | some ⟨kind, size0, chunks⟩ =>
        let size := size0 + payload.length
        if max < size then answering (wsFailConnection units s 1009 "a message over max_message")
        else if fin = 1 then answering (wsMessage units s kind (payload :: chunks).reverse.flatten)
        else (.next (some ⟨kind, size, payload :: chunks⟩), s)
      | none => answering (wsFailConnection units s 1002 "a continuation with no message to continue")
    else if begun ≠ none then answering (wsFailConnection units s 1002 "a new message inside a fragmented one")
    else
      match wsKind op with
      | some kind =>
        if fin = 1 then answering (wsMessage units s kind payload)
        else (.next (some ⟨kind, payload.length, [payload]⟩), s)
      | none => (.answer .fail, s)

/-- `ws_next/6`, over at most `k` frames. -/
def wsNext_ (units : Units) (max : Nat) : Nat → Session → Option Begun → Outcome Message × Session
  | 0, s, _ => (.fail, s)
  | k + 1, s, begun =>
    match wsSockRead s.conn 1 with
    | (some (b0 :: _), c) =>
      match wsReadFrame c b0 max with
      | some (out, c) =>
        match wsNextFrame units max out { s with conn := c } begun with
        | (.next begun, s) => wsNext_ units max k s begun
        | (.answer outcome, s) => (outcome, s)
      | none => (.fail, { s with conn := c })
    | (_, c) =>
      let s := { s with conn := c }
      if c.why = "timeout" then
        if begun = none then (.fail, s) else wsLost s "timed out between the fragments of a message"
      else wsLost s c.why

/-- Each frame is a byte at least. -/
def wsNext (units : Units) (max : Nat) (s : Session) (begun : Option Begun) : Outcome Message × Session :=
  wsNext_ units max (s.conn.size + 1) s begun

/-- `ws_receive/3` with the default `format(codes)`. -/
def wsReceive (units : Units) (s : Session) (max : Nat) : Outcome Message × Session :=
  if s.done then (.throw (.permission "receive" "closed_websocket"), s) else wsNext units max s none

/-! ## The closing handshake -/

/-- `get_time/1`. -/
def getTime (s : Session) : Int × Session := (s.clock 0, { s with clock := fun n => s.clock (n + 1) })

/-- `ws_await_close_/2`, over at most `k` messages. -/
def wsAwaitClose_ (units : Units) (deadline : Int) : Nat → Session → Session
  | 0, s => s
  | k + 1, s =>
    let (now, s) := getTime s
    if deadline - now ≤ 0 then wsFinished s
    else
      match wsReceive units s 16777216 with
      | (.one (.close _ _), s) => s
      | (.one _, s) => wsAwaitClose_ units deadline k s
      | (.fail, s) => wsFinished s
      | (.throw _, s) => wsFinished s

/-- Each message is a byte at least. -/
def wsAwaitClose (units : Units) (s : Session) (t : Int) : Session :=
  let (now, s) := getTime s
  wsAwaitClose_ units (now + t) (s.conn.size + 1) s

/-- `ws_close/3`. -/
def wsClose (units : Units) (s : Session) (code : Option Int) (why : Text) : Outcome Unit × Session :=
  if s.done then (.one (), s)
  else
    match wsSendCloseFrame units s code why with
    | (.one (), s) => (.one (), wsAwaitClose units s 5000)
    | (.fail, s) => (.one (), wsFinished s)
    | (.throw e, s) => (.throw e, s)

end Cocolog.WebSocket
