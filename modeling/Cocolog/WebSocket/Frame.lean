import Cocolog.Lib.Answers
import Mathlib.Data.Nat.Bitwise

/-! The frame of `library(websocket)`, written and read. The reader takes its bytes from a
source, a list of codes or a socket; what a goal answers is a list of answers, and a ball
carries the source as it was left. -/

set_option linter.all false

namespace Cocolog.WebSocket

open Lib

/-- `none` or four bytes. -/
abbrev Mask := Option (List Nat)

structure Frame where
  fin : Nat
  op : Nat
  mask : Mask
  payload : List Nat
  deriving DecidableEq, Repr

/-! ## Masking -/

def wsMask4 : List Nat → Nat → Nat → Nat → Nat → List Nat
  | a :: b :: c :: d :: t, k0, k1, k2, k3 =>
    (a ^^^ k0) :: (b ^^^ k1) :: (c ^^^ k2) :: (d ^^^ k3) :: wsMask4 t k0 k1 k2 k3
  | [a, b, c], k0, k1, k2, _ => [a ^^^ k0, b ^^^ k1, c ^^^ k2]
  | [a, b], k0, k1, _, _ => [a ^^^ k0, b ^^^ k1]
  | [a], k0, _, _, _ => [a ^^^ k0]
  | [], _, _, _, _ => []

def wsMask {ε : Type} (bytes : List Nat) : List Nat → Answers ε (List Nat)
  | [k0, k1, k2, k3] => .one (wsMask4 bytes k0 k1 k2 k3)
  | _ => .fail

@[simp] theorem wsMask4_length (bytes : List Nat) (k0 k1 k2 k3 : Nat) :
    (wsMask4 bytes k0 k1 k2 k3).length = bytes.length := by
  induction bytes, k0, k1, k2, k3 using wsMask4.induct with
  | case1 a b c d t k0 k1 k2 k3 ih => simp [wsMask4, ih]
  | case2 => rfl
  | case3 => rfl
  | case4 => rfl
  | case5 => rfl

/-- Masking twice with one key changes nothing. -/
theorem wsMask4_twice (bytes : List Nat) (k0 k1 k2 k3 : Nat) :
    wsMask4 (wsMask4 bytes k0 k1 k2 k3) k0 k1 k2 k3 = bytes := by
  induction bytes, k0, k1, k2, k3 using wsMask4.induct with
  | case1 a b c d t k0 k1 k2 k3 ih => simp [wsMask4, ih, Nat.xor_assoc]
  | case2 => simp [wsMask4, Nat.xor_assoc]
  | case3 => simp [wsMask4, Nat.xor_assoc]
  | case4 => simp [wsMask4, Nat.xor_assoc]
  | case5 => rfl

/-! ## Writing -/

def wsBeBytes_ : Nat → Nat → List Nat → List Nat
  | 0, _, acc => acc
  | n + 1, v, acc => wsBeBytes_ n (v >>> 8) ((v &&& 255) :: acc)

/-- `n` bytes of `v`, most significant first. -/
def wsBeBytes (n v : Nat) : List Nat := wsBeBytes_ n v []

def wsLengthBytes (len m : Nat) : List Nat :=
  if len < 126 then [m ||| len]
  else if len < 65536 then [m ||| 126, len >>> 8, len &&& 255]
  else (m ||| 127) :: wsBeBytes 8 len

def wsFrameBytes {ε : Type} (fin op : Nat) (mask : Mask) (payload : List Nat) : Answers ε (List Nat) :=
  let b0 := fin <<< 7 ||| op
  match mask with
  | none => .one (b0 :: wsLengthBytes payload.length 0 ++ ([] ++ payload))
  | some key => do
    let body ← wsMask payload key
    .one (b0 :: wsLengthBytes payload.length 128 ++ (key ++ body))

/-! ## The sources -/

/-- What a read of the socket finds: bytes, a timeout, or an error. -/
inductive Arrival
  | bytes (first : UInt8) (more : List UInt8)
  | silence
  | lost (why : String)
  deriving DecidableEq, Repr

/-- A connection: what its reads will find, the end of the stream after that, and what
`ws_sock_why` says of the last one. -/
structure Conn where
  arrivals : List Arrival
  why : String
  deriving DecidableEq, Repr

/-- `ws_sock_read(C, Max, T, Codes)`. -/
def wsSockRead (c : Conn) (max : Nat) : Option (List Nat) × Conn :=
  match c.arrivals with
  | [] => (none, ⟨[], "end of stream"⟩)
  | .silence :: rest => (none, ⟨rest, "timeout"⟩)
  | .lost why :: rest => (none, ⟨rest, why⟩)
  | .bytes b bs :: rest =>
    (some (((b :: bs).take max).map UInt8.toNat),
      match (b :: bs).drop max with
      | [] => ⟨rest, ""⟩
      | b' :: bs' => ⟨.bytes b' bs' :: rest, ""⟩)

inductive Source
  | bytes (codes : List Nat)
  | conn (c : Conn)
  deriving DecidableEq, Repr

/-- `ws_fail(Code, Why)`. -/
structure Fail where
  code : Nat
  why : String
  deriving DecidableEq, Repr

abbrev Ball := Fail × Source

/-- The chunks of a read of exactly `n` bytes, in at most `k` reads. -/
def wsReadExact_ : Nat → Nat → Conn → Option (List (List Nat)) × Conn
  | _, 0, c => (some [], c)
  | 0, _ + 1, c => (none, c)
  | k + 1, n + 1, c =>
    match wsSockRead c (min (n + 1) 1048576) with
    | (none, c) => (none, c)
    | (some chunk, c) =>
      match wsReadExact_ k (n + 1 - chunk.length) c with
      | (none, c) => (none, c)
      | (some chunks, c) => (some (chunk :: chunks), c)

/-- Each read finds a byte or fails, so `n` reads are enough. -/
def wsReadExact (n : Nat) (c : Conn) : Option (List Nat) × Conn :=
  match wsReadExact_ n n c with
  | (none, c) => (none, c)
  | (some chunks, c) => (some chunks.flatten, c)

def wsTake : Source → Nat → Answers Ball (List Nat × Source)
  | .bytes codes, n => if n ≤ codes.length then .one (codes.take n, .bytes (codes.drop n)) else .fail
  | .conn c, n =>
    match wsReadExact n c with
    | (some bytes, c) => .one (bytes, .conn c)
    | (none, c) => .throw (⟨1006, "lost inside a frame: " ++ c.why⟩, .conn c)

/-! ## Reading -/

def wsOpcode (op : Nat) : Bool := op = 0 || op = 1 || op = 2 || op = 8 || op = 9 || op = 10

/-- `( Goal -> true ; throw(ws_fail(Code, Why)) )`. -/
def wsRule (goal : Prop) [Decidable goal] (code : Nat) (why : String) (src : Source) : Answers Ball Unit :=
  if goal then .one () else .throw (⟨code, why⟩, src)

def wsFits (len max : Nat) (src : Source) : Answers Ball Unit :=
  wsRule (len ≤ max) 1009 "a frame over max_message" src

def wsPayloadLength (l0 : Nat) (src : Source) (max : Nat) : Answers Ball (Nat × Source) :=
  if l0 < 126 then do
    wsFits l0 max src
    .one (l0, src)
  else if l0 = 126 then do
    let ([h, l], src) ← wsTake src 2 | .fail
    let len := h <<< 8 ||| l
    wsFits len max src
    .one (len, src)
  else if l0 = 127 then do
    let ([a, b, c, d, e, f, g, h], src) ← wsTake src 8 | .fail
    if a = 0 ∧ b = 0 ∧ c = 0 ∧ d = 0 then
      let len := e <<< 24 ||| f <<< 16 ||| g <<< 8 ||| h
      wsFits len max src
      .one (len, src)
    else .throw (⟨1009, "a frame longer than four gigabytes"⟩, src)
  else .fail

/-- `( MaskBit =:= 1 -> ws_take(Src2, 4, Mask, Src3) ; Mask = none, Src3 = Src2 )`. -/
def wsTakeMask (maskBit : Nat) (src : Source) : Answers Ball (Mask × Source) :=
  if maskBit = 1 then do
    let (key, src) ← wsTake src 4
    .one (some key, src)
  else .one (none, src)

/-- `( Mask == none -> Payload = Raw ; ws_mask(Raw, Mask, Payload) )`. -/
def wsUnmask (mask : Mask) (raw : List Nat) : Answers Ball (List Nat) :=
  match mask with
  | none => .one raw
  | some key => wsMask raw key

def wsFrameRest (src : Source) (b0 max : Nat) : Answers Ball (Frame × Source) := do
  let ([b1], src) ← wsTake src 1 | .fail
  let fin := b0 >>> 7
  let rsv := b0 >>> 4 &&& 7
  let op := b0 &&& 15
  let maskBit := b1 >>> 7
  let l0 := b1 &&& 127
  wsRule (rsv = 0) 1002 "an RSV bit set, and no extension spoken" src
  wsRule (wsOpcode op) 1002 "an opcode RFC 6455 does not define" src
  wsRule (¬(8 ≤ op ∧ fin = 0)) 1002 "a control frame in fragments" src
  wsRule (¬(8 ≤ op ∧ 125 < l0)) 1002 "a control frame over 125 bytes" src
  let (len, src) ← wsPayloadLength l0 src max
  let (mask, src) ← wsTakeMask maskBit src
  let (raw, src) ← wsTake src len
  let payload ← wsUnmask mask raw
  .one (⟨fin, op, mask, payload⟩, src)

/-- `ws_frame/4`. -/
def wsFrame (bytes : List Nat) (max : Nat) : Answers Ball (Frame × List Nat) :=
  match bytes with
  | [] => .fail
  | b0 :: bs => do
    let (frame, .bytes rest) ← wsFrameRest (.bytes bs) b0 max | .fail
    .one (frame, rest)

end Cocolog.WebSocket
