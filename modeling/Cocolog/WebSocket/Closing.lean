import Cocolog.WebSocket.Conversation
import Cocolog.WebSocket.RoundTrip

/-! The closing handshake, over any calls of one side and any frames of the other. -/

set_option linter.all false

namespace Cocolog.WebSocket

open Lib

/-! ## One frame sent -/

/-- `s'` is `s` after it wrote one frame, or tried to. -/
structure Wrote (s : Session) (fin op : Nat) (payload : List Nat) (s' : Session) : Prop where
  role : s'.role = s.role
  conn : s'.conn = s.conn
  closing : s'.closing = s.closing
  done : s'.done = s.done
  wire : ∃ mask bytes, wsFrameBytes (ε := Ball) fin op mask payload = .one bytes ∧
    mask.isSome = (s.role = .client : Bool) ∧ bytes.head? = some (fin <<< 7 ||| op) ∧
    s'.wire = if s.writes 0 then s.wire ++ [bytes] else s.wire

theorem sendFrame_spec (s : Session) (fin op : Nat) (payload : List Nat) :
    ∃ s', wsSendFrame s fin op payload = (s.writes 0, s') ∧ Wrote s fin op payload s' := by
  obtain ⟨role, conn, closing, done, wire, writes, keys, clock⟩ := s
  cases role with
  | client =>
    let key := [(keys 0).1.toNat, (keys 0).2.1.toNat, (keys 0).2.2.1.toNat, (keys 0).2.2.2.toNat]
    exact ⟨_, rfl, rfl, rfl, rfl, rfl, some key, _, Answers.one_bind _ _, rfl, rfl, rfl⟩
  | server => exact ⟨_, rfl, rfl, rfl, rfl, rfl, none, _, rfl, rfl, rfl, rfl⟩

/-! ## What is kept of the handshake -/

def IsClose (bytes : List Nat) : Prop := ∃ b0 ∈ bytes.head?, b0 &&& 15 = 8

/-- A close frame is the last thing written, and there is none while this side has not
closed. -/
structure Kept (s : Session) : Prop where
  last : ∀ before frame after, s.wire = before ++ frame :: after → IsClose frame → after = []
  clear : s.closing = false → s.done = false → ∀ frame ∈ s.wire, ¬IsClose frame

/-- Only the wire and the marks matter, and a mark more is no harm. -/
theorem Kept.mono {s s' : Session} (kept : Kept s) (wire : s'.wire = s.wire)
    (marks : s'.closing = false → s'.done = false → s.closing = false ∧ s.done = false) : Kept s' where
  last := wire ▸ kept.last
  clear still going := wire ▸ kept.clear (marks still going).1 (marks still going).2

/-- The wire after one more frame, when there was no close frame on it. -/
theorem Wrote.last {s s' : Session} {fin op : Nat} {payload : List Nat} (wrote : Wrote s fin op payload s')
    (clear : ∀ frame ∈ s.wire, ¬IsClose frame) :
    ∀ before frame after, s'.wire = before ++ frame :: after → IsClose frame → after = [] := by
  obtain ⟨mask, bytes, -, -, -, wire⟩ := wrote.wire
  intro before frame after split close
  rw [wire] at split
  by_cases goes : s.writes 0 = true
  · rw [if_pos goes] at split
    rcases List.eq_nil_or_concat after with rfl | ⟨front, end_, rfl⟩
    · rfl
    · have shorter : s.wire ++ [bytes] = (before ++ frame :: front) ++ [end_] := by
        rw [split]
        simp
      have same := (List.append_inj' shorter rfl).1
      exact absurd close (clear frame (same ▸ by simp))
  · rw [if_neg goes] at split
    exact absurd close (clear frame (split ▸ by simp))

/-- A frame that is no close frame keeps the wire clear of them. -/
theorem Wrote.clear {s s' : Session} {fin op : Nat} {payload : List Nat} (wrote : Wrote s fin op payload s')
    (nibble : op < 16) (other : op ≠ 8) (clear : ∀ frame ∈ s.wire, ¬IsClose frame) :
    ∀ frame ∈ s'.wire, ¬IsClose frame := by
  obtain ⟨mask, bytes, -, -, head, wire⟩ := wrote.wire
  intro frame mem
  rw [wire] at mem
  by_cases goes : s.writes 0 = true
  · rw [if_pos goes] at mem
    rcases List.mem_append.mp mem with before | new
    · exact clear frame before
    · obtain rfl := List.mem_singleton.mp new
      rintro ⟨b0, first, close⟩
      obtain rfl := Option.some.inj (head.symm.trans first)
      exact other ((first_byte fin nibble).2.1.symm.trans close)
  · rw [if_neg goes] at mem
    exact clear frame mem

theorem Kept.sendFrame {s : Session} (kept : Kept s) (still : s.closing = false) (going : s.done = false)
    {op : Nat} (nibble : op < 16) (other : op ≠ 8) (fin : Nat) (payload : List Nat) :
    Kept (wsSendFrame s fin op payload).2 := by
  obtain ⟨s', sent, wrote⟩ := sendFrame_spec s fin op payload
  rw [sent]
  have clear := kept.clear still going
  exact ⟨wrote.last clear, fun _ _ => wrote.clear nibble other clear⟩

@[simp] theorem finished_done (s : Session) : (wsFinished s).done = true := by
  unfold wsFinished
  split <;> rfl

@[simp] theorem finished_wire (s : Session) : (wsFinished s).wire = s.wire := by
  unfold wsFinished
  split <;> rfl

theorem Kept.finished {s : Session}
    (last : ∀ before frame after, s.wire = before ++ frame :: after → IsClose frame → after = []) :
    Kept (wsFinished s) where
  last := finished_wire s ▸ last
  clear _ going := by
    rw [finished_done] at going
    cases going

theorem Kept.sendCloseFrame {s : Session} (kept : Kept s) (going : s.done = false) (units : Units)
    (code : Option Int) (why : Text) :
    Kept (wsSendCloseFrame units s code why).2 ∧ (wsSendCloseFrame units s code why).2.done = false := by
  unfold wsSendCloseFrame
  split
  · rename_i payload _
    split
    · exact ⟨kept, going⟩
    · rename_i still
      have still : s.closing = false := by simpa using still
      have marked : Kept { s with closing := true } := kept.mono rfl nofun
      obtain ⟨s', sent, wrote⟩ := sendFrame_spec { s with closing := true } 1 8 payload
      rw [sent]
      have last := wrote.last (kept.clear still going)
      cases goes : s.writes 0 with
      | true =>
        refine ⟨⟨last, fun unmarked => ?_⟩, wrote.done.trans going⟩
        rw [wrote.closing] at unmarked
        cases unmarked
      | false =>
        obtain ⟨mask, bytes, -, -, -, wire⟩ := wrote.wire
        have same : s'.wire = s.wire := wire.trans (if_neg (by simp [goes]))
        exact ⟨kept.mono same fun _ _ => ⟨still, going⟩, wrote.done.trans going⟩
  · exact ⟨kept, going⟩
  · exact ⟨kept, going⟩

theorem Kept.failConnection {s : Session} (kept : Kept s) (going : s.done = false) (units : Units) (code : Nat)
    (why : String) : Kept (wsFailConnection units s code why).2 := by
  unfold wsFailConnection
  split
  · exact .finished kept.last
  · rename_i still
    have still : s.closing = false := by simpa using still
    split
    · obtain ⟨s', sent, wrote⟩ := sendFrame_spec s 1 8 ‹_›
      rw [sent]
      exact .finished (wrote.last (kept.clear still going))
    · exact kept
    · exact kept

theorem Kept.message {s : Session} (kept : Kept s) (going : s.done = false) (units : Units) (kind : Kind)
    (bytes : List Nat) : Kept (wsMessage units s kind bytes).2 := by
  unfold wsMessage
  split
  · split
    · exact kept
    · exact kept.failConnection going ..
  · exact kept

theorem Kept.closeReceived {s : Session} (kept : Kept s) (going : s.done = false) (units : Units)
    (payload : List Nat) : Kept (wsCloseReceived units s payload).2 := by
  have checked (code : Nat) (reason : List Nat) : Kept (wsCloseReceived.checked units s code reason).2 := by
    unfold wsCloseReceived.checked
    split
    · exact kept.failConnection going ..
    · split
      · exact kept.failConnection going ..
      · dsimp only
        split
        · exact .finished kept.last
        · rename_i still
          obtain ⟨s', sent, wrote⟩ := sendFrame_spec s 1 8 (wsEcho code)
          rw [sent]
          exact .finished (wrote.last (kept.clear (by simpa using still) going))
  unfold wsCloseReceived
  split
  · exact checked ..
  · exact kept.failConnection going ..
  · exact checked ..

/-- The handshake is kept, and a conversation that goes on is not over. -/
def GoesOn (p : Turn × Session) : Prop := Kept p.2 ∧ ∀ begun, p.1 = .next begun → p.2.done = false

theorem Kept.nextFrame {s : Session} (kept : Kept s) (going : s.done = false) (units : Units) (max : Nat)
    (out : Fail ⊕ Frame) (begun : Option Begun) :
    GoesOn (wsNextFrame units max out s begun) := by
  have answered {p : Outcome Message × Session} (kept : Kept p.2) : GoesOn (answering p) := ⟨kept, nofun⟩
  unfold wsNextFrame
  split
  · split
    · exact answered (.finished kept.last)
    · exact answered (kept.failConnection going ..)
  · rename_i fin op mask payload
    split
    · exact answered (kept.failConnection going ..)
    split
    · split
      · exact ⟨kept, fun _ _ => going⟩
      · rename_i still
        refine ⟨kept.sendFrame (by simpa using still) going (by decide) (by decide) .., fun _ _ => ?_⟩
        obtain ⟨s', sent, wrote⟩ := sendFrame_spec s 1 10 payload
        rw [sent]
        exact wrote.done.trans going
    split
    · split
      · exact ⟨kept, nofun⟩
      · exact ⟨kept, fun _ _ => going⟩
    split
    · exact answered (kept.closeReceived going ..)
    split
    · split
      · dsimp only
        split
        · exact answered (kept.failConnection going ..)
        split
        · exact answered (kept.message going ..)
        · exact ⟨kept, fun _ _ => going⟩
      · exact answered (kept.failConnection going ..)
    split
    · exact answered (kept.failConnection going ..)
    split
    · split
      · exact answered (kept.message going ..)
      · exact ⟨kept, fun _ _ => going⟩
    · exact ⟨kept, nofun⟩

theorem Kept.next (units : Units) (max k : Nat) {s : Session} (kept : Kept s) (going : s.done = false)
    (begun : Option Begun) : Kept (wsNext_ units max k s begun).2 := by
  induction k generalizing s begun with
  | zero => exact kept
  | succ k ih =>
    have moved (c : Conn) : Kept { s with conn := c } := kept.mono rfl fun still going => ⟨still, going⟩
    rw [wsNext_]
    split
    · split
      · rename_i out c _
        obtain ⟨kept', going'⟩ := (moved c).nextFrame going units max out begun
        split
        · rename_i begun' s' turn
          rw [turn] at kept' going'
          exact ih kept' (going' begun' rfl) begun'
        · rename_i outcome s' turn
          rw [turn] at kept'
          exact kept'
      · exact moved _
    · dsimp only
      split
      · split
        · exact moved _
        · exact .finished (moved _).last
      · exact .finished (moved _).last

theorem Kept.receive {s : Session} (kept : Kept s) (units : Units) (max : Nat) :
    Kept (wsReceive units s max).2 := by
  unfold wsReceive
  split
  · exact kept
  · rename_i going
    exact kept.next units max _ (by simpa using going) none

theorem Kept.awaitClose (units : Units) (deadline : Int) (k : Nat) {s : Session} (kept : Kept s) :
    Kept (wsAwaitClose_ units deadline k s) := by
  induction k generalizing s with
  | zero => exact kept
  | succ k ih =>
    have timed : Kept (getTime s).2 := kept.mono rfl fun still going => ⟨still, going⟩
    have received := timed.receive units 16777216
    rw [wsAwaitClose_]
    dsimp only
    split
    · exact .finished timed.last
    split
    · rename_i heard
      rw [heard] at received
      exact received
    · rename_i heard
      rw [heard] at received
      exact ih received
    · rename_i heard
      rw [heard] at received
      exact .finished received.last
    · rename_i heard
      rw [heard] at received
      exact .finished received.last

theorem Kept.close {s : Session} (kept : Kept s) (units : Units) (code : Option Int) (why : Text) :
    Kept (wsClose units s code why).2 := by
  unfold wsClose
  split
  · exact kept
  rename_i going
  have sent := (kept.sendCloseFrame (by simpa using going) units code why).1
  split
  · rename_i closed
    rw [closed] at sent
    exact .awaitClose _ _ _ (sent.mono rfl fun still going => ⟨still, going⟩)
  · rename_i closed
    rw [closed] at sent
    exact .finished sent.last
  · rename_i closed
    rw [closed] at sent
    exact sent

theorem messageFrame_op {units : Units} {message : Outgoing} {op : Nat} {payload : List Nat}
    (is : wsMessageFrame units message = .one (op, payload)) : op < 16 ∧ op ≠ 8 := by
  have control {n : Nat} (small : n < 16 ∧ n ≠ 8) {d : Text}
      (is : wsMessageFrame.control n d = .one (op, payload)) : op < 16 ∧ op ≠ 8 := by
    unfold wsMessageFrame.control at is
    split at is
    · split at is
      · cases is
        exact small
      · cases is
      · cases is
    · cases is
    · cases is
  unfold wsMessageFrame at is
  split at is
  · split at is
    · split at is
      · cases is
        decide
      · cases is
    · cases is
    · cases is
  · split at is
    · cases is
      decide
    · cases is
    · cases is
  · exact control (by decide) is
  · exact control (by decide) is
  · cases is

theorem Kept.send {s : Session} (kept : Kept s) (units : Units) (message : Outgoing) :
    Kept (wsSend units s message).2 := by
  unfold wsSend
  split
  · exact kept
  rename_i going
  have going : s.done = false := by simpa using going
  split
  · exact (kept.sendCloseFrame going ..).1
  split
  · exact kept
  rename_i still
  split
  · rename_i op payload is
    obtain ⟨nibble, other⟩ := messageFrame_op is
    have sent := kept.sendFrame (by simpa using still) going nibble other 1 payload
    split
    · rename_i wrote
      rw [wrote] at sent
      exact sent
    · rename_i wrote
      rw [wrote] at sent
      exact sent
  · exact kept
  · exact kept

/-! ## Runs -/

/-- A call of the program on its conversation. -/
inductive Call
  | send (message : Outgoing)
  | close (code : Option Int) (why : Text)
  | receive (max : Nat)
  deriving DecidableEq, Repr

def Call.step (units : Units) (s : Session) : Call → Session
  | .send message => (wsSend units s message).2
  | .close code why => (wsClose units s code why).2
  | .receive max => (wsReceive units s max).2

def run (units : Units) (s : Session) (calls : List Call) : Session := calls.foldl (Call.step units) s

theorem Kept.step {s : Session} (kept : Kept s) (units : Units) (call : Call) : Kept (call.step units s) := by
  cases call with
  | send message => exact kept.send units message
  | close code why => exact kept.close units code why
  | receive max => exact kept.receive units max

theorem Kept.run {s : Session} (kept : Kept s) (units : Units) (calls : List Call) : Kept (run units s calls) := by
  induction calls generalizing s with
  | nil => exact kept
  | cons call calls ih => exact ih (kept.step units call)

/-- On a conversation that is over a call does nothing. -/
theorem step_done {s : Session} (ended : s.done = true) (units : Units) (call : Call) : call.step units s = s := by
  cases call with
  | send message => simp only [Call.step, wsSend, if_pos ended]
  | close code why => simp only [Call.step, wsClose, if_pos ended]
  | receive max => simp only [Call.step, wsReceive, if_pos ended]

theorem run_done {s : Session} (ended : s.done = true) (units : Units) (calls : List Call) :
    run units s calls = s := by
  induction calls with
  | nil => rfl
  | cons call calls ih =>
    rw [run, List.foldl_cons, step_done ended]
    exact ih

/-! ## A close frame received -/

/-- The codes that may go on the wire. -/
def Allowed (code : Nat) : Prop :=
  1000 ≤ code ∧ code ≤ 1003 ∨ 1007 ≤ code ∧ code ≤ 1014 ∨ 3000 ≤ code ∧ code ≤ 4999

/-- One byte, or a code that may not go on the wire. -/
def BadCode : List Nat → Prop
  | [] => False
  | [_] => True
  | h :: l :: _ => ¬Allowed (h * 256 + l)

/-- The code the peer sent, 1005 for none. -/
def peerCode : List Nat → Nat
  | h :: l :: _ => h * 256 + l
  | _ => 1005

/-- A frame of opcode 8 is written after `s`, where the write goes through. -/
def Answered (s : Session) (payload : List Nat) (wire : List (List Nat)) : Prop :=
  ∃ mask bytes, wsFrameBytes (ε := Ball) 1 8 mask payload = .one bytes ∧
    wire = if s.writes 0 then s.wire ++ [bytes] else s.wire

/-- This side fails the conversation, with a close frame of its own unless one has gone. -/
structure FailedWith (s : Session) (code : Nat) (r : Outcome Message × Session) : Prop where
  message : ∃ why, r.1 = .one (.close code (.words why))
  ended : r.2.done = true
  told : if s.closing then r.2.wire = s.wire
    else ∃ words, Answered s (code / 256 :: code % 256 :: words) r.2.wire

/-- The peer's close is returned, and answered with its code unless one has gone. -/
structure Returned (s : Session) (payload : List Nat) (r : Outcome Message × Session) : Prop where
  message : r.1 = .one (.close (peerCode payload) (.said (payload.drop 2)))
  ended : r.2.done = true
  told : if s.closing then r.2.wire = s.wire else Answered s (payload.take 2) r.2.wire

/-- What is claimed of a close frame received. -/
structure Claimed (s : Session) (payload : List Nat) (r : Outcome Message × Session) : Prop where
  badCode : BadCode payload → FailedWith s 1002 r
  badReason : ¬BadCode payload → ¬IsUtf8 (payload.drop 2) → FailedWith s 1007 r
  good : ¬BadCode payload → IsUtf8 (payload.drop 2) → Returned s payload r

@[simp] theorem sendable_iff (code : Nat) : wsCodeSendable code = true ↔ Allowed code := by
  simp only [wsCodeSendable, Allowed, Bool.or_eq_true, Bool.and_eq_true, decide_eq_true_eq]
  omega

theorem words_ascii {l : List Char} (ascii : (l.map Char.toNat).all (· < 128) = true) :
    wsUtf8 (wordsBytes (String.ofList l)) = true := by
  rw [wordsBytes, String.toList_ofList]
  exact wsUtf8_ascii ascii

theorem failConnection_failed (units : Units) (s : Session) {code : Nat} (allowed : Allowed code) {why : String}
    (ascii : wsUtf8 (wordsBytes why) = true) : FailedWith s code (wsFailConnection units s code why) := by
  unfold wsFailConnection
  split
  · rename_i closing
    exact ⟨⟨why, rfl⟩, finished_done s, by rw [if_pos closing]; exact finished_wire s⟩
  · rename_i still
    have payload : wsClosePayload units (some code) (.name (wordsBytes why)) =
        .one (code / 256 :: code % 256 :: wsCutReason (wordsBytes why)) := by
      simp only [wsClosePayload, if_pos ((sendable_iff code).mpr allowed), wsTextBytes, if_pos ascii, Int.toNat_natCast,
        low_byte, shift_byte]
    rw [payload]
    obtain ⟨s', sent, wrote⟩ := sendFrame_spec s 1 8 (code / 256 :: code % 256 :: wsCutReason (wordsBytes why))
    obtain ⟨mask, bytes, written, -, -, wire⟩ := wrote.wire
    dsimp only
    rw [sent]
    refine ⟨⟨why, rfl⟩, finished_done s', ?_⟩
    rw [if_neg still]
    exact ⟨_, mask, bytes, written, (finished_wire s').trans wire⟩

/-- The code with its reason. A code that may not be sent fails the conversation, 1005 apart. -/
theorem checked_claimed (units : Units) (s : Session) (code : Nat) (reason : List Nat) :
    (¬Allowed code → code ≠ 1005 → FailedWith s 1002 (wsCloseReceived.checked units s code reason)) ∧
      (Allowed code ∨ code = 1005 → ¬IsUtf8 reason →
        FailedWith s 1007 (wsCloseReceived.checked units s code reason)) ∧
      (Allowed code ∨ code = 1005 → IsUtf8 reason →
        ∃ s', wsCloseReceived.checked units s code reason = (.one (.close code (.said reason)), wsFinished s') ∧
          if s.closing then s'.wire = s.wire else Answered s (wsEcho code) s'.wire) := by
  unfold wsCloseReceived.checked
  have sendable := sendable_iff code
  have valid := wsUtf8_iff reason
  refine ⟨fun bad other => ?_, fun good bad => ?_, fun good utf8 => ?_⟩
  · rw [if_pos ⟨other, mt sendable.mp bad⟩]
    exact failConnection_failed units s (by unfold Allowed; decide) (words_ascii (by decide))
  · rw [if_neg fun both => good.elim (mt sendable.mpr both.2) both.1, if_pos (mt valid.mp bad)]
    exact failConnection_failed units s (by unfold Allowed; decide) (words_ascii (by decide))
  · rw [if_neg fun both => good.elim (mt sendable.mpr both.2) both.1, if_neg (not_not.mpr (valid.mpr utf8))]
    refine ⟨_, rfl, ?_⟩
    by_cases closing : s.closing = true
    · rw [if_pos closing, if_pos closing]
    · rw [if_neg closing, if_neg closing]
      obtain ⟨s', sent, wrote⟩ := sendFrame_spec s 1 8 (wsEcho code)
      obtain ⟨mask, bytes, written, -, -, wire⟩ := wrote.wire
      rw [sent]
      exact ⟨mask, bytes, written, wire⟩

theorem checked_returned {units : Units} {s : Session} {code : Nat} {reason payload : List Nat}
    (good : Allowed code ∨ code = 1005) (utf8 : IsUtf8 reason) (peer : peerCode payload = code)
    (rest : payload.drop 2 = reason) (echo : wsEcho code = payload.take 2) :
    Returned s payload (wsCloseReceived.checked units s code reason) := by
  obtain ⟨s', is, told⟩ := (checked_claimed units s code reason).2.2 good utf8
  rw [is]
  refine ⟨?_, finished_done s', ?_⟩
  · rw [peer, rest]
  · rw [← echo]
    dsimp only
    rwa [finished_wire]

theorem echo_of_ne {h l : Nat} (low : l < 256) (other : h * 256 + l ≠ 1005) :
    wsEcho (h * 256 + l) = [h, l] := by
  rw [wsEcho, if_neg other, low_byte, shift_byte]
  simp only [List.cons.injEq, and_true]
  omega

/-- A close frame is dealt with as claimed unless it says 1005 in two bytes. -/
theorem closeReceived_claimed (units : Units) (s : Session) {payload : List Nat} (bytes : ∀ b ∈ payload, b < 256) :
    Claimed s payload (wsCloseReceived units s payload) ↔ ¬∃ reason, payload = 3 :: 237 :: reason := by
  match payload with
  | [] =>
    have empty : IsUtf8 [] := ⟨[], by simp, rfl⟩
    rw [show wsCloseReceived units s [] = wsCloseReceived.checked units s 1005 [] from rfl]
    refine ⟨fun _ => by simp, fun _ => ⟨fun bad => bad.elim, fun _ bad => absurd empty bad, fun _ _ => ?_⟩⟩
    exact checked_returned (.inr rfl) empty rfl rfl rfl
  | [b] =>
    rw [show wsCloseReceived units s [b] = wsFailConnection units s 1002 "a close frame of one byte" from rfl]
    refine ⟨fun _ => by simp, fun _ => ⟨fun _ => ?_, fun good => absurd trivial good, fun good => absurd trivial good⟩⟩
    exact failConnection_failed units s (by unfold Allowed; decide) (words_ascii (by decide))
  | h :: l :: reason =>
    have low : l < 256 := bytes l (by simp)
    have code : h <<< 8 ||| l = h * 256 + l := join_eq h 8 low
    have is : wsCloseReceived units s (h :: l :: reason) = wsCloseReceived.checked units s (h * 256 + l) reason :=
      congrArg (wsCloseReceived.checked units s · reason) code
    rw [is]
    obtain ⟨badCode, badReason, good⟩ := checked_claimed units s (h * 256 + l) reason
    have drop : (h :: l :: reason).drop 2 = reason := rfl
    constructor
    · rintro ⟨claimed, -, -⟩ ⟨_, same⟩
      rw [List.cons.injEq, List.cons.injEq] at same
      obtain ⟨rfl, rfl, rfl⟩ := same
      have bad : BadCode (3 :: 237 :: reason) := by
        show ¬Allowed (3 * 256 + 237)
        unfold Allowed
        omega
      obtain ⟨why, failed⟩ := (claimed bad).message
      by_cases utf8 : IsUtf8 reason
      · obtain ⟨s', returned, -⟩ := good (.inr rfl) utf8
        rw [returned] at failed
        cases failed
      · obtain ⟨why', failed'⟩ := (badReason (.inr rfl) utf8).message
        rw [failed'] at failed
        cases failed
    · intro other
      have ne : h * 256 + l ≠ 1005 := by
        intro same
        obtain ⟨rfl, rfl⟩ : h = 3 ∧ l = 237 := by omega
        exact other ⟨reason, rfl⟩
      refine ⟨fun bad => badCode bad ne, fun fine bad => ?_, fun fine utf8 => ?_⟩
      · exact badReason (.inl (not_not.mp fine)) bad
      · exact checked_returned (.inl (not_not.mp fine)) utf8 rfl rfl (echo_of_ne low ne)

/-! ## A frame read -/

theorem coming_byte (c : Conn) : ∀ b ∈ c.coming, b < 256 := by
  obtain ⟨arrivals, why⟩ := c
  show ∀ b ∈ comingOf arrivals, b < 256
  induction arrivals with
  | nil => exact nofun
  | cons arrival rest ih =>
    cases arrival with
    | silence => exact nofun
    | lost why => exact nofun
    | bytes first more =>
      intro b mem
      rcases List.mem_append.mp mem with here | later
      · obtain ⟨u, -, rfl⟩ := List.mem_map.mp here
        exact u.toNat_lt
      · exact ih b later

theorem mask_byte {raw : List Nat} {k0 k1 k2 k3 : Nat} (bytes : ∀ b ∈ raw, b < 256)
    (key : k0 < 256 ∧ k1 < 256 ∧ k2 < 256 ∧ k3 < 256) : ∀ b ∈ wsMask4 raw k0 k1 k2 k3, b < 256 := by
  have xor {a k : Nat} (mem : a < 256) (small : k < 256) : a ^^^ k < 256 := Nat.xor_lt_two_pow (n := 8) mem small
  induction raw, k0, k1, k2, k3 using wsMask4.induct with
  | case1 a b c d t k0 k1 k2 k3 ih =>
    simp only [List.mem_cons, forall_eq_or_imp] at bytes
    simp only [wsMask4, List.mem_cons, forall_eq_or_imp]
    exact ⟨xor bytes.1 key.1, xor bytes.2.1 key.2.1, xor bytes.2.2.1 key.2.2.1, xor bytes.2.2.2.1 key.2.2.2,
      ih bytes.2.2.2.2 key⟩
  | case2 => simp_all [wsMask4]
  | case3 => simp_all [wsMask4]
  | case4 => simp_all [wsMask4]
  | case5 => simp [wsMask4]

/-- The payload of a frame of bytes is bytes. -/
theorem FrameText.payload_byte {w : List Nat} {max : Nat} {frame : Frame} (text : FrameText w max frame)
    (bytes : ∀ b ∈ w, b < 256) : ∀ b ∈ frame.payload, b < 256 := by
  obtain ⟨l0, ext, raw, -, -, body, -, rfl⟩ := text.text
  have inside : ∀ b ∈ frame.mask.getD [] ++ raw, b < 256 := fun b mem =>
    bytes b (List.mem_cons_of_mem _ (List.mem_cons_of_mem _ (List.mem_append_right _ mem)))
  have raw_ : ∀ b ∈ raw, b < 256 := fun b mem => inside b (List.mem_append_right _ mem)
  rw [← body]
  cases key : frame.mask with
  | none => exact raw_
  | some bytes_ =>
    obtain ⟨k0, k1, k2, k3, rfl⟩ := text.key bytes_ key
    rw [key] at inside
    exact mask_byte raw_ ⟨inside k0 (by simp), inside k1 (by simp), inside k2 (by simp), inside k3 (by simp)⟩

/-- What `ws_next/6` makes of a frame that has come, whatever chunks it came in. -/
theorem FrameText.next {w rest : List Nat} {max : Nat} {frame : Frame} (text : FrameText w max frame) (units : Units)
    {s : Session} (comes : s.conn.coming = w ++ rest) : ∃ c, c.coming = rest ∧ c.beyond = s.conn.beyond ∧
      ∀ k begun s',
        (∀ begun', wsNextFrame units max (.inr frame) { s with conn := c } begun = (.next begun', s') →
          wsNext_ units max (k + 1) s begun = wsNext_ units max k s' begun') ∧
        ∀ outcome, wsNextFrame units max (.inr frame) { s with conn := c } begun = (.answer outcome, s') →
          wsNext_ units max (k + 1) s begun = (outcome, s') := by
  obtain ⟨b0, c₁, c₂, first, body, left, beyond⟩ := text.read comes
  have read : wsReadFrame c₁ b0 max = some (.inr frame, c₂) := by
    rw [wsReadFrame, body]
    rfl
  refine ⟨c₂, left, beyond, fun k begun s' => ⟨fun begun' turn => ?_, fun outcome turn => ?_⟩⟩
  · simp only [wsNext_, first, read, turn]
  · simp only [wsNext_, first, read, turn]

theorem claimed_conn (s : Session) (c : Conn) (payload : List Nat) (r : Outcome Message × Session) :
    Claimed { s with conn := c } payload r ↔ Claimed s payload r := by
  constructor
  · rintro ⟨badCode, badReason, good⟩
    refine ⟨fun bad => ?_, fun fine bad => ?_, fun fine utf8 => ?_⟩
    · exact ⟨(badCode bad).message, (badCode bad).ended, (badCode bad).told⟩
    · exact ⟨(badReason fine bad).message, (badReason fine bad).ended, (badReason fine bad).told⟩
    · exact ⟨(good fine utf8).message, (good fine utf8).ended, (good fine utf8).told⟩
  · rintro ⟨badCode, badReason, good⟩
    refine ⟨fun bad => ?_, fun fine bad => ?_, fun fine utf8 => ?_⟩
    · exact ⟨(badCode bad).message, (badCode bad).ended, (badCode bad).told⟩
    · exact ⟨(badReason fine bad).message, (badReason fine bad).ended, (badReason fine bad).told⟩
    · exact ⟨(good fine utf8).message, (good fine utf8).ended, (good fine utf8).told⟩

/-! ## The handshake -/

/-- A conversation that begins, both marks forgotten. -/
def Session.begin (role : Role) (conn : Conn) (writes : Nat → Bool)
    (keys : Nat → UInt8 × UInt8 × UInt8 × UInt8) (clock : Nat → Int) : Session :=
  ⟨role, conn, false, false, [], writes, keys, clock⟩

end Cocolog.WebSocket
