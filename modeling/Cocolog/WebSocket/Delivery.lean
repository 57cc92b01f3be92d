import Cocolog.WebSocket.Messages

/-! Over any calls, what a program is told is what the peer's frames say, message by message,
and nothing after the end. -/

set_option linter.all false

namespace Cocolog.WebSocket

open Lib

/-! ## Any frames say something -/

section Coverage

variable {role : Role} {max : Nat}

theorem opcode_of {f : Sent} (taken : f.refusal max = none) :
    f.op = 0 ∨ (∃ kind, f.op = opOf kind) ∨ f.op = 8 ∨ f.op = 9 ∨ f.op = 10 := by
  have defined : wsOpcode f.op = true := (Sent.frameText taken).op
  simp only [wsOpcode, Bool.or_eq_true, decide_eq_true_eq] at defined
  rcases defined with ((((zero | text) | binary) | close) | ping) | pong
  · exact .inl zero
  · exact .inr (.inl ⟨.text, text⟩)
  · exact .inr (.inl ⟨.binary, binary⟩)
  · exact .inr (.inr (.inl close))
  · exact .inr (.inr (.inr (.inl ping)))
  · exact .inr (.inr (.inr (.inr pong)))

theorem fin_of (f : Sent) : f.fin = 0 ∨ f.fin = 1 := by
  have bit := f.bit
  omega

/-- Frames are complete ones, and then nothing, a message unfinished, or a frame that ends the
conversation. -/
inductive Split (role : Role) (max : Nat) (fs : List Sent) : Prop
  | open_ (cs hs : List Sent) (es : List Event) (pending : Option (Kind × List Nat)) (is : fs = cs ++ hs)
    (complete : Complete role max cs es) (pends : At role max hs pending)
  | ends (cs hs more : List Sent) (f : Sent) (es : List Event) (pending : Option (Kind × List Nat)) (code : Nat)
    (is : fs = cs ++ (hs ++ f :: more)) (complete : Complete role max cs es) (pends : At role max hs pending)
    (ends : Ends role max pending f code)

/-- Complete frames in front of what is split. -/
theorem Split.behind {fs : List Sent} (split : Split role max fs) (front : List Sent)
    (complete : ∀ cs es, Complete role max cs es → ∃ es', Complete role max (front ++ cs) es') :
    Split role max (front ++ fs) := by
  cases split with
  | open_ cs hs es pending is complete' pends =>
    obtain ⟨es', whole⟩ := complete cs es complete'
    exact .open_ (front ++ cs) hs es' pending (by rw [is, List.append_assoc]) whole pends
  | ends cs hs more f es pending code is complete' pends ends =>
    obtain ⟨es', whole⟩ := complete cs es complete'
    exact .ends (front ++ cs) hs more f es' pending code (by rw [is, List.append_assoc]) whole pends ends

theorem split_from (fs : List Sent) {hs : List Sent} {pending : Option (Kind × List Nat)}
    (pends : At role max hs pending) : Split role max (hs ++ fs) := by
  induction fs generalizing hs pending with
  | nil => exact .open_ [] hs [] pending (by simp) .nil pends
  | cons f fs ih =>
    have last {code : Nat} (ends : Ends role max pending f code) : Split role max (hs ++ f :: fs) :=
      .ends [] hs fs f [] pending code (by simp) .nil pends ends
    have going (pending' : Option (Kind × List Nat)) (pends' : At role max (hs ++ [f]) pending') :
        Split role max (hs ++ f :: fs) := by
      have rest := ih pends'
      rwa [List.append_assoc, List.singleton_append] at rest
    have fresh : Split role max fs := @ih [] none rfl
    cases refused : f.refusal max with
    | some code => exact last (.refused refused)
    | none =>
      by_cases right : wsMaskRight role f.mask = true
      case neg => exact last (.mask refused (by simpa using right))
      have good : Good role max f := ⟨refused, right⟩
      rcases opcode_of refused with more | ⟨kind, data⟩ | close | control
      · cases pending with
        | none => exact last (.stray good more)
        | some message =>
          obtain ⟨kind, p⟩ := message
          by_cases fits : p.length + f.payload.length ≤ max
          case neg => exact last (.long good more (Nat.not_le.mp fits))
          rcases fin_of f with fin | fin
          · exact going (some (kind, p ++ f.payload)) (.more pends good more fin fits)
          by_cases legible : Legible kind (p ++ f.payload)
          · have whole := fresh.behind (hs ++ [f]) fun cs es complete =>
              ⟨_, by simpa using Complete.fragments pends good more fin fits legible complete⟩
            rwa [List.append_assoc, List.singleton_append] at whole
          · obtain ⟨rfl, bad⟩ := Classical.not_imp.mp legible
            exact last (.last good more fin fits bad)
      · cases pending with
        | some message => exact last (.inside good data)
        | none =>
          obtain rfl : hs = [] := pends
          rcases fin_of f with fin | fin
          · exact going (some (kind, f.payload)) (.first good data fin)
          by_cases legible : Legible kind f.payload
          · exact fresh.behind [f] fun cs es complete => ⟨_, .single good data fin legible complete⟩
          · obtain ⟨rfl, bad⟩ := Classical.not_imp.mp legible
            exact last (.single good data fin bad)
      · exact last (.close good close)
      · cases pending with
        | some message => exact going (some message) (.control pends good control)
        | none =>
          obtain rfl : hs = [] := pends
          rcases control with ping | pong
          · exact fresh.behind [f] fun cs es complete => ⟨_, .ping good ping complete⟩
          · exact fresh.behind [f] fun cs es complete => ⟨_, .pong good pong complete⟩

/-- Whatever the peer sends, when nothing times out, has something to say. -/
theorem arrives_of (fs : List Sent) {arrivals : List Arrival} (comes : comingOf arrivals = texts fs)
    (beyond : beyondOf arrivals = [] ∨ ∃ why rest, why ≠ "timeout" ∧ beyondOf arrivals = .lost why :: rest) :
    ∃ events, Arrives role max arrivals events 0 := by
  have split : Split role max fs := @split_from role max fs [] none rfl
  cases split with
  | open_ cs hs es pending is complete pends =>
    exact ⟨_, .lost (by rw [comes, is, texts, List.flatMap_append, texts, texts]) beyond complete pends⟩
  | ends cs hs more f es pending code is complete pends ends =>
    have front : comingOf arrivals = texts cs ++ (texts hs ++ (f.text ++ texts more)) := by
      rw [comes, is]
      simp [texts]
    exact ⟨_, .ended front complete pends ends⟩

/-- There is one end, and it is the last event. -/
theorem Arrives.end_last {arrivals : List Arrival} {events : List Event} {quiets : Nat}
    (arrives : Arrives role max arrivals events quiets) :
    ∃ told code, events = told ++ [.ended code] ∧ ∀ c, .ended c ∉ told := by
  have open_ {fs : List Sent} {es : List Event} (complete : Complete role max fs es) : ∀ c, .ended c ∉ es := by
    intro c
    induction complete with
    | nil => exact List.not_mem_nil
    | ping _ _ _ ih => exact ih
    | pong _ _ _ ih => simpa using ih
    | single _ _ _ _ _ ih => simpa using ih
    | fragments _ _ _ _ _ _ _ ih => simpa using ih
  induction arrives with
  | quiet _ _ complete _ ih =>
    obtain ⟨told, code, rfl, none_⟩ := ih
    refine ⟨_ ++ told, code, (List.append_assoc ..).symm, fun c mem => ?_⟩
    rcases List.mem_append.mp mem with here | later
    · exact open_ complete c here
    · exact none_ c later
  | ended _ complete _ _ => exact ⟨_, _, rfl, open_ complete⟩
  | lost _ _ complete _ => exact ⟨_, _, rfl, open_ complete⟩

end Coverage

/-! ## Calls -/

/-- What each call of `ws_receive/3` answers, between messages that are sent. -/
def transcript (units : Units) (max : Nat) (s : Session) : List (Option Outgoing) → List (Outcome Message)
  | [] => []
  | some message :: calls => transcript units max (wsSend units s message).2 calls
  | none :: calls => (wsReceive units s max).1 :: transcript units max (wsReceive units s max).2 calls

/-- What a side writes leaves what it will read. -/
structure Unread (s s' : Session) : Prop where
  role : s'.role = s.role
  conn : s'.conn = s.conn
  done : s'.done = s.done

theorem Wrote.unread {s s' : Session} {fin op : Nat} {payload : List Nat} (wrote : Wrote s fin op payload s') :
    Unread s s' :=
  ⟨wrote.role, wrote.conn, wrote.done⟩

theorem sendCloseFrame_unread (units : Units) (s : Session) (code : Option Int) (why : Text) :
    Unread s (wsSendCloseFrame units s code why).2 := by
  unfold wsSendCloseFrame
  split
  · split
    · exact ⟨rfl, rfl, rfl⟩
    · obtain ⟨s', sent, wrote⟩ := sendFrame_spec { s with closing := true } 1 8 ‹_›
      rw [sent]
      dsimp only
      cases s.writes 0
      · exact ⟨wrote.role, wrote.conn, wrote.done⟩
      · exact ⟨wrote.role, wrote.conn, wrote.done⟩
  · exact ⟨rfl, rfl, rfl⟩
  · exact ⟨rfl, rfl, rfl⟩

theorem send_unread (units : Units) (s : Session) (message : Outgoing) : Unread s (wsSend units s message).2 := by
  unfold wsSend
  split
  · exact ⟨rfl, rfl, rfl⟩
  split
  · exact sendCloseFrame_unread ..
  split
  · exact ⟨rfl, rfl, rfl⟩
  split
  · rename_i op payload _
    obtain ⟨s', sent, wrote⟩ := sendFrame_spec s 1 op payload
    rw [sent]
    cases s.writes 0
    · exact wrote.unread
    · exact wrote.unread
  · exact ⟨rfl, rfl, rfl⟩
  · exact ⟨rfl, rfl, rfl⟩

theorem Told.unread {max : Nat} {s s' : Session} {events : List Event} {quiets : Nat} (told : Told max s events quiets)
    (unread : Unread s s') : Told max s' events quiets := by
  cases told with
  | ended done => exact .ended (unread.done.trans done)
  | going going arrives =>
    refine .going (unread.done.trans going) ?_
    rwa [unread.role, unread.conn]

/-- Over any calls a program is told a first part of what the connection says, and all of it
after enough of them. -/
theorem transcript_told (units : Units) {max : Nat} {s : Session} {events : List Event} {quiets : Nat}
    (told : Told max s events quiets) (calls : List (Option Outgoing)) :
    (transcript units max s calls).filterMap (heard units) <+: events ∧
      (events.length + quiets ≤ calls.count none →
        (transcript units max s calls).filterMap (heard units) = events) := by
  induction calls generalizing s events quiets with
  | nil =>
    refine ⟨List.nil_prefix, fun enough => ?_⟩
    rw [List.count_nil] at enough
    exact (List.length_eq_zero_iff.mp (by omega)).symm
  | cons call calls ih =>
    cases call with
    | some message =>
      have rest := ih (told.unread (send_unread units s message))
      rwa [List.count_cons_of_ne (by simp), transcript]
    | none =>
      rw [List.count_cons_self, transcript]
      cases told with
      | ended done =>
        have raised : wsReceive units s max = (.throw (.permission "receive" "closed_websocket"), s) := if_pos done
        rw [raised]
        obtain ⟨before, -⟩ := ih (.ended done)
        rw [List.filterMap_cons_none rfl]
        exact ⟨before, fun _ => List.prefix_nil.mp before⟩
      | going going arrives =>
        rcases receive_told units going arrives with ⟨m, s', e, es, answers, hears, rfl, told⟩ | ⟨s', n, silent, rfl, told⟩
        · rw [answers]
          obtain ⟨before, whole⟩ := ih told
          rw [List.filterMap_cons_some hears]
          refine ⟨List.cons_prefix_cons.mpr ⟨rfl, before⟩, fun enough => ?_⟩
          rw [whole (by simp only [List.length_cons] at enough; omega)]
        · rw [silent]
          obtain ⟨before, whole⟩ := ih told
          exact ⟨before, fun enough => whole (by omega)⟩

/-- Whatever the peer sends makes up messages, pongs and one end, in any delivery. What the
calls return, between any messages sent, is a first part of these, and all of them after
enough calls. -/
theorem messages_whole (units : Units) (max : Nat) :
    (∀ role fs arrivals, comingOf arrivals = texts fs →
      (beyondOf arrivals = [] ∨ ∃ why rest, why ≠ "timeout" ∧ beyondOf arrivals = .lost why :: rest) →
      ∃ events, Arrives role max arrivals events 0) ∧
    ∀ (s : Session) events quiets, s.done = false → Arrives s.role max s.conn.arrivals events quiets →
      (∃ told code, events = told ++ [.ended code] ∧ ∀ c, .ended c ∉ told) ∧
      ∀ calls, (transcript units max s calls).filterMap (heard units) <+: events ∧
        (events.length + quiets ≤ calls.count none →
          (transcript units max s calls).filterMap (heard units) = events) :=
  ⟨fun _ fs _ comes beyond => arrives_of fs comes beyond,
    fun _ _ _ going arrives => ⟨arrives.end_last, transcript_told units (.going going arrives)⟩⟩

/-- A frame from a server, its length in one byte. -/
def shortFrame (fin op : Nat) (raw : List Nat) (bit : fin ≤ 1) (nibble : op < 16) (small : raw.length < 126) : Sent :=
  ⟨fin, 0, op, raw.length, [], none, raw, bit, by decide, nibble, .short small, by simp⟩

/-- "Hi" in two fragments, the read timing out before them and a ping between them. -/
theorem messages_whole_fragments :
    let s := Session.begin .client ⟨[.silence, .bytes 1 [1, 72, 137], .bytes 0 [128, 1, 105]], ""⟩ (fun _ => true)
      (fun _ => (0, 0, 0, 0)) (fun _ => 0)
    (transcript .characters 125 s [none, none, some (.text (.name [])), none]).filterMap (heard .characters) =
      [.said .text [72, 105], .ended 1006] := by
  have utf8 : IsUtf8 ([72] ++ [105]) := (wsUtf8_iff _).mp (by decide +kernel)
  have good (fin op : Nat) (raw : List Nat) (bit : fin ≤ 1) (nibble : op < 16) (small : raw.length < 126)
      (taken : (shortFrame fin op raw bit nibble small).refusal 125 = none) :
      Good .client 125 (shortFrame fin op raw bit nibble small) := ⟨taken, rfl⟩
  have first := good 0 1 [72] (by decide) (by decide) (by decide) (by decide)
  have ping := good 1 9 [] (by decide) (by decide) (by decide) (by decide)
  have last := good 1 0 [105] (by decide) (by decide) (by decide) (by decide)
  have half : Half .client 125 [_, _] .text [72] := .control (.first first rfl rfl) ping (.inl rfl)
  have complete : Complete .client 125 [_, _, _] [.said .text [72, 105]] :=
    .fragments half last rfl rfl (by decide) (fun _ => utf8) .nil
  have later : Arrives .client 125 [.bytes 1 [1, 72, 137], .bytes 0 [128, 1, 105]] [.said .text [72, 105], .ended 1006] 0 :=
    .lost (by decide) (.inl rfl) complete (show At .client 125 [] none from rfl)
  exact (((messages_whole .characters 125).2 _ _ 1 rfl (.quiet rfl rfl .nil later)).2 _).2 (by decide)

/-- A message of four gigabytes is refused where `max_message` admits it. -/
theorem four_gigabytes_refused :
    let s := Session.begin .client ⟨[.bytes 130 ([127, 0, 0, 0, 1, 0, 0, 0, 0] ++ List.replicate (2 ^ 32) 0)], ""⟩
      (fun _ => true) (fun _ => (0, 0, 0, 0)) (fun _ => 0)
    (∃ f : Sent, s.conn.coming = f.text ∧ f.op = 2 ∧ f.fin = 1 ∧ f.mask = none ∧ f.payload.length = 2 ^ 32) ∧
      ∃ why, (wsReceive .characters s (2 ^ 32)).1 = .one (.close 1009 why) := by
  have size : (List.replicate (2 ^ 32) (0 : UInt8)).length = 2 ^ 32 := List.length_replicate
  generalize List.replicate (2 ^ 32) (0 : UInt8) = zeros at size
  have length : Length 127 [0, 0, 0, 1, 0, 0, 0, 0] (zeros.map UInt8.toNat).length := by
    rw [List.length_map, size]
    exact .eight (a := 0) (b := 0) (c := 0) (d := 1) (e := 0) (f := 0) (g := 0) (h := 0) (by decide) (by decide)
  let f : Sent := ⟨1, 0, 2, 127, [0, 0, 0, 1, 0, 0, 0, 0], none, zeros.map UInt8.toNat, by decide, by decide, by decide,
    length, by simp⟩
  have refused : f.refusal (2 ^ 32) = some 1009 := by
    have past : 2 ^ 32 < f.raw.length ∨ 2 ^ 32 ≤ f.raw.length := .inr (by
      show 2 ^ 32 ≤ (zeros.map UInt8.toNat).length
      rw [List.length_map, size])
    rw [Sent.refusal, if_neg (by simp [f, wsOpcode]), if_pos past]
  intro s
  have comes : s.conn.coming = f.text ++ [] := by
    show comingOf [.bytes 130 ([127, 0, 0, 0, 1, 0, 0, 0, 0] ++ zeros)] = f.text ++ []
    simp [comingOf, Sent.text, f]
  obtain ⟨why, s', -, ends⟩ := refused_over (s := s) refused comes
  refine ⟨⟨f, comes.trans (List.append_nil _), rfl, rfl, rfl, ?_⟩, why, ?_⟩
  · rw [f.payload_length]
    exact (List.length_map _).trans size
  · rw [wsReceive, if_neg (by simp [s, Session.begin]), wsNext, ends]

end Cocolog.WebSocket
