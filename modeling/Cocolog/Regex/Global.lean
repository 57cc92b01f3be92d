import Cocolog.Lib.Loop
import Cocolog.Lib.Spans
import Cocolog.Text.Utf8

/-! The predicates of library(regex) that match more than once: `rx_all`, `rx_split` and
`rx_replace`. The matcher is PCRE2's, asked again from a scan position that each loop
moves on by itself. Memory that would not grow is left out. -/

set_option linter.all false

namespace Cocolog.Regex

open Cocolog.Lib Cocolog.Text

/-- What `pcre2_match` answers: the span of the match and those of its groups, none for a
group that did not take. -/
inductive Answer where
  | noMatch
  | error (code : Int)
  | found (s e : Nat) (groups : List (Option (Nat × Nat)))
deriving Repr, DecidableEq

/-- The matcher over one text and one pattern, by the scan position. -/
abbrev Matcher := Nat → Answer

/-- At each scan position there is no match, or one from there on, inside the text. -/
def Matcher.Answers (len : Nat) (m : Matcher) : Prop :=
  ∀ scan ≤ len, m scan = .noMatch ∨ ∃ s e groups, m scan = .found s e groups ∧ scan ≤ s ∧ s ≤ e ∧ e ≤ len

/-- `coco_m_codes_of`: the characters of some bytes, or the bytes. -/
def codesOf (chars : Bool) (s : Bytes) : List Int := if chars then decode s else s.map fun b => (b.toNat : Int)

/-- `rx_advance`. -/
def rxAdvance (text : Bytes) (pos : Nat) (utf : Bool) : Nat :=
  if text.length ≤ pos then text.length
  else if !utf then pos + 1
  else
    let i := (utf8Get text pos).2
    if i ≤ pos then pos + 1 else i

/-- Where the first scan starts. -/
def startScan (len start : Nat) : Nat := if len < start then len + 1 else start

/-- How `rx_all` and `rx_split` move on after a match that ends at `e`. -/
def nextScan (text : Bytes) (utf : Bool) (scan e : Nat) : Nat :=
  if scan < e then e
  else if text.length ≤ e then text.length + 1
  else rxAdvance text e utf

/- `rx_all`. -/

structure All where
  scan : Nat
  vals : List Bytes := []
  bad : Option Int := none

/-- One turn of the loop of `rx_p_all`. -/
def All.turn (text : Bytes) (utf : Bool) (m : Matcher) (s : All) : Option All :=
  if s.bad.isSome ∨ text.length < s.scan then none
  else match m s.scan with
    | .noMatch => none
    | .error code => some { s with bad := some code }
    | .found st e _ => some { s with vals := s.vals ++ [slice text st e], scan := nextScan text utf s.scan e }

/-- `rx_p_all`. -/
def rxAll (text : Bytes) (utf chars : Bool) (m : Matcher) (start fuel : Nat) :
    Option (Except Int (List (List Int))) :=
  (loop (All.turn text utf m) fuel { scan := startScan text.length start }).map fun s =>
    match s.bad with
    | some code => .error code
    | none => .ok (s.vals.map (codesOf chars))

/- `rx_split`. -/

/-- `matched` is the spans of the matches, which no code reads. -/
structure Split where
  scan : Nat
  prev : Nat := 0
  parts : List Bytes := []
  matched : List (Nat × Nat) := []
  bad : Option Int := none

/-- One turn of the loop of `rx_p_split`. -/
def Split.turn (text : Bytes) (utf : Bool) (m : Matcher) (s : Split) : Option Split :=
  if s.bad.isSome ∨ text.length < s.scan then none
  else match m s.scan with
    | .noMatch => none
    | .error code => some { s with bad := some code }
    | .found st e _ => some { s with
        parts := s.parts ++ [slice text s.prev st]
        matched := s.matched ++ [(st, e)]
        prev := e
        scan := nextScan text utf s.scan e }

/-- The parts with the one after the last match. -/
def Split.ended (text : Bytes) (s : Split) : List Bytes := s.parts ++ [slice text s.prev text.length]

/-- `rx_p_split`. -/
def rxSplit (text : Bytes) (utf chars : Bool) (m : Matcher) (start fuel : Nat) :
    Option (Except Int (List (List Int))) :=
  (loop (Split.turn text utf m) fuel { scan := startScan text.length start }).map fun s =>
    match s.bad with
    | some code => .error code
    | none => .ok ((s.ended text).map (codesOf chars))

/- `rx_replace`. -/

/-- `rx_add_group`: nothing for a group that is not there or did not take. -/
def group (text : Bytes) (s e : Nat) (groups : List (Option (Nat × Nat))) (g : Nat) : Bytes :=
  match (some (s, e) :: groups)[g]? with
  | some (some span) => slice text span.1 span.2
  | _ => []

def isDigit (b : UInt8) : Bool := decide (48 ≤ b.toNat ∧ b.toNat ≤ 57)

/-- The number `$1 .. $99` names, held at 100000. -/
def groupNumber (digits : Bytes) : Nat :=
  digits.foldl (fun g d => min (g * 10 + (d.toNat - 48)) 100000) 0

/-- What `\x` stands for. -/
def escaped (grp : Nat → Bytes) (d : UInt8) : Bytes :=
  if isDigit d then grp (d.toNat - 48)
  else if d = 110 then [10]
  else if d = 116 then [9]
  else if d = 114 then [13]
  else [d]

/-- `rx_expand`, over what is left of the replacement; `named` is `rx_group_number`. -/
def expand (grp : Nat → Bytes) (named : Bytes → Option Nat) : Bytes → Bytes
  | [] => []
  | 38 :: rest => grp 0 ++ expand grp named rest
  | 92 :: d :: rest => escaped grp d ++ expand grp named rest
  | 36 :: 36 :: rest => 36 :: expand grp named rest
  | 36 :: 38 :: rest => grp 0 ++ expand grp named rest
  | 36 :: 123 :: rest =>
    match _closed : rest.dropWhile (· != 125) with
    | [] => 36 :: expand grp named (123 :: rest)
    | _ :: after => ((named (rest.takeWhile (· != 125))).elim [] grp) ++ expand grp named after
  | 36 :: d :: rest =>
    if isDigit d then
      grp (groupNumber (d :: rest.takeWhile isDigit)) ++ expand grp named (rest.dropWhile isDigit)
    else 36 :: expand grp named (d :: rest)
  | c :: rest => c :: expand grp named rest
termination_by rep => rep.length
decreasing_by
  all_goals simp only [List.length_cons]
  all_goals try omega
  · have shorter := (List.dropWhile_suffix (l := rest) (p := (· != 125))).length_le
    rw [_closed, List.length_cons] at shorter
    omega
  · have shorter := (List.dropWhile_suffix (l := rest) (p := isDigit)).length_le
    omega

/-- What the answer is made of: text copied, and matches replaced. No code reads it. -/
inductive Piece where
  | kept (lo hi : Nat)
  | replaced (lo hi : Nat) (by_ : Bytes)

def Piece.span : Piece → Nat × Nat
  | .kept lo hi => (lo, hi)
  | .replaced lo hi _ => (lo, hi)

def Piece.render (text : Bytes) : Piece → Bytes
  | .kept lo hi => slice text lo hi
  | .replaced _ _ by_ => by_

structure Replace where
  scan : Nat
  prev : Nat
  prevMe : Nat := 0
  had : Bool := false
  out : Bytes
  pieces : List Piece
  bad : Option Int := none

namespace Replace

/-- The text before the first scan goes through unchanged. -/
def begin_ (text : Bytes) (start : Nat) : Replace :=
  let prev := if text.length < start then text.length else start
  { scan := startScan text.length start, prev, out := slice text 0 prev, pieces := [.kept 0 prev] }

/-- `rx_buf_put` of text. -/
def copy (text : Bytes) (lo hi : Nat) (s : Replace) : Replace :=
  { s with out := s.out ++ slice text lo hi, pieces := s.pieces ++ [.kept lo hi] }

/-- The match itself: the text before it, then the replacement. -/
def put (text : Bytes) (by_ : Bytes) (st e : Nat) (s : Replace) : Replace :=
  let s := s.copy text s.prev st
  { s with
    out := s.out ++ by_
    pieces := s.pieces ++ [.replaced st e by_]
    prev := e
    prevMe := e
    had := true }

/-- One turn of the loop of `rx_p_replace`. -/
def turn (text rep : Bytes) (utf first : Bool) (named : Bytes → Option Nat) (m : Matcher) (s : Replace) :
    Option Replace :=
  if s.bad.isSome ∨ text.length < s.scan then none
  else match m s.scan with
    | .noMatch => none
    | .error code => some { s with bad := some code }
    | .found st e groups =>
      -- an empty match touching the match before it is not a match
      if st = e ∧ s.had = true ∧ st = s.prevMe then
        if text.length ≤ s.scan then some { s with scan := text.length + 1 }
        else
          let nx := rxAdvance text s.scan utf
          some { s.copy text s.scan nx with scan := nx, prev := nx }
      else
        let s' := s.put text (expand (group text st e groups) named rep) st e
        if first then some { s' with scan := text.length + 1 }
        else if s.scan < e then some { s' with scan := e }
        else if text.length ≤ e then some { s' with scan := text.length + 1 }
        else
          let nx := rxAdvance text e utf
          some { s'.copy text e nx with scan := nx, prev := nx }

/-- The text after the last match. -/
def ended (text : Bytes) (s : Replace) : Replace := s.copy text s.prev text.length

end Replace

/-- `rx_p_replace`. -/
def rxReplace (text rep : Bytes) (utf chars first : Bool) (named : Bytes → Option Nat) (m : Matcher)
    (start fuel : Nat) : Option (Except Int (List Int)) :=
  (loop (Replace.turn text rep utf first named m) fuel (Replace.begin_ text start)).map fun s =>
    match s.bad with
    | some code => .error code
    | none => .ok (codesOf chars (s.ended text).out)

theorem rxAdvance_spec {text : Bytes} {pos : Nat} (utf : Bool) (inside : pos < text.length) :
    pos < rxAdvance text pos utf ∧ rxAdvance text pos utf ≤ text.length := by
  obtain ⟨-, -, -, fits, -⟩ := utf8Get_reads inside
  have on := utf8Get_next text pos
  rw [rxAdvance, if_neg (Nat.not_le_of_lt inside)]
  split
  · omega
  · dsimp only
    split
    · omega
    · omega

theorem nextScan_spec {text : Bytes} {scan e : Nat} (utf : Bool) (le : scan ≤ e) (inside : scan ≤ text.length) :
    scan < nextScan text utf scan e ∧ e ≤ nextScan text utf scan e := by
  rw [nextScan]
  split
  · omega
  · split
    · omega
    · rename_i more
      have moved := rxAdvance_spec utf (Nat.lt_of_not_le more)
      omega

theorem expand_whole (grp : Nat → Bytes) (named : Bytes → Option Nat) : expand grp named [38] = grp 0 := by
  rw [expand, expand, List.append_nil]

theorem group_zero (text : Bytes) (s e : Nat) (groups : List (Option (Nat × Nat))) :
    group text s e groups 0 = slice text s e := rfl

section Loops

variable {text : Bytes} {m : Matcher} (answers : m.Answers text.length) (utf chars : Bool) (start : Nat)

include answers

theorem All.turn_spec {s s' : All} (fine : s.bad = none) (next : s.turn text utf m = some s') :
    s'.bad = none ∧ text.length + 1 - s'.scan < text.length + 1 - s.scan := by
  rw [All.turn, fine] at next
  split at next
  · cases next
  · rename_i going
    have inside : s.scan ≤ text.length := by simpa using going
    rcases answers s.scan inside with none_ | ⟨st, e, groups, is, le, order, -⟩
    · rw [none_] at next
      cases next
    · rw [is] at next
      cases next
      have moved := nextScan_spec utf (Nat.le_trans le order) inside
      exact ⟨rfl, by simp only; omega⟩

theorem rxAll_ends : ∃ vals, Settles (rxAll text utf chars m start) (.ok vals) := by
  have begun : ({ scan := startScan text.length start } : All).bad = none := rfl
  obtain ⟨s, settles, fine, -⟩ := loop_settles (I := fun s : All => s.bad = none) wellFounded_lt
    (fun s => text.length + 1 - s.scan) (fun _ _ fine next => All.turn_spec answers utf fine next) begun
  have ran := settles.map fun s => match s.bad with
    | some code => Except.error code
    | none => Except.ok (s.vals.map (codesOf chars))
  rw [fine] at ran
  exact ⟨_, ran⟩

/-- What the loop of `rx_split` keeps. -/
structure Split.Level (text : Bytes) (m : Matcher) (s : Split) : Prop where
  fine : s.bad = none
  prev_le : s.prev ≤ text.length
  prev_scan : s.scan ≤ text.length → s.prev ≤ s.scan
  lengths : s.parts.length = s.matched.length
  woven : woven s.parts (s.matched.map fun p => slice text p.1 p.2) = slice text 0 s.prev
  matches_ : ∀ p ∈ s.matched, ∃ scan groups, m scan = .found p.1 p.2 groups

theorem Split.Level.turn {s s' : Split} (h : s.Level text m) (next : s.turn text utf m = some s') :
    s'.Level text m ∧ text.length + 1 - s'.scan < text.length + 1 - s.scan := by
  rw [Split.turn, h.fine] at next
  split at next
  · cases next
  · rename_i going
    have inside : s.scan ≤ text.length := by simpa using going
    have behind := h.prev_scan inside
    rcases answers s.scan inside with none_ | ⟨st, e, groups, is, le, order, fits⟩
    · rw [none_] at next
      cases next
    · rw [is] at next
      cases next
      have moved := nextScan_spec utf (Nat.le_trans le order) inside
      refine ⟨⟨rfl, fits, fun _ => moved.2, by simp [h.lengths], ?_, ?_⟩, by simp only; omega⟩
      · rw [List.map_append, List.map_singleton, woven_snoc (by simp [h.lengths]), h.woven,
          slice_join text (Nat.zero_le _) (by omega), slice_join text (Nat.zero_le _) order]
      · intro p mem
        rcases List.mem_append.mp mem with mem | mem
        · exact h.matches_ p mem
        · obtain rfl := List.mem_singleton.mp mem
          exact ⟨s.scan, groups, is⟩

/-- The parts and the matches, taken in turn, are the text. -/
theorem rxSplit_covers : ∃ (parts : List Bytes) (matched : List (Nat × Nat)),
    Settles (rxSplit text utf chars m start) (.ok (parts.map (codesOf chars))) ∧
    parts.length = matched.length + 1 ∧ (∀ p ∈ matched, ∃ scan groups, m scan = .found p.1 p.2 groups) ∧
    woven parts (matched.map fun p => slice text p.1 p.2) = text := by
  have level : ({ scan := startScan text.length start } : Split).Level text m :=
    ⟨rfl, Nat.zero_le _, fun _ => Nat.zero_le _, rfl, (slice_self text 0).symm,
      fun _ mem => absurd mem List.not_mem_nil⟩
  obtain ⟨s, settles, done, -⟩ := loop_settles (I := Split.Level text m) wellFounded_lt
    (fun s => text.length + 1 - s.scan) (fun _ _ h next => Split.Level.turn answers utf h next) level
  have ran := settles.map fun s => match s.bad with
    | some code => Except.error code
    | none => Except.ok ((s.ended text).map (codesOf chars))
  rw [done.fine] at ran
  refine ⟨s.ended text, s.matched, ran, by simp [Split.ended, done.lengths], done.matches_, ?_⟩
  rw [Split.ended, woven_last (by simp [done.lengths]), done.woven, slice_join text (Nat.zero_le _) done.prev_le,
    slice_whole]

variable (rep : Bytes) (first : Bool) (named : Bytes → Option Nat)

/-- A match put in place of its span. -/
def Replaces (text : Bytes) (m : Matcher) (rep : Bytes) (named : Bytes → Option Nat) : Piece → Prop
  | .kept _ _ => True
  | .replaced st e by_ => ∃ scan groups, m scan = .found st e groups ∧ by_ = expand (group text st e groups) named rep

/-- What the loop of `rx_replace` keeps: the pieces run from the text's start to the copy
position, which is the scan position while there is one. -/
structure Replace.Level (text : Bytes) (m : Matcher) (rep : Bytes) (named : Bytes → Option Nat) (s : Replace) :
    Prop where
  fine : s.bad = none
  prev_le : s.prev ≤ text.length
  prev_scan : s.scan ≤ text.length → s.prev = s.scan
  spans : Consecutive 0 s.prev (s.pieces.map Piece.span)
  out : s.out = s.pieces.flatMap (Piece.render text)
  replaces : ∀ p ∈ s.pieces, Replaces text m rep named p

namespace Replace.Level

variable {rep : Bytes} {named : Bytes → Option Nat} {s s' : Replace}

omit answers

theorem begin_ (text : Bytes) (from_ : Nat) : (Replace.begin_ text from_).Level text m rep named := by
  refine ⟨rfl, ?_, ?_, ⟨rfl, Nat.zero_le _, rfl⟩, (List.append_nil _).symm, ?_⟩
  · simp only [Replace.begin_]
    split <;> omega
  · simp only [Replace.begin_, startScan]
    split <;> omega
  · intro p mem
    obtain rfl := List.mem_singleton.mp mem
    trivial

/-- Text copied from the copy position on, which moves with it. -/
theorem copy (h : s.Level text m rep named) {lo hi k : Nat} (at_ : lo = s.prev) (le : lo ≤ hi)
    (fits : hi ≤ text.length) (scans : k ≤ text.length → hi = k) :
    ({ s.copy text lo hi with scan := k, prev := hi } : Replace).Level text m rep named := by
  subst at_
  refine ⟨h.fine, fits, scans, ?_, ?_, ?_⟩
  · simp only [Replace.copy, List.map_append, List.map_singleton]
    exact consecutive_snoc h.spans le
  · simp only [Replace.copy, h.out, List.flatMap_append, List.flatMap_singleton]
    rfl
  · intro p mem
    rcases List.mem_append.mp mem with mem | mem
    · exact h.replaces p mem
    · obtain rfl := List.mem_singleton.mp mem
      trivial

/-- A match replaced, the text before it copied. -/
theorem put (h : s.Level text m rep named) {st e k at_ : Nat} {groups : List (Option (Nat × Nat))}
    (is : m at_ = .found st e groups) (le : s.prev ≤ st) (order : st ≤ e) (fits : e ≤ text.length)
    (scans : k ≤ text.length → e = k) :
    ({ s.put text (expand (group text st e groups) named rep) st e with scan := k } : Replace).Level text m rep named := by
  have before := h.copy (k := text.length + 1) rfl le (by omega) (fun past => absurd past (by omega))
  refine ⟨h.fine, fits, scans, ?_, ?_, ?_⟩
  · simp only [Replace.put, List.map_append, List.map_singleton]
    exact consecutive_snoc before.spans order
  · have out := before.out
    simp only at out
    simp only [Replace.put, out, List.flatMap_append, List.flatMap_singleton]
    rfl
  · intro p mem
    rcases List.mem_append.mp mem with mem | mem
    · exact before.replaces p mem
    · obtain rfl := List.mem_singleton.mp mem
      exact ⟨at_, groups, is, rfl⟩

end Replace.Level

theorem Replace.Level.turn {s s' : Replace} (h : s.Level text m rep named)
    (next : s.turn text rep utf first named m = some s') :
    s'.Level text m rep named ∧ text.length + 1 - s'.scan < text.length + 1 - s.scan := by
  rw [Replace.turn] at next
  split at next
  · cases next
  · rename_i going
    have inside : s.scan ≤ text.length := by simpa [h.fine] using going
    have here := h.prev_scan inside
    rcases answers s.scan inside with none_ | ⟨st, e, groups, is, le, order, fits⟩
    · rw [none_] at next
      cases next
    · rw [is] at next
      simp only at next
      split at next
      · split at next
        · cases next
          exact ⟨⟨h.fine, h.prev_le, fun past => absurd past (by simp), h.spans, h.out, h.replaces⟩,
            by simp only; omega⟩
        · rename_i more
          cases next
          have moved := rxAdvance_spec utf (Nat.lt_of_not_le more)
          exact ⟨h.copy here.symm (by omega) moved.2 fun _ => rfl, by simp only; omega⟩
      · split at next
        · cases next
          exact ⟨h.put is (by omega) order fits fun past => absurd past (by simp), by simp only; omega⟩
        · split at next
          · cases next
            exact ⟨h.put is (by omega) order fits fun _ => rfl, by simp only; omega⟩
          · split at next
            · cases next
              exact ⟨h.put is (by omega) order fits fun past => absurd past (by simp), by simp only; omega⟩
            · rename_i more
              cases next
              have moved := rxAdvance_spec utf (Nat.lt_of_not_le more)
              have put := h.put (k := text.length + 1) is (by omega) order fits fun past => absurd past (by simp)
              exact ⟨put.copy rfl (by omega) moved.2 fun _ => rfl, by simp only; omega⟩

/-- The answer is the text cut into pieces that follow one another, the matches among them
replaced. -/
theorem rxReplace_covers : ∃ pieces : List Piece,
    Settles (rxReplace text rep utf chars first named m start)
      (.ok (codesOf chars (pieces.flatMap (Piece.render text)))) ∧
    Consecutive 0 text.length (pieces.map Piece.span) ∧ ∀ p ∈ pieces, Replaces text m rep named p := by
  obtain ⟨s, settles, done, -⟩ := loop_settles (I := Replace.Level text m rep named) wellFounded_lt
    (fun s => text.length + 1 - s.scan)
    (fun _ _ h next => Replace.Level.turn answers utf rep first named h next) (Replace.Level.begin_ text start)
  have whole := done.copy (k := text.length + 1) rfl done.prev_le (Nat.le_refl _)
    fun past => absurd past (by omega)
  have ran := settles.map fun s => match s.bad with
    | some code => Except.error code
    | none => Except.ok (codesOf chars (s.ended text).out)
  rw [done.fine] at ran
  have out : (s.ended text).out = (s.ended text).pieces.flatMap (Piece.render text) := whole.out
  rw [out] at ran
  exact ⟨_, ran, whole.spans, whole.replaces⟩

/-- With `&` for a replacement each piece is the text it stands for. -/
theorem rxReplace_whole : Settles (rxReplace text [38] utf chars first named m start) (.ok (codesOf chars text)) := by
  obtain ⟨pieces, ran, spans, replaces⟩ := rxReplace_covers answers utf chars start [38] first named
  have each : ∀ p ∈ pieces, p.render text = slice text p.span.1 p.span.2 := by
    intro p mem
    cases p with
    | kept lo hi => rfl
    | replaced st e by_ =>
      obtain ⟨scan, groups, -, rfl⟩ := replaces _ mem
      exact expand_whole _ named
  have same : pieces.flatMap (Piece.render text) = text := by
    have joined := consecutive_slices text spans
    rw [List.flatMap_map, slice_whole] at joined
    rw [List.flatMap_congr each, joined]
  rw [same] at ran
  exact ran

end Loops

/-- Over a matcher that answers at each scan position, `rx_all` ends, the parts `rx_split`
gives and the matches between them are the text from its first byte, `rx_replace` copies
what is outside the matches once, and with `&` gives the text back. -/
theorem global_operations_cover (text : Bytes) (m : Matcher) (answers : m.Answers text.length) (utf chars : Bool)
    (start : Nat) :
    (∃ vals, Settles (rxAll text utf chars m start) (.ok vals)) ∧
    (∃ (parts : List Bytes) (matched : List (Nat × Nat)),
      Settles (rxSplit text utf chars m start) (.ok (parts.map (codesOf chars))) ∧
      parts.length = matched.length + 1 ∧ (∀ p ∈ matched, ∃ scan groups, m scan = .found p.1 p.2 groups) ∧
      woven parts (matched.map fun p => slice text p.1 p.2) = text) ∧
    ∀ (first : Bool) (named : Bytes → Option Nat),
      (∀ rep, ∃ pieces : List Piece,
        Settles (rxReplace text rep utf chars first named m start)
          (.ok (codesOf chars (pieces.flatMap (Piece.render text)))) ∧
        Consecutive 0 text.length (pieces.map Piece.span) ∧ ∀ p ∈ pieces, Replaces text m rep named p) ∧
      Settles (rxReplace text [38] utf chars first named m start) (.ok (codesOf chars text)) :=
  ⟨rxAll_ends answers utf chars start, rxSplit_covers answers utf chars start, fun first named =>
    ⟨fun rep => rxReplace_covers answers utf chars start rep first named,
      rxReplace_whole answers utf chars start first named⟩⟩

/-- `a*` over `ba`: empty at 0, the letter at 1, empty at the end. -/
def starred : Matcher
  | 0 => .found 0 0 []
  | 1 => .found 1 2 []
  | 2 => .found 2 2 []
  | _ => .noMatch

theorem global_operations_cover_starred :
    Matcher.Answers 2 starred ∧
      Settles (rxReplace [98, 97] [38] false false false (fun _ => none) starred 0) (.ok [98, 97]) := by
  have answers : Matcher.Answers 2 starred := by
    intro scan le
    match scan, le with
    | 0, _ => exact .inr ⟨0, 0, [], rfl, by decide, by decide, by decide⟩
    | 1, _ => exact .inr ⟨1, 2, [], rfl, by decide, by decide, by decide⟩
    | 2, _ => exact .inr ⟨2, 2, [], rfl, by decide, by decide, by decide⟩
    | k + 3, _ => exact .inl rfl
  exact ⟨answers, ((global_operations_cover [98, 97] starred answers false false 0).2.2 false fun _ => none).2⟩

end Cocolog.Regex
