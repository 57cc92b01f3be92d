import Cocolog.Syntax.RawWalk
import Cocolog.Syntax.Moves

/-! The loop over the clauses of a text, `coco_reader_resync` after each that is refused. It
comes to the end of the text, and each clause begins past the one before. -/

set_option linter.all false

namespace Cocolog.Syntax
open Text Lib

variable {F : Type} {M : Machine F} {ct : Classes} {s : Bytes} {p q : Nat}

/- The walk goes on. -/

theorem rawQuoted_bounds {qq : Int} {turns : Nat} (some_ : 0 ≤ qq) (closes : rawQuoted s qq turns p = some q) :
    p < q ∧ q ≤ s.length := by
  induction turns generalizing p with
  | zero => cases closes
  | succ turns ih =>
    have further : ∀ {k}, p < k → rawQuoted s qq turns k = some q → p < q ∧ q ≤ s.length := by
      intro k later closes
      have := ih closes
      omega
    rw [rawQuoted] at closes
    rcases ite_eq_iff.mp closes with ⟨_, closes⟩ | ⟨inside, closes⟩
    · cases closes
    have lt : p < s.length := by
      by_contra past
      exact inside (peek_eq_end.mpr (by omega))
    rcases ite_eq_iff.mp closes with ⟨_, closes⟩ | ⟨_, closes⟩
    · cases closes
      exact ⟨by omega, lt⟩
    rcases ite_eq_iff.mp closes with ⟨_, closes⟩ | ⟨_, closes⟩
    · rcases ite_eq_iff.mp closes with ⟨_, closes⟩ | ⟨_, closes⟩
      · cases closes
      rcases ite_eq_iff.mp closes with ⟨_, closes⟩ | ⟨_, closes⟩
      · have after : p + 2 ≤ (if peek s (p + 1) = 120 then asciiEnd s (fun b => (hexDigit b).isSome) (p + 2)
            else asciiEnd s (fun b => 48 ≤ b ∧ b ≤ 55) (p + 2)) := by
          split
          · exact le_asciiEnd s _ _
          · exact le_asciiEnd s _ _
        dsimp only at closes
        generalize (if peek s (p + 1) = 120 then asciiEnd s (fun b => (hexDigit b).isSome) (p + 2)
          else asciiEnd s (fun b => 48 ≤ b ∧ b ≤ 55) (p + 2)) = f at after closes
        rcases ite_eq_iff.mp closes with ⟨_, closes⟩ | ⟨_, closes⟩
        · cases closes
        rcases ite_eq_iff.mp closes with ⟨here, closes⟩ | ⟨_, closes⟩
        · cases closes
          have := lt_of_peek here some_
          omega
        · exact further (by omega) closes
      · exact further (by omega) closes
    · exact further (by omega) closes

theorem rawNumber_bounds {at0 : Nat} (taken : rawNumber ct s at0 p = .taken q) : p < q ∧ q ≤ s.length := by
  have lt_of : ∀ {k : Nat}, peek s k ≠ -1 → k < s.length := by
    intro k some_
    by_contra past
    exact some_ (peek_eq_end.mpr (by omega))
  rw [rawNumber] at taken
  split at taken
  · cases taken
  · split at taken
    · split at taken
      · cases taken
      · rename_i first
        have := lt_of first
        split at taken
        · rename_i escape
          have := lt_of escape.2
          cases taken
          omega
        · split at taken
          · rename_i double
            have := lt_of_peek double.2 (by decide)
            cases taken
            omega
          · cases taken
            omega
    · split at taken
      · split at taken
        · cases taken
        · rename_i first
          have := lt_of first
          split at taken
          · cases taken
            omega
          · cases taken
      · cases taken

/-- What came of a turn of the walk is past where it was. -/
def Walk.Moved (s : Bytes) (w : Walk) (x : Walk ⊕ Walked) : Prop :=
  x.elim (fun w' => w.p < w'.p ∧ w'.p ≤ s.length) fun done => w.p < done.pos ∧ done.pos ≤ s.length

theorem Walk.moved_ite {w : Walk} {c : Prop} [Decidable c] {x y : Walk ⊕ Walked} (yes : c → w.Moved s x)
    (no : ¬c → w.Moved s y) : w.Moved s (if c then x else y) := by
  split
  · rename_i holds
    exact yes holds
  · rename_i fails
    exact no fails

/-- A turn of the walk goes on in the text, or ends past where it was. -/
theorem rawStep_bounds (ct : Classes) (chars : Bool) {w : Walk} (lt : w.p < s.length) :
    (rawStep ct s chars w).elim (fun w' => w.p < w'.p ∧ w'.p ≤ s.length) fun done => w.p < done.pos ∧ done.pos ≤ s.length := by
  have token : w.token.p = w.p := by
    rw [Walk.token]
    split
    · rfl
    · rfl
  have pass : ∀ {q}, w.p < q → q ≤ s.length → w.Moved s (.inl (w.pass s q)) := by
    intro q later le
    have at_ : (w.pass s q).p = q := by
      rw [Walk.pass]
      split
      · rfl
      · rfl
    exact ⟨by rwa [at_], by rwa [at_]⟩
  have symbols : ∀ {q}, q ≤ s.length → q ≤ rawSymbols ct s q ∧ rawSymbols ct s q ≤ s.length := fun le =>
    ⟨le_runEnd ct s isSymbol 2 _, runEnd_le (by decide) le⟩
  change w.Moved s (rawStep ct s chars w)
  rw [rawStep]
  refine Walk.moved_ite (fun open_ => ?_) fun _ => ?_
  · refine Walk.moved_ite (fun _ => ⟨lt, Nat.le_refl _⟩) fun closed => ?_
    have second := lt_of_peek open_.2 (by decide)
    have := blockEnd_bounds (s := s) (p := w.p + 2) (by omega)
    have := blockEnd_mark (s := s) (p := w.p + 2) (by omega) closed
    dsimp only [Walk.Moved, Sum.elim_inl, Walk.comment]
    omega
  refine Walk.moved_ite (fun percent => ?_) fun _ => ?_
  · have moves : w.p < lineEnd s w.p := by
      refine lt_stride ?_ (by omega)
      rw [percent]
      decide
    exact ⟨moves, (lineEnd_bounds (Nat.le_of_lt lt)).2⟩
  refine Walk.moved_ite (fun _ => pass (Nat.lt_succ_self _) lt) fun _ => ?_
  refine Walk.moved_ite (fun high => ?_) fun _ => ?_
  · have width := cpAt_width lt
    refine Walk.moved_ite (fun symbol => ?_) fun _ => ?_
    · rw [peek, if_neg (by omega)] at high
      exact ⟨lt_runEnd (symbol_moves lt (by omega) symbol) lt, (symbols (Nat.le_of_lt lt)).2⟩
    refine Walk.moved_ite (fun _ => ?_) fun _ => ?_
    · dsimp only [Walk.Moved, Sum.elim_inl, Walk.take]
      omega
    · exact pass (by omega) (by omega)
  refine Walk.moved_ite (fun _ => ?_) fun _ => ?_
  · refine Walk.moved_ite (fun _ => ?_) fun _ => symbols (q := w.p + 1) lt
    dsimp only
    split
    · exact ⟨Nat.lt_succ_self _, lt⟩
    · exact ⟨Nat.lt_succ_self _, lt⟩
  refine Walk.moved_ite (fun symbol => ?_) fun _ => ?_
  · refine ⟨lt_runEnd ?_ lt, (symbols (Nat.le_of_lt lt)).2⟩
    rw [runStep, if_pos symbol]
    decide
  refine Walk.moved_ite (fun _ => ?_) fun _ => ⟨Nat.lt_succ_self _, lt⟩
  split
  · rename_i q taken
    have taken : rawNumber ct s w.token.at0 w.p = .taken q := by
      split at taken
      · exact taken
      · cases taken
    exact rawNumber_bounds taken
  · exact ⟨lt, Nat.le_refl _⟩
  · split
    · exact ⟨lt, Nat.le_refl _⟩
    · rename_i q closes
      have := rawQuoted_bounds (by omega) closes
      dsimp only [Walk.Moved, Sum.elim_inl, Walk.take]
      omega

theorem rawLoop_bounds (ct : Classes) (chars : Bool) (turns : Nat) (w : Walk) (le : w.p ≤ s.length) :
    w.p ≤ (rawLoop ct s chars turns w).pos ∧ (rawLoop ct s chars turns w).pos ≤ s.length ∧
      (w.p < s.length → w.p < (rawLoop ct s chars turns w).pos) := by
  have ended : ∀ w, (rawEnd s w).pos = s.length := by
    intro w
    rw [rawEnd]
    split
    · rfl
    · rfl
  induction turns generalizing w with
  | zero =>
    rw [rawLoop, ended]
    exact ⟨le, Nat.le_refl _, id⟩
  | succ turns ih =>
    rw [rawLoop]
    split
    · rw [ended]
      exact ⟨le, Nat.le_refl _, id⟩
    · rename_i inside
      have step := rawStep_bounds (s := s) ct chars (w := w) (by omega)
      generalize rawStep ct s chars w = x at step
      cases x with
      | inl w' =>
        dsimp only [Sum.elim_inl] at step ⊢
        obtain ⟨later, le', -⟩ := ih w' step.2
        exact ⟨by omega, le', fun _ => by omega⟩
      | inr done => exact ⟨Nat.le_of_lt step.1, step.2, fun _ => step.1⟩

/-- The walk from a place in the text goes past it. -/
theorem rawWalk_bounds (ct : Classes) (chars : Bool) {from_ : Nat} (lt : from_ < s.length) :
    from_ < (rawWalk ct s from_ chars).pos ∧ (rawWalk ct s from_ chars).pos ≤ s.length := by
  have bounds := rawLoop_bounds (s := s) ct chars (s.length - from_) ⟨min from_ s.length, false, [], s.length⟩ (Nat.min_le_right _ _)
  rw [rawWalk]
  dsimp only at bounds
  rw [Nat.min_eq_left (Nat.le_of_lt lt)] at bounds ⊢
  exact ⟨bounds.2.2 lt, bounds.2.1⟩

/- The loop. -/

/-- The loop over a text's clauses: its reader, and where each clause read or refused began. -/
structure Load (F : Type) where
  reader : Reader F
  starts : List Nat
  ended : Bool

/-- One call of `coco_read_clause`, and of `coco_reader_resync` when it answers -1; `none` when the
parser is out of turns. -/
def Load.call (M : Machine F) (s : Bytes) (l : Load F) : Option (Load F) :=
  if l.ended then some l
  else
    (readClause M s l.reader).map fun answer =>
      match answer with
      | (.read _, r) => { l with reader := r, starts := l.starts ++ [r.cstart] }
      | (.refused, r) => { l with reader := r.resync M s, starts := l.starts ++ [r.cstart] }
      | (.eof, r) => { l with reader := r, ended := true }

/-- The loop after so many calls, each under the operators and flags that hold by then. -/
def load (Ms : Nat → Machine F) (s : Bytes) : (calls : Nat) → Option (Load F)
  | 0 => some ⟨Reader.init (Ms 0) s, [], false⟩
  | calls + 1 => (load Ms s calls).bind fun l => l.call (Ms (calls + 1)) s

/-- What a call answers to a reader: the clause's start is the token in hand, and the next token is past it. -/
inductive Reads (s : Bytes) (r : Reader F) : Clause F × Reader F → Prop where
  | eof (live : r.Live s) (last : r.tok.isEof = true) : Reads s r (.eof, r.begun)
  | read (t : Term F) {r' : Reader F} (start : r'.cstart = r.tstart) (past : r.tstart < r'.tstart) (held : r'.Live s ∨ r'.Broken s) :
      Reads s r (.read t, r')
  | refused {r' : Reader F} (start : r'.cstart = r.tstart) (inside : r.tstart < s.length)
      (opened : Opened s (r.tstart + 1) 0 r'.ecomment) (passed : ∀ t ∈ r'.passed, t.Inside s) : Reads s r (.refused, r')

theorem readClause_reads (M : Machine F) {r : Reader F} (held : r.Live s ∨ r.Broken s) :
    ∃ answer, readClause M s r = some answer ∧ Reads s r answer := by
  rw [readClause]
  rcases held with live | broken
  · rw [live.reads, if_neg (by decide)]
    split
    · rename_i last
      exact ⟨_, rfl, .eof live last⟩
    · rename_i some_
      have some_ : r.tok.isEof = false := by simpa using some_
      have start := live.past some_
      have inside := live.inside
      have runs := parseTerm_runs M s (s.length + 2) 1200 r.begun live
      generalize parseTerm M s (s.length + 2) 1200 r.begun = x at runs
      cases runs with
      | ok comes =>
        rename_i b
        obtain ⟨t, r'⟩ := b
        obtain ⟨live', later⟩ := live.moves comes.moves
        dsimp only at live' later ⊢
        split
        · rename_i full
          have inner : r'.tok.isEof = false := by
            cases token : r'.tok with
            | full => rfl
            | _ =>
              rw [token] at full
              cases full
          obtain ⟨past, held⟩ := live'.pass_advance (M := M) inner
          exact ⟨_, rfl, .read t.1 comes.keeps (Nat.lt_of_le_of_lt later past) (held.imp And.left id)⟩
        · refine ⟨_, rfl, .refused comes.keeps (by omega) (.from_ (by omega) live'.opened) live'.pass⟩
      | failed stops keeps =>
        obtain ⟨opened, passed⟩ := stops.leaves live
        exact ⟨_, rfl, .refused keeps (by omega) opened passed⟩
      | spent many =>
        have := Scanner.left_le s r.begun.toScanner
        omega
  · rw [if_pos broken.fails]
    exact ⟨_, rfl, .refused rfl broken.inside broken.opened broken.passed⟩

/-- What holds between two calls. -/
structure Load.Sound (s : Bytes) (l : Load F) : Prop where
  sorted : l.starts.Pairwise (· < ·)
  before : ∀ a ∈ l.starts, a < l.reader.tstart
  held : l.reader.Live s ∨ l.reader.Broken s
  atEnd : l.ended = true → l.reader.Live s ∧ l.reader.tok.isEof = true

theorem Reader.init_held (M : Machine F) (s : Bytes) : (Reader.init M s).Live s ∨ (Reader.init M s).Broken s := by
  obtain ⟨-, on⟩ := Scanner.advance_onward (s := s) (z := ⟨0, .eof, false, 0, none, 0, []⟩) M rfl (Nat.zero_le 0) (Nat.zero_le _)
    (.refl s 0 0) fun t no => (nomatch no)
  exact on.imp And.left id

/-- The recovery comes to a token past the clause's start. -/
theorem Reader.resync_held (M : Machine F) {r : Reader F} {lo : Nat} (start : r.cstart = lo) (inside : lo < s.length)
    (opened : Opened s (lo + 1) 0 r.ecomment) (passed : ∀ t ∈ r.passed, t.Inside s) :
    lo < (r.resync M s).tstart ∧ ((r.resync M s).Live s ∨ (r.resync M s).Broken s) := by
  obtain ⟨past, le⟩ := rawWalk_bounds M.classes false (start.symm ▸ inside : r.cstart < s.length)
  obtain ⟨later, on⟩ := @Scanner.advance_onward _ s
    { r.toScanner with pos := (rawWalk M.classes s r.cstart false).pos, failed := none } (lo + 1) M rfl
    (show lo + 1 ≤ (rawWalk M.classes s r.cstart false).pos by omega) le opened passed
  exact ⟨later, on.imp And.left id⟩

/-- A call ends the load or comes to a token past the clause's start. -/
theorem Load.Sound.call {l : Load F} (M : Machine F) (sound : l.Sound s) :
    ∃ l', l.call M s = some l' ∧ l'.Sound s ∧ (l'.ended = true ∨ l.reader.tstart < l'.reader.tstart) := by
  have push : ∀ {p : Nat} {r : Reader F}, p = l.reader.tstart → l.reader.tstart < r.tstart → (r.Live s ∨ r.Broken s) →
      l.ended = false → Load.Sound s { l with reader := r, starts := l.starts ++ [p] } := by
    rintro p r rfl past held open_
    refine ⟨?_, fun a mem => ?_, held, fun ended => ?_⟩
    · rw [List.pairwise_append]
      exact ⟨sound.sorted, List.pairwise_singleton _ _, fun a mem b is => by
        rw [List.mem_singleton] at is
        rw [is]
        exact sound.before a mem⟩
    · rcases List.mem_append.mp mem with old | new
      · exact Nat.lt_trans (sound.before a old) past
      · rw [List.mem_singleton] at new
        rw [new]
        exact past
    · rw [show l.ended = true from ended] at open_
      cases open_
  rw [Load.call]
  split
  · rename_i ended
    exact ⟨l, rfl, sound, .inl ended⟩
  · rename_i open_
    have open_ : l.ended = false := by simpa using open_
    obtain ⟨answer, is, reads⟩ := readClause_reads M sound.held
    rw [is]
    refine ⟨_, rfl, ?_⟩
    cases reads with
    | eof live last => exact ⟨⟨sound.sorted, sound.before, .inl live, fun _ => ⟨live, last⟩⟩, .inl rfl⟩
    | read t start past held => exact ⟨push start past held open_, .inr past⟩
    | refused start inside opened passed =>
      obtain ⟨past, held⟩ := Reader.resync_held M start inside opened passed
      exact ⟨push start past held open_, .inr past⟩

theorem load_sound (Ms : Nat → Machine F) (s : Bytes) (calls : Nat) :
    ∃ l, load Ms s calls = some l ∧ l.Sound s ∧ (l.ended = true ∨ calls ≤ l.reader.tstart) := by
  induction calls with
  | zero =>
    exact ⟨_, rfl, ⟨.nil, fun a no => (nomatch no), Reader.init_held (Ms 0) s, fun no => (nomatch no)⟩, .inr (Nat.zero_le _)⟩
  | succ calls ih =>
    obtain ⟨l, is, sound, far⟩ := ih
    obtain ⟨l', next, sound', goes⟩ := sound.call (Ms (calls + 1))
    rw [load, is]
    refine ⟨l', next, sound', ?_⟩
    rcases goes with ended | past
    · exact .inl ended
    · rcases far with ended | far
      · have same : l' = l := by
          rw [Load.call, if_pos ended] at next
          exact (Option.some.inj next).symm
        rw [same] at past
        exact absurd past (Nat.lt_irrefl _)
      · exact .inr (by omega)

/-- Loading a text ends at its end, whatever the directives in it do to the operators and the
flags; the clauses read or refused begin each past the one before, and no token read stands outside the text. -/
theorem load_ends (Ms : Nat → Machine F) (s : Bytes) :
    (∀ calls, ∃ l, load Ms s calls = some l ∧ l.starts.Pairwise (· < ·) ∧ (∀ t ∈ l.reader.passed, t.Inside s) ∧
      (l.reader.failed = none → (Passed.mk l.reader.tok l.reader.tstart l.reader.pos).Inside s)) ∧
    ∃ calls l, load Ms s calls = some l ∧ l.ended = true ∧ l.reader.tok.isEof = true ∧ l.reader.tstart = s.length := by
  constructor
  · intro calls
    obtain ⟨l, is, sound, -⟩ := load_sound Ms s calls
    refine ⟨l, is, sound.sorted, ?_, fun reads => ?_⟩
    · rcases sound.held with live | broken
      · exact live.passed
      · exact broken.passed
    · rcases sound.held with live | broken
      · exact ⟨live.starts, live.inside, live.past⟩
      · have fails := broken.fails
        rw [reads] at fails
        cases fails
  · obtain ⟨l, is, sound, far⟩ := load_sound Ms s (s.length + 1)
    have ended : l.ended = true := by
      rcases far with ended | far
      · exact ended
      · rcases sound.held with live | broken
        · have := live.starts
          have := live.inside
          omega
        · have := broken.inside
          omega
    obtain ⟨live, last⟩ := sound.atEnd ended
    exact ⟨s.length + 1, l, is, ended, last, live.last last⟩

end Cocolog.Syntax
