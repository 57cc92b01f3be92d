import Mathlib.Logic.Relation
import Cocolog.Syntax.Progress

/-! The parser over the scanner. It passes one token after another, none of them the end of the
text and none a full stop, and needs no more turns than there are tokens left. -/

set_option linter.all false

namespace Cocolog.Syntax
open Text Lib

variable {F : Type} {M : Machine F} {s : Bytes} {z z' : Scanner F}

/-- A token stands in the text, and is the end of it or takes some of its bytes. -/
def Passed.Inside (s : Bytes) (t : Passed F) : Prop := t.lo ≤ t.hi ∧ t.hi ≤ s.length ∧ (t.tok.isEof = false → t.lo < t.hi)

/-- A scanner with a token in hand. -/
structure Scanner.Live (s : Bytes) (z : Scanner F) : Prop where
  reads : z.failed = none
  starts : z.tstart ≤ z.pos
  inside : z.pos ≤ s.length
  past : z.tok.isEof = false → z.tstart < z.pos
  last : z.tok.isEof = true → z.tstart = s.length
  opened : Opened s (z.tstart + 1) 0 z.ecomment
  passed : ∀ t ∈ z.passed, t.Inside s

/-- A scanner whose token did not read. -/
structure Scanner.Broken (s : Bytes) (z : Scanner F) : Prop where
  fails : z.failed.isSome = true
  inside : z.tstart < s.length
  opened : Opened s (z.tstart + 1) 0 z.ecomment
  passed : ∀ t ∈ z.passed, t.Inside s

/-- A bound on the tokens left. -/
def Scanner.left (s : Bytes) (z : Scanner F) : Nat := if z.tok.isEof then 0 else s.length - z.pos + 1

theorem Scanner.left_le (s : Bytes) (z : Scanner F) : z.left s ≤ s.length + 1 := by
  rw [left]
  split
  · omega
  · omega

/-- From a place in the text the scanner comes to a token or to one that does not read. -/
theorem Scanner.advance_onward {lo : Nat} (M : Machine F) (reads : z.failed = none) (before : lo ≤ z.pos) (inside : z.pos ≤ s.length)
    (pending : Opened s lo 0 z.ecomment) (passed : ∀ t ∈ z.passed, t.Inside s) :
    lo ≤ (z.advance M s).tstart ∧ ((z.advance M s).Live s ∧ z.pos ≤ (z.advance M s).tstart ∨ (z.advance M s).Broken s) := by
  have on := nextToken_onward M.doubles M.classes M.textChars before inside pending
  rw [advance]
  dsimp only
  split
  · rename_i tok q read
    obtain ⟨after, starts, le, past, last⟩ := on.read tok q read
    exact ⟨on.begins, .inl ⟨⟨reads, starts, le, past, last, on.opened, passed⟩, after⟩⟩
  · rename_i f no
    exact ⟨on.begins, .inr ⟨rfl, on.failed f no, on.opened, passed⟩⟩

/-- One token passed. -/
structure Step (M : Machine F) (s : Bytes) (z z' : Scanner F) : Prop where
  some_ : z.tok.isEof = false
  inner : z.tok.isFull = false
  is : z' = z.pass.advance M s
  reads : z'.failed = none

abbrev Moves (M : Machine F) (s : Bytes) : Scanner F → Scanner F → Prop := Relation.ReflTransGen (Step M s)

namespace Scanner.Live

theorem pass (live : z.Live s) : ∀ t ∈ z.pass.passed, t.Inside s := by
  intro t mem
  rcases List.mem_append.mp mem with old | new
  · exact live.passed t old
  · rw [List.mem_singleton] at new
    rw [new]
    exact ⟨live.starts, live.inside, live.past⟩

theorem pass_advance (live : z.Live s) (some_ : z.tok.isEof = false) :
    z.tstart < (z.pass.advance M s).tstart ∧ ((z.pass.advance M s).Live s ∧ z.pos ≤ (z.pass.advance M s).tstart ∨ (z.pass.advance M s).Broken s) := by
  have past := live.past some_
  exact advance_onward (z := z.pass) M live.reads past live.inside live.opened live.pass

theorem step (live : z.Live s) (step : Step M s z z') : z'.Live s ∧ z.tstart < z'.tstart ∧ z.pos ≤ z'.tstart ∧ z'.left s < z.left s := by
  obtain ⟨later, live' | broken⟩ := live.pass_advance (M := M) step.some_
  · rw [← step.is] at later live'
    obtain ⟨live', after⟩ := live'
    refine ⟨live', later, after, ?_⟩
    have inside := live'.inside
    rw [left, left, step.some_, if_neg Bool.false_ne_true]
    split
    · omega
    · rename_i other
      have := live'.past (Bool.not_eq_true _ ▸ other)
      omega
  · have fails := broken.fails
    rw [← step.is, step.reads] at fails
    cases fails

theorem moves (live : z.Live s) (moves : Moves M s z z') : z'.Live s ∧ z.tstart ≤ z'.tstart := by
  induction moves with
  | refl => exact ⟨live, Nat.le_refl _⟩
  | tail _ step ih =>
    obtain ⟨live', later, -⟩ := ih.1.step step
    exact ⟨live', by omega⟩

end Scanner.Live

/-- The parser refuses: at a token it does not want, or at one that does not read. -/
inductive Refused (M : Machine F) (s : Bytes) (z : Scanner F) : Scanner F → Prop where
  | here {w : Scanner F} (moves : Moves M s z w) (what : String) : Refused M s z (w.fail what)
  | token {w : Scanner F} (moves : Moves M s z w) (some_ : w.tok.isEof = false) (fails : (w.pass.advance M s).failed.isSome = true) :
      Refused M s z (w.pass.advance M s)

theorem Refused.after {w : Scanner F} (moves : Moves M s z w) (stops : Refused M s w z') : Refused M s z z' := by
  cases stops with
  | here later what => exact .here (moves.trans later) what
  | token later some_ fails => exact .token (moves.trans later) some_ fails

/-- What is left for the next clause when one is refused. -/
theorem Refused.leaves (live : z.Live s) (stops : Refused M s z z') :
    Opened s (z.tstart + 1) 0 z'.ecomment ∧ ∀ t ∈ z'.passed, t.Inside s := by
  cases stops with
  | here moves what =>
    obtain ⟨live', later⟩ := live.moves moves
    exact ⟨.from_ (by omega) live'.opened, live'.pass⟩
  | token moves some_ fails =>
    obtain ⟨live', later⟩ := live.moves moves
    obtain ⟨after, live'' | broken⟩ := live'.pass_advance (M := M) some_
    · exact ⟨.from_ (by omega) live''.1.opened, live''.1.passed⟩
    · exact ⟨.from_ (by omega) broken.opened, broken.passed⟩

/-- The reader comes on by `k` tokens or more. -/
structure Comes (M : Machine F) (s : Bytes) (k : Nat) (r r' : Reader F) : Prop where
  moves : Moves M s r.toScanner r'.toScanner
  live : r'.Live s
  fewer : r'.left s + k ≤ r.left s
  keeps : r'.cstart = r.cstart

namespace Comes

variable {k k' : Nat} {r r' r'' : Reader F}

theorem trans (first : Comes M s k r r') (then_ : Comes M s k' r' r'') : Comes M s (k + k') r r'' where
  moves := first.moves.trans then_.moves
  live := then_.live
  fewer := by
    have := first.fewer
    have := then_.fewer
    omega
  keeps := then_.keeps.trans first.keeps

theorem less (le : k' ≤ k) (comes : Comes M s k r r') : Comes M s k' r r' :=
  ⟨comes.moves, comes.live, by have := comes.fewer; omega, comes.keeps⟩

end Comes

/-- What a parser with `n` turns answers at `r`: on by `k` tokens, refused on its way, or out of turns
at `n` tokens. -/
inductive Runs {β : Type} (M : Machine F) (s : Bytes) (reader : β → Reader F) (k n : Nat) (r : Reader F) : Except (Stop F) β → Prop where
  | ok {b : β} (comes : Comes M s k r (reader b)) : Runs M s reader k n r (.ok b)
  | failed {r' : Reader F} (stops : Refused M s r.toScanner r'.toScanner) (keeps : r'.cstart = r.cstart) :
      Runs M s reader k n r (.error (.failed r'))
  | spent (many : n ≤ r.left s) : Runs M s reader k n r (.error .spent)

namespace Runs

variable {β γ : Type} {reader : β → Reader F} {reader' : γ → Reader F} {k k' n n' m j : Nat} {r r' : Reader F}

theorem bind {i l : Nat} {x : Except (Stop F) β} {f : β → Except (Stop F) γ} (first : Runs M s reader k n r x)
    (then_ : ∀ b, Comes M s k r (reader b) → Runs M s reader' i l (reader b) (f b)) (turns : m ≤ n) (turns' : m ≤ l + k)
    (tokens : j ≤ k + i) : Runs M s reader' j m r (x >>= f) := by
  cases first with
  | ok comes =>
    rename_i b
    have step := then_ b comes
    change Runs M s reader' j m r (f b)
    generalize f b = y at step
    cases step with
    | ok later => exact .ok ((comes.trans later).less tokens)
    | failed stops keeps => exact .failed (stops.after comes.moves) (keeps.trans comes.keeps)
    | spent many =>
      have := comes.fewer
      exact .spent (by omega)
  | failed stops keeps => exact .failed stops keeps
  | spent many => exact .spent (by omega)

/-- The parser's own fields are not read. -/
theorem same {x : Except (Stop F) β} (runs : Runs M s reader k n r x) (scanner : r.toScanner = r'.toScanner) (start : r.cstart = r'.cstart) :
    Runs M s reader k n r' x := by
  cases runs with
  | ok comes =>
    exact .ok ⟨scanner ▸ comes.moves, comes.live, scanner ▸ comes.fewer, comes.keeps.trans start⟩
  | failed stops keeps => exact .failed (scanner ▸ stops) (keeps.trans start)
  | spent many => exact .spent (scanner ▸ many)

theorem less {x : Except (Stop F) β} (runs : Runs M s reader k n r x) (turns : m ≤ n) (tokens : j ≤ k) : Runs M s reader j m r x := by
  cases runs with
  | ok comes => exact .ok (comes.less tokens)
  | failed stops keeps => exact .failed stops keeps
  | spent many => exact .spent (by omega)

theorem ok_here {b : β} (live : r.Live s) (scanner : (reader b).toScanner = r.toScanner) (start : (reader b).cstart = r.cstart) :
    Runs M s reader 0 n r (.ok b) :=
  .ok ⟨scanner ▸ .refl, scanner ▸ live, by rw [scanner]; omega, start⟩

theorem fail (what : String) : Runs M s reader k n r (.error (.failed (r.fail what))) := .failed (.here .refl what) rfl

end Runs

theorem isPunct_inner {r : Reader F} {c : Nat} (is : isPunct r c = true) : r.tok.isEof = false ∧ r.tok.isFull = false := by
  rw [isPunct] at is
  split at is
  · rename_i d here
    rw [here]
    exact ⟨rfl, rfl⟩
  · cases is

section parser
variable {n : Nat} {r : Reader F}

theorem next_runs (live : r.Live s) (some_ : r.tok.isEof = false) (inner : r.tok.isFull = false) :
    Runs M s id 1 n r (next M s r) := by
  rw [next]
  split
  · rename_i fails
    exact .failed (.token .refl some_ fails) rfl
  · rename_i reads
    have step : Step M s r.toScanner (r.pass.advance M s).toScanner := ⟨some_, inner, rfl, by simpa using reads⟩
    obtain ⟨live', -, -, fewer⟩ := live.step step
    exact .ok ⟨.single step, live', fewer, rfl⟩

theorem expect_runs {c : Nat} (what : String) (live : r.Live s) : Runs M s id 1 n r (expect M s c what r) := by
  rw [expect]
  split
  · rename_i is
    exact next_runs live (isPunct_inner is).1 (isPunct_inner is).2
  · exact .fail what

/-- A number against a minus is in hand, and is too large or a term. -/
theorem signed_some {x : Except (Stop F) (Term F)} (is : signed M r = some x) :
    r.tok.isEof = false ∧ r.tok.isFull = false ∧ ((∃ what, x = .error (.failed (r.fail what))) ∨ ∃ t, x = .ok t) := by
  rw [signed] at is
  split at is
  · rename_i v w here
    rw [here]
    cases is
    refine ⟨rfl, rfl, ?_⟩
    split
    · exact .inl ⟨_, rfl⟩
    · exact .inr ⟨_, rfl⟩
  · rename_i here
    rw [here]
    cases is
    exact ⟨rfl, rfl, .inr ⟨_, rfl⟩⟩
  · rename_i here
    rw [here]
    cases is
    exact ⟨rfl, rfl, .inr ⟨_, rfl⟩⟩
  · cases is

/-- An infix operator in hand is a token inside the clause. -/
theorem infixHere_inner {maxprec leftprec : Int} {x : Bytes × Int × OpType} (here : infixHere M maxprec leftprec r = some x) :
    r.tok.isEof = false ∧ r.tok.isFull = false := by
  rw [infixHere, infixName] at here
  cases token : r.tok with
  | eof =>
    rw [token] at here
    cases here
  | full =>
    rw [token] at here
    cases here
  | _ => exact ⟨rfl, rfl⟩

theorem varFor_same (r : Reader F) (name : Bytes) :
    (varFor r name).2.toScanner = r.toScanner ∧ (varFor r name).2.cstart = r.cstart := by
  rw [varFor]
  split
  · exact ⟨rfl, rfl⟩
  · split
    · exact ⟨rfl, rfl⟩
    · exact ⟨rfl, rfl⟩

theorem leaf_runs {t : Term F} (live : r.Live s) (some_ : r.tok.isEof = false) (inner : r.tok.isFull = false) :
    Runs M s Prod.snd 1 n r (leaf M s t r) := by
  rw [leaf]
  exact .bind (next_runs live some_ inner) (fun r' comes => .ok_here (n := n) comes.live rfl rfl) (Nat.le_refl _) (by omega) (Nat.le_refl _)

variable {term : Inner F} (inside : ∀ p r, r.Live s → Runs M s Prod.snd 1 n r (term p r))
include inside

theorem commaTerms_runs {k : Nat} (less : k ≤ n) (items : List (Term F)) (live : r.Live s) :
    Runs M s Prod.snd 1 k r (commaTerms M s term k items r) := by
  induction k generalizing items r with
  | zero => exact .spent (Nat.zero_le _)
  | succ k ih =>
    rw [commaTerms]
    refine .bind (inside 1200 r live) (i := 0) (l := k) ?_ less (by omega) (by omega)
    rintro ⟨item, r'⟩ comes
    dsimp only
    split
    · rename_i comma
      refine .bind (next_runs (n := n) comes.live (isPunct_inner comma).1 (isPunct_inner comma).2) (fun r'' comes' => ?_)
        (by omega) (by omega) (by omega) (i := 1) (l := k)
      exact ih (by omega) _ comes'.live
    · exact .ok_here comes.live rfl rfl

theorem listTail_runs (live : r.Live s) : Runs M s Prod.snd 0 n r (listTail M s term r) := by
  rw [listTail]
  split
  · rename_i bar
    refine .bind (next_runs (n := n) live (isPunct_inner bar).1 (isPunct_inner bar).2) (fun r' comes => ?_)
      (by omega) (by omega) (by omega) (i := 0) (l := n)
    refine .bind (inside 1200 r' comes.live) ?_ (Nat.le_refl _) (by omega) (by omega) (i := 0) (l := n)
    rintro ⟨tail, r''⟩ comes'
    exact .ok_here comes'.live rfl rfl
  · exact .ok_here live rfl rfl

theorem listBody_runs (live : r.Live s) : Runs M s Prod.snd 1 n r (listBody M s term n r) := by
  rw [listBody]
  split
  · rename_i close
    exact .bind (next_runs (n := n) live (isPunct_inner close).1 (isPunct_inner close).2)
      (fun r' comes => .ok_here (n := n) comes.live rfl rfl) (by omega) (by omega) (by omega)
  · refine .bind ((commaTerms_runs inside (Nat.le_refl n) [] (r := { r with stop := 2 }) live).same rfl rfl) ?_
      (Nat.le_refl _) (by omega) (by omega) (i := 0) (l := n)
    rintro ⟨items, r'⟩ comes
    refine .bind (listTail_runs inside comes.live) ?_ (Nat.le_refl _) (by omega) (by omega) (i := 0) (l := n)
    rintro ⟨tail, r''⟩ comes'
    refine .bind ((expect_runs (n := n) _ (r := { r'' with stop := r.stop }) comes'.live).same rfl rfl) (fun r' comes => ?_)
      (Nat.le_refl _) (by omega) (by omega) (i := 0) (l := n)
    exact .ok_here comes.live rfl rfl

theorem argsBody_runs (name : Bytes) (live : r.Live s) : Runs M s Prod.snd 1 n r (argsBody M s term n name r) := by
  rw [argsBody]
  dsimp only
  split
  · rename_i close
    exact .bind ((next_runs (n := n) (r := { r with bnil := false }) live (isPunct_inner close).1 (isPunct_inner close).2).same rfl rfl)
      (fun r' comes => .ok_here (n := n) comes.live rfl rfl) (by omega) (by omega) (by omega)
  · refine .bind ((commaTerms_runs inside (Nat.le_refl n) [] (r := { r with bnil := false, stop := 1 }) live).same rfl rfl) ?_
      (Nat.le_refl _) (by omega) (by omega) (i := 0) (l := n)
    rintro ⟨items, r'⟩ comes
    refine .bind ((expect_runs (n := n) _ (r := { r' with stop := r.stop }) comes.live).same rfl rfl) (fun r' comes => ?_)
      (Nat.le_refl _) (by omega) (by omega) (i := 0) (l := n)
    exact .ok_here comes.live rfl rfl

theorem bracketed_runs (closer : Nat) (what : String) (live : r.Live s) :
    Runs M s Prod.snd 1 n r (bracketed M s term closer what r) := by
  rw [bracketed]
  refine .bind ((inside 1200 { r with stop := 0 } live).same rfl rfl) ?_ (Nat.le_refl _) (by omega) (by omega) (i := 0) (l := n)
  rintro ⟨t, r'⟩ comes
  refine .bind ((expect_runs (n := n) _ (r := { r' with stop := r.stop }) comes.live).same rfl rfl) (fun r' comes => ?_)
    (Nat.le_refl _) (by omega) (by omega) (i := 0) (l := n)
  exact .ok_here comes.live rfl rfl

theorem operatorOrAtom_runs (maxprec : Int) (name : Bytes) (quoted : Bool) (live : r.Live s) :
    Runs M s Prod.snd 0 n r (operatorOrAtom M s term maxprec name quoted r) := by
  rw [operatorOrAtom]
  split
  · exact .ok_here live rfl rfl
  · split
    · refine .bind (inside _ r live) ?_ (Nat.le_refl _) (by omega) (by omega) (i := 0) (l := n)
      rintro ⟨arg, r'⟩ comes
      exact .ok_here comes.live rfl rfl
    · split
      · exact .fail _
      · exact .ok_here live rfl rfl

theorem namedBody_runs (maxprec : Int) (name : Bytes) (quoted : Bool) (live : r.Live s) (some_ : r.tok.isEof = false)
    (inner : r.tok.isFull = false) : Runs M s Prod.snd 1 (n + 1) r (namedBody M s term n maxprec name quoted r) := by
  rw [namedBody]
  refine .bind (next_runs (n := n + 1) live some_ inner) (fun r' comes => ?_) (Nat.le_refl _) (by omega) (by omega) (i := 0) (l := n)
  dsimp only [id_eq] at comes ⊢
  split
  · rename_i open_
    refine .bind (next_runs (n := n) comes.live (isPunct_inner open_.1).1 (isPunct_inner open_.1).2) (fun r'' comes' => ?_)
      (Nat.le_refl _) (by omega) (by omega) (i := 0) (l := n)
    refine .bind (argsBody_runs inside name comes'.live) ?_ (Nat.le_refl _) (by omega) (by omega) (i := 0) (l := n)
    rintro ⟨t, r⟩ later
    exact .ok_here later.live rfl rfl
  · split
    · rename_i number is
      have signed_ : signed M r' = some number := by
        split at is
        · exact is
        · cases is
      obtain ⟨some_, inner, ⟨what, wide⟩ | ⟨t, token⟩⟩ := signed_some signed_
      · rw [wide]
        exact .fail what
      · rw [token]
        change Runs M s Prod.snd 0 n r' (next M s r' >>= fun r => .ok ((t, 0), r))
        refine .bind (next_runs (n := n) comes.live some_ inner) (fun r'' comes' => ?_) (Nat.le_refl _) (by omega) (Nat.zero_le _)
          (i := 0) (l := n)
        exact .ok_here comes'.live rfl rfl
    · exact operatorOrAtom_runs inside maxprec name quoted comes.live

theorem primaryBody_runs (maxprec : Int) (live : r.Live s) : Runs M s Prod.snd 1 (n + 1) r (primaryBody M s term n maxprec r) := by
  rw [primaryBody]
  split
  · rename_i v w wnum here
    split
    · exact .fail _
    · exact leaf_runs live (here ▸ rfl) (here ▸ rfl)
  · rename_i x wnum here
    exact leaf_runs live (here ▸ rfl) (here ▸ rfl)
  · rename_i a d wnum here
    exact leaf_runs live (here ▸ rfl) (here ▸ rfl)
  · rename_i text here
    obtain ⟨scanner, start⟩ := varFor_same r (cstring text)
    have runs := leaf_runs (M := M) (n := n + 1) (t := (varFor r (cstring text)).1) (r := (varFor r (cstring text)).2) (scanner ▸ live)
      (scanner ▸ here ▸ rfl) (scanner ▸ here ▸ rfl)
    exact runs.same scanner start
  · rename_i text back here
    exact leaf_runs live (here ▸ rfl) (here ▸ rfl)
  · rename_i text quoted here
    exact namedBody_runs inside maxprec _ quoted live (here ▸ rfl) (here ▸ rfl)
  · rename_i here
    refine .bind (next_runs (n := n + 1) live (here ▸ rfl) (here ▸ rfl)) (fun r' comes => ?_) (Nat.le_refl _) (by omega) (by omega)
      (i := 0) (l := n)
    refine .bind (bracketed_runs inside 41 _ comes.live) ?_ (Nat.le_refl _) (by omega) (by omega) (i := 0) (l := n)
    rintro ⟨t, r''⟩ comes'
    exact .ok_here comes'.live rfl rfl
  · rename_i here
    refine .bind (next_runs (n := n + 1) live (here ▸ rfl) (here ▸ rfl)) (fun r' comes => ?_) (Nat.le_refl _) (by omega) (by omega)
      (i := 0) (l := n)
    split
    · rename_i close
      have runs := namedBody_runs inside maxprec [91, 93] false (r := { r' with bnil := true }) comes.live (isPunct_inner close.1).1
        (isPunct_inner close.1).2
      have same : Runs M s Prod.snd 1 (n + 1) r' _ := runs.same rfl rfl
      exact same.less (Nat.le_succ n) (Nat.zero_le _)
    · refine .bind (listBody_runs inside comes.live) ?_ (Nat.le_refl _) (by omega) (by omega) (i := 0) (l := n)
      rintro ⟨t, r''⟩ comes'
      exact .ok_here comes'.live rfl rfl
  · rename_i here
    refine .bind (next_runs (n := n + 1) live (here ▸ rfl) (here ▸ rfl)) (fun r' comes => ?_) (Nat.le_refl _) (by omega) (by omega)
      (i := 0) (l := n)
    split
    · rename_i close
      split
      · exact (namedBody_runs inside maxprec _ false comes.live (isPunct_inner close).1 (isPunct_inner close).2).less
          (Nat.le_succ n) (Nat.zero_le _)
      · exact (leaf_runs (n := n) comes.live (isPunct_inner close).1 (isPunct_inner close).2).less (Nat.le_refl n) (Nat.zero_le _)
    · refine .bind (bracketed_runs inside 125 _ comes.live) ?_ (Nat.le_refl _) (by omega) (by omega) (i := 0) (l := n)
      rintro ⟨t, r''⟩ comes'
      exact .ok_here comes'.live rfl rfl
  · exact .fail _

theorem infixLoop_runs (maxprec : Int) {k : Nat} (less : k ≤ n) (left : Term F × Int) (live : r.Live s) :
    Runs M s Prod.snd 0 k r (infixLoop M s term maxprec k left r) := by
  induction k generalizing left r with
  | zero => exact .spent (Nat.zero_le _)
  | succ k ih =>
    rw [infixLoop]
    split
    · exact .ok_here live rfl rfl
    · rename_i name prec type here
      obtain ⟨some_, inner⟩ := infixHere_inner here
      refine .bind (next_runs (n := n) live some_ inner) (fun r' comes => ?_) (by omega) (by omega) (by omega) (i := 0) (l := k)
      refine .bind (inside _ r' comes.live) ?_ (by omega) (by omega) (by omega) (i := 0) (l := k)
      rintro ⟨right, r''⟩ comes'
      exact ih (by omega) _ comes'.live

theorem termBody_runs (maxprec : Int) (live : r.Live s) : Runs M s Prod.snd 1 (n + 1) r (termBody M s term n maxprec r) := by
  rw [termBody]
  refine .bind (primaryBody_runs inside maxprec live) ?_ (Nat.le_refl _) (by omega) (by omega) (i := 0) (l := n)
  rintro ⟨left, r'⟩ comes
  exact infixLoop_runs inside maxprec (Nat.le_refl n) left comes.live

end parser

/-- The parser passes a token and more, or refuses; it does not run out of turns before the text
runs out of tokens. -/
theorem parseTerm_runs (M : Machine F) (s : Bytes) (n : Nat) (maxprec : Int) (r : Reader F) (live : r.Live s) :
    Runs M s Prod.snd 1 n r (parseTerm M s n maxprec r) := by
  induction n generalizing maxprec r with
  | zero => exact .spent (Nat.zero_le _)
  | succ n ih => exact termBody_runs ih maxprec live

end Cocolog.Syntax
