import Cocolog.Store.Edits

/-! Selection: the next clause a call may try from a position on, and the probe that says
whether there is none, one or more. Every road to the answer, the scan of the keys, the
chains from their heads and the link of the clause just tried, is shown to be the least
position the call's key lets through. -/

set_option linter.all false

namespace Cocolog.Store

open Cocolog.Lib

namespace Pred

/-- The scan over the keys of the first argument. -/
def scan (p : Pred) (key from_ : Nat) : Option Nat :=
  leastFrom (fun i => p.keys i == 0 || p.keys i == key) from_ p.nclauses

/-- `coco_pred_next_clause`. `grew` says whether a table could be built if one is asked. -/
def nextClause (p : Pred) (key from_ : Nat) (grew : Bool) : Option Nat × Pred :=
  if p.nclauses ≤ from_ then (none, p)
  else if key = 0 then (some from_, p)
  else if p.nclauses < indexFloor then (p.scan key from_, p)
  else if p.indexed = true then (p.table.next p.keys p.nclauses key from_, p)
  else
    let (built, q) := p.reindex grew
    if built = true then (q.table.next q.keys q.nclauses key from_, q)
    else (q.scan key from_, q)

/-- `coco_pred_next_at`. With no table to be had every clause is a candidate. -/
def nextAt (headKey : Nat → Nat → Nat) (p : Pred) (pos key from_ : Nat) (grew : Bool) :
    Option Nat × Pred :=
  if pos = 0 ∨ key = 0 then p.nextClause key from_ grew
  else if p.nclauses ≤ from_ then (none, p)
  else
    match p.aixGet headKey pos grew with
    | (none, q) => (some from_, q)
    | (some x, q) => (x.table.next x.keys p.nclauses key from_, q)

/-- The key the clause at `i` has at an argument. -/
def keyAt (headKey : Nat → Nat → Nat) (p : Pred) (pos i : Nat) : Nat :=
  if pos = 0 then p.keys i else headKey (p.clauses i) pos

/-- Whether selection lets the clause at `i` through: its key does, or there is no table
to ask. -/
def lets (headKey : Nat → Nat → Nat) (p : Pred) (pos key : Nat) (grew : Bool) (i : Nat) : Bool :=
  if pos = 0 ∨ (p.aix (pos - 1)).indexed = true ∨ grew = true then
    admits key (p.keyAt headKey pos i)
  else true

/-- The predicate without its indexes. -/
def unlisted (p : Pred) : Pred :=
  { p with table := {}, kmax := 0, indexed := false, aix := fun _ => {} }

variable {headKey : Nat → Nat → Nat}

theorem scan_eq (p : Pred) {key : Nat} (positive : key ≠ 0) (from_ : Nat) :
    p.scan key from_ = leastFrom (fun i => admits key (p.keys i)) from_ p.nclauses := by
  refine leastFrom_congr ?_
  intro i _ _
  simp [admits, beq_false_of_ne positive]

theorem reindex_unlisted (p : Pred) (grew : Bool) : (p.reindex grew).2.unlisted = p.unlisted := by
  rcases reindex_eq p grew with eq | ⟨kmax, eq⟩
  · rw [eq]
  · rw [eq]
    rfl

/-- The scan, the chains and the table built on the way give one answer. -/
theorem nextClause_spec {p : Pred} (ok : p.Ok headKey) (key from_ : Nat) (grew : Bool) :
    (p.nextClause key from_ grew).1 =
        leastFrom (fun i => admits key (p.keys i)) from_ p.nclauses ∧
      (p.nextClause key from_ grew).2.Ok headKey ∧
      (p.nextClause key from_ grew).2.unlisted = p.unlisted ∧
      (p.nextClause key from_ grew).2.aix = p.aix := by
  simp only [nextClause]
  split
  · rename_i past
    exact ⟨(leastFrom_of_ge past).symm, ok, rfl, rfl⟩
  · rename_i inside
    split
    · rename_i zero
      refine ⟨?_, ok, rfl, rfl⟩
      rw [leastFrom_of_accepted (by omega) (by simp [admits, zero])]
    · rename_i positive
      split
      · exact ⟨scan_eq p positive from_, ok, rfl, rfl⟩
      · split
        · rename_i built
          exact ⟨(ok.first built).next_eq positive (by omega), ok, rfl, rfl⟩
        · have ok' := ok.reindex grew
          have same := reindex_unlisted p grew
          rcases reindex_eq p grew with eq | ⟨kmax, eq⟩
          · rw [eq]
            exact ⟨scan_eq p positive from_, ok, rfl, rfl⟩
          · rw [eq] at ok' same ⊢
            exact ⟨(ok'.first rfl).next_eq positive (Nat.le_of_not_le inside), ok', same, rfl⟩

section

variable (headKey)

theorem aixGet_cases (p : Pred) (pos : Nat) (grew : Bool) :
    (∃ x, p.aixGet headKey pos grew = (some x, (p.aixGet headKey pos grew).2) ∧
      x = (p.aixGet headKey pos grew).2.aix (pos - 1) ∧ x.indexed = true ∧
      ((p.aix (pos - 1)).indexed = true ∨ grew = true)) ∨
    (p.aixGet headKey pos grew = (none, p) ∧ (p.aix (pos - 1)).indexed = false ∧ grew = false) := by
  simp only [aixGet]
  split
  · rename_i built
    exact .inl ⟨_, rfl, rfl, built, .inl built⟩
  · rename_i not_built
    cases grew with
    | false => exact .inr ⟨rfl, by simpa using not_built, rfl⟩
    | true => exact .inl ⟨_, rfl, by simp, rfl, .inr rfl⟩

theorem aixGet_unlisted (p : Pred) (pos : Nat) (grew : Bool) :
    (p.aixGet headKey pos grew).2.unlisted = p.unlisted := by
  simp only [aixGet]
  split
  · rfl
  · split <;> rfl

end

theorem of_unlisted {p q : Pred} (same : q.unlisted = p.unlisted) :
    q.nclauses = p.nclauses ∧ q.keys = p.keys ∧ q.clauses = p.clauses ∧ q.recAt = p.recAt ∧
      q.ntomb = p.ntomb ∧ q.tomb = p.tomb := by
  have recAt : q.unlisted.recAt = p.unlisted.recAt := by rw [same]
  have h := same
  simp only [unlisted, Pred.mk.injEq] at h
  exact ⟨by tauto, by tauto, by tauto, recAt, by tauto, by tauto⟩

/-- What one ask leaves: the same list, indexes still good, and the same clauses let
through. -/
structure Asked (headKey : Nat → Nat → Nat) (pos key : Nat) (grew : Bool) (p q : Pred) : Prop where
  ok : q.Ok headKey
  list : q.unlisted = p.unlisted
  lets : q.lets headKey pos key grew = p.lets headKey pos key grew

theorem Asked.refl {p : Pred} (ok : p.Ok headKey) (pos key : Nat) (grew : Bool) :
    Asked headKey pos key grew p p := ⟨ok, rfl, rfl⟩

theorem Asked.trans {pos key : Nat} {grew : Bool} {p q r : Pred}
    (first : Asked headKey pos key grew p q) (second : Asked headKey pos key grew q r) :
    Asked headKey pos key grew p r :=
  ⟨second.ok, second.list.trans first.list, second.lets.trans first.lets⟩

/-- Every ask answers the least position let through, at or after where it starts. -/
theorem nextAt_spec {p : Pred} (ok : p.Ok headKey) {pos : Nat} (inside : pos ≤ aixCount)
    (key from_ : Nat) (grew : Bool) :
    (p.nextAt headKey pos key from_ grew).1 =
        leastFrom (p.lets headKey pos key grew) from_ p.nclauses ∧
      Asked headKey pos key grew p (p.nextAt headKey pos key from_ grew).2 := by
  simp only [nextAt]
  split
  · rename_i plain
    obtain ⟨answer, ok', list, aix⟩ := nextClause_spec ok key from_ grew
    obtain ⟨-, keys, clauses, -⟩ := of_unlisted list
    refine ⟨answer.trans (leastFrom_congr ?_), ok', list, ?_⟩
    · intro i _ _
      rcases plain with first | zero
      · simp [lets, keyAt, first]
      · simp [lets, admits, zero]
    · funext i
      simp only [lets, keyAt, keys, clauses, aix]
  · rename_i keyed
    have positive : pos ≠ 0 ∧ key ≠ 0 := by
      rw [not_or] at keyed
      exact keyed
    split
    · rename_i past
      exact ⟨(leastFrom_of_ge past).symm, Asked.refl ok pos key grew⟩
    · rename_i below
      have list := aixGet_unlisted headKey p pos grew
      obtain ⟨count, keys, clauses, -⟩ := of_unlisted list
      have ok' := ok.aixGet (Nat.pos_of_ne_zero positive.1) grew
      rcases aixGet_cases headKey p pos grew with ⟨x, eq, at_, built, had⟩ | ⟨eq, none_, no⟩
      · have table := ok'.others (pos - 1) (by omega) (by rw [← at_]; exact built)
        rw [← at_, count, clauses, Nat.sub_add_cancel (by omega)] at table
        rw [eq]
        refine ⟨?_, ok', list, ?_⟩
        · refine (table.1.next_eq positive.2 (by omega)).trans (leastFrom_congr ?_)
          intro i _ hi
          rw [lets, if_pos (by tauto), keyAt, if_neg positive.1, table.2 i hi]
        · funext i
          simp only [lets, keyAt, keys, clauses, ← at_, built]
          rcases had with had | had <;> simp [had]
      · rw [eq]
        refine ⟨?_, Asked.refl ok pos key grew⟩
        rw [leastFrom_of_accepted (by omega)]
        simp [lets, positive.1, none_, no]

/-- `while (a is a clause and dead) a = next(a + 1)`. -/
def nextLive (headKey : Nat → Nat → Nat) (p : Pred) (pos key : Nat) (grew : Bool) :
    Nat → Nat → Option Nat × Pred
  | 0, _ => (none, p)
  | turns + 1, from_ =>
    match p.nextAt headKey pos key from_ grew with
    | (none, q) => (none, q)
    | (some a, q) => if q.dead a = true then q.nextLive headKey pos key grew turns (a + 1) else (some a, q)

/-- The live clauses let through. -/
def offers (headKey : Nat → Nat → Nat) (p : Pred) (pos key : Nat) (grew : Bool) (i : Nat) : Bool :=
  p.lets headKey pos key grew i && !p.dead i

theorem Asked.offers {pos key : Nat} {grew : Bool} {p q : Pred}
    (asked : Asked headKey pos key grew p q) :
    q.offers headKey pos key grew = p.offers headKey pos key grew ∧ q.nclauses = p.nclauses := by
  obtain ⟨count, -, -, -, ntomb, tomb⟩ := of_unlisted asked.list
  refine ⟨?_, count⟩
  funext i
  simp only [Pred.offers, asked.lets, dead, deathAt, ntomb, tomb]

theorem nextLive_spec {p : Pred} (ok : p.Ok headKey) {pos : Nat} (inside : pos ≤ aixCount)
    (key : Nat) (grew : Bool) {turns from_ : Nat} (enough : p.nclauses ≤ from_ + turns) :
    (p.nextLive headKey pos key grew turns from_).1 =
        leastFrom (p.offers headKey pos key grew) from_ p.nclauses ∧
      Asked headKey pos key grew p (p.nextLive headKey pos key grew turns from_).2 := by
  induction turns generalizing p from_ with
  | zero => exact ⟨(leastFrom_of_ge (by omega)).symm, Asked.refl ok pos key grew⟩
  | succ turns ih =>
    obtain ⟨answer, asked⟩ := nextAt_spec ok inside key from_ grew
    rw [nextLive]
    generalize p.nextAt headKey pos key from_ grew = s at answer asked
    obtain ⟨a, q⟩ := s
    obtain ⟨offers, count⟩ := asked.offers
    cases a with
    | none =>
      refine ⟨?_, asked⟩
      have none_ := leastFrom_eq_none.mp answer.symm
      rw [eq_comm, leastFrom_eq_none]
      intro i h1 h2
      simp [Pred.offers, none_ i h1 h2]
    | some a =>
      obtain ⟨h1, h2, let_, least⟩ := leastFrom_eq_some.mp answer.symm
      have before : ∀ j, from_ ≤ j → j < a → p.offers headKey pos key grew j = false := by
        intro j hj lt
        simp [Pred.offers, least j hj lt]
      have here : p.offers headKey pos key grew a = !q.dead a := by
        rw [← offers]
        simp only [Pred.offers, asked.lets, let_, Bool.true_and]
      show (if q.dead a = true then _ else _ : Option Nat × Pred).1 = _ ∧
        Asked headKey pos key grew p (if q.dead a = true then _ else _ : Option Nat × Pred).2
      by_cases dead : q.dead a = true
      · rw [if_pos dead]
        have count' : q.nclauses = p.nclauses := count
        have enough' : q.nclauses ≤ a + 1 + turns := by omega
        obtain ⟨later, asked'⟩ := ih asked.ok enough'
        refine ⟨later.trans ?_, asked.trans asked'⟩
        rw [offers, count, eq_comm]
        refine leastFrom_skip (by omega) ?_
        intro j hj lt
        rcases Nat.eq_or_lt_of_le (Nat.le_of_lt_succ lt) with rfl | earlier
        · rw [here, dead]
          rfl
        · exact before j hj earlier
      · rw [if_neg dead]
        refine ⟨?_, asked⟩
        rw [eq_comm, leastFrom_eq_some]
        exact ⟨h1, h2, by rw [here]; simpa using dead, before⟩

/-- The clauses a call tries, one ask after the other, where nothing is edited in
between. Each ask has its own luck with memory. -/
def tries (headKey : Nat → Nat → Nat) (p : Pred) (pos key : Nat) (grew : Nat → Bool) :
    Nat → Nat → List Nat
  | 0, _ => []
  | turns + 1, from_ =>
    match p.nextLive headKey pos key (grew turns) p.nclauses from_ with
    | (none, _) => []
    | (some a, q) => a :: q.tries headKey pos key grew turns (a + 1)

/-- Where a refused key means a clause not wanted, the clauses wanted among those tried are
the live clauses wanted. -/
theorem tries_wanted {p : Pred} (ok : p.Ok headKey) {pos : Nat} (inside : pos ≤ aixCount)
    (key : Nat) (grew : Nat → Bool) (wanted : Nat → Bool)
    (refused : ∀ i < p.nclauses, admits key (p.keyAt headKey pos i) = false → wanted i = false)
    {turns from_ : Nat} (enough : p.nclauses ≤ from_ + turns) :
    (p.tries headKey pos key grew turns from_).filter wanted =
      positions (fun i => !p.dead i && wanted i) from_ p.nclauses := by
  induction turns generalizing p from_ with
  | zero => exact (positions_of_ge (by omega)).symm
  | succ turns ih =>
    obtain ⟨answer, asked⟩ :=
      nextLive_spec ok inside key (grew turns) (Nat.le_add_left p.nclauses from_)
    have passed : ∀ i < p.nclauses, p.offers headKey pos key (grew turns) i = false →
        (!p.dead i && wanted i) = false := by
      intro i hi skips
      cases dead : p.dead i with
      | true => rfl
      | false =>
        simp only [offers, dead, lets, Bool.not_false, Bool.and_true] at skips
        split at skips
        · simp [refused i hi skips]
        · cases skips
    rw [tries]
    generalize p.nextLive headKey pos key (grew turns) p.nclauses from_ = s at answer asked
    obtain ⟨a, q⟩ := s
    replace asked : Asked headKey pos key (grew turns) p q := asked
    cases a with
    | none =>
      have none_ := leastFrom_eq_none.mp answer.symm
      refine (positions_eq_nil (leastFrom_eq_none.mpr ?_)).symm
      intro i h1 h2
      exact passed i h2 (none_ i h1 h2)
    | some a =>
      obtain ⟨h1, h2, offered, before⟩ := leastFrom_eq_some.mp answer.symm
      obtain ⟨count, keys, clauses, -, ntomb, tomb⟩ := of_unlisted asked.list
      have keyAt : q.keyAt headKey pos = p.keyAt headKey pos := by
        funext i
        simp only [Pred.keyAt, keys, clauses]
      have dead : q.dead = p.dead := by
        funext i
        simp only [Pred.dead, deathAt, ntomb, tomb]
      have rest := ih asked.ok (by rw [count, keyAt]; exact refused)
        (show q.nclauses ≤ a + 1 + turns by omega)
      have live : p.dead a = false := by
        simp only [offers, Bool.and_eq_true, Bool.not_eq_true'] at offered
        exact offered.2
      have skipped : positions (fun i => !p.dead i && wanted i) from_ a = [] := by
        refine positions_eq_nil (leastFrom_eq_none.mpr ?_)
        intro i hi lt
        exact passed i (by omega) (before i hi lt)
      rw [dead, count] at rest
      rw [positions_split h1 (Nat.le_of_lt h2), skipped, List.nil_append, positions_cons h2,
        ← rest, live, List.filter_cons]
      rfl

/- The probes. -/

/-- One pass over the first argument's keys: none, one, or the first of more. 3 is 2 of a
predicate under the floor where another argument might choose better. -/
def probeScan (p : Pred) (key : Nat) : Nat × Nat :=
  match positions (fun i => p.keys i == 0 || p.keys i == key) 0 p.nprobe with
  | [] => (0, 0)
  | [a] => (1, a)
  | a :: b :: _ =>
    (if p.keys b = key ∧ p.keys a = key ∧ p.nprobe < indexFloor ∧ 2 ≤ p.arity then 3 else 2, a)

/-- Two asks: the first candidate, and whether there is a second. -/
def probeAsks (headKey : Nat → Nat → Nat) (p : Pred) (pos key : Nat) (grew : Bool) :
    (Nat × Nat) × Pred :=
  match p.nextAt headKey pos key 0 grew with
  | (none, q) => ((0, 0), q)
  | (some a, q) =>
    let (b, q) := q.nextAt headKey pos key (a + 1) grew
    ((if b.isNone then 1 else 2, a), q)

/-- `coco_pred_probe` with a count to go by. -/
def probeHot (headKey : Nat → Nat → Nat) (p : Pred) (key : Nat) (grew : Bool) :
    (Nat × Nat) × Pred :=
  if key = 0 then
    ((if p.nprobe = 1 then 1 else if p.nprobe < indexFloor ∧ 2 ≤ p.arity then 3 else 2, 0), p)
  else if p.nprobe < indexFloor then (p.probeScan key, p)
  else if p.indexed = true then p.probeAsks headKey 0 key grew
  else
    let (built, q) := p.reindex grew
    if built = true then q.probeAsks headKey 0 key grew else (q.probeScan key, q)

/-- The walk of `coco_pred_probe_dead`: the first live candidate and whether there is a
second. -/
def probeWalk (headKey : Nat → Nat → Nat) (p : Pred) (pos key : Nat) (grew : Bool) :
    (Nat × Nat) × Pred :=
  match p.nextLive headKey pos key grew p.nclauses 0 with
  | (none, q) => ((0, 0), q)
  | (some a, q) =>
    let (b, q) := q.nextLive headKey pos key grew q.nclauses (a + 1)
    ((if b.isNone then 1 else 2, a), q)

/-- What a probe's answer says of the positions offered: none, just `ix`, or `ix` first of
at least two. -/
def Answers (c : Nat → Bool) (n det ix : Nat) : Prop :=
  (det = 0 ∧ positions c 0 n = []) ∨ (det = 1 ∧ positions c 0 n = [ix]) ∨
    ((det = 2 ∨ det = 3) ∧ ∃ b rest, positions c 0 n = ix :: b :: rest)

theorem Answers.congr {c d : Nat → Bool} {n det ix : Nat} (answers : Answers c n det ix)
    (same : ∀ i < n, c i = d i) : Answers d n det ix := by
  have eq : positions c 0 n = positions d 0 n := positions_congr (fun i _ hi => same i hi)
  simpa only [Answers, eq] using answers

/-- Two least positions in a row tell none, one and more apart. -/
theorem answers_of_asks {c : Nat → Bool} {n : Nat} {a b : Option Nat}
    (first : a = leastFrom c 0 n) (second : ∀ i, a = some i → b = leastFrom c (i + 1) n) :
    match a with
    | none => Answers c n 0 0
    | some i => Answers c n (if b.isNone then 1 else 2) i := by
  cases a with
  | none => exact .inl ⟨rfl, positions_eq_nil first.symm⟩
  | some i =>
    have whole := positions_of_least first.symm
    have next := second i rfl
    cases b with
    | none => exact .inr (.inl ⟨rfl, by rw [whole, positions_eq_nil next.symm]⟩)
    | some j => exact .inr (.inr ⟨.inl rfl, j, _, by rw [whole, positions_of_least next.symm]⟩)

theorem probeScan_spec {p : Pred} {key : Nat} (positive : key ≠ 0) (count : p.nprobe = p.nclauses) :
    Answers (fun i => admits key (p.keys i)) p.nclauses (p.probeScan key).1
      (p.probeScan key).2 := by
  have same : positions (fun i => p.keys i == 0 || p.keys i == key) 0 p.nprobe =
      positions (fun i => admits key (p.keys i)) 0 p.nclauses := by
    rw [count]
    refine positions_congr ?_
    intro i _ _
    simp [admits, beq_false_of_ne positive]
  rw [probeScan, same, Answers]
  cases positions (fun i => admits key (p.keys i)) 0 p.nclauses with
  | nil => exact .inl ⟨rfl, rfl⟩
  | cons a rest =>
    cases rest with
    | nil => exact .inr (.inl ⟨rfl, rfl⟩)
    | cons b rest =>
      refine .inr (.inr ⟨?_, b, rest, rfl⟩)
      dsimp only
      split
      · exact .inr rfl
      · exact .inl rfl

theorem probeAsks_spec {p : Pred} (ok : p.Ok headKey) {pos : Nat} (inside : pos ≤ aixCount)
    (key : Nat) (grew : Bool) :
    Answers (p.lets headKey pos key grew) p.nclauses (p.probeAsks headKey pos key grew).1.1
        (p.probeAsks headKey pos key grew).1.2 ∧
      Asked headKey pos key grew p (p.probeAsks headKey pos key grew).2 := by
  obtain ⟨first, asked⟩ := nextAt_spec ok inside key 0 grew
  rw [probeAsks]
  generalize p.nextAt headKey pos key 0 grew = s at first asked
  obtain ⟨a, q⟩ := s
  cases a with
  | none => exact ⟨.inl ⟨rfl, positions_eq_nil first.symm⟩, asked⟩
  | some a =>
    obtain ⟨second, asked'⟩ := nextAt_spec asked.ok inside key (a + 1) grew
    rw [asked.lets, (of_unlisted asked.list).1] at second
    refine ⟨?_, asked.trans asked'⟩
    have both := answers_of_asks first (b := (q.nextAt headKey pos key (a + 1) grew).1)
      (fun i hi => by rw [← Option.some.inj hi]; exact second)
    exact both

theorem probeWalk_spec {p : Pred} (ok : p.Ok headKey) {pos : Nat} (inside : pos ≤ aixCount)
    (key : Nat) (grew : Bool) :
    Answers (p.offers headKey pos key grew) p.nclauses (p.probeWalk headKey pos key grew).1.1
        (p.probeWalk headKey pos key grew).1.2 ∧
      Asked headKey pos key grew p (p.probeWalk headKey pos key grew).2 := by
  obtain ⟨first, asked⟩ := nextLive_spec ok inside key grew (Nat.le_add_left p.nclauses 0)
  rw [probeWalk]
  generalize p.nextLive headKey pos key grew p.nclauses 0 = s at first asked
  obtain ⟨a, q⟩ := s
  cases a with
  | none => exact ⟨.inl ⟨rfl, positions_eq_nil first.symm⟩, asked⟩
  | some a =>
    obtain ⟨second, asked'⟩ :=
      nextLive_spec asked.ok inside key grew (Nat.le_add_left q.nclauses (a + 1))
    obtain ⟨offers, count⟩ := asked.offers
    rw [offers, count] at second
    refine ⟨?_, asked.trans asked'⟩
    have both := answers_of_asks first
      (b := (q.nextLive headKey pos key grew q.nclauses (a + 1)).1)
      (fun i hi => by rw [← Option.some.inj hi, count]; exact second)
    exact both

theorem lets_first (p : Pred) (key : Nat) (grew : Bool) :
    p.lets headKey 0 key grew = fun i => admits key (p.keys i) := by
  funext i
  simp [lets, keyAt]

theorem reindex_asked {p : Pred} (ok : p.Ok headKey) (pos key : Nat) (grew : Bool) :
    Asked headKey pos key grew p (p.reindex grew).2 := by
  have list := reindex_unlisted p grew
  obtain ⟨-, keys, clauses, -⟩ := of_unlisted list
  have aix : (p.reindex grew).2.aix = p.aix := by
    rcases reindex_eq p grew with eq | ⟨kmax, eq⟩ <;> rw [eq]
  refine ⟨ok.reindex grew, list, ?_⟩
  funext i
  simp only [lets, keyAt, keys, clauses, aix]

theorem probeHot_spec {p : Pred} (ok : p.Ok headKey) (hot : p.nprobe ≠ 0) (key : Nat)
    (grew : Bool) :
    Answers (p.lets headKey 0 key grew) p.nclauses (p.probeHot headKey key grew).1.1
        (p.probeHot headKey key grew).1.2 ∧
      Asked headKey 0 key grew p (p.probeHot headKey key grew).2 := by
  have count : p.nprobe = p.nclauses := by
    have probe := ok.probe
    split at probe
    · exact probe
    · exact absurd probe hot
  simp only [probeHot]
  split
  · rename_i zero
    refine ⟨?_, Asked.refl ok 0 key grew⟩
    have all : ∀ i < p.nclauses, p.lets headKey 0 key grew i = true := by
      intro i _
      simp [lets, admits, zero]
    have first : leastFrom (p.lets headKey 0 key grew) 0 p.nclauses = some 0 :=
      leastFrom_of_accepted (by omega) (all 0 (by omega))
    have whole := positions_of_least first
    split
    · rename_i one
      rw [positions_of_ge (show p.nclauses ≤ 0 + 1 by omega)] at whole
      exact .inr (.inl ⟨rfl, whole⟩)
    · rename_i more
      have second : leastFrom (p.lets headKey 0 key grew) 1 p.nclauses = some 1 :=
        leastFrom_of_accepted (by omega) (all 1 (by omega))
      rw [positions_of_least second] at whole
      refine .inr (.inr ⟨?_, _, _, whole⟩)
      split
      · exact .inr rfl
      · exact .inl rfl
  · rename_i positive
    split
    · rw [lets_first]
      exact ⟨probeScan_spec positive count, Asked.refl ok 0 key grew⟩
    · split
      · exact probeAsks_spec ok (Nat.zero_le _) key grew
      · have asked := reindex_asked ok 0 key grew
        obtain ⟨count', keys, -⟩ := of_unlisted asked.list
        rcases reindex_eq p grew with eq | ⟨kmax, eq⟩
        · rw [eq]
          rw [lets_first]
          exact ⟨probeScan_spec positive count, Asked.refl ok 0 key grew⟩
        · rw [eq] at asked ⊢
          obtain ⟨answers, asked'⟩ := probeAsks_spec asked.ok (Nat.zero_le _) key grew
          rw [asked.lets] at answers
          exact ⟨answers, asked.trans asked'⟩

end Pred

namespace World

/-- A new call that met the dead, counted in 32 bits. -/
def ticked (w : World) : World :=
  { w with pred := { w.pred with tprobe := (w.pred.tprobe + 1) % 2 ^ 32 } }

/-- The probe's walk over live and dead. -/
def walk (headKey : Nat → Nat → Nat) (pos key : Nat) (grew : Bool) (w : World) :
    (Nat × Nat) × World :=
  let (answer, p) := w.pred.probeWalk headKey pos key grew
  (answer, { w with pred := p })

/-- `coco_pred_probe_dead`, the call counted: every 256th one asks first whether the dead
may go, and is probed `again` where they went. -/
def probeDead (headKey : Nat → Nat → Nat) (pos key : Nat) (grew : Bool)
    (again : World → (Nat × Nat) × World) (w : World) : (Nat × Nat) × World :=
  if w.pred.ntomb ≠ 0 ∧ w.pred.tprobe &&& 255 = 0 then
    match w.trySweep with
    | (true, w) => again w
    | (false, w) => w.walk headKey pos key grew
  else w.walk headKey pos key grew

/-- One turn of `coco_pred_probe_at`: the hot road where the count says so, else
`coco_pred_probe_cold`. -/
def probeOnce (headKey : Nat → Nat → Nat) (pos key : Nat) (grew : Bool)
    (again : World → (Nat × Nat) × World) (w : World) : (Nat × Nat) × World :=
  if w.pred.nprobe = 0 then
    if w.pred.nclauses = 0 then ((0, 0), w) else w.ticked.probeDead headKey pos key grew again
  else
    let (answer, p) :=
      if pos = 0 ∨ key = 0 then w.pred.probeHot headKey key grew
      else w.pred.probeAsks headKey pos key grew
    (answer, { w with pred := p })

/-- `coco_pred_probe` (at argument 0) and `coco_pred_probe_at`: the answer, the first
candidate and the store after it. After a sweep nothing is dead, so it is probed again
once at most. -/
def probeAt (headKey : Nat → Nat → Nat) (pos key : Nat) (grew : Bool) (w : World) :
    (Nat × Nat) × World :=
  probeOnce headKey pos key grew (probeOnce headKey pos key grew fun w => ((0, 0), w)) w

variable {headKey : Nat → Nat → Nat}

/-- What a probe leaves and what its answer means there. A sweep on the way renumbers the
clauses, only where no frame is open; else the list is as it was. -/
structure Probed (headKey : Nat → Nat → Nat) (pos key : Nat) (grew : Bool) (w : World)
    (answer : Nat × Nat) (w' : World) : Prop where
  ok : w'.pred.Ok headKey
  frames : w'.frames = w.frames
  framed : w.frames ≠ [] → w.pred.framed = true → w'.pred.framed = true
  swept : Swept w.pred.recs w'.pred.recs
  tera : w'.pred.tera ≤ w.pred.tera
  list : (∃ tprobe framed, w'.pred.unlisted = { w.pred.unlisted with tprobe, framed }) ∨
    (w.framesOn .any).1 = 0 ∧ w'.pred.ntomb = 0
  answers : Pred.Answers (w'.pred.offers headKey pos key grew) w'.pred.nclauses answer.1 answer.2

theorem Probed.of_asked {pos key : Nat} {grew : Bool} {w : World} {q : Pred} {answer : Nat × Nat}
    (asked : Pred.Asked headKey pos key grew w.pred q)
    (answers : Pred.Answers (w.pred.offers headKey pos key grew) w.pred.nclauses answer.1
      answer.2) :
    Probed headKey pos key grew w answer { w with pred := q } := by
  obtain ⟨offers, count⟩ := asked.offers
  obtain ⟨-, -, -, recAt, -⟩ := Pred.of_unlisted asked.list
  have recs : q.recs = w.pred.recs := by rw [Pred.recs, recAt, count, Pred.recs]
  have tera : q.unlisted.tera = w.pred.unlisted.tera := by rw [asked.list]
  refine ⟨asked.ok, rfl, ?_, .inl recs, Nat.le_of_eq tera, .inl ⟨_, _, asked.list⟩, ?_⟩
  · intro _ was
    have copied : q.unlisted.framed = w.pred.unlisted.framed := by rw [asked.list]
    exact copied.trans was
  · show Pred.Answers (q.offers headKey pos key grew) q.nclauses answer.1 answer.2
    rw [offers, count]
    exact answers

/-- A probe after a step that changed no clause is a probe of before it. -/
theorem Probed.after {pos key : Nat} {grew : Bool} {w v w' : World} {answer : Nat × Nat}
    (tprobe : Nat) (framed : Bool) (same : v = { w with pred := { w.pred with tprobe, framed } })
    (keeps : w.frames ≠ [] → w.pred.framed = true → framed = true)
    (quiet : (v.framesOn .any).1 = 0 → (w.framesOn .any).1 = 0)
    (probed : Probed headKey pos key grew v answer w') : Probed headKey pos key grew w answer w' := by
  subst same
  refine ⟨probed.ok, probed.frames, ?_, probed.swept, probed.tera, ?_, probed.answers⟩
  · intro open_ was
    exact probed.framed open_ (keeps open_ was)
  · rcases probed.list with ⟨tprobe', framed', list⟩ | none_
    · exact .inl ⟨tprobe', framed', list⟩
    · exact .inr ⟨quiet none_.1, none_.2⟩

theorem framesOn_any_fst (w : World) :
    (w.framesOn .any).1 = if w.pred.framed = false then 0 else min 1 w.frames.length := by
  simp only [framesOn]
  split <;> rfl

theorem Probed.of_ticked {pos key : Nat} {grew : Bool} {w w' : World} {answer : Nat × Nat}
    (probed : Probed headKey pos key grew w.ticked answer w') :
    Probed headKey pos key grew w answer w' :=
  Probed.after ((w.pred.tprobe + 1) % 2 ^ 32) w.pred.framed rfl (fun _ h => h)
    (fun h => by rwa [framesOn_any_fst] at h ⊢) probed

theorem offers_of_none_dead {p : Pred} (none_dead : p.ntomb = 0) (pos key : Nat) (grew : Bool) :
    p.offers headKey pos key grew = p.lets headKey pos key grew := by
  funext i
  simp [Pred.offers, Pred.dead, none_dead]

theorem ticked_ok {w : World} (ok : w.pred.Ok headKey) : w.ticked.pred.Ok headKey :=
  ⟨ok.dead, ok.probe, ok.first, ok.others⟩

theorem walk_probed {w : World} (ok : w.pred.Ok headKey) {pos : Nat} (inside : pos ≤ aixCount)
    (key : Nat) (grew : Bool) :
    Probed headKey pos key grew w (w.walk headKey pos key grew).1
      (w.walk headKey pos key grew).2 := by
  obtain ⟨answers, asked⟩ := Pred.probeWalk_spec ok inside key grew
  exact Probed.of_asked asked answers

theorem probeHot_probed {w : World} (ok : w.pred.Ok headKey) (hot : w.pred.nprobe ≠ 0) {pos : Nat}
    (inside : pos ≤ aixCount) (key : Nat) (grew : Bool) (again : World → (Nat × Nat) × World) :
    Probed headKey pos key grew w (w.probeOnce headKey pos key grew again).1
      (w.probeOnce headKey pos key grew again).2 := by
  have none_dead : w.pred.ntomb = 0 := by
    have probe := ok.probe
    split at probe
    · rename_i both
      exact both.1
    · exact absurd probe hot
  simp only [probeOnce, if_neg hot]
  split
  · rename_i plain
    obtain ⟨answers, asked⟩ := Pred.probeHot_spec ok hot key grew
    have lets : ∀ p : Pred, p.lets headKey pos key grew = p.lets headKey 0 key grew := by
      intro p
      funext i
      rcases plain with first | zero
      · rw [first]
      · simp [Pred.lets, admits, zero]
    refine Probed.of_asked ⟨asked.ok, asked.list, ?_⟩ ?_
    · rw [lets, lets, asked.lets]
    · rw [offers_of_none_dead none_dead, lets]
      exact answers
  · obtain ⟨answers, asked⟩ := Pred.probeAsks_spec ok inside key grew
    refine Probed.of_asked asked ?_
    rw [offers_of_none_dead none_dead]
    exact answers

/-- With nothing dead the probe sweeps nothing and asks nothing again. -/
theorem probeOnce_none_dead {w : World} (ok : w.pred.Ok headKey) (none_dead : w.pred.ntomb = 0)
    {pos : Nat} (inside : pos ≤ aixCount) (key : Nat) (grew : Bool)
    (again : World → (Nat × Nat) × World) :
    Probed headKey pos key grew w (w.probeOnce headKey pos key grew again).1
      (w.probeOnce headKey pos key grew again).2 := by
  by_cases hot : w.pred.nprobe ≠ 0
  · exact probeHot_probed ok hot inside key grew again
  · simp only [probeOnce, if_pos (not_not.mp hot)]
    split
    · rename_i empty
      refine ⟨ok, rfl, fun _ h => h, .inl rfl, Nat.le_refl _, .inl ⟨_, _, rfl⟩, .inl ⟨rfl, ?_⟩⟩
      exact positions_of_ge (Nat.le_of_eq empty)
    · have zero : w.ticked.pred.ntomb = 0 := none_dead
      rw [probeDead, if_neg (by rw [zero]; simp)]
      exact (walk_probed (ticked_ok ok) inside key grew).of_ticked

theorem framesOn_any_framed (w : World) :
    (w.framesOn .any).2 = w ∨
      (w.framesOn .any).2 = { w with pred := { w.pred with framed := !w.frames.isEmpty } } := by
  simp only [framesOn]
  split
  · exact .inl rfl
  · exact .inr rfl

theorem framesOn_any_again (w : World) (framed : Bool) (open_ : framed = !w.frames.isEmpty) :
    (({ w with pred := { w.pred with framed } } : World).framesOn .any).1 = 0 ↔ w.frames = [] := by
  subst open_
  cases w.frames with
  | nil => simp [framesOn]
  | cons f rest => simp [framesOn]

/-- The answer and what it leaves, whatever is dead and whether it was swept. -/
theorem probeAt_spec {w : World} (ok : w.pred.Ok headKey) {pos : Nat} (inside : pos ≤ aixCount)
    (key : Nat) (grew : Bool) :
    Probed headKey pos key grew w (w.probeAt headKey pos key grew).1
      (w.probeAt headKey pos key grew).2 := by
  by_cases none_dead : w.pred.ntomb = 0
  · exact probeOnce_none_dead ok none_dead inside key grew _
  · have cold : w.pred.nprobe = 0 := by
      rw [ok.probe, if_neg (by tauto)]
    have some_ : w.pred.nclauses ≠ 0 := by
      intro empty
      have short : w.pred.ntomb ≤ w.pred.nclauses := by
        rw [ok.dead, ← Pred.length_recs]
        exact List.countP_le_length
      omega
    simp only [probeAt, probeOnce, if_pos cold, if_neg some_]
    refine Probed.of_ticked ?_
    have ok' := ticked_ok ok
    rw [probeDead]
    split
    · have sweeps := trySweep_eq (show w.ticked.pred.ntomb ≠ 0 from none_dead)
      have any_ok := framesOn_ok ok' .any
      by_cases quiet : (w.ticked.framesOn .any).1 = 0
      · -- swept: nothing is dead any more, and no frame was open
        rw [sweeps, if_neg (not_not.mpr quiet)]
        have clean : ((w.ticked.framesOn .any).2.pred.sweep).ntomb = 0 := by
          have dead := (any_ok.sweep).dead
          rw [Pred.sweep_recs any_ok, Pred.countP_filter_live _ Rec.live (fun _ h => h)] at dead
          exact dead
        have probed := probeOnce_none_dead (w := { (w.ticked.framesOn .any).2 with
          pred := (w.ticked.framesOn .any).2.pred.sweep }) any_ok.sweep clean inside key grew
          (fun w => ((0, 0), w))
        have frames : (w.ticked.framesOn .any).2.frames = w.ticked.frames := by
          rcases framesOn_any_framed w.ticked with eq | eq <;> rw [eq]
        have still : (probeOnce headKey pos key grew (fun w => ((0, 0), w))
            { (w.ticked.framesOn .any).2 with
              pred := (w.ticked.framesOn .any).2.pred.sweep }).2.pred.ntomb = 0 := by
          rcases probed.list with ⟨tprobe, framed, list⟩ | ⟨-, none_⟩
          · exact (congrArg Pred.ntomb list).trans clean
          · exact none_
        have any_tera : (w.ticked.framesOn .any).2.pred.tera = w.ticked.pred.tera := by
          obtain ⟨framed, any_eq⟩ := framesOn_pred w.ticked .any
          rw [any_eq]
        have tera := (probed.tera.trans (Pred.sweep_tera _)).trans (Nat.le_of_eq any_tera)
        refine ⟨probed.ok, probed.frames.trans frames, ?_, ?_, tera, .inr ⟨quiet, still⟩,
          probed.answers⟩
        · intro open_ was
          exfalso
          have counted : (w.ticked.framesOn .any).1 = min 1 w.ticked.frames.length := by
            simp [framesOn, was]
          rw [counted] at quiet
          have empty : w.ticked.frames.length = 0 := by omega
          exact open_ (List.length_eq_zero_iff.mp empty)
        · refine swept_trans (.inr ?_) probed.swept
          show ((w.ticked.framesOn .any).2.pred.sweep).recs = _
          rw [Pred.sweep_recs any_ok, framesOn_recs]
      · -- a frame is open: the dead stay, and the walk goes over them
        rw [sweeps, if_pos quiet]
        have probed := walk_probed any_ok inside key grew
        rcases framesOn_any_framed w.ticked with eq | eq
        · rw [eq] at probed ⊢
          exact probed
        · rw [eq] at probed ⊢
          refine Probed.after w.ticked.pred.tprobe _ rfl ?_ ?_ probed
          · intro open_ _
            simpa using open_
          · intro none_
            have empty := (framesOn_any_again w.ticked _ rfl).mp none_
            simp only [framesOn]
            split
            · rfl
            · simp [empty]
    · exact walk_probed ok' inside key grew

/-- The asks of `coco_jit_speedup` over the call's bound arguments, which build their
tables on the way. -/
def assess (headKey : Nat → Nat → Nat) (key : Nat → Nat) (grew : Bool) (w : World) : World :=
  (List.range (min w.pred.arity (aixCount + 1))).foldl (fun w pos =>
    if pos = 0 ∨ key pos = 0 then w
    else { w with pred := (w.pred.aixGet headKey pos grew).2 }) w

/-- `coco_pred_jit`, after a probe on the first argument answered 3 with `ix`. `best` is the
argument the assessment chose, 0 for the first argument or none. -/
def jit (headKey : Nat → Nat → Nat) (key : Nat → Nat) (best ix : Nat) (grew : Bool) (w : World) :
    (Nat × Nat) × World :=
  let w := w.assess headKey key grew
  if best = 0 then ((2, ix), w) else w.probeAt headKey best (key best) grew

theorem aixGet_asked {p : Pred} (ok : p.Ok headKey) {at_ : Nat} (positive : 0 < at_)
    (pos key : Nat) (grew : Bool) :
    Pred.Asked headKey pos key grew p (p.aixGet headKey at_ grew).2 := by
  have list := Pred.aixGet_unlisted headKey p at_ grew
  obtain ⟨-, keys, clauses, -⟩ := Pred.of_unlisted list
  refine ⟨ok.aixGet positive grew, list, ?_⟩
  cases grew with
  | true =>
    funext i
    simp only [Pred.lets, Pred.keyAt, keys, clauses, or_true, if_true]
  | false =>
    have same : (p.aixGet headKey at_ false).2 = p := by
      simp only [Pred.aixGet]
      split <;> rfl
    rw [same]

theorem assess_asked {w : World} (ok : w.pred.Ok headKey) (keys : Nat → Nat) (pos key : Nat)
    (grew : Bool) : (w.assess headKey keys grew).frames = w.frames ∧
      Pred.Asked headKey pos key grew w.pred (w.assess headKey keys grew).pred := by
  have fold : ∀ (l : List Nat) (v : World), v.frames = w.frames →
      Pred.Asked headKey pos key grew w.pred v.pred →
      (l.foldl (fun w pos => if pos = 0 ∨ keys pos = 0 then w
        else { w with pred := (w.pred.aixGet headKey pos grew).2 }) v).frames = w.frames ∧
      Pred.Asked headKey pos key grew w.pred (l.foldl (fun w pos =>
        if pos = 0 ∨ keys pos = 0 then w
        else { w with pred := (w.pred.aixGet headKey pos grew).2 }) v).pred := by
    intro l
    induction l with
    | nil => exact fun v frames asked => ⟨frames, asked⟩
    | cons at_ rest ih =>
      intro v frames asked
      rw [List.foldl_cons]
      split
      · exact ih v frames asked
      · rename_i keyed
        have positive : 0 < at_ := Nat.pos_of_ne_zero fun zero => keyed (.inl zero)
        exact ih _ frames (asked.trans (aixGet_asked asked.ok positive pos key grew))
  exact fold _ w rfl (Pred.Asked.refl ok pos key grew)

/-- The answer of the argument chosen, or 2 where the first argument's probe found more
than one. -/
theorem jit_answers {w : World} (ok : w.pred.Ok headKey) (keys : Nat → Nat) {best ix : Nat}
    (inside : best ≤ aixCount) (grew : Bool)
    (more : Pred.Answers (w.pred.offers headKey 0 (keys 0) grew) w.pred.nclauses 3 ix) :
    let r := w.jit headKey keys best ix grew
    Pred.Answers (r.2.pred.offers headKey best (keys best) grew) r.2.pred.nclauses r.1.1 r.1.2 := by
  obtain ⟨-, asked⟩ := assess_asked ok keys 0 (keys 0) grew
  obtain ⟨offers, count⟩ := asked.offers
  simp only [jit]
  split
  · rename_i first
    subst first
    rw [offers, count]
    rcases more with ⟨none_, -⟩ | ⟨one, -⟩ | ⟨-, two⟩
    · cases none_
    · cases one
    · exact .inr (.inr ⟨.inl rfl, two⟩)
  · exact (probeAt_spec asked.ok inside (keys best) grew).answers

end World

end Cocolog.Store
