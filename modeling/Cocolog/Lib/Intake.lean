import Mathlib.Data.List.Basic
import Mathlib.Data.List.Infix
import Mathlib.Data.UInt

/-! Readers of a stream whose bytes arrive in pieces. What a reader asks for is said by the
bytes themselves: it takes exactly a text `w` and answers `a`, however `w` arrives, and where
the stream ends inside `w` it is lost. Readers of texts one after the other compose. -/

set_option linter.all false

namespace Cocolog.Lib.Intake

variable {σ α β γ : Type}

/-- A program over a state that answers or refuses. -/
def Talk (σ α : Type) : Type := σ → Option α × σ

instance : Monad (Talk σ) where
  pure a c := (some a, c)
  bind p q c :=
    match p c with
    | (some a, c') => q a c'
    | (none, c') => (none, c')

theorem pure_apply (a : α) (c : σ) : (pure a : Talk σ α) c = (some a, c) := rfl

theorem bind_apply (p : Talk σ α) (q : α → Talk σ β) (c : σ) :
    (p >>= q) c = match p c with
      | (some a, c') => q a c'
      | (none, c') => (none, c') := rfl

theorem bind_some {p : Talk σ α} {c : σ} {a : α} (q : α → Talk σ β) (h : (p c).1 = some a) :
    (p >>= q) c = q a (p c).2 := by
  rw [bind_apply]
  generalize p c = r at h
  obtain ⟨x, c'⟩ := r
  cases h
  rfl

theorem bind_none {p : Talk σ α} {c : σ} (q : α → Talk σ β) (h : (p c).1 = none) :
    (p >>= q) c = (none, (p c).2) := by
  rw [bind_apply]
  generalize p c = r at h
  obtain ⟨x, c'⟩ := r
  cases h
  rfl

/-- A program run so many times, its answers in order. -/
def repeated (p : Talk σ α) : Nat → Talk σ (List α)
  | 0 => pure []
  | n + 1 => do
    let a ← p
    let as ← repeated p n
    pure (a :: as)

/-- What a reader sees of a state: the bytes to come before the stream ends, whether it is
open, and whether nothing but its end can close it. -/
structure Source (σ : Type) where
  coming : σ → List UInt8
  isOpen : σ → Prop
  clear : σ → Prop

variable (S : Source σ)

/-- The program answers `a`, and `rest` is then to come. -/
structure Answers (p : Talk σ α) (c : σ) (a : Option α) (rest : List UInt8) : Prop where
  answer : (p c).1 = a
  isOpen : S.isOpen (p c).2
  left : S.coming (p c).2 = rest
  clear : S.clear c → S.clear (p c).2

/-- The program refuses, the stream is closed and nothing more is to come. -/
def Lost (p : Talk σ α) (c : σ) : Prop :=
  (p c).1 = none ∧ ¬S.isOpen (p c).2 ∧ S.coming (p c).2 = []

/-- From this state the program takes the text `w`, no byte less or more, and answers `a`. -/
structure ExactAt (p : Talk σ α) (c : σ) (w : List UInt8) (a : Option α) : Prop where
  whole {rest : List UInt8} : S.coming c = w ++ rest →
    Answers S p c a rest ∨ Lost S p c ∧ ¬S.clear c
  short : S.coming c <+: w → S.coming c ≠ w → Lost S p c

/-- From every open state the program takes the text `w` and answers `a`. -/
def Exact (p : Talk σ α) (w : List UInt8) (a : Option α) : Prop :=
  ∀ c, S.isOpen c → ExactAt S p c w a

variable {S} {p : Talk σ α} {q : α → Talk σ β} {w v : List UInt8} {a : α} {b : Option β}

theorem Lost.bind {c : σ} (lost : Lost S p c) : Lost S (p >>= q) c := by
  rw [Lost, bind_none q lost.1]
  exact ⟨rfl, lost.2⟩

theorem Answers.bind {c : σ} {rest left : List UInt8} (first : Answers S p c (some a) rest)
    (then' : Answers S (q a) (p c).2 b left) : Answers S (p >>= q) c b left := by
  have step := bind_some q first.answer
  exact ⟨step ▸ then'.answer, step ▸ then'.isOpen, step ▸ then'.left,
    fun clear => step ▸ then'.clear (first.clear clear)⟩

theorem Answers.bind_lost {c : σ} {rest : List UInt8} (first : Answers S p c (some a) rest)
    (lost : Lost S (q a) (p c).2) : Lost S (p >>= q) c := by
  rw [Lost, bind_some q first.answer]
  exact lost

theorem Exact.done (a : α) : Exact S (pure a : Talk σ α) [] (some a) := fun _ is =>
  ⟨fun arrives => .inl ⟨rfl, is, arrives, id⟩,
    fun before other => absurd (List.prefix_nil.mp before) other⟩

theorem ExactAt.bind {c : σ} (first : ExactAt S p c w (some a)) (next : Exact S (q a) v b) :
    ExactAt S (p >>= q) c (w ++ v) b := by
  constructor
  · intro rest arrives
    rw [List.append_assoc] at arrives
    rcases first.whole arrives with ok | ⟨lost, blocked⟩
    · rcases (next _ ok.isOpen).whole ok.left with ok' | ⟨lost, blocked⟩
      · exact .inl (ok.bind ok')
      · exact .inr ⟨ok.bind_lost lost, fun clear => blocked (ok.clear clear)⟩
    · exact .inr ⟨lost.bind, blocked⟩
  · intro ⟨t, eq⟩ other
    rcases List.append_eq_append_iff.mp eq with ⟨u, within, tail⟩ | ⟨u, beyond, tail⟩
    · by_cases all : S.coming c = w
      · -- all of the first text is there and nothing of the second
        rcases first.whole (show S.coming c = w ++ [] by simpa using all) with ok | ⟨lost, _⟩
        · refine ok.bind_lost ((next _ ok.isOpen).short (ok.left ▸ List.nil_prefix) ?_)
          rw [ok.left]
          rintro rfl
          exact other (by simpa using all)
        · exact lost.bind
      · exact (first.short ⟨u, within.symm⟩ all).bind
    · rcases first.whole beyond with ok | ⟨lost, _⟩
      · refine ok.bind_lost ((next _ ok.isOpen).short (ok.left ▸ ⟨t, tail.symm⟩) ?_)
        rw [ok.left]
        rintro rfl
        exact other beyond
      · exact lost.bind

theorem Exact.bind (first : Exact S p w (some a)) (next : Exact S (q a) v b) :
    Exact S (p >>= q) (w ++ v) b := fun c is => (first c is).bind next

/-- What refuses ends the program it stands in. -/
theorem Exact.stop (first : Exact S p w none) : Exact S (p >>= q) w none := by
  intro c is
  constructor
  · intro rest arrives
    rcases (first c is).whole arrives with ok | ⟨lost, blocked⟩
    · have step := bind_none q ok.answer
      exact .inl ⟨by rw [step], by rw [step]; exact ok.isOpen, by rw [step]; exact ok.left,
        fun clear => by rw [step]; exact ok.clear clear⟩
    · exact .inr ⟨lost.bind, blocked⟩
  · intro before other
    exact ((first c is).short before other).bind

/-- A value read and handed on. -/
theorem Exact.map {o : Option α} (read : Exact S p w o) (g : α → β) :
    Exact S (do let v ← p; pure (g v) : Talk σ β) w (o.map g) := by
  cases o with
  | none => exact read.stop
  | some v =>
    have done := read.bind (q := fun v => pure (g v)) (.done _)
    rwa [List.append_nil] at done

/-- A text that does not begin with what comes is not to come, and no part of it is. -/
theorem ExactAt.apart {c : σ} {u t : List UInt8} {o : Option α} (comes : S.coming c = u ++ t)
    (shorter : u.length ≤ w.length) (apart : ¬u <+: w) : ExactAt S p c w o := by
  constructor
  · intro rest arrives
    refine absurd ?_ apart
    exact List.prefix_of_prefix_length_le ⟨t, comes.symm⟩ ⟨rest, arrives.symm⟩ shorter
  · intro before _
    exact absurd (List.IsPrefix.trans ⟨t, comes.symm⟩ before) apart

/-- A program that comes to another one, `u` the bytes taken on the way. -/
theorem ExactAt.onward {c d : σ} {p' : Talk σ α} {u : List UInt8} {o : Option α}
    (same : p c = p' d) (comes : S.coming c = u ++ S.coming d) (clear : S.clear c → S.clear d)
    (next : ExactAt S p' d w o) : ExactAt S p c (u ++ w) o := by
  constructor
  · intro rest arrives
    rw [comes, List.append_assoc, List.append_cancel_left_eq] at arrives
    rcases next.whole arrives with ok | ⟨lost, blocked⟩
    · exact .inl ⟨same ▸ ok.answer, same ▸ ok.isOpen, same ▸ ok.left,
        fun open' => same ▸ ok.clear (clear open')⟩
    · exact .inr ⟨by rw [Lost, same]; exact lost, fun open' => blocked (clear open')⟩
  · intro before other
    rw [comes] at before other
    rw [Lost, same]
    exact next.short (List.prefix_append_right_inj u |>.mp before)
      fun eq => other (by rw [eq])

theorem Exact.each {xs : List γ} {text : γ → List UInt8} {value : γ → α}
    (each : ∀ x ∈ xs, Exact S p (text x) (some (value x))) :
    Exact S (repeated p xs.length) (xs.flatMap text) (some (xs.map value)) := by
  induction xs with
  | nil => exact .done _
  | cons x xs ih =>
    have rest := ih fun y mem => each y (List.mem_cons_of_mem x mem)
    have done : Exact S (do let as ← repeated p xs.length; pure (value x :: as))
        (xs.flatMap text ++ []) (some (value x :: xs.map value)) := rest.bind (.done _)
    rw [List.append_nil] at done
    exact (each x List.mem_cons_self).bind done

/- Programs that agree where little is to come. -/

variable (S)

/-- The program never makes more come. -/
def Falls (p : Talk σ α) : Prop := ∀ c, (S.coming (p c).2).length ≤ (S.coming c).length

/-- What it answers with, it has taken a byte for. -/
def Takes (p : Talk σ α) : Prop :=
  ∀ c, (p c).1 ≠ none → (S.coming (p c).2).length < (S.coming c).length

/-- The programs are the same wherever fewer than `n` bytes are to come. -/
def Agree (n : Nat) (p p' : Talk σ α) : Prop := ∀ c, (S.coming c).length < n → p c = p' c

variable {S} {n : Nat} {p' : Talk σ α} {q' : α → Talk σ β}

theorem Falls.done (a : α) : Falls S (pure a : Talk σ α) := fun _ => le_rfl

theorem Falls.bind (first : Falls S p) (next : ∀ a, Falls S (q a)) : Falls S (p >>= q) := by
  intro c
  cases h : (p c).1 with
  | none => rw [bind_none q h]; exact first c
  | some a => rw [bind_some q h]; exact (next a _).trans (first c)

theorem Falls.each (falls : Falls S p) (n : Nat) : Falls S (repeated p n) := by
  induction n with
  | zero => exact .done _
  | succ n ih => exact falls.bind fun a => ih.bind fun as => .done _

theorem Agree.refl (p : Talk σ α) : Agree S n p p := fun _ _ => rfl

theorem Agree.bind (first : Agree S n p p') (falls : Falls S p)
    (next : ∀ a, Agree S n (q a) (q' a)) : Agree S n (p >>= q) (p' >>= q') := by
  intro c little
  have same := first c little
  cases h : (p c).1 with
  | none => rw [bind_none q h, bind_none q' (same ▸ h), same]
  | some a => rw [bind_some q h, bind_some q' (same ▸ h), ← same, next a _ ((falls c).trans_lt little)]

/-- After a program that takes a byte, less has to agree. -/
theorem Agree.bind_takes (takes : Takes S p) (next : ∀ a, Agree S n (q a) (q' a)) :
    Agree S (n + 1) (p >>= q) (p >>= q') := by
  intro c little
  cases h : (p c).1 with
  | none => rw [bind_none q h, bind_none q' h]
  | some a =>
    rw [bind_some q h, bind_some q' h, next a]
    have := takes c (by simp [h])
    omega

theorem Agree.each (same : Agree S n p p') (falls : Falls S p) (m : Nat) :
    Agree S n (repeated p m) (repeated p' m) := by
  induction m with
  | zero => exact .refl _
  | succ m ih => exact same.bind falls fun a => ih.bind (falls.each m) fun as => .refl _

/- Numbers, the high byte first. -/

def toBe : Nat → Nat → List UInt8
  | 0, _ => []
  | k + 1, v => toBe k (v / 256) ++ [UInt8.ofNat v]

def ofBe (w : List UInt8) : Nat := w.foldl (fun v b => v * 256 + b.toNat) 0

@[simp] theorem toBe_length (k v : Nat) : (toBe k v).length = k := by
  induction k generalizing v with
  | zero => rfl
  | succ k ih => rw [toBe, List.length_append, ih]; rfl

theorem ofBe_toBe (k v : Nat) : ofBe (toBe k v) = v % 256 ^ k := by
  induction k generalizing v with
  | zero => simp [toBe, ofBe, Nat.mod_one]
  | succ k ih =>
    have high : ofBe (toBe k (v / 256)) = v / 256 % 256 ^ k := ih _
    rw [ofBe] at high
    rw [ofBe, toBe, List.foldl_append, high]
    simp only [List.foldl_cons, List.foldl_nil, UInt8.toNat_ofNat']
    have split : v % 256 ^ (k + 1) = v % 256 + 256 * (v / 256 % 256 ^ k) := by
      rw [Nat.pow_succ, Nat.mul_comm (256 ^ k) 256, Nat.mod_mul]
    omega

end Cocolog.Lib.Intake
