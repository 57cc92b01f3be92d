import Mathlib.Data.List.Basic

/-! What the search for a goal finds: its answers in the order they come, and then its
failure or a ball. A cut keeps the first answer of what stands before it and drops the
clauses that follow. -/

set_option linter.all false

namespace Cocolog.Lib

structure Answers (ε α : Type) where
  found : List α
  ball : Option ε
deriving DecidableEq

namespace Answers

variable {ε α β : Type}

def fail : Answers ε α := ⟨[], none⟩

def one (a : α) : Answers ε α := ⟨[a], none⟩

def throw (e : ε) : Answers ε α := ⟨[], some e⟩

/-- Each answer of `l` goes on to `f`, up to the first ball; after the last one the search
ends as `ball` says. -/
def each (f : α → Answers ε β) (ball : Option ε) : List α → Answers ε β
  | [] => ⟨[], ball⟩
  | a :: l =>
    match (f a).ball with
    | some e => ⟨(f a).found, some e⟩
    | none => ⟨(f a).found ++ (each f ball l).found, (each f ball l).ball⟩

/-- `p, f`. -/
def andThen (p : Answers ε α) (f : α → Answers ε β) : Answers ε β := each f p.ball p.found

/-- The answers of `p` and then, when it raised nothing, those of the clauses after it. -/
def orElse (p q : Answers ε α) : Answers ε α :=
  match p.ball with
  | some _ => p
  | none => ⟨p.found ++ q.found, q.ball⟩

/-- `guard, !, body` with `rest` the clauses after it, or `guard -> body ; rest`. -/
def commit (guard : Answers ε α) (body : α → Answers ε β) (rest : Answers ε β) : Answers ε β :=
  match guard.found with
  | a :: _ => body a
  | [] =>
    match guard.ball with
    | some e => throw e
    | none => rest

/-- `catch(p, Ball, q)`, where `q` is none for a ball that `Ball` does not unify with. -/
def caught (p : Answers ε α) (q : ε → Option (Answers ε α)) : Answers ε α :=
  match p.ball.bind q with
  | some r => ⟨p.found ++ r.found, r.ball⟩
  | none => p

instance : Monad (Answers ε) where
  pure := one
  bind := andThen

/-- A test. -/
def ask (b : Prop) [Decidable b] : Answers ε Unit := if b then one () else fail

@[simp] theorem pure_eq (a : α) : (pure a : Answers ε α) = one a := rfl

@[simp] theorem one_bind (a : α) (f : α → Answers ε β) : (one a >>= f) = f a := by
  show (one a).andThen f = f a
  cases h : f a with
  | mk found ball => cases ball <;> simp [andThen, each, one, h]

@[simp] theorem throw_bind (e : ε) (f : α → Answers ε β) : (throw e >>= f) = throw e := rfl

@[simp] theorem fail_bind (f : α → Answers ε β) : ((fail : Answers ε α) >>= f) = fail := rfl

theorem each_append (f : α → Answers ε β) (ball : Option ε) (l l' : List α) :
    each f ball (l ++ l') = (each f none l).orElse (each f ball l') := by
  induction l with
  | nil => rfl
  | cons a l ih =>
    rw [List.cons_append, each, each]
    cases (f a).ball with
    | some e => rfl
    | none =>
      simp only [ih, orElse]
      cases h : (each f none l).ball <;> simp [h]

theorem each_ball (f : α → Answers ε β) (e : ε) (l : List α) :
    ∃ e', (each f (some e) l).ball = some e' := by
  induction l with
  | nil => exact ⟨e, rfl⟩
  | cons a l ih =>
    rw [each]
    cases (f a).ball with
    | some e' => exact ⟨e', rfl⟩
    | none => exact ih

theorem bind_assoc {γ : Type} (p : Answers ε α) (f : α → Answers ε β) (g : β → Answers ε γ) :
    (p >>= f >>= g) = p >>= fun a => f a >>= g := by
  obtain ⟨l, ball⟩ := p
  show each g (each f ball l).ball (each f ball l).found = each (fun a => (f a).andThen g) ball l
  induction l with
  | nil => rfl
  | cons a l ih =>
    rw [each, each, andThen]
    cases raised : (f a).ball with
    | some e =>
      obtain ⟨e', ball'⟩ := each_ball g e (f a).found
      show each g (some e) (f a).found = _
      rw [ball']
      simp only
      rw [← ball']
    | none =>
      simp only
      rw [each_append, ih]
      unfold orElse
      cases h : (each g none (f a).found).ball with
      | some e => exact congrArg (Answers.mk _) h
      | none => rfl

@[simp] theorem orElse_fail (q : Answers ε α) : fail.orElse q = q := rfl

@[simp] theorem orElse_throw (e : ε) (q : Answers ε α) : (throw e).orElse q = throw e := rfl

@[simp] theorem commit_one (a : α) (body : α → Answers ε β) (rest : Answers ε β) :
    (one a).commit body rest = body a := rfl

@[simp] theorem commit_throw (e : ε) (body : α → Answers ε β) (rest : Answers ε β) :
    (throw e).commit body rest = throw e := rfl

@[simp] theorem commit_fail (body : α → Answers ε β) (rest : Answers ε β) :
    (fail : Answers ε α).commit body rest = rest := rfl

@[simp] theorem caught_one (a : α) (q : ε → Option (Answers ε α)) : (one a).caught q = one a := rfl

theorem ask_of {b : Prop} [Decidable b] (h : b) : (ask b : Answers ε Unit) = one () := if_pos h

theorem ask_of_not {b : Prop} [Decidable b] (h : ¬b) : (ask b : Answers ε Unit) = fail := if_neg h

theorem commit_ask {b : Prop} [Decidable b] (body : Unit → Answers ε β) (rest : Answers ε β) :
    (ask b).commit body rest = if b then body () else rest := by
  by_cases h : b <;> simp [ask, h]

@[simp] theorem one_ne_fail (a : α) : (one a : Answers ε α) ≠ fail := by simp [one, fail]

@[simp] theorem throw_ne_fail (e : ε) : (throw e : Answers ε α) ≠ fail := by simp [throw, fail]

@[simp] theorem one_ne_throw (a : α) (e : ε) : one a ≠ throw e := by simp [one, throw]

@[simp] theorem one_inj {a b : α} : (one a : Answers ε α) = one b ↔ a = b := by simp [one]

end Answers
end Cocolog.Lib
