import Cocolog.Lib.Wire

/-! Two scanners over one text, the first building something and the second only collecting.
They stand at the same place after every step, or the first has given up; then the second
has too, or the reason shows in what it collected. -/

set_option linter.all false

namespace Cocolog.Lib.Wire

variable {φ α β γ δ : Type}

/-- The same place, and related answers. -/
def Alike (p : Scanner φ α) (q : Scanner φ β) (R : α → β → Prop) : Prop :=
  ∀ z, (p z).2 = (q z).2 ∧ R (p z).1 (q z).1

/-- The same, unless the first gave up. -/
def Follows (p : Scanner φ α) (q : Scanner φ β) (R : α → β → Prop) (F : β → Prop) : Prop :=
  ∀ z, ((p z).2 = (q z).2 ∧ R (p z).1 (q z).1) ∨
    ((p z).2.stop.isSome = true ∧ ((q z).2.stop.isSome = true ∨ F (q z).1))

/-- What was given up stays so. -/
def Lasting (p : Scanner φ α) : Prop := ∀ z, z.stop.isSome = true → (p z).2.stop.isSome = true

/-- Whatever the text, the answer is of this kind. -/
def Yields (p : Scanner φ α) (P : α → Prop) : Prop := ∀ z, P (p z).1

section

variable {p : Scanner φ α} {q : Scanner φ β} {R : α → β → Prop} {F : β → Prop} {S : γ → δ → Prop} {G : δ → Prop}

theorem bind_run {f : α → Scanner φ γ} (p : Scanner φ α) (z : Scan φ) : (p >>= f) z = f (p z).1 (p z).2 := rfl

theorem Alike.refl (p : Scanner φ α) : Alike p p Eq := fun _ => ⟨rfl, rfl⟩

theorem Alike.pure {a : α} {b : β} (related : R a b) : Alike (Pure.pure a : Scanner φ α) (Pure.pure b) R :=
  fun _ => ⟨rfl, related⟩

theorem Alike.bind {f : α → Scanner φ γ} {g : β → Scanner φ δ} (first : Alike p q R)
    (second : ∀ a b, R a b → Alike (f a) (g b) S) : Alike (p >>= f) (q >>= g) S := by
  intro z
  obtain ⟨place, related⟩ := first z
  rw [bind_run, bind_run, place]
  exact second _ _ related _

theorem Alike.follows (alike : Alike p q R) : Follows p q R F := fun z => .inl (alike z)

theorem Lasting.pure (a : α) : Lasting (Pure.pure a : Scanner φ α) := fun _ stopped => stopped

theorem Lasting.bind {f : α → Scanner φ γ} (first : Lasting p) (second : ∀ a, Lasting (f a)) : Lasting (p >>= f) :=
  fun z stopped => second _ _ (first z stopped)

theorem Yields.pure {P : α → Prop} {a : α} (yes : P a) : Yields (Pure.pure a : Scanner φ α) P := fun _ => yes

theorem Yields.bind {P : γ → Prop} {f : α → Scanner φ γ} (each : ∀ a, Yields (f a) P) : Yields (p >>= f) P :=
  fun z => each _ (p z).2

/-- Scanners in a row: when the first of them gave up, the rest does not take it back. -/
theorem Follows.bind {f : α → Scanner φ γ} {g : β → Scanner φ δ} (first : Follows p q R F)
    (second : ∀ a b, R a b → Follows (f a) (g b) S G) (lasting : ∀ a, Lasting (f a)) (lasting' : ∀ b, Lasting (g b))
    (shown : ∀ b, F b → Yields (g b) G) : Follows (p >>= f) (q >>= g) S G := by
  intro z
  rcases first z with ⟨place, related⟩ | ⟨stopped, both | why⟩
  · rw [bind_run, bind_run, place]
    exact second _ _ related _
  · exact .inr ⟨lasting _ _ stopped, .inl (lasting' _ _ both)⟩
  · exact .inr ⟨lasting _ _ stopped, .inr (shown _ why _)⟩

/-- A step of the first scanner only. -/
theorem Follows.alone {f : α → Scanner φ γ} {q' : Scanner φ δ} {R : α → Unit → Prop} {F : Unit → Prop}
    (first : Follows p (Pure.pure ()) R F) (second : ∀ a, R a () → Follows (f a) q' S G) (lasting : ∀ a, Lasting (f a))
    (lasting' : Lasting q') (shown : F () → Yields q' G) : Follows (p >>= f) q' S G :=
  @Follows.bind _ _ _ _ _ _ _ _ _ _ _ f (fun _ => q') first (fun a _ related => second a related) lasting (fun _ => lasting')
    fun _ why => shown why

theorem Alike.bindFollows {f : α → Scanner φ γ} {g : β → Scanner φ δ} (first : Alike p q R)
    (second : ∀ a b, R a b → Follows (f a) (g b) S G) : Follows (p >>= f) (q >>= g) S G := by
  intro z
  obtain ⟨place, related⟩ := first z
  rw [bind_run, bind_run, place]
  exact second _ _ related _

end

section

variable {body : α → Scanner φ α} {body' : β → Scanner φ β} {R : α → β → Prop} {F : β → Prop}

theorem scanFor_stopped {z : Scan φ} (stopped : z.stop.isSome = true) (n : Nat) (a : α) :
    scanFor body n a z = (a, z) := by
  cases n with
  | zero => rfl
  | succ n => simp [scanFor, stopped]

theorem scanFor_turn {z : Scan φ} (going : z.stop.isSome = false) (n : Nat) (a : α) :
    scanFor body (n + 1) a z = scanFor body n (body a z).1 (body a z).2 := by
  simp only [scanFor, going]
  rfl

theorem lasting_scanFor (n : Nat) (a : α) : Lasting (scanFor body n a) := by
  intro z stopped
  rw [scanFor_stopped stopped]
  exact stopped

theorem yields_scanFor (keeps : ∀ b, F b → Yields (body' b) F) (n : Nat) {b : β} (start : F b) :
    Yields (scanFor body' n b) F := by
  induction n generalizing b with
  | zero => exact fun _ => start
  | succ n ih =>
    intro z
    cases going : z.stop.isSome with
    | true =>
      rw [scanFor_stopped going]
      exact start
    | false =>
      rw [scanFor_turn going]
      exact ih (keeps b start z) _

theorem follows_scanFor (each : ∀ a b, R a b → Follows (body a) (body' b) R F) (keeps : ∀ b, F b → Yields (body' b) F)
    (n : Nat) {a : α} {b : β} (start : R a b) : Follows (scanFor body n a) (scanFor body' n b) R F := by
  induction n generalizing a b with
  | zero => exact fun _ => .inl ⟨rfl, start⟩
  | succ n ih =>
    intro z
    cases going : z.stop.isSome with
    | true =>
      rw [scanFor_stopped going, scanFor_stopped going]
      exact .inl ⟨rfl, start⟩
    | false =>
      rw [scanFor_turn going, scanFor_turn going]
      rcases each a b start z with ⟨place, related⟩ | ⟨stopped, both | why⟩
      · rw [place]
        exact ih related _
      · rw [scanFor_stopped stopped, scanFor_stopped both]
        exact .inr ⟨stopped, .inl both⟩
      · rw [scanFor_stopped stopped]
        exact .inr ⟨stopped, .inr (yields_scanFor keeps n why _)⟩

theorem alike_scanFor (each : ∀ a b, R a b → Alike (body a) (body' b) R) (n : Nat) {a : α} {b : β} (start : R a b) :
    Alike (scanFor body n a) (scanFor body' n b) R := by
  induction n generalizing a b with
  | zero => exact fun _ => ⟨rfl, start⟩
  | succ n ih =>
    intro z
    cases going : z.stop.isSome with
    | true =>
      rw [scanFor_stopped going, scanFor_stopped going]
      exact ⟨rfl, start⟩
    | false =>
      obtain ⟨place, related⟩ := each a b start z
      rw [scanFor_turn going, scanFor_turn going, place]
      exact ih related _

end

end Cocolog.Lib.Wire
