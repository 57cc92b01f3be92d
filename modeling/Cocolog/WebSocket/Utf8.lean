import Cocolog.Text.Utf8

/-! The UTF-8 of RFC 3629 as `library(websocket)` checks it: the bytes of a list of Unicode
scalar values and no others. -/

set_option linter.all false

namespace Cocolog.WebSocket

def wsTail (b : Nat) : Bool := 128 ≤ b ∧ b ≤ 191

/-- `ws_utf8/1`, the byte that picks the clause first. -/
def wsUtf8 : List Nat → Bool
  | [] => true
  | b0 :: bs =>
    if b0 < 128 then wsUtf8 bs
    else match bs with
    | [] => false
    | b1 :: bs =>
      if 194 ≤ b0 ∧ b0 ≤ 223 then wsTail b1 && wsUtf8 bs
      else match bs with
      | [] => false
      | b2 :: bs =>
        if b0 = 224 then 160 ≤ b1 && b1 ≤ 191 && wsTail b2 && wsUtf8 bs
        else if 225 ≤ b0 ∧ b0 ≤ 236 then wsTail b1 && wsTail b2 && wsUtf8 bs
        else if b0 = 237 then 128 ≤ b1 && b1 ≤ 159 && wsTail b2 && wsUtf8 bs
        else if 238 ≤ b0 ∧ b0 ≤ 239 then wsTail b1 && wsTail b2 && wsUtf8 bs
        else match bs with
        | [] => false
        | b3 :: bs =>
          if b0 = 240 then 144 ≤ b1 && b1 ≤ 191 && wsTail b2 && wsTail b3 && wsUtf8 bs
          else if 241 ≤ b0 ∧ b0 ≤ 243 then wsTail b1 && wsTail b2 && wsTail b3 && wsUtf8 bs
          else if b0 = 244 then 128 ≤ b1 && b1 ≤ 143 && wsTail b2 && wsTail b3 && wsUtf8 bs
          else false

/-! ## What the check admits -/

/-- A Unicode scalar value: no surrogate and nothing past U+10FFFF. -/
def Scalar (c : Nat) : Prop := c ≤ 1114111 ∧ ¬(55296 ≤ c ∧ c ≤ 57343)

def scalarBytes (c : Nat) : List Nat :=
  if c < 128 then [c]
  else if c < 2048 then [192 + c / 64, 128 + c % 64]
  else if c < 65536 then [224 + c / 4096, 128 + c / 64 % 64, 128 + c % 64]
  else [240 + c / 262144, 128 + c / 4096 % 64, 128 + c / 64 % 64, 128 + c % 64]

def IsUtf8 (bytes : List Nat) : Prop := ∃ l : List Nat, (∀ c ∈ l, Scalar c) ∧ bytes = l.flatMap scalarBytes

/-! The scalar value of each form. -/

theorem two_bytes {b0 b1 : Nat} (first : 194 ≤ b0 ∧ b0 ≤ 223) (second : 128 ≤ b1 ∧ b1 ≤ 191) :
    Scalar ((b0 - 192) * 64 + (b1 - 128)) ∧ [b0, b1] = scalarBytes ((b0 - 192) * 64 + (b1 - 128)) := by
  refine ⟨⟨by omega, by omega⟩, ?_⟩
  rw [scalarBytes, if_neg (by omega), if_pos (by omega)]
  simp only [List.cons.injEq, and_true]
  omega

theorem three_bytes {b0 b1 b2 : Nat} (first : 224 ≤ b0 ∧ b0 ≤ 239) (second : 128 ≤ b1 ∧ b1 ≤ 191)
    (third : 128 ≤ b2 ∧ b2 ≤ 191) (shortest : b0 = 224 → 160 ≤ b1) (plain : b0 = 237 → b1 ≤ 159) :
    Scalar ((b0 - 224) * 4096 + (b1 - 128) * 64 + (b2 - 128)) ∧
      [b0, b1, b2] = scalarBytes ((b0 - 224) * 4096 + (b1 - 128) * 64 + (b2 - 128)) := by
  refine ⟨⟨by omega, by omega⟩, ?_⟩
  rw [scalarBytes, if_neg (by omega), if_neg (by omega), if_pos (by omega)]
  simp only [List.cons.injEq, and_true]
  omega

theorem four_bytes {b0 b1 b2 b3 : Nat} (first : 240 ≤ b0 ∧ b0 ≤ 244) (second : 128 ≤ b1 ∧ b1 ≤ 191)
    (third : 128 ≤ b2 ∧ b2 ≤ 191) (fourth : 128 ≤ b3 ∧ b3 ≤ 191) (shortest : b0 = 240 → 144 ≤ b1)
    (last : b0 = 244 → b1 ≤ 143) :
    Scalar ((b0 - 240) * 262144 + (b1 - 128) * 4096 + (b2 - 128) * 64 + (b3 - 128)) ∧
      [b0, b1, b2, b3] = scalarBytes ((b0 - 240) * 262144 + (b1 - 128) * 4096 + (b2 - 128) * 64 + (b3 - 128)) := by
  refine ⟨⟨by omega, by omega⟩, ?_⟩
  rw [scalarBytes, if_neg (by omega), if_neg (by omega), if_neg (by omega)]
  simp only [List.cons.injEq, and_true]
  omega

theorem IsUtf8.cons {c : Nat} {head bs : List Nat} (one : Scalar c ∧ head = scalarBytes c)
    (rest : IsUtf8 bs) : IsUtf8 (head ++ bs) := by
  obtain ⟨l, scalars, rfl⟩ := rest
  refine ⟨c :: l, ?_, by rw [one.2, List.flatMap_cons]⟩
  rintro c' (_ | ⟨_, mem⟩)
  · exact one.1
  · exact scalars c' mem

theorem isUtf8_of_wsUtf8 (bytes : List Nat) (holds : wsUtf8 bytes = true) : IsUtf8 bytes := by
  match bytes with
  | [] => exact ⟨[], by simp, rfl⟩
  | b0 :: bs =>
    rw [wsUtf8.eq_def] at holds
    rcases ite_eq_iff.mp holds with ⟨one, holds⟩ | ⟨_, holds⟩
    · have ascii : Scalar b0 ∧ [b0] = scalarBytes b0 := ⟨⟨by omega, by omega⟩, by rw [scalarBytes, if_pos one]⟩
      exact .cons ascii (isUtf8_of_wsUtf8 bs holds)
    match bs with
    | [] => cases holds
    | b1 :: bs =>
      rcases ite_eq_iff.mp holds with ⟨two, holds⟩ | ⟨_, holds⟩
      · simp only [wsTail, Bool.and_eq_true, decide_eq_true_eq] at holds
        exact .cons (two_bytes two holds.1) (isUtf8_of_wsUtf8 bs holds.2)
      match bs with
      | [] => cases holds
      | b2 :: bs =>
        have three (good : (224 ≤ b0 ∧ b0 ≤ 239) ∧ (128 ≤ b1 ∧ b1 ≤ 191) ∧ (128 ≤ b2 ∧ b2 ≤ 191) ∧
            (b0 = 224 → 160 ≤ b1) ∧ (b0 = 237 → b1 ≤ 159)) (rest : wsUtf8 bs = true) : IsUtf8 (b0 :: b1 :: b2 :: bs) :=
          .cons (three_bytes good.1 good.2.1 good.2.2.1 good.2.2.2.1 good.2.2.2.2) (isUtf8_of_wsUtf8 bs rest)
        rcases ite_eq_iff.mp holds with ⟨_, holds⟩ | ⟨_, holds⟩
        · simp only [wsTail, Bool.and_eq_true, decide_eq_true_eq] at holds
          exact three (by omega) holds.2
        rcases ite_eq_iff.mp holds with ⟨_, holds⟩ | ⟨_, holds⟩
        · simp only [wsTail, Bool.and_eq_true, decide_eq_true_eq] at holds
          exact three (by omega) holds.2
        rcases ite_eq_iff.mp holds with ⟨_, holds⟩ | ⟨_, holds⟩
        · simp only [wsTail, Bool.and_eq_true, decide_eq_true_eq] at holds
          exact three (by omega) holds.2
        rcases ite_eq_iff.mp holds with ⟨_, holds⟩ | ⟨_, holds⟩
        · simp only [wsTail, Bool.and_eq_true, decide_eq_true_eq] at holds
          exact three (by omega) holds.2
        match bs with
        | [] => cases holds
        | b3 :: bs =>
          have four (good : (240 ≤ b0 ∧ b0 ≤ 244) ∧ (128 ≤ b1 ∧ b1 ≤ 191) ∧ (128 ≤ b2 ∧ b2 ≤ 191) ∧
              (128 ≤ b3 ∧ b3 ≤ 191) ∧ (b0 = 240 → 144 ≤ b1) ∧ (b0 = 244 → b1 ≤ 143)) (rest : wsUtf8 bs = true) :
              IsUtf8 (b0 :: b1 :: b2 :: b3 :: bs) :=
            .cons (four_bytes good.1 good.2.1 good.2.2.1 good.2.2.2.1 good.2.2.2.2.1 good.2.2.2.2.2)
              (isUtf8_of_wsUtf8 bs rest)
          rcases ite_eq_iff.mp holds with ⟨_, holds⟩ | ⟨_, holds⟩
          · simp only [wsTail, Bool.and_eq_true, decide_eq_true_eq] at holds
            exact four (by omega) holds.2
          rcases ite_eq_iff.mp holds with ⟨_, holds⟩ | ⟨_, holds⟩
          · simp only [wsTail, Bool.and_eq_true, decide_eq_true_eq] at holds
            exact four (by omega) holds.2
          rcases ite_eq_iff.mp holds with ⟨_, holds⟩ | ⟨_, holds⟩
          · simp only [wsTail, Bool.and_eq_true, decide_eq_true_eq] at holds
            exact four (by omega) holds.2
          · cases holds

theorem wsUtf8_ascii {bytes : List Nat} (ascii : bytes.all (· < 128) = true) : wsUtf8 bytes = true := by
  induction bytes with
  | nil => rfl
  | cons b bytes ih =>
    rw [List.all_cons, Bool.and_eq_true, decide_eq_true_iff] at ascii
    rw [wsUtf8.eq_def]
    dsimp only
    rw [if_pos ascii.1]
    exact ih ascii.2

theorem wsTail_low (n : Nat) : wsTail (128 + n % 64) = true := by
  simp only [wsTail, decide_eq_true_eq]
  omega

theorem wsUtf8_scalar {c : Nat} (scalar : Scalar c) (bs : List Nat) :
    wsUtf8 (scalarBytes c ++ bs) = wsUtf8 bs := by
  obtain ⟨top, plain⟩ := scalar
  unfold scalarBytes
  split
  · rename_i one
    rw [List.singleton_append, wsUtf8.eq_def]
    dsimp only
    rw [if_pos one]
  rename_i high
  split
  · rename_i two
    rw [List.cons_append, List.singleton_append, wsUtf8.eq_def]
    dsimp only
    rw [if_neg (by omega), if_pos (by omega), wsTail_low, Bool.true_and]
  rename_i high
  split
  · rename_i three
    rw [List.cons_append, List.cons_append, List.singleton_append, wsUtf8.eq_def]
    dsimp only
    rw [if_neg (by omega), if_neg (by omega)]
    simp only [wsTail_low, Bool.and_true, Bool.true_and]
    split
    · simp only [decide_eq_true (show 160 ≤ 128 + c / 64 % 64 by omega),
        decide_eq_true (show 128 + c / 64 % 64 ≤ 191 by omega), Bool.true_and]
    split
    · rfl
    split
    · simp only [decide_eq_true (show 128 ≤ 128 + c / 64 % 64 by omega),
        decide_eq_true (show 128 + c / 64 % 64 ≤ 159 by omega), Bool.true_and]
    · rw [if_pos (by omega)]
  · rename_i four
    rw [List.cons_append, List.cons_append, List.cons_append, List.singleton_append, wsUtf8.eq_def]
    dsimp only
    rw [if_neg (by omega), if_neg (by omega), if_neg (by omega), if_neg (by omega), if_neg (by omega),
      if_neg (by omega)]
    simp only [wsTail_low, Bool.and_true, Bool.true_and]
    split
    · simp only [decide_eq_true (show 144 ≤ 128 + c / 4096 % 64 by omega),
        decide_eq_true (show 128 + c / 4096 % 64 ≤ 191 by omega), Bool.true_and]
    split
    · rfl
    · rw [if_pos (by omega)]
      simp only [decide_eq_true (show 128 ≤ 128 + c / 4096 % 64 by omega),
        decide_eq_true (show 128 + c / 4096 % 64 ≤ 143 by omega), Bool.true_and]

/-- The check holds of the bytes of scalar values and of nothing else. -/
theorem wsUtf8_iff (bytes : List Nat) : wsUtf8 bytes = true ↔ IsUtf8 bytes := by
  refine ⟨isUtf8_of_wsUtf8 bytes, ?_⟩
  rintro ⟨l, scalars, rfl⟩
  induction l with
  | nil => rfl
  | cons c l ih =>
    rw [List.flatMap_cons, wsUtf8_scalar (scalars c List.mem_cons_self)]
    exact ih fun c' mem => scalars c' (List.mem_cons_of_mem _ mem)

end Cocolog.WebSocket
