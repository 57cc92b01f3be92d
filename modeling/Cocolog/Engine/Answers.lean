import Cocolog.Engine.Control

/-! The engine finds the answers its goals mean. Every goal, over any continuation and any frames,
carries its search out; so the answers `coco_engine_next` gives one after another are the
search's, and the run ends as the search does. -/

set_option linter.all false

namespace Cocolog.Engine

open Cocolog.Lib

variable {σ ω T B C : Type}

namespace Memory

section Solve

variable {mem : Memory σ σ ω T B C} {s : σ} {w : ω} {choices : List (Choice σ T C)}
  {k : List (Pending T)} {b n : Nat}

theorem Fulfils.trueItem (b' d : Nat) :
    mem.Fulfils (.answer s w .fail) choices k b d (.goes ⟨s, w, ⟨.true_, b'⟩ :: k, choices⟩) :=
  after (Takes.one rfl) (yes s w)

theorem Fulfils.failItem (b' d : Nat) :
    mem.Fulfils (.fail w) choices k b d (.goes ⟨s, w, ⟨.fail, b'⟩ :: k, choices⟩) :=
  after (Takes.one rfl) (failed s w)

theorem Fulfils.guarded {x : Search σ ω B} {e then_ : State σ σ ω T C} {g : T} {d : Nat}
    (fulfils : mem.Fulfils x e.choices k b d (.goes then_)) :
    mem.Fulfils (mem.guarded e.memory e.world g x) e.choices k b d (mem.checked e g then_) := by
  unfold Memory.guarded Memory.checked
  cases mem.unfit e.memory g with
  | some ball => exact thrown e.memory e.world ball
  | none => exact fulfils

/-- Every goal `n` calls deep carries its search out wherever it is run. -/
def Carries (mem : Memory σ σ ω T B C) (n : Nat) : Prop :=
  ∀ s w g k (choices : List (Choice σ T C)) b, b ≤ choices.length →
    mem.Fulfils (mem.solve n s w g) choices k b n (.goes ⟨s, w, ⟨.goal g, b⟩ :: k, choices⟩)

variable (kept : Kept mem) (carries : Carries mem n)
include kept carries

theorem ite_carries {c : T} {t els : Item T} {f : σ → ω → Search σ ω B} {e : ω → Search σ ω B}
    (goes : ∀ s w, mem.Fulfils (f s w) choices k b n (.goes ⟨s, w, ⟨t, b⟩ :: k, choices⟩))
    (fails : ∀ w, mem.Fulfils (e w) choices k b n (.goes ⟨s, w, ⟨els, b⟩ :: k, choices⟩)) :
    mem.Fulfils ((mem.solve n s w c).ite f e) choices k b n
      (.goes (mem.ite ⟨s, w, k, choices⟩ c t els b)) := by
  apply Fulfils.ite (c := mem.frame ⟨s, w, k, choices⟩ .goal (.item els) k b)
  · exact Kind.noConfusion
  · apply carries
    exact Nat.le_refl _
  · exact goes
  · intro s' w'
    rw [mem.backtrack_goal s' w' choices rfl rfl, kept.back]
    simp only [frame, kept.mark]
    exact fails w'

theorem softIte_carries {c t : T} {els : Item T} {e : ω → Search σ ω B}
    (within : b ≤ choices.length)
    (fails : ∀ w, mem.Fulfils (e w) choices k b n (.goes ⟨s, w, ⟨els, b⟩ :: k, choices⟩)) :
    mem.Fulfils ((mem.solve n s w c).soft (fun s w => mem.solve n s w t) e) choices k b n
      (.goes (mem.softIte ⟨s, w, k, choices⟩ c t els b)) := by
  apply Fulfils.soft (c := mem.frame ⟨s, w, k, choices⟩ .goal (.item els) k b) rfl within
  · apply carries
    exact Nat.le_refl _
  · intro s w choices within
    exact carries s w t k choices b within
  · intro s' w'
    rw [mem.backtrack_goal s' w' choices rfl rfl, kept.back]
    simp only [frame, kept.mark]
    exact fails w'

theorem orElse_carries {l r : T} (within : b ≤ choices.length) :
    mem.Fulfils ((mem.solve n s w l).orElse (fun w => mem.solve n s w r)) choices k b n
      (.goes ⟨s, w, ⟨.goal l, b⟩ :: k,
        mem.frame ⟨s, w, k, choices⟩ .goal (.item (.goal r)) k b :: choices⟩) := by
  apply Fulfils.orElse [mem.frame ⟨s, w, k, choices⟩ .goal (.item (.goal r)) k b] within
  · apply carries
    exact Nat.le_succ_of_le within
  · intro c among
    rw [List.mem_singleton.mp among]
    exact Kind.noConfusion
  · intro none
    cases none
  · intro choices' w' s' same
    rw [List.singleton_append, mem.backtrack_goal s' w' choices' rfl rfl, kept.back]
    simp only [frame, kept.mark]
    apply carries
    rw [same]
    exact within

theorem catch_carries {c catcher recovery : T} (within : b ≤ choices.length) :
    mem.Fulfils ((mem.guarded s w c (mem.solve n s w c)).catching
        (fun w ball => (mem.catches s catcher ball).map (fun s => mem.solve n s w recovery)))
      choices k b n (mem.checked (mem.enterCatch ⟨s, w, k, choices⟩ c catcher recovery b) c
        (mem.enterCatch ⟨s, w, k, choices⟩ c catcher recovery b)) := by
  have goal : mem.Fulfils (mem.guarded s w c (mem.solve n s w c))
      (mem.frame ⟨s, w, k, choices⟩ .catch_ (.catch_ catcher recovery) k b :: choices)
      (⟨.catchExit choices.length, b⟩ :: k) (choices.length + 1) n
      (mem.checked (mem.enterCatch ⟨s, w, k, choices⟩ c catcher recovery b) c
        (mem.enterCatch ⟨s, w, k, choices⟩ c catcher recovery b)) := by
    apply Fulfils.guarded (e := mem.enterCatch ⟨s, w, k, choices⟩ c catcher recovery b)
    apply carries
    exact Nat.le_refl _
  apply Fulfils.catching rfl rfl goal
  · intro choices' s' w' ball same
    rw [mem.throw_catch s' w' choices' ball rfl rfl, kept.back]
    simp only [frame, kept.mark]
    cases mem.catches s catcher ball with
    | none => exact Fulfils.thrown s w' ball
    | some s₁ =>
      apply carries
      rw [same]
      exact within

theorem clauses_carries (g : T) (candidates : List C) :
    mem.Fulfils (mem.choose (mem.solve n) s g candidates w).closed choices k b n
      (mem.tryClauses ⟨s, w, k, choices⟩ g b candidates) := by
  apply Fulfils.closed
  rw [mem.tryClauses_eq]
  have found := Fulfils.choose kept (f := mem.solve n) (m := choices.length)
    (c := mem.frame ⟨s, w, k, choices⟩ .clause (.item (.goal g)) k b)
    (fun s w g k choices' within => carries s w g k choices' choices.length within)
    candidates rfl rfl rfl s w
  simp only [frame, kept.mark] at found ⊢
  exact found

theorem construct_carries (s : σ) (w : ω) (g : T) (k : List (Pending T))
    (choices : List (Choice σ T C)) (b : Nat) (within : b ≤ choices.length) :
    mem.Fulfils (mem.solve (n + 1) s w g) choices k b n (mem.construct ⟨s, w, k, choices⟩ g b) := by
  unfold solve construct
  cases mem.view s g with
  | true_ => exact Fulfils.yes s w
  | fail => exact Fulfils.failed s w
  | cut =>
    have committed : mem.Fulfils (.answer s w .fail) (cutTo b choices) k b n
        (.goes ⟨s, w, k, cutTo b choices⟩) := Fulfils.yes s w
    exact committed
  | conj l r =>
    apply Fulfils.all _ _ s w choices within
    intro s w g k choices within
    exact carries s w g k choices b within
  | disj l r =>
    have plain := orElse_carries kept carries (s := s) (w := w) (k := k) (l := l) (r := r) within
    have fails : ∀ w, mem.Fulfils (mem.solve n s w r) choices k b n
        (.goes ⟨s, w, ⟨.goal r, b⟩ :: k, choices⟩) := by
      intro w
      exact carries s w r k choices b within
    simp only
    cases mem.view s l with
    | ifThen c t =>
      apply ite_carries kept carries _ fails
      intro s w
      exact carries s w t k choices b within
    | softThen c t => exact softIte_carries kept carries within fails
    | _ => exact plain
  | ifThen c t =>
    apply ite_carries kept carries
    · intro s w
      exact carries s w t k choices b within
    · intro w
      exact Fulfils.failItem b n
  | softThen c t =>
    apply softIte_carries kept carries within
    intro w
    exact Fulfils.failItem b n
  | naf c =>
    apply ite_carries kept carries
    · intro s w
      exact Fulfils.failItem b n
    · intro w
      exact Fulfils.trueItem b n
  | not_ c =>
    apply Fulfils.guarded (e := ⟨s, w, k, choices⟩)
    apply ite_carries kept carries
    · intro s w
      exact Fulfils.failItem b n
    · intro w
      exact Fulfils.trueItem b n
  | once c =>
    apply Fulfils.guarded (e := ⟨s, w, k, choices⟩)
    apply ite_carries kept carries
    · intro s w
      exact Fulfils.trueItem b n
    · intro w
      exact Fulfils.failItem b n
  | ignore c =>
    apply Fulfils.guarded (e := ⟨s, w, k, choices⟩)
    apply ite_carries kept carries
    · intro s w
      exact Fulfils.trueItem b n
    · intro w
      exact Fulfils.trueItem b n
  | call c =>
    apply Fulfils.guarded (e := ⟨s, w, k, choices⟩)
    apply Fulfils.closed
    exact carries s w c k choices choices.length (Nat.le_refl _)
  | catch_ c catcher recovery => exact catch_carries kept carries within
  | throw_ ball => exact Fulfils.thrown s w _
  | other =>
    simp only [enterCalled]
    cases mem.called s w g with
    | exits s w => exact Fulfils.yes s w
    | fails w => exact Fulfils.failed s w
    | raises w ball => exact Fulfils.thrown s w ball
    | calls s w g =>
      apply Fulfils.closed
      exact carries s w g k choices choices.length (Nat.le_refl _)
    | clauses w candidates => exact clauses_carries kept carries g candidates

end Solve

theorem carries {mem : Memory σ σ ω T B C} (kept : Kept mem) (n : Nat) : Carries mem n := by
  induction n with
  | zero =>
    intro s w g k choices b _ j lt
    cases lt
  | succ n ih =>
    intro s w g k choices b within
    apply Fulfils.turn
    exact construct_carries kept ih s w g k choices b within

section Asked

variable {M : Type} {mem : Memory σ M ω T B C} {host : σ → ω → ω} {o o' : Outcome σ M ω T B C}
  {n m : Nat}

theorem asked_no (n : Nat) (s : σ) (w : ω) :
    mem.asked host n (.no s w) = ([], .failed w) := by
  cases n <;> rfl

theorem asked_uncaught (n : Nat) (s : σ) (w : ω) (ball : B) :
    mem.asked host n (.uncaught s w ball) = ([], .thrown w ball) := by
  cases n <;> rfl

theorem asked_takes (host : σ → ω → ω) (takes : mem.Takes n o o') (m : Nat) :
    mem.asked host (n + m) o = mem.asked host m o' := by
  induction n generalizing o with
  | zero =>
    cases takes
    rw [Nat.zero_add]
  | succ n ih =>
    cases o with
    | goes e =>
      rw [Nat.succ_add]
      exact ih takes
    | solved e => cases takes
    | no s w => cases takes
    | uncaught s w ball => cases takes

/-- More turns give the same answers and perhaps more. -/
theorem asked_more (mem : Memory σ M ω T B C) (host : σ → ω → ω) (n m : Nat)
    (o : Outcome σ M ω T B C) :
    Upto (mem.asked host n o) (mem.asked host (n + m) o) := by
  induction n generalizing o with
  | zero =>
    cases o with
    | goes e => exact Upto.nothing _
    | solved e => exact Upto.nothing _
    | no s w =>
      right
      rw [asked_no, asked_no]
    | uncaught s w ball =>
      right
      rw [asked_uncaught, asked_uncaught]
  | succ n ih =>
    rw [Nat.succ_add]
    cases o with
    | goes e => exact ih (mem.step e)
    | solved e => exact (ih _).cons _
    | no s w =>
      right
      rw [asked_no, asked_no]
    | uncaught s w ball =>
      right
      rw [asked_uncaught, asked_uncaught]

end Asked

section Found

variable {mem : Memory σ σ ω T B C} {x : Search σ ω B} {b d : Nat} {o : Outcome σ σ ω T B C}
  (host : σ → ω → ω)

theorem Takes.answered {n m : Nat} {s : σ} {w : ω} {own : List (Choice σ T C)}
    (takes : mem.Takes n o (.goes ⟨s, w, [], own ++ []⟩)) :
    mem.asked host (n + 2 + m) o =
      ((s, w) :: (mem.asked host m (mem.backtrack s (host s w) (own ++ []))).1,
        (mem.asked host m (mem.backtrack s (host s w) (own ++ []))).2) := by
  rw [Nat.add_assoc, asked_takes host takes, Nat.add_comm 2 m]
  rfl

/-- What a run says in fewer turns than the search is deep is what the search says. -/
theorem asked_upto (fulfils : mem.Fulfils x [] [] b d o) {n : Nat} (lt : n < d) :
    Upto (mem.asked host n o) (x.found host) := by
  induction x generalizing d o n with
  | fail w =>
    obtain ⟨m, s, takes⟩ := fulfils
    have whole := asked_takes host takes n
    rw [mem.backtrack_nil, asked_no] at whole
    have more := asked_more mem host n m o
    rw [Nat.add_comm, whole] at more
    exact more
  | throw w ball =>
    obtain ⟨m, s, takes⟩ := fulfils
    have whole := asked_takes host takes n
    rw [throw_, asked_uncaught] at whole
    have more := asked_more mem host n m o
    rw [Nat.add_comm, whole] at more
    exact more
  | lost =>
    obtain ⟨e, takes⟩ := fulfils n lt
    have whole := asked_takes host takes 0
    rw [Nat.add_zero] at whole
    rw [whole]
    exact Upto.nothing _
  | cut rest ih =>
    rw [Fulfils, cutTo, List.drop_nil] at fulfils
    exact ih fulfils lt
  | answer s w rest ih =>
    obtain ⟨m, own, takes, _, _, resumes⟩ := fulfils
    rcases Nat.lt_or_ge n (m + 2) with early | late
    · have more := asked_more mem host n (m + 1 - n) o
      rw [Nat.add_sub_of_le (Nat.le_of_lt_succ early), asked_takes host takes] at more
      rcases more with ⟨open_, first⟩ | same
      · left
        constructor
        · exact open_
        · rw [List.prefix_nil.mp first]
          exact List.nil_prefix
      · rw [same]
        exact Upto.nothing _
    · obtain ⟨left, rfl⟩ := Nat.exists_eq_add_of_le late
      rw [Takes.answered host takes]
      apply Upto.cons
      apply ih
      · exact resumes [] _ _ rfl
      · omega

/-- Whatever the search says, a run long enough says. -/
theorem found_upto (fulfils : mem.Fulfils x [] [] b d o) :
    ∃ n, Upto (x.found host) (mem.asked host n o) := by
  induction x generalizing d o with
  | fail w =>
    obtain ⟨m, s, takes⟩ := fulfils
    refine ⟨m + 0, ?_⟩
    right
    rw [asked_takes host takes, mem.backtrack_nil, asked_no]
    rfl
  | throw w ball =>
    obtain ⟨m, s, takes⟩ := fulfils
    refine ⟨m + 0, ?_⟩
    right
    rw [asked_takes host takes, throw_, asked_uncaught]
    rfl
  | lost => exact ⟨0, Upto.nothing _⟩
  | cut rest ih =>
    rw [Fulfils, cutTo, List.drop_nil] at fulfils
    exact ih fulfils
  | answer s w rest ih =>
    obtain ⟨m, own, takes, _, _, resumes⟩ := fulfils
    obtain ⟨n, upto⟩ := ih (host s w) (resumes [] (host s w) s rfl)
    refine ⟨m + 2 + n, ?_⟩
    rw [Takes.answered host takes]
    exact upto.cons (s, w)

end Found

end Memory

end Cocolog.Engine
