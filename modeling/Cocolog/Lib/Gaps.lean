import Cocolog.Lib.Hashed

/-! Taking a key out of a table that is probed. The position it leaves is filled from the run
after it: an entry goes back to the gap unless its own start stands past the gap. -/

set_option linter.all false

namespace Cocolog.Lib

/-- How far `j` is from `i`, onward and around. -/
def ahead (n i j : Nat) : Nat := if i ≤ j then j - i else j + n - i

theorem ahead_cases (n i j : Nat) : (i ≤ j ∧ ahead n i j = j - i) ∨ (j < i ∧ ahead n i j = j + n - i) := by
  unfold ahead
  split
  · rename_i le
    exact .inl ⟨le, rfl⟩
  · rename_i lt
    exact .inr ⟨by omega, rfl⟩

/-- The test that `h` is in `(i, j]`, around the table. -/
theorem between_iff {n h i j : Nat} (lth : h < n) (lti : i < n) (ltj : j < n) :
    (if i ≤ j then i < h ∧ h ≤ j else i < h ∨ h ≤ j) ↔ 0 < ahead n i h ∧ ahead n i h ≤ ahead n i j := by
  have := ahead_cases n i h
  have := ahead_cases n i j
  split <;> omega

variable {K : Type*} {e n : Nat} {start : K → Nat} {at_ : Nat → Option K} {k : K} {f i j s : Nat}

theorem around_cases (lt : i < 2 ^ e) : (i + 1 = 2 ^ e ∧ around e i = 0) ∨ (i + 1 < 2 ^ e ∧ around e i = i + 1) := by
  rw [around, Nat.and_two_pow_sub_one_eq_mod]
  by_cases last : i + 1 = 2 ^ e
  · exact .inl ⟨last, by rw [last, Nat.mod_self]⟩
  · exact .inr ⟨by omega, Nat.mod_eq_of_lt (by omega)⟩

theorem around_lt (lt : i < 2 ^ e) : around e i < 2 ^ e := by
  have := around_cases lt
  omega

/-- One turn on, `f` is one nearer. -/
theorem around_ahead (lt : j < 2 ^ e) (other : j ≠ f) (ltf : f < 2 ^ e) :
    ahead (2 ^ e) (around e j) f + 1 = ahead (2 ^ e) j f := by
  have here := ahead_cases (2 ^ e) j f
  have next := ahead_cases (2 ^ e) (around e j) f
  have := around_cases lt
  omega

/-- The walk from `i` is at `t` after as many turns as `t` is ahead. -/
theorem walk_at (lt : i < 2 ^ e) (d : Nat) (small : d < 2 ^ e) :
    (around e)^[d] i < 2 ^ e ∧ ahead (2 ^ e) i ((around e)^[d] i) = d := by
  have walk : (around e)^[d] i = (i + d) % 2 ^ e := iterate_mask_succ lt d
  have far := ahead_cases (2 ^ e) i ((i + d) % 2 ^ e)
  rw [walk]
  refine ⟨Nat.mod_lt _ (Nat.two_pow_pos e), ?_⟩
  by_cases wraps : i + d < 2 ^ e
  · rw [Nat.mod_eq_of_lt wraps] at far ⊢
    omega
  · rw [Nat.mod_eq_sub_mod (by omega), Nat.mod_eq_of_lt (by omega)] at far ⊢
    omega

theorem walk_ahead (lt : i < 2 ^ e) (lt' : s < 2 ^ e) : (around e)^[ahead (2 ^ e) i s] i = s := by
  have walk : (around e)^[ahead (2 ^ e) i s] i = (i + ahead (2 ^ e) i s) % 2 ^ e := iterate_mask_succ lt _
  rw [walk]
  rcases ahead_cases (2 ^ e) i s with ⟨le, far⟩ | ⟨before, far⟩
  · rw [far, Nat.add_sub_cancel' le, Nat.mod_eq_of_lt lt']
  · rw [far, show i + (s + 2 ^ e - i) = 2 ^ e + s by omega, Nat.add_mod_left, Nat.mod_eq_of_lt lt']

namespace Hashed

variable [DecidableEq K]

/-- Every position from a key's start to the key is taken. -/
theorem covers (hashed : Hashed e start at_) (lt : s < 2 ^ e) (here : at_ s = some k) {p : Nat} (lt' : p < 2 ^ e)
    (before : ahead (2 ^ e) (start k) p < ahead (2 ^ e) (start k) s) : at_ p ≠ none := by
  have stops := hashed.stops k
  rw [hashed.found lt here] at stops
  obtain ⟨d, small, is, -, first⟩ := stops
  have far := (walk_at (hashed.begins k) d small).2
  rw [is] at far
  have going := first _ (far ▸ before)
  rw [walk_ahead (hashed.begins k) lt'] at going
  intro none_
  rw [ends, none_] at going
  cases going

theorem of_covers (begins : ∀ k, start k < 2 ^ e) (free : ∃ s < 2 ^ e, at_ s = none)
    (once : ∀ s s' k, s < 2 ^ e → s' < 2 ^ e → at_ s = some k → at_ s' = some k → s = s')
    (covers : ∀ s k p, s < 2 ^ e → p < 2 ^ e → at_ s = some k → ahead (2 ^ e) (start k) p < ahead (2 ^ e) (start k) s →
      at_ p ≠ none) : Hashed e start at_ := by
  refine ⟨begins, fun {s k} lt here => StopsAt.probe_eq ?_, free⟩
  have small : ahead (2 ^ e) (start k) s < 2 ^ e := by
    have := begins k
    have := ahead_cases (2 ^ e) (start k) s
    omega
  refine ⟨ahead (2 ^ e) (start k) s, small, walk_ahead (begins k) lt, by simp [ends, here], fun d less => ?_⟩
  obtain ⟨lt', far⟩ := walk_at (begins k) d (by omega)
  have taken := covers s k _ lt lt' here (by omega)
  have other : at_ ((around e)^[d] (start k)) ≠ some k := fun same => by
    have := once _ _ k lt' lt same here
    rw [this] at far
    omega
  rw [ends, Bool.or_eq_false_iff]
  exact ⟨beq_false_of_ne taken, beq_false_of_ne other⟩

end Hashed

/-- A table with a gap at `i`, filled as far as `j`: a key whose walk meets the gap stands past `j`. The
position `f` is free. -/
structure Gap (n : Nat) (start : K → Nat) (at_ : Nat → Option K) (f i j : Nat) : Prop where
  begins : ∀ k, start k < n
  inside : i < n ∧ j < n ∧ f < n
  gap : at_ i = none
  free : at_ f = none
  short : ahead n i j < ahead n i f
  once : ∀ s s' k, s < n → s' < n → at_ s = some k → at_ s' = some k → s = s'
  meets : ∀ s k p, s < n → p < n → at_ s = some k → ahead n (start k) p < ahead n (start k) s → at_ p = none →
    p = i ∧ ahead n i j < ahead n i s

namespace Gap

/-- A key taken out leaves a gap. -/
theorem opened [DecidableEq K] (hashed : Hashed e start at_) (lt : i < 2 ^ e) (here : at_ i = some k) (ltf : f < 2 ^ e) (free : at_ f = none) :
    Gap (2 ^ e) start (Function.update at_ i none) f i i := by
  have other : f ≠ i := by
    rintro rfl
    rw [here] at free
    cases free
  have old : ∀ {s k}, Function.update at_ i none s = some k → s ≠ i ∧ at_ s = some k := by
    intro s k is
    by_cases same : s = i
    · rw [same, Function.update_self] at is
      cases is
    · exact ⟨same, by rwa [Function.update_of_ne same] at is⟩
  refine ⟨hashed.begins, ⟨lt, lt, ltf⟩, Function.update_self .., by rw [Function.update_of_ne other, free], ?_, ?_, ?_⟩
  · have := ahead_cases (2 ^ e) i i
    have := ahead_cases (2 ^ e) i f
    omega
  · intro s s' k lt lt' is is'
    exact hashed.inj lt lt' (old is).2 (old is').2
  · intro s k p lt' ltp is before none_
    obtain ⟨off, is⟩ := old is
    have taken := hashed.covers lt' is ltp before
    have same : p = i := by
      by_contra off
      rw [Function.update_of_ne off] at none_
      exact taken none_
    have := ahead_cases (2 ^ e) i i
    have := ahead_cases (2 ^ e) i s
    exact ⟨same, by omega⟩

variable (gap : Gap (2 ^ e) start at_ f i j)
include gap

theorem next_lt : around e j < 2 ^ e := around_lt gap.inside.2.1

/-- The next position, which is no farther than the free one. -/
theorem next_ahead : ahead (2 ^ e) i (around e j) = ahead (2 ^ e) i j + 1 := by
  obtain ⟨lti, ltj, ltf⟩ := gap.inside
  have short := gap.short
  have far := ahead_cases (2 ^ e) i f
  have here := ahead_cases (2 ^ e) i j
  have next := ahead_cases (2 ^ e) i (around e j)
  have := around_cases ltj
  omega

/-- At a free position no key's walk meets the gap any more. -/
theorem closed [DecidableEq K] (none_ : at_ (around e j) = none) : Hashed e start at_ := by
  refine .of_covers gap.begins ⟨f, gap.inside.2.2, gap.free⟩ gap.once fun s k p lt ltp is before empty => ?_
  obtain ⟨rfl, past⟩ := gap.meets s k p lt ltp is before empty
  have next := gap.next_ahead
  have other : s ≠ around e j := by
    rintro rfl
    rw [none_] at is
    cases is
  have lt' := gap.next_lt
  -- the free position is on the walk to the key, past the gap
  have on : ahead (2 ^ e) (start k) (around e j) < ahead (2 ^ e) (start k) s := by
    have begins := gap.begins k
    have := ahead_cases (2 ^ e) (start k) s
    have := ahead_cases (2 ^ e) (start k) p
    have := ahead_cases (2 ^ e) (start k) (around e j)
    have := ahead_cases (2 ^ e) p (around e j)
    have := ahead_cases (2 ^ e) p s
    omega
  obtain ⟨same, -⟩ := gap.meets s k _ lt lt' is on none_
  have := ahead_cases (2 ^ e) p (around e j)
  omega

/-- An entry whose start stands past the gap stays. -/
theorem keep (here : at_ (around e j) = some k) (past : 0 < ahead (2 ^ e) i (start k))
    (within : ahead (2 ^ e) i (start k) ≤ ahead (2 ^ e) i (around e j)) : Gap (2 ^ e) start at_ f i (around e j) := by
  obtain ⟨lti, ltj, ltf⟩ := gap.inside
  have next := gap.next_ahead
  have lt' := gap.next_lt
  have short := gap.short
  have otherf : f ≠ around e j := by
    rintro rfl
    rw [gap.free] at here
    cases here
  refine ⟨gap.begins, ⟨lti, lt', ltf⟩, gap.gap, gap.free, ?_, gap.once, fun s k' p lt ltp is before none_ => ?_⟩
  · have := ahead_cases (2 ^ e) i f
    have := ahead_cases (2 ^ e) i (around e j)
    omega
  · obtain ⟨rfl, beyond⟩ := gap.meets s k' p lt ltp is before none_
    refine ⟨rfl, ?_⟩
    have begins := gap.begins k'
    have other : s ≠ around e j := by
      rintro rfl
      rw [here] at is
      cases is
      have := ahead_cases (2 ^ e) (start k) (around e j)
      have := ahead_cases (2 ^ e) (start k) p
      have := ahead_cases (2 ^ e) p (start k)
      have := ahead_cases (2 ^ e) p (around e j)
      omega
    have := ahead_cases (2 ^ e) p s
    have := ahead_cases (2 ^ e) p (around e j)
    omega

/-- Any other entry goes back to the gap, and the gap is where it was. -/
theorem move (here : at_ (around e j) = some k)
    (back : ¬(0 < ahead (2 ^ e) i (start k) ∧ ahead (2 ^ e) i (start k) ≤ ahead (2 ^ e) i (around e j))) :
    Gap (2 ^ e) start (Function.update (Function.update at_ i (some k)) (around e j) none) f (around e j) (around e j) := by
  obtain ⟨lti, ltj, ltf⟩ := gap.inside
  have next := gap.next_ahead
  have lt' := gap.next_lt
  have begins := gap.begins k
  have none_ : ∀ {p}, at_ p = none → p ≠ around e j := by
    rintro p empty rfl
    rw [here] at empty
    cases empty
  have off := none_ gap.gap
  have otherf := none_ gap.free
  have otheri : f ≠ i := by
    rintro rfl
    exact Nat.lt_irrefl _ (Nat.lt_of_le_of_lt (by have := ahead_cases (2 ^ e) f f; omega) gap.short)
  -- an entry afterwards: the one that went back, or one that stands as it did
  have old : ∀ {s k'}, Function.update (Function.update at_ i (some k)) (around e j) none s = some k' →
      s ≠ around e j ∧ (s = i ∧ k' = k ∨ s ≠ i ∧ at_ s = some k') := by
    intro s k' is
    by_cases same : s = around e j
    · rw [same, Function.update_self] at is
      cases is
    · rw [Function.update_of_ne same] at is
      refine ⟨same, ?_⟩
      by_cases at_gap : s = i
      · rw [at_gap, Function.update_self] at is
        cases is
        exact .inl ⟨at_gap, rfl⟩
      · rw [Function.update_of_ne at_gap] at is
        exact .inr ⟨at_gap, is⟩
  have empty : ∀ {p}, Function.update (Function.update at_ i (some k)) (around e j) none p = none →
      p = around e j ∨ p ≠ i ∧ at_ p = none := by
    intro p is
    by_cases same : p = around e j
    · exact .inl same
    · rw [Function.update_of_ne same] at is
      by_cases at_gap : p = i
      · rw [at_gap, Function.update_self] at is
        cases is
      · rw [Function.update_of_ne at_gap] at is
        exact .inr ⟨at_gap, is⟩
  refine ⟨gap.begins, ⟨lt', lt', ltf⟩, Function.update_self .., ?_, ?_, ?_, ?_⟩
  · rw [Function.update_of_ne otherf, Function.update_of_ne otheri, gap.free]
  · have := ahead_cases (2 ^ e) (around e j) (around e j)
    have := ahead_cases (2 ^ e) (around e j) f
    omega
  · intro s s' k' lts lts' is is'
    obtain ⟨offs, ⟨at_s, rfl⟩ | ⟨-, was⟩⟩ := old is
    · obtain ⟨offs', ⟨at_s', -⟩ | ⟨-, was'⟩⟩ := old is'
      · rw [at_s, at_s']
      · exact absurd (gap.once _ _ _ lts' lt' was' here) offs'
    · obtain ⟨offs', ⟨at_s', rfl⟩ | ⟨-, was'⟩⟩ := old is'
      · exact absurd (gap.once _ _ _ lts lt' was here) offs
      · exact gap.once _ _ _ lts lts' was was'
  · intro s k' p lts ltp is before is_none
    obtain ⟨offs, ⟨rfl, rfl⟩ | ⟨-, is⟩⟩ := old is
    · have := ahead_cases (2 ^ e) (start k') (around e j)
      have := ahead_cases (2 ^ e) (start k') p
      have := ahead_cases (2 ^ e) (start k') s
      have := ahead_cases (2 ^ e) s (start k')
      have := ahead_cases (2 ^ e) s (around e j)
      rcases empty is_none with rfl | ⟨offp, empty⟩
      · omega
      · obtain ⟨same, -⟩ := gap.meets _ k' p lt' ltp here (by omega) empty
        exact absurd same offp
    · rcases empty is_none with rfl | ⟨offp, empty⟩
      · have := ahead_cases (2 ^ e) (around e j) (around e j)
        have := ahead_cases (2 ^ e) (around e j) s
        exact ⟨rfl, by omega⟩
      · exact absurd (gap.meets s k' p lts ltp is before empty).1 offp

end Gap

end Cocolog.Lib
