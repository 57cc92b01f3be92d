import Cocolog.Term.Standard

/-! How far the standard order is a total order. Turned round, two finite terms are ordered
the other way; and three terms are in line unless the first place where they differ holds
three numbers in a knot. Cyclic terms have neither. -/

set_option linter.all false

namespace Cocolog.Term

open Cocolog.Lib

namespace Key

theorem order_swap (k k' : Key) : k'.order k = (k.order k').swap := by
  have turned : (compare k'.class_ k.class_) = (compare k.class_ k'.class_).swap := Std.OrientedCmp.eq_swap
  have nats : ∀ m n : Nat, compare n m = (compare m n).swap := fun m n => Std.OrientedCmp.eq_swap
  have bools : ∀ m n : Bool, compare n m = (compare m n).swap := fun m n => Std.OrientedCmp.eq_swap
  have texts : ∀ m n : List Nat, compare n m = (compare m n).swap := fun m n => Std.OrientedCmp.eq_swap
  unfold order
  rw [turned, Ordering.swap_then]
  congr 1
  cases k <;> cases k' <;> first
    | rfl
    | exact nats _ _
    | exact Number.order_swap _ _
    | exact texts _ _
    | (simp only [Ordering.swap_then]; rw [nats, texts])
    | (simp only [Ordering.swap_then]; rw [bools, texts])

/-- How atoms' keys and compounds' are ordered. -/
def atomCmp : Bool × List Nat → Bool × List Nat → Ordering :=
  compareLex (compareOn fun p => !p.1) (compareOn Prod.snd)

def compCmp : Nat × List Nat → Nat × List Nat → Ordering := compareLex (compareOn Prod.fst) (compareOn Prod.snd)

instance : Std.TransCmp atomCmp :=
  inferInstanceAs (Std.TransCmp (compareLex (compareOn fun p : Bool × List Nat => !p.1) (compareOn Prod.snd)))

instance : Std.TransCmp compCmp :=
  inferInstanceAs (Std.TransCmp (compareLex (compareOn fun p : Nat × List Nat => p.1) (compareOn Prod.snd)))

/-- Roots that are not three numbers are in line. -/
theorem order_trans {k k' k'' : Key} (one : k.order k' = .lt) (two : k'.order k'' = .lt)
    (other : ¬ (k.class_ = 1 ∧ k'.class_ = 1 ∧ k''.class_ = 1)) : k.order k'' = .lt := by
  have classes : ∀ {k k' : Key}, k.order k' = .lt → k.class_ ≤ k'.class_ := by
    intro k k' before
    by_contra more
    rw [order_class (by omega), compare_lt_iff_lt] at before
    omega
  have first := classes one
  have second := classes two
  by_cases same : k.class_ = k''.class_
  · have left : k.class_ = k'.class_ := by omega
    have right : k'.class_ = k''.class_ := by omega
    have nats : ∀ {l m n : Nat}, compare l m = .lt → compare m n = .lt → compare l n = .lt :=
      fun one two => Std.TransCmp.lt_trans one two
    have texts : ∀ {l m n : List Nat}, compare l m = .lt → compare m n = .lt → compare l n = .lt :=
      fun one two => Std.TransCmp.lt_trans one two
    have atoms : ∀ {l m n}, atomCmp l m = .lt → atomCmp m n = .lt → atomCmp l n = .lt :=
      fun one two => Std.TransCmp.lt_trans one two
    have comps : ∀ {l m n}, compCmp l m = .lt → compCmp m n = .lt → compCmp l n = .lt :=
      fun one two => Std.TransCmp.lt_trans one two
    cases k with
    | var v =>
      cases k' <;> cases left
      cases k'' <;> cases right
      exact nats (show compare v _ = .lt from one) two
    | num x =>
      cases k' <;> cases left
      cases k'' <;> cases right
      exact absurd ⟨rfl, rfl, rfl⟩ other
    | atom isNil name =>
      cases k' <;> cases left
      cases k'' <;> cases right
      exact atoms (show atomCmp (isNil, name) (_, _) = .lt from one) (show atomCmp _ (_, _) = .lt from two)
    | str bytes =>
      cases k' <;> cases left
      cases k'' <;> cases right
      exact texts (show compare bytes _ = .lt from one) two
    | comp n name =>
      cases k' <;> cases left
      cases k'' <;> cases right
      exact comps (show compCmp (n, name) (_, _) = .lt from one) (show compCmp _ (_, _) = .lt from two)
  · rw [order_class same, compare_lt_iff_lt]
    omega

end Key

/-- The first place where the three differ is one, and holds three numbers in a knot. -/
def Standoff (t u v : PathTree Key) : Prop :=
  ∃ path x y z, (∀ earlier < path, t earlier = u earlier ∧ u earlier = v earlier) ∧
    t path = some (.num x) ∧ u path = some (.num y) ∧ v path = some (.num z) ∧
    (Number.Knot x y z ∨ Number.Knot y z x ∨ Number.Knot z x y)

section Line

variable {t u v : PathTree Key}

theorem Standoff.round (standoff : Standoff t u v) (proper : ∀ w ∈ [t, u, v], ∀ path k, w path = some k → k.Proper) :
    PathTree.Orders Key.order t u .lt ∧ PathTree.Orders Key.order u v .lt ∧ PathTree.Orders Key.order t v .gt := by
  obtain ⟨path, x, y, z, before, left, middle, right, knot⟩ := standoff
  have hx : x.Proper := proper t (by simp) path _ left
  have hy : y.Proper := proper u (by simp) path _ middle
  have hz : z.Proper := proper v (by simp) path _ right
  obtain ⟨one, two, three⟩ := (Number.round_iff hx hy hz).mpr knot
  have one' : Key.order (.num x) (.num y) = .lt := one
  have two' : Key.order (.num y) (.num z) = .lt := two
  have three' : Key.order (.num x) (.num z) = .gt := by
    rw [Key.order_swap, show Key.order (.num z) (.num x) = .lt from three]
    rfl
  refine ⟨?_, ?_, ?_⟩
  · rw [← one']
    exact .first path _ _ (fun p less => (before p less).1) left middle (by rw [one']; nofun)
  · rw [← two']
    exact .first path _ _ (fun p less => (before p less).2) middle right (by rw [two']; nofun)
  · rw [← three']
    exact .first path _ _ (fun p less => (before p less).1.trans (before p less).2) left right
      (by rw [three']; nofun)

/-- Trees are in line exactly where there is no standoff. -/
theorem line_iff (proper : ∀ w ∈ [t, u, v], ∀ path k, w path = some k → k.Proper) {o o' o'' : Ordering}
    (one : PathTree.Orders Key.order t u o) (two : PathTree.Orders Key.order u v o')
    (three : PathTree.Orders Key.order t v o'') : (o = .lt → o' = .lt → o'' = .lt) ↔ ¬ Standoff t u v := by
  constructor
  · intro line standoff
    obtain ⟨before, next, back⟩ := standoff.round proper
    have last := line (one.unique before) (two.unique next)
    rw [three.unique back] at last
    cases last
  · intro none_ before next
    apply three.unique
    cases one with
    | same => cases before
    | first path x y early left right differ =>
      cases two with
      | same => cases next
      | first path' y' z early' left' right' differ' =>
        rcases lt_trichotomy path path' with less | rfl | more
        · -- the first of them decides
          rw [← before]
          refine .first path x y (fun p lt => (early p lt).trans (early' p (lt.trans less))) left ?_ differ
          rw [← early' path less]
          exact right
        · rw [right] at left'
          cases left'
          have apart : x.order z = .lt := by
            by_contra other
            have all : x.class_ = 1 ∧ y.class_ = 1 ∧ z.class_ = 1 := by
              by_contra some_
              exact other (Key.order_trans before next some_)
            cases x with
            | num x =>
              cases y with
              | num y =>
                cases z with
                | num z =>
                  have hx : x.Proper := proper t (by simp) path _ left
                  have hy : y.Proper := proper u (by simp) path _ right
                  have hz : z.Proper := proper v (by simp) path _ right'
                  have one : x.order y = .lt := before
                  have two : y.order z = .lt := next
                  have back : z.order x = .lt := by
                    have turned : z.order x = (x.order z).swap := Number.order_swap x z
                    cases is : x.order z with
                    | lt => exact absurd is other
                    | gt =>
                      rw [is] at turned
                      exact turned
                    | eq =>
                      rw [(Number.order_eq_iff hx hz).mp is, Number.order_swap, two] at one
                      cases one
                  exact none_ ⟨path, x, y, z, fun p lt => ⟨early p lt, early' p lt⟩, left, right, right',
                    (Number.round_iff hx hy hz).mp ⟨one, two, back⟩⟩
                | _ => cases all.2.2
              | _ => cases all.2.1
            | _ => cases all.1
          rw [← apart]
          refine .first path x z (fun p lt => (early p lt).trans (early' p lt)) left right' ?_
          rw [apart]
          nofun
        · rw [← next]
          refine .first path' y' z (fun p lt => (early p (lt.trans more)).trans (early' p lt)) ?_ right' differ'
          rw [early path' more]
          exact left'

end Line

/-- Finite terms: turned round, two are ordered the other way; and of three, the first is
before the last if each is before the next, exactly where they are at no standoff. -/
theorem standard_total (tb : Tables) (nm : Names) (len : Nat) (h : Mem) (a b c : Nat) (t u v : FinTree Label)
    (sound : Sound tb h len) (canonical : ∀ i, (h i).Canonical tb) (ha : a < len) (hb : b < len) (hc : c < len)
    (left : Reads tb h a t) (middle : Reads tb h b u) (right : Reads tb h c v) :
    ∃ ab ba bc ac, (termCompare tb nm len h a b).map Prod.fst = some ab ∧
      (termCompare tb nm len h b a).map Prod.fst = some ba ∧
      (termCompare tb nm len h b c).map Prod.fst = some bc ∧
      (termCompare tb nm len h a c).map Prod.fst = some ac ∧ ba = ab.swap ∧
      ((ab = .lt → bc = .lt → ac = .lt) ↔
        ¬ Standoff (t.paths (Label.key tb nm)) (u.paths (Label.key tb nm)) (v.paths (Label.key tb nm))) := by
  have answers : ∀ {i j : Nat} {x y : FinTree Label}, i < len → j < len → Reads tb h i x → Reads tb h j y →
      (termCompare tb nm len h i j).map Prod.fst = some (standard tb nm x y) := by
    intro i j x y hi hj first second
    obtain ⟨o, h', ran, -⟩ := @termCompare_ends tb nm len h sound i j hi hj
    have answer : o = standard tb nm x y := termCompare_standard sound canonical hi hj first second ran
    rw [ran, ← answer]
    rfl
  have fits := @Reads.fits tb nm h canonical _ _ left
  have fits' := @Reads.fits tb nm h canonical _ _ middle
  have fits'' := @Reads.fits tb nm h canonical _ _ right
  have keys : ∀ {w : FinTree Label}, FinTree.Fits (Takes tb nm) w → ∀ path k,
      w.paths (Label.key tb nm) path = some k → k.Proper := by
    intro w fits path k is
    obtain ⟨x, found, rfl⟩ := Option.map_eq_some_iff.mp is
    obtain ⟨n, -, proper⟩ := fits.takes found
    exact proper
  refine ⟨_, _, _, _, answers ha hb left middle, answers hb ha middle left, answers hb hc middle right,
    answers ha hc left right, ?_, ?_⟩
  · exact (standard_orders fits' fits).unique ((standard_orders fits fits').swap Key.order_swap)
  · apply line_iff _ (standard_orders fits fits') (standard_orders fits' fits'') (standard_orders fits fits'')
    intro w mem
    rcases List.mem_cons.mp mem with rfl | mem
    · exact keys fits
    · rcases List.mem_cons.mp mem with rfl | mem
      · exact keys fits'
      · rw [List.mem_singleton.mp mem]
        exact keys fits''

/-- The integer 2^53 + 3, the rational 2^53 + 7/2 and the double 2^53 + 4; then
`A = f(A, 1)`, `B = f(C, 3)` and `C = f(C, 2)`. -/
def circles : Mem := fun i =>
  [.int (2 ^ 53 + 3), .rat 0, .flt 0, .func 0, .ref 3, .int 1, .func 0, .ref 9, .int 3, .func 0, .ref 9,
    .int 2][i]?.getD (.ref i)

def circleTables : Tables :=
  { functors := fun _ => ⟨0, 2⟩, floats := fun _ => 0x4340000000000002, rats := fun _ => (2 ^ 54 + 7, 2) }

def circleNames : Names := { text := fun _ => [102], nil := 1 }

theorem circles_sound : Sound circleTables circles 12 where
  inside := by decide +kernel
  ends := by
    have near : ∀ i < 12, End circles (deref circles 1 i) := by decide +kernel
    exact fun i lt => ⟨1, near i lt⟩
  beyond := by
    intro i past
    rw [circles, List.getElem?_eq_none past]
    rfl

theorem circles_canonical (i : Nat) : (circles i).Canonical circleTables := by
  have each : ∀ i < 12, (circles i).Canonical circleTables := by decide +kernel
  by_cases lt : i < 12
  · exact each i lt
  · rw [circles_sound.beyond i (Nat.le_of_not_lt lt)]
    trivial

/-- The three numbers go round; and of two cyclic terms each is after the other. -/
theorem standard_circles :
    (Sound circleTables circles 12 ∧ ∀ i, (circles i).Canonical circleTables) ∧
    ((termCompare circleTables circleNames 12 circles 0 1).map Prod.fst = some .lt ∧
      (termCompare circleTables circleNames 12 circles 1 2).map Prod.fst = some .lt ∧
      (termCompare circleTables circleNames 12 circles 0 2).map Prod.fst = some .gt) ∧
    (termCompare circleTables circleNames 12 circles 3 6).map Prod.fst = some .gt ∧
      (termCompare circleTables circleNames 12 circles 6 3).map Prod.fst = some .gt := by
  refine ⟨⟨circles_sound, circles_canonical⟩, ?_, ?_⟩
  · decide +kernel
  · decide +kernel

/-- The three numbers are at a standoff. -/
theorem standard_total_circles :
    Standoff ((FinTree.node (Label.int (2 ^ 53 + 3)) []).paths (Label.key circleTables circleNames))
      ((FinTree.node (Label.rat (2 ^ 54 + 7) 2) []).paths (Label.key circleTables circleNames))
      ((FinTree.node (Label.flt 0x4340000000000002) []).paths (Label.key circleTables circleNames)) := by
  obtain ⟨ab, ba, bc, ac, one, -, two, three, -, line⟩ := standard_total circleTables circleNames 12 circles 0 1 2
    (.node (.int (2 ^ 53 + 3)) []) (.node (.rat (2 ^ 54 + 7) 2) []) (.node (.flt 0x4340000000000002) [])
    circles_sound circles_canonical (by decide) (by decide) (by decide)
    (.node rfl fun k t is => (nomatch is)) (.node rfl fun k t is => (nomatch is))
    (.node rfl fun k t is => (nomatch is))
  by_contra none_
  have round : (termCompare circleTables circleNames 12 circles 0 1).map Prod.fst = some .lt ∧
      (termCompare circleTables circleNames 12 circles 1 2).map Prod.fst = some .lt ∧
      (termCompare circleTables circleNames 12 circles 0 2).map Prod.fst = some .gt := by decide +kernel
  have first : ab = .lt := Option.some.inj (one.symm.trans round.1)
  have second : bc = .lt := Option.some.inj (two.symm.trans round.2.1)
  have third : ac = .gt := Option.some.inj (three.symm.trans round.2.2)
  have last := line.mpr none_ first second
  rw [third] at last
  cases last

end Cocolog.Term
