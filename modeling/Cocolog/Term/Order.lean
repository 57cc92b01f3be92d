import Cocolog.Lib.TreeOrder
import Cocolog.Term.Memory
import Cocolog.Term.Knots

/-! The standard order of terms, root by root. What the order sees of a root is its key:
an atom's or a functor's name as a C string, which ends at its first NUL, and a number by
its value. Two roots compare equal exactly when their keys are one. -/

set_option linter.all false

namespace Cocolog.Term

open Cocolog.Lib

/-- The atoms' names, bytes by id, and the id of the list's end. -/
structure Names where
  text : Nat → List Nat
  nil : Nat

/-- What C takes of a name. -/
def cString (bytes : List Nat) : List Nat := bytes.takeWhile (· ≠ 0)

def strcmp (a b : List Nat) : Ordering := compare (cString a) (cString b)

/-- `coco_str_cmp`: memcmp on the shorter length, then the lengths. -/
def strCmp (a b : List Nat) : Ordering :=
  let k := min a.length b.length
  (compare (a.take k) (b.take k)).then (compare a.length b.length)

namespace Names

/-- `coco_atom_order`. -/
def atomOrder (nm : Names) (x y : Nat) : Ordering :=
  if x = y then .eq
  else if x = nm.nil then .lt
  else if y = nm.nil then .gt
  else strcmp (nm.text x) (nm.text y)

end Names

namespace Cell

/-- `coco_order_class`. -/
def orderClass : Cell → Nat
  | ref _ => 0
  | flt _ => 1
  | int _ => 1
  | atom _ => 2
  | str _ => 3
  | big _ => 1
  | rat _ => 1
  | _ => 4

/-- `coco_arity`. -/
def arity (tb : Tables) : Cell → Nat
  | func f => tb.arity f
  | _ => 0

/-- `coco_name_of`. -/
def nameOf (tb : Tables) : Cell → Nat
  | atom a => a
  | func f => (tb.functors f).name
  | _ => 2 ^ 64 - 1

/-- The number of a cell of class 1. -/
def number (tb : Tables) : Cell → Number
  | flt k => .flt (tb.floats k)
  | int i => .int i
  | big k => .int (tb.bigs k)
  | rat k => .rat (tb.rats k).1 (tb.rats k).2
  | _ => .int 0

/-- The bytes of a string's cell. -/
def bytes (tb : Tables) : Cell → List Nat
  | str k => tb.strings k
  | _ => []

/-- As the machine makes cells: an integer is in the cell if its 60 bits hold it, a double
has 64 bits, and a rational is in lowest terms and no integer. -/
def Canonical (tb : Tables) : Cell → Prop
  | int i => -2 ^ 59 ≤ i ∧ i < 2 ^ 59
  | big k => -2 ^ 63 ≤ tb.bigs k ∧ tb.bigs k < 2 ^ 63 ∧ ¬ (-2 ^ 59 ≤ tb.bigs k ∧ tb.bigs k < 2 ^ 59)
  | flt k => (Number.flt (tb.floats k)).Proper
  | rat k => (Number.rat (tb.rats k).1 (tb.rats k).2).Proper
  | _ => True

instance (tb : Tables) (c : Cell) : Decidable (c.Canonical tb) :=
  match c with
  | int i => inferInstanceAs (Decidable (-2 ^ 59 ≤ i ∧ i < 2 ^ 59))
  | big k => inferInstanceAs (Decidable
      (-2 ^ 63 ≤ tb.bigs k ∧ tb.bigs k < 2 ^ 63 ∧ ¬ (-2 ^ 59 ≤ tb.bigs k ∧ tb.bigs k < 2 ^ 59)))
  | flt k => inferInstanceAs (Decidable (Number.flt (tb.floats k)).Proper)
  | rat k => inferInstanceAs (Decidable (Number.rat (tb.rats k).1 (tb.rats k).2).Proper)
  | ref _ | pos _ | atom _ | func _ | str _ => inferInstanceAs (Decidable True)

end Cell

/-- What comparing two cells at the end of their chains comes to: an order, or two
compounds alike so far, with their arguments to compare. -/
inductive Ranked where
  | ordered (o : Ordering)
  | alike (n : Nat)
deriving Repr, DecidableEq

/-- The body of the loop of `coco_compare`. -/
def ranked (tb : Tables) (nm : Names) (h : Mem) (a b : Nat) : Ranked :=
  if a = b then .ordered .eq
  else
    let ka := (h a).orderClass
    let kb := (h b).orderClass
    if ka ≠ kb then .ordered (compare ka kb)
    else if ka = 0 then .ordered (compare a b)
    else if ka = 1 then .ordered (((h a).number tb).order ((h b).number tb))
    else if ka = 2 then .ordered (nm.atomOrder ((h a).nameOf tb) ((h b).nameOf tb))
    else if ka = 3 then .ordered (strCmp ((h a).bytes tb) ((h b).bytes tb))
    else
      let na := (h a).arity tb
      let nb := (h b).arity tb
      if na ≠ nb then .ordered (compare na nb)
      else match strcmp (nm.text ((h a).nameOf tb)) (nm.text ((h b).nameOf tb)) with
        | .eq => .alike na
        | o => .ordered o

/- Keys. -/

/-- What the order sees of a root. -/
inductive Key where
  | var (v : Nat)
  | num (x : Number)
  | atom (isNil : Bool) (name : List Nat)
  | str (bytes : List Nat)
  | comp (arity : Nat) (name : List Nat)
deriving Repr, DecidableEq

namespace Key

def class_ : Key → Nat
  | var _ => 0
  | num _ => 1
  | atom _ _ => 2
  | str _ => 3
  | comp _ _ => 4

def arity : Key → Nat
  | comp n _ => n
  | _ => 0

/-- The standard order of two roots: variables by age, numbers by value, the list's end
before the atoms, these by name, strings by their bytes, compounds by arity and name. -/
def order (k k' : Key) : Ordering :=
  (compare k.class_ k'.class_).then <|
    match k, k' with
    | var v, var w => compare v w
    | num x, num y => x.order y
    | atom isNil name, atom isNil' name' => (compare (!isNil) (!isNil')).then (compare name name')
    | str bytes, str bytes' => compare bytes bytes'
    | comp n name, comp n' name' => (compare n n').then (compare name name')
    | _, _ => .eq

instance : Std.ReflCmp order where
  compare_self {k} := by
    have same : ∀ x : Number, x.order x = .eq := by
      intro x
      have turned := Number.order_swap x x
      cases is : x.order x <;> rw [is] at turned <;> first | rfl | cases turned
    cases k <;> simp [order, same]

end Key

/-- The key of a label; a variable stands as `pos` of its own cell. -/
def Label.key (tb : Tables) (nm : Names) : Label → Key
  | .pos v => .var v
  | .int i => .num (.int i)
  | .big i => .num (.int i)
  | .flt x => .num (.flt x)
  | .rat n d => .num (.rat n d)
  | .atom a => .atom (a == nm.nil) (if a = nm.nil then [] else cString (nm.text a))
  | .str bytes => .str bytes
  | .func f => .comp (tb.arity f) (cString (nm.text (tb.functors f).name))

theorem strCmp_eq (a b : List Nat) : strCmp a b = compare a b := by
  induction a generalizing b with
  | nil =>
    cases b with
    | nil => rfl
    | cons y b => rfl
  | cons x a ih =>
    cases b with
    | nil => rfl
    | cons y b =>
      have here := ih b
      unfold strCmp at here ⊢
      simp only [List.length_cons, Nat.succ_min_succ, List.take_succ_cons, List.compare_eq_compareLex,
        List.compareLex_cons_cons, Ordering.then_assoc] at here ⊢
      have lengths : compare (a.length + 1) (b.length + 1) = compare a.length b.length := by
        rcases lt_trichotomy a.length b.length with less | same | more
        · rw [compare_lt_iff_lt.mpr less, compare_lt_iff_lt.mpr (by omega)]
        · rw [compare_eq_iff_eq.mpr same, compare_eq_iff_eq.mpr (by omega)]
        · rw [compare_gt_iff_gt.mpr more, compare_gt_iff_gt.mpr (by omega)]
      rw [lengths, here]

namespace Key

/-- A number as the machine makes them. -/
def Proper : Key → Prop
  | num x => x.Proper
  | _ => True

theorem order_class {k k' : Key} (differ : k.class_ ≠ k'.class_) : k.order k' = compare k.class_ k'.class_ := by
  unfold order
  cases is : compare k.class_ k'.class_ with
  | eq => exact absurd (compare_eq_iff_eq.mp is) differ
  | lt => rfl
  | gt => rfl

/-- Keys compare equal only if they are one. -/
theorem eq_of_order {k k' : Key} (hk : k.Proper) (hk' : k'.Proper) (same : k.order k' = .eq) : k = k' := by
  unfold order at same
  rw [Ordering.then_eq_eq, compare_eq_iff_eq] at same
  obtain ⟨classes, same⟩ := same
  cases k <;> cases k' <;> cases classes
  · rw [compare_eq_iff_eq.mp same]
  · rw [(Number.order_eq_iff hk hk').mp same]
  · simp only [Ordering.then_eq_eq, Std.LawfulEqOrd.compare_eq_iff_eq] at same
    have flags := Bool.not_inj same.1
    rw [flags, same.2]
  · simp only [Std.LawfulEqOrd.compare_eq_iff_eq] at same
    rw [same]
  · simp only [Ordering.then_eq_eq, Std.LawfulEqOrd.compare_eq_iff_eq] at same
    rw [same.1, same.2]

end Key

/- Roots in a memory. -/

section Roots

variable (tb : Tables) (nm : Names) (h : Mem)

/-- The root at a cell that is at the end of its chain. -/
def labelAt (a : Nat) : Label :=
  match shape tb (h a) with
  | some (root, _) => root
  | none => .pos a

def keyAt (a : Nat) : Key := (labelAt tb h a).key tb nm

variable {tb nm h}

theorem shape_arity {c : Cell} {root : Label} {n : Nat} (is : shape tb c = some (root, n)) :
    (root.key tb nm).arity = n := by
  cases c <;> cases is <;> rfl

theorem keyAt_ref {a p : Nat} (cell : h a = .ref p) : keyAt tb nm h a = .var a := by
  simp only [keyAt, labelAt, cell, shape, Label.key]

theorem keyAt_func {a f : Nat} (cell : h a = .func f) :
    keyAt tb nm h a = .comp (tb.arity f) (cString (nm.text (tb.functors f).name)) := by
  simp only [keyAt, labelAt, cell, shape, Label.key]

theorem keyAt_class {a : Nat} (none_ : ∀ w, h a ≠ .pos w) : (keyAt tb nm h a).class_ = (h a).orderClass := by
  unfold keyAt labelAt
  cases cell : h a with
  | pos w => exact absurd cell (none_ w)
  | _ => rfl

theorem keyAt_number {a : Nat} (is : (h a).orderClass = 1) : keyAt tb nm h a = .num ((h a).number tb) := by
  unfold keyAt labelAt
  cases cell : h a <;> rw [cell] at is <;> first | rfl | cases is

theorem keyAt_proper {a : Nat} (canonical : (h a).Canonical tb) : (keyAt tb nm h a).Proper := by
  unfold keyAt labelAt
  cases cell : h a <;> rw [cell] at canonical <;>
    simp only [shape, Label.key, Key.Proper, Number.Proper, Cell.Canonical] at canonical ⊢
  · omega
  · exact canonical
  · exact ⟨canonical.1, canonical.2.1⟩
  · exact canonical

theorem order_atoms (x y : Nat) :
    (Label.key tb nm (.atom x)).order (Label.key tb nm (.atom y)) = nm.atomOrder x y := by
  have isNil : ∀ z, z ≠ nm.nil → (z == nm.nil) = false := fun z off => beq_eq_false_iff_ne.mpr off
  simp only [Label.key, Key.order, Names.atomOrder, Key.class_, strcmp]
  by_cases same : x = y
  · subst same
    simp
  · rw [if_neg same]
    by_cases left : x = nm.nil
    · have right : y ≠ nm.nil := fun is => same (left.trans is.symm)
      simp only [left, right, isNil y right, beq_self_eq_true, if_true, if_false]
      rfl
    · by_cases right : y = nm.nil
      · simp only [left, right, isNil x left, beq_self_eq_true, if_true, if_false]
        rfl
      · simp only [left, right, isNil x left, isNil y right, if_false]
        rfl

theorem ranked_number {a b : Nat} (off : a ≠ b) (left : (h a).orderClass = 1) (right : (h b).orderClass = 1) :
    ranked tb nm h a b = .ordered ((keyAt tb nm h a).order (keyAt tb nm h b)) := by
  rw [keyAt_number left, keyAt_number right]
  simp only [ranked, if_neg off, left, right, ne_eq, not_true_eq_false, if_false, if_true]
  rfl

theorem ranked_func {a b f g : Nat} (off : a ≠ b) (left : h a = .func f) (right : h b = .func g) :
    ranked tb nm h a b = .ordered ((keyAt tb nm h a).order (keyAt tb nm h b)) ∧
        (keyAt tb nm h a).order (keyAt tb nm h b) ≠ .eq ∨
      tb.arity f = tb.arity g ∧ keyAt tb nm h a = keyAt tb nm h b ∧ ranked tb nm h a b = .alike (tb.arity f) := by
  rw [keyAt_func left, keyAt_func right]
  simp only [ranked, if_neg off, left, right, Cell.orderClass, Cell.arity, Cell.nameOf]
  by_cases arities : tb.arity f = tb.arity g
  · rw [arities]
    cases names : strcmp (nm.text (tb.functors f).name) (nm.text (tb.functors g).name) with
    | eq =>
      right
      have same : cString (nm.text (tb.functors f).name) = cString (nm.text (tb.functors g).name) :=
        Std.LawfulEqOrd.compare_eq_iff_eq.mp names
      exact ⟨rfl, by rw [same], by simp⟩
    | lt =>
      left
      unfold strcmp at names
      simp [Key.order, Key.class_, names]
    | gt =>
      left
      unfold strcmp at names
      simp [Key.order, Key.class_, names]
  · left
    simp only [ne_eq, arities, not_false_eq_true, if_true]
    have apart : compare (tb.arity f) (tb.arity g) ≠ .eq := fun is => arities (compare_eq_iff_eq.mp is)
    simp only [Key.order, Key.class_, not_true_eq_false, if_false]
    cases is : compare (tb.arity f) (tb.arity g) with
    | eq => exact absurd is apart
    | lt => exact ⟨rfl, nofun⟩
    | gt => exact ⟨rfl, nofun⟩

/-- The loop's body finds the order of the keys, or two compounds of one key. -/
theorem ranked_spec {a b : Nat} (off : a ≠ b) (ha : ∀ w, h a ≠ .pos w) (hb : ∀ w, h b ≠ .pos w) :
    ranked tb nm h a b = .ordered ((keyAt tb nm h a).order (keyAt tb nm h b)) ∨
      ∃ f g, h a = .func f ∧ h b = .func g ∧ tb.arity f = tb.arity g ∧
        keyAt tb nm h a = keyAt tb nm h b ∧ ranked tb nm h a b = .alike (tb.arity f) := by
  by_cases classes : (h a).orderClass = (h b).orderClass
  · cases left : h a with
    | pos w => exact absurd left (ha w)
    | ref p =>
      cases right : h b with
      | ref q =>
        left
        rw [keyAt_ref left, keyAt_ref right]
        simp only [ranked, if_neg off, left, right, Cell.orderClass]
        rfl
      | _ =>
        rw [left, right] at classes
        cases classes
    | atom x =>
      cases right : h b with
      | atom y =>
        left
        have here := @order_atoms tb nm x y
        simp only [keyAt, labelAt, ranked, if_neg off, left, right, Cell.orderClass, shape, here]
        rfl
      | _ =>
        rw [left, right] at classes
        cases classes
    | str k =>
      cases right : h b with
      | str j =>
        left
        simp only [keyAt, labelAt, ranked, if_neg off, left, right, Cell.orderClass, shape, Label.key, Cell.bytes,
          strCmp_eq]
        rfl
      | _ =>
        rw [left, right] at classes
        cases classes
    | func f =>
      cases right : h b with
      | func g =>
        rcases @ranked_func tb nm h a b f g off left right with ⟨ordered, -⟩ | ⟨arities, keys, alike⟩
        · exact .inl ordered
        · exact .inr ⟨f, g, rfl, rfl, arities, keys, alike⟩
      | pos w => exact absurd right (hb w)
      | _ =>
        rw [left, right] at classes
        cases classes
    | _ =>
      have one : (h a).orderClass = 1 := by
        rw [left]
        rfl
      exact .inl (ranked_number off one (classes ▸ one))
  · left
    have differ : (keyAt tb nm h a).class_ ≠ (keyAt tb nm h b).class_ := by
      rwa [keyAt_class ha, keyAt_class hb]
    rw [Key.order_class differ, keyAt_class ha, keyAt_class hb]
    simp only [ranked, if_neg off, ne_eq, classes, not_false_eq_true, if_true]

/-- What compares equal at its root is the same there, and has no arguments. -/
theorem ranked_eq {a b : Nat} (off : a ≠ b) (ha : ∀ w, h a ≠ .pos w) (hb : ∀ w, h b ≠ .pos w)
    (left : (h a).Canonical tb) (right : (h b).Canonical tb) (is : ranked tb nm h a b = .ordered .eq) :
    keyAt tb nm h a = keyAt tb nm h b ∧ (keyAt tb nm h a).arity = 0 := by
  rcases ranked_spec off ha hb with ordered | ⟨f, g, -, -, -, -, alike⟩
  · have same := Ranked.ordered.inj (ordered.symm.trans is)
    have keys := Key.eq_of_order (keyAt_proper left) (keyAt_proper right) same
    refine ⟨keys, ?_⟩
    -- two compounds of one key are alike
    by_contra some_
    have compound : ∀ {i : Nat}, (∀ w, h i ≠ .pos w) → (keyAt tb nm h i).arity ≠ 0 → ∃ f, h i = .func f := by
      intro i off' many
      unfold keyAt labelAt at many
      cases cell : h i with
      | func f => exact ⟨f, rfl⟩
      | pos w => exact absurd cell (off' w)
      | _ =>
        rw [cell] at many
        exact absurd rfl many
    obtain ⟨f, cell⟩ := compound ha some_
    obtain ⟨g, cell'⟩ := compound hb (keys ▸ some_)
    rcases @ranked_func tb nm h a b f g off cell cell' with ⟨-, differ⟩ | ⟨-, -, alike⟩
    · exact differ same
    · rw [is] at alike
      cases alike
  · rw [is] at alike
    cases alike

end Roots

end Cocolog.Term
