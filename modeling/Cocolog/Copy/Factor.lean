import Cocolog.Copy.Acyclic

/-! A cyclic term in factors. The compounds met a second time are the factors, each with
a variable of its own; the template and each factor's term are copied with the factors
replaced by their variables, and a factor whose term does not hold its own variable is put
back. What is left is `$cyclic(Template, [V1 = T1, ...])`. -/

set_option linter.all false

namespace Cocolog.Copy

open Cocolog.Lib Cocolog.Term Cocolog.Store

/-- The names the factors are told by: the atoms of `$cyclic` and `=`, their functors of
two arguments, the list's functor and the list's end. -/
structure Words (tb : Tables) where
  cyclic : Nat
  eq : Nat
  cyclicF : Nat
  eqF : Nat
  consF : Nat
  nil : Nat
  cyclicF_is : tb.functors cyclicF = ⟨cyclic, 2⟩
  eqF_is : tb.functors eqF = ⟨eq, 2⟩
  consF_is : tb.arity consF = 2

/- The second meetings. -/

/-- The states of the compounds met, 1 for once and the factor's number plus two for more,
the frames, and the factors in the order of their second meetings. -/
structure Meeting where
  vm : List (Nat × Nat)
  frames : List Frame
  sh : List Nat

/-- A turn of the first walk of `coco_factorize`. -/
def meetStep (tb : Tables) (h : Heap) (m : Meeting) : Option Meeting :=
  match m.frames with
  | [] => none
  | fr :: rest =>
    if fr.n ≤ fr.i then some { m with frames := rest }
    else
      let a := h.deref (fr.src + (fr.i + 1))
      let m := { m with frames := advance fr rest }
      match h.cells a with
      | .func f =>
        match m.vm.lookup a with
        | some st =>
          if st = 1 then some { m with vm := (a, m.sh.length + 2) :: m.vm, sh := m.sh ++ [a] } else some m
        | none => some { m with vm := (a, 1) :: m.vm, frames := ⟨a, 0, 0, tb.arity f⟩ :: m.frames }
      | _ => some m

/- The copies. -/

/-- `coco_arity`. -/
def arityAt (tb : Tables) : Cell → Nat
  | .func f => tb.arity f
  | _ => 0

/-- `coco_factor_struct`. -/
def factorStruct (tb : Tables) (a : Nat) (w : Walk) : Nat × Walk :=
  let n := arityAt tb (w.cells a)
  let pushed := w.pushStruct (w.cells a) n
  (w.len, if w.len = 0 then pushed else pushed.owe a (w.len + 1) n)

/-- `coco_factor_node`: `vs` are the factors' variables. -/
def factorNode (tb : Tables) (vs : List Nat) (a : Nat) (w : Walk) : Nat × Walk :=
  let a := deref w.cells w.len a
  match w.cells a with
  | .func _ =>
    match w.vars.lookup a with
    | some st => if 2 ≤ st then (vs.getD (st - 2) 0, w) else factorStruct tb a w
    | none => factorStruct tb a w
  | _ => (a, w)

/-- Every factor's term, in order. -/
def factorBodies (tb : Tables) : List Nat → Walk → List Nat × Walk
  | [], w => ([], w)
  | a :: rest, w =>
    let r := factorStruct tb a w
    let q := factorBodies tb rest r.2
    (r.1 :: q.1, q.2)

/- The factors put back. -/

/-- The compounds seen, the cells to look at, newest first, and whether the variable was
found. -/
structure Holding where
  vm : List (Nat × Nat)
  wl : List Nat
  found : Bool

/-- A turn of `coco_factor_holds`. -/
def holdsStep (tb : Tables) (h : Heap) (v : Nat) (q : Holding) : Option Holding :=
  if q.found then none
  else
    match q.wl with
    | [] => none
    | t :: rest =>
      let a := h.deref t
      if a = v then some { q with wl := rest, found := true }
      else
        match h.cells a with
        | .func f =>
          match q.vm.lookup a with
          | some _ => some { q with wl := rest }
          | none => some { q with vm := (a, 1) :: q.vm, wl := (argsOf a (tb.arity f)).reverse ++ rest }
        | _ => some { q with wl := rest }

/-- `coco_factor_holds`. -/
def holds (tb : Tables) (h : Heap) (fuel v t : Nat) : Option Bool :=
  (loop (holdsStep tb h v) fuel ⟨[], [t], false⟩).map (·.found)

/-- The factors in order, each put back or kept: the heap and the pairs kept. -/
def putBack (tb : Tables) (fuel : Nat) : List (Nat × Nat) → Heap → Option (Heap × List (Nat × Nat))
  | [], h => some (h, [])
  | (v, b) :: rest, h =>
    (holds tb h fuel v b).bind fun found =>
      if found then (putBack tb fuel rest h).map fun r => (r.1, (v, b) :: r.2)
      else putBack tb fuel rest { h with cells := Function.update h.cells v (.ref b) }

/- The term. -/

/-- `coco_push`. -/
def pushCell (h : Heap) (c : Cell) : Heap := ⟨Function.update h.cells h.len c, h.len + 1⟩

/-- `coco_make2` and `coco_make2_f`: the arguments are dereferenced as they are stored. -/
def make2 (f a b : Nat) (h : Heap) : Nat × Heap :=
  let h₁ := pushCell h (.func f)
  let h₂ := pushCell h₁ (.ref (h₁.deref a))
  (h.len, pushCell h₂ (.ref (h₂.deref b)))

/-- The list of the pairs kept, made from its end. -/
def factorList {tb : Tables} (ws : Words tb) : List (Nat × Nat) → Heap → Nat × Heap
  | [], h => (h.len, pushCell h (.atom ws.nil))
  | (v, b) :: rest, h =>
    let l := factorList ws rest h
    let p := make2 ws.eqF v b l.2
    make2 ws.consF p.1 l.1 p.2

/-- `coco_factorize`, for the store: the term in factors, none for one that is no
compound. -/
def factorize {tb : Tables} (ws : Words tb) (fuel t : Nat) (h : Heap) : Option (Option Nat × Heap) :=
  match h.cells (h.deref t) with
  | .func f =>
    (loop (meetStep tb h) fuel ⟨[(h.deref t, 1)], [⟨h.deref t, 0, 0, tb.arity f⟩], []⟩).bind fun m =>
      let vs := (List.range m.sh.length).map (h.len + ·)
      let w := Walk.reserve ⟨h.cells, h.len, m.vm, [], none⟩ m.sh.length
      let tmpl := factorNode tb vs (h.deref t) w
      let bodies := factorBodies tb m.sh tmpl.2
      (loop (fillStep (factorNode tb vs)) fuel bodies.2).bind fun w =>
        (putBack tb fuel (vs.zip bodies.1) ⟨w.cells, w.len⟩).map fun kept =>
          let l := factorList ws kept.2 kept.1
          let r := make2 ws.cyclicF tmpl.1 l.1 l.2
          (some r.1, r.2)
  | _ => some (none, h)

end Cocolog.Copy
