import Cocolog.Term.Cell

/-! The units of a clause's body: `cc_ubranch` and what it calls number them and give each its
parts, `cc_ulink` says where each goes next, and `cc_compile_env` settles the offsets that taking
one reads. A request for memory is numbered, and answered by `room`. -/

set_option linter.all false

namespace Cocolog.Units

open Cocolog.Term

/-- The atoms a construct is told by, each its own, and any other by its id. -/
inductive Atom where
  | semi | arrow | soft | neg | not_ | once | ignore | comma
  | true_ | fail | false_ | cut | det | at_ | nil
  | named (a : Nat)
deriving Repr, DecidableEq

/-- A clause's term, followed to what its cells lead to. -/
inductive Tm where
  | var (v : Nat)
  | atom (a : Atom)
  | const (c : Nat)
  | app (f : Atom) (args : List Tm)
deriving Repr

/-- `*cc-eg-kinds*`. -/
inductive Kind where
  | term | call | cut | ite | disj | cutc | conj | true_ | fail | guard | sides | builtin | guardx
deriving Repr, DecidableEq

/-- The members of `coco_egoal` that say where it goes and what taking it reads. -/
structure Egoal where
  kind : Kind
  tslot : Nat := 0
  next : Nat := 0
  bslot : Nat := 0
  a : Nat := 0
  b : Nat := 0
  c : Nat := 0
  d : Nat := 0
  sib : Nat := 0
  noff : Nat := 0
  boff : Nat := 0
  badd : Nat := 0
  soff : Nat := 0
  aoff : Nat := 0
  coff : Nat := 0
deriving Repr, DecidableEq

/-- A variable in a goal's words: its K, and whether it is met first there. -/
structure Occurrence where
  k : Nat
  first : Bool
deriving Repr, DecidableEq

/-- Where `cc_uplace` leaves a goal, with the variables a guard's program looks up. -/
inductive Placed where
  | guard (vars : List Nat) (fused : Bool)
  | sides | builtin | term
deriving Repr, DecidableEq

/-- What the compiler asks of the store, the machine and the memory. -/
structure Site where
  taken : Atom → Bool
  callable : Atom → Nat → Bool
  place : List (Nat × Nat) → Nat → Tm → Placed
  room : Nat → Bool

/-- A goal's words as they are emitted: the numbering, the cells so far, the variables' words. -/
structure Walk where
  vm : List (Nat × Nat)
  nvars : Nat
  top : Nat := 0
  words : List Occurrence := []
deriving Repr, DecidableEq

/-- `cc_var`, and the word of the variable, whose K keeps 24 bits. -/
def Walk.var (w : Walk) (v : Nat) : Walk :=
  match w.vm.lookup v with
  | some k => { w with words := w.words ++ [⟨k % 2 ^ 24, false⟩] }
  | none =>
    { w with
      vm := w.vm ++ [(v, w.nvars)], nvars := (w.nvars + 1) % 2 ^ 32,
      words := w.words ++ [⟨w.nvars % 2 ^ 24, true⟩] }

mutual

/-- One argument in `cc_compile_goal`. -/
def argWord (off : Nat) (w : Walk) : Tm → Option Walk
  | .var v => if 16777215 < off then none else some (w.var v)
  | .app _ args =>
    if 16777215 < off then none
    else argWords (w.top + 1) { w with top := w.top + (args.length + 1) } args
  | .atom _ => if 16777215 < off then none else some { w with top := w.top + 1 }
  | .const _ => if 16777215 < off then none else some { w with top := w.top + 1 }

/-- The arguments of one structure. -/
def argWords (off : Nat) (w : Walk) : List Tm → Option Walk
  | [] => some w
  | t :: ts => do argWords (off + 1) (← argWord off w t) ts

end

/-- `cc_compile_goal`. -/
def compileGoal (w : Walk) : Tm → Option Walk
  | .var v => some (w.var v)
  | .app _ args => argWords 1 { w with top := args.length + 1 } args
  | .atom _ => some w
  | .const _ => some w

/-- `cc_bad_leaf`. -/
def badLeaf (depth : Nat) : Tm → Bool
  | .var _ => false
  | .atom _ => false
  | .const _ => true
  | .app f [l, r] =>
    if 64 < depth then false
    else if f = .comma ∨ f = .semi ∨ f = .arrow ∨ f = .soft then
      badLeaf (depth + 1) l || badLeaf depth r
    else if f = .at_ then
      (match r with
        | .var _ => false
        | .atom a => a = .nil
        | _ => true) || badLeaf depth l
    else false
  | .app f [l] =>
    if 64 < depth then false else if f = .neg ∨ f = .det then badLeaf depth l else false
  | .app _ _ => false

/-- Which construct a unit compiles, with its parts. -/
inductive Construct where
  | disj (l r : Tm)
  | ite (form : Nat) (c : Tm) (t e : Option Tm)
deriving Repr

/-- The functors of a construct of one argument that is called. -/
def isCalled (f : Atom) : Bool := f = .not_ ∨ f = .once ∨ f = .ignore

/-- Whether a term is a variable. -/
def Tm.isVar : Tm → Bool
  | .var _ => true
  | _ => false

/-- `cc_uform`. -/
def uform (s : Site) : Tm → Option Construct
  | .app .semi [.app .arrow [c, t], e] => some (.ite 0 c (some t) (some e))
  | .app .semi [.app .soft [_, _], _] => none
  | .app .semi [l, r] => some (.disj l r)
  | .app .arrow [c, t] => some (.ite 1 c (some t) none)
  | .app f [g] =>
    if (f = .not_ ∨ f = .ignore) ∧ s.taken f then none
    else if isCalled f ∧ badLeaf 0 g then none
    else if isCalled f ∧ g.isVar then none
    else if f = .neg ∨ f = .not_ then some (.ite 2 g none none)
    else if f = .once then some (.ite 3 g none none)
    else if f = .ignore then some (.ite 4 g none none)
    else none
  | _ => none

/-- `coco_ucomp`: the units from 1, the slots in the order given, the counts, and the numbering. -/
structure Comp where
  us : Nat → Egoal
  nu : Nat := 0
  ucap : Nat := 0
  einit : List Nat := []
  nterm : Nat := 0
  nslot : Nat := 0
  ncons : Nat := 0
  nemap : Nat
  vm : List (Nat × Nat)
  nvars : Nat
  asks : Nat := 0

namespace Comp

def set (uc : Comp) (u : Nat) (f : Egoal → Egoal) : Comp :=
  { uc with us := fun i => if i = u then f (uc.us i) else uc.us i }

/-- A request for memory. -/
def ask (s : Site) (uc : Comp) : Option Comp :=
  if s.room uc.asks then some { uc with asks := uc.asks + 1 } else none

/-- The unit itself, its table having room. -/
def push (uc : Comp) (kind : Kind) : Nat × Comp :=
  (uc.nu + 1, { uc with
    nu := uc.nu + 1,
    us := fun i => if i = uc.nu + 1 then { kind := kind } else uc.us i })

/-- `cc_unew`, none where the table does not grow: no memory, or past a 32-bit capacity. -/
def unew (s : Site) (uc : Comp) (kind : Kind) : Option (Nat × Comp) :=
  if uc.nu + 1 < uc.ucap then some (uc.push kind)
  else
    let ncap := if uc.ucap = 0 then 16 else uc.ucap * 2 % 2 ^ 32
    if ncap = 0 then none
    else do
      let uc ← uc.ask s
      some ({ uc with ucap := ncap }.push kind)

end Comp

/-- `cc_uslots`: none where a variable has no place, and false past 64 met first `bycell`. -/
def uslots (nemap : Nat) (bycell : Bool) : List Occurrence → List Nat → Nat →
    Option (Bool × List Nat)
  | [], einit, _ => some (true, einit)
  | x :: xs, einit, nf =>
    if nemap ≤ x.k then none
    else if x.first ∧ bycell ∧ 64 ≤ nf then some (false, einit)
    else
      uslots nemap bycell xs (if x.k ∈ einit then einit else einit ++ [x.k])
        (if x.first ∧ bycell then nf + 1 else nf)

/-- The kind a goal is tried as: a call's, where `cc_uplace` leaves it, or a term's. -/
def leafPlace (s : Site) (vm : List (Nat × Nat)) (limit : Nat) : Tm → Option Placed
  | .app f args => if s.callable f args.length then none else some (s.place vm limit (.app f args))
  | _ => some .term

/-- The last of `cc_uleaf`: a goal built at entry. -/
def termUnit (s : Site) (uc : Comp) (kind : Kind) : Option (Nat × Comp) := do
  let (u, uc) ← uc.unew s kind
  let uc := { uc.set u fun x => { x with tslot := uc.nterm } with nterm := uc.nterm + 1 }
  some (u, ← uc.ask s)

/-- The rest of `cc_uleaf`, the goal's words emitted, under the kind it is tried as. -/
def uleafAs (s : Site) (uc : Comp) (words : List Occurrence) :
    Option Placed → Option (Nat × Comp)
  | none => do
    let (fits, einit) ← uslots uc.nemap false words uc.einit 0
    let uc ← { uc with einit := einit }.ask s
    if fits then uc.unew s .call else termUnit s uc .term
  | some .sides => do
    let (fits, einit) ← uslots uc.nemap true words uc.einit 0
    let uc ← { uc with einit := einit }.ask s
    if fits then uc.unew s .sides else termUnit s uc .term
  | some (.guard vars fused) => do
    let (fits, einit) ← uslots uc.nemap true words uc.einit 0
    let uc ← { uc with einit := einit }.ask s
    if fits then
      if vars.all fun k => k < uc.nemap ∧ k ∈ uc.einit then
        uc.unew s (if fused then .guardx else .guard)
      else none
    else termUnit s uc .term
  | some .builtin => termUnit s uc .builtin
  | some .term => termUnit s uc .term

/-- `cc_uleaf`. -/
def uleaf (s : Site) (t : Tm) (uc : Comp) : Option (Nat × Comp) := do
  let uc' ← uc.ask s
  let w ← compileGoal { vm := uc.vm, nvars := uc.nvars } t
  let place := leafPlace s w.vm uc.nvars t
  uleafAs s { uc' with vm := w.vm, nvars := w.nvars } w.words place

/-- A cut, `true` or `fail`, told by its atom. -/
def atomKind : Tm → Option Kind
  | .atom .true_ => some .true_
  | .atom .fail => some .fail
  | .atom .false_ => some .fail
  | .atom .cut => some .cut
  | _ => none

section

variable (s : Site) (branch : Tm → Comp → Option (Nat × Comp))

/-- A construct's own `$true` or `$fail`, or the part that is written. -/
def part (kind : Kind) (t : Option Tm) (uc : Comp) : Option (Nat × Comp) :=
  match t with
  | some t => branch t uc
  | none => uc.unew s kind

/-- The two branches of `cc_unit` for a construct, by what compiles a part. -/
def construct (uc : Comp) : Construct → Option (Nat × Comp)
  | .disj l r => do
    let (u, uc) ← uc.unew s .disj
    let (x, uc) ← branch l uc
    let uc := uc.set u fun g => { g with a := x }
    let (y, uc) ← branch r uc
    let uc := uc.set u fun g => { g with b := y }
    some (u, { uc with ncons := uc.ncons + 1 })
  | .ite form c t e => do
    let (u, uc) ← uc.unew s .ite
    let slot := uc.nslot
    let uc := { uc.set u fun g => { g with tslot := slot } with nslot := slot + 1 }
    let (x, uc) ← branch c uc
    let uc := uc.set u fun g => { g with a := x }
    let (y, uc) ← part s branch (if form = 2 then .fail else .true_) t uc
    let uc := uc.set u fun g => { g with b := y }
    let (z, uc) ← part s branch (if form = 2 ∨ form = 4 then .true_ else .fail) e uc
    let uc := uc.set u fun g => { g with c := z }
    let (d, uc) ← uc.unew s .cutc
    let uc := uc.set d fun g => { g with tslot := slot }
    let uc := uc.set u fun g => { g with d := d }
    some (u, { uc with ncons := uc.ncons + 1 })

/-- `cc_unit` where a construct may be compiled. -/
def unit (t : Tm) (uc : Comp) : Option (Nat × Comp) :=
  match atomKind t with
  | some kind => uc.unew s kind
  | none =>
    match uform s t with
    | some con => construct s branch uc con
    | none => uleaf s t uc

/-- An item after `last`, or the first of conjunction `u`. -/
def join (uc : Comp) (u last x : Nat) : Comp :=
  if last = 0 then uc.set u fun g => { g with a := x } else uc.set last fun g => { g with sib := x }

/-- The loop of `cc_ubranch` over a conjunction's items, `left` of them yet to come before what is
left is one. -/
def items (u : Nat) : Nat → Tm → Nat → Comp → Option Comp
  | left + 1, .app .comma [l, r], last, uc => do
    let (x, uc) ← branch l uc
    items u left r x (join uc u last x)
  | _, g, last, uc => do
    let (x, uc) ← branch g uc
    some (join uc u last x)

end

/-- `cc_ubranch`, with the depth still open: 64 less `depth`. Past it a goal is no construct. -/
def ubranch (s : Site) : Nat → Tm → Comp → Option (Nat × Comp)
  | 0, t, uc =>
    match atomKind t with
    | some kind => uc.unew s kind
    | none => uleaf s t uc
  | deep + 1, .app .comma [l, r], uc => do
    let (u, uc) ← uc.unew s .conj
    let uc ← items (ubranch s deep) u 63 (.app .comma [l, r]) 0 uc
    some (u, { uc with ncons := uc.ncons + 1 })
  | deep + 1, t, uc => unit s (ubranch s deep) t uc

mutual

/-- `cc_ulink`. -/
def ulink : Nat → (Nat → Egoal) → Nat → Nat → Nat → Nat → Egoal
  | 0, us, _, _, _ => us
  | turns + 1, us, u, after, bctx =>
    let us := fun i => if i = u then { us i with next := after, bslot := bctx } else us i
    match (us u).kind with
    | .conj => ulinkItems turns us (us u).a after bctx
    | .ite =>
      let g := us u
      let us := ulink turns us g.a g.d (g.tslot + 1)
      let us := ulink turns us g.d g.b bctx
      let us := ulink turns us g.b after bctx
      ulink turns us g.c after bctx
    | .disj =>
      let g := us u
      ulink turns (ulink turns us g.a after bctx) g.b after bctx
    | _ => us
termination_by structural turns => turns

/-- Its loop over the items of a conjunction. -/
def ulinkItems : Nat → (Nat → Egoal) → Nat → Nat → Nat → Nat → Egoal
  | 0, us, _, _, _ => us
  | turns + 1, us, v, after, bctx =>
    if v = 0 then us
    else
      let nx := (us v).sib
      ulinkItems turns (ulink turns us v (if nx ≠ 0 then nx else after) bctx) nx after bctx
termination_by structural turns => turns

end

/-- The body's units one after the other. -/
def ulinkBody (turns : Nat) : (Nat → Egoal) → List Nat → Nat → Egoal
  | us, [] => us
  | us, [u] => ulink turns us u 0 0
  | us, u :: v :: rest => ulinkBody turns (ulink turns us u v 0) (v :: rest)

/-- `cc_ufirst`. -/
def ufirst (s : Site) : Tm → Bool
  | .app .comma [_, _] => true
  | t => (uform s t).isSome

/-- The goals of a body: up to 63, and what is left as one. -/
def bodyGoals : Nat → Tm → List Tm
  | left + 1, .app .comma [l, r] => l :: bodyGoals left r
  | _, g => [g]

/-- A goal whose name and arity are a construct's. -/
def mayConstruct : Tm → Bool
  | .app f [_, _] => f = .semi ∨ f = .arrow ∨ f = .comma
  | .app f [_] => f = .neg ∨ f = .not_ ∨ f = .once ∨ f = .ignore
  | _ => false

/-- `cc_body_has_unit`. -/
def bodyHasUnit (body : Tm) (ngd : Nat) : Bool :=
  ((bodyGoals 63 body).drop ngd).any mayConstruct

/-- The loop of `cc_compile_env` over the goals from number `count`: its units, and whether the
first goal is handed over. -/
def compileGoals (s : Site) (ngd : Nat) : Nat → List Tm → Comp → Option (List Nat × Bool × Comp)
  | _, [], uc => some ([], true, uc)
  | count, g :: rest, uc =>
    if count < ngd ∨ count = ngd ∧ ufirst s g = false then do
      let uc' ← uc.ask s
      let w ← compileGoal { vm := uc.vm, nvars := uc.nvars } g
      compileGoals s ngd (count + 1) rest { uc' with vm := w.vm, nvars := w.nvars }
    else do
      let (u, uc) ← ubranch s 64 g uc
      let (bus, ehand, uc) ← compileGoals s ngd (count + 1) rest uc
      some (u :: bus, ehand && count ≠ ngd, uc)

/-- The offsets of one unit, in 32 bits, by the place `pb` before the first position and the first
condition slot `sb`. -/
def offsets (nes pb sb : Nat) (x : Egoal) : Egoal :=
  { x with
    noff := if x.next = 0 then 2 else (pb + x.next) % 2 ^ 32,
    boff := if x.bslot = 0 then 3 else (sb + (x.bslot - 1)) % 2 ^ 32,
    badd := if x.bslot = 0 then 0 else 1,
    soff :=
      match x.kind with
      | .term => (nes + x.tslot + 4) % 2 ^ 32
      | .builtin => (nes + x.tslot + 4) % 2 ^ 32
      | .ite => (sb + x.tslot) % 2 ^ 32
      | .cutc => (sb + x.tslot) % 2 ^ 32
      | _ => x.soff,
    aoff := if x.a ≠ 0 then (pb + x.a) % 2 ^ 32 else x.aoff,
    coff :=
      match x.kind with
      | .ite => (pb + x.c) % 2 ^ 32
      | .disj => (pb + x.b) % 2 ^ 32
      | _ => x.coff }

/-- The word of a position: its distance from the header over bit 16, its unit under it. -/
def posWord (distance unit : Nat) : Nat := distance <<< 16 ||| unit

/-- What `cc_compile_env` leaves in a `coco_code`, with the arity of `efid`. -/
structure Code where
  nes : Nat
  nterm : Nat
  nslot : Nat
  nunit : Nat
  eu0 : Nat
  ehand : Bool
  einit : List Nat
  egoals : Nat → Egoal
  etmpl : List Cell
  arity : Nat

/-- The last of `cc_compile_env`, the body taken. -/
def settle (uc : Comp) (bus : List Nat) (ehand : Bool) : Code :=
  let nes := uc.einit.length
  let pb := (nes + uc.nterm + uc.nslot + 3) % 2 ^ 32
  let sb := (nes + uc.nterm + 4) % 2 ^ 32
  let ps := (nes + uc.nterm + uc.nslot + 4) % 2 ^ 32
  let us := ulinkBody (2 * uc.nu + 2) uc.us bus
  { nes := nes, nterm := uc.nterm, nslot := uc.nslot, nunit := uc.nu, eu0 := bus.headD 0,
    ehand := ehand, einit := uc.einit,
    egoals := fun i => if 1 ≤ i ∧ i ≤ uc.nu then offsets nes pb sb (us i) else us i,
    etmpl := List.replicate uc.nslot (.int 0) ++
      (List.range uc.nu).map fun i => .pos (posWord (ps + i) (i + 1)),
    arity := (nes + uc.nterm + uc.nslot + uc.nu + 3) % 2 ^ 32 }

/-- `cc_compile_env`, of the numbering the head left: none where memory runs short, and no code where
the body makes no environment. -/
def compileEnv (s : Site) (head : Walk) (nvars ngd : Nat) (body : Tm) : Option (Option Code) :=
  if bodyHasUnit body ngd = false then some none
  else do
    let uc : Comp :=
      { us := fun _ => { kind := .term }, nemap := (nvars + 1) % 2 ^ 32, vm := head.vm,
        nvars := head.nvars }
    let uc ← uc.ask s
    let (bus, ehand, uc) ← compileGoals s ngd 0 (bodyGoals 63 body) uc
    if uc.ncons = 0 ∨ bus.length = 0 ∨ 64 < uc.nterm ∨ uc.nvars ≠ nvars then some none
    else do
      let uc ← uc.ask s
      some (some (settle uc bus ehand))

end Cocolog.Units
