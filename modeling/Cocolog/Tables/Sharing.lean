import Cocolog.Lib.Probe
import Cocolog.Lib.Runs
import Cocolog.Tables.Reclaim

/-! Machines that share one root's tables under the names' mutex. Each has a copy of the
root's fields, which it brings up to date before it changes a table and publishes after. The
arrays themselves are blocks of memory: growing one leaves the old block to whoever still
names it, doubling a bucket table frees it. -/

set_option linter.all false

namespace Cocolog.Tables

open Cocolog.Lib

/-- `coco_atom`. -/
structure Atom where
  name : List UInt8
  hash : UInt64
deriving Repr, DecidableEq

/-- What is looked at of a `coco_functor`. -/
structure Functor where
  name : UInt64
  arity : UInt32
deriving Repr, DecidableEq

/-- The arrays the fields of a machine name. -/
inductive Role where
  | atoms
  | atomBuckets
  | functors
  | functorBuckets
  | boxes (k : Kind)
deriving Repr, DecidableEq

/-- What stands in a block. A bucket holds an id and one, or 0. -/
inductive Block where
  | atoms (at_ : Nat → Atom)
  | atomBuckets (at_ : Nat → Nat)
  | functors (at_ : Nat → Functor)
  | functorBuckets (at_ : Nat → Nat)
  | boxes (k : Kind) (at_ : Nat → k.Val)

def Block.role : Block → Role
  | atoms _ => .atoms
  | atomBuckets _ => .atomBuckets
  | functors _ => .functors
  | functorBuckets _ => .functorBuckets
  | boxes k _ => .boxes k

/-- A block that nothing was written in. -/
def Role.blank : Role → Block
  | atoms => .atoms fun _ => ⟨[], 0⟩
  | atomBuckets => .atomBuckets fun _ => 0
  | functors => .functors fun _ => ⟨0, 0⟩
  | functorBuckets => .functorBuckets fun _ => 0
  | boxes .flt => .boxes .flt fun _ => (0 : UInt64)
  | boxes .str => .boxes .str fun _ => (none : Option (List UInt8))
  | boxes .big => .boxes .big fun _ => (0 : Int64)
  | boxes .rat => .boxes .rat fun _ => ((0, 0) : Int64 × Int64)

/-- The allocated blocks; none from `next` on was ever given out. -/
structure Mem where
  blocks : Nat → Option Block
  next : Nat
  fresh : ∀ p, next ≤ p → blocks p = none

namespace Mem

/-- `malloc` of a block with these contents. -/
def alloc (mem : Mem) (b : Block) : Mem where
  blocks := Function.update mem.blocks mem.next (some b)
  next := mem.next + 1
  fresh := by
    intro p le
    rw [Function.update_of_ne (by omega)]
    exact mem.fresh p (by omega)

/-- `free`. -/
def free (mem : Mem) : Option Nat → Mem
  | none => mem
  | some p =>
    { mem with
      blocks := Function.update mem.blocks p none
      fresh := by
        intro q le
        by_cases same : q = p
        · rw [same, Function.update_self]
        · rw [Function.update_of_ne same]
          exact mem.fresh q le }

/-- The block at `p` changed in place. -/
def write (mem : Mem) (p : Option Nat) (f : Block → Block) : Mem :=
  match p with
  | none => mem
  | some p =>
    { mem with
      blocks := Function.update mem.blocks p ((mem.blocks p).map f)
      fresh := by
        intro q le
        by_cases same : q = p
        · subst same
          rw [Function.update_self, mem.fresh q le]
          rfl
        · rw [Function.update_of_ne same]
          exact mem.fresh q le }

def atomAt (mem : Mem) (p : Option Nat) (i : Nat) : Atom :=
  match p.bind mem.blocks with
  | some (.atoms at_) => at_ i
  | _ => ⟨[], 0⟩

def functorAt (mem : Mem) (p : Option Nat) (i : Nat) : Functor :=
  match p.bind mem.blocks with
  | some (.functors at_) => at_ i
  | _ => ⟨0, 0⟩

def bucketAt (mem : Mem) (p : Option Nat) (i : Nat) : Nat :=
  match p.bind mem.blocks with
  | some (.atomBuckets at_) | some (.functorBuckets at_) => at_ i
  | _ => 0

end Mem

namespace Block

/-- Entry `i` written. -/
def setAtom (i : Nat) (a : Atom) : Block → Block
  | atoms at_ => atoms (Function.update at_ i a)
  | b => b

def setFunctor (i : Nat) (f : Functor) : Block → Block
  | functors at_ => functors (Function.update at_ i f)
  | b => b

def setBucket (i v : Nat) : Block → Block
  | atomBuckets at_ => atomBuckets (Function.update at_ i v)
  | functorBuckets at_ => functorBuckets (Function.update at_ i v)
  | b => b

def setBox (k : Kind) (i : Nat) (v : k.Val) : Block → Block
  | boxes k' at_ => if same : k = k' then boxes k' (Function.update at_ i (same ▸ v)) else boxes k' at_
  | b => b

end Block

/-- An array as a machine's fields have it: where it is, and its room. -/
structure Arr where
  ptr : Option Nat := none
  cap : Nat := 0
deriving Repr, DecidableEq

/-- The fields `coco_tcopy` copies. -/
structure Fields where
  arr : Role → Arr
  atomsLen : Nat := 0
  functorsLen : Nat := 0
  boxLen : Kind → Nat := fun _ => 0
  boxFree : Kind → List Nat := fun _ => []

/-- What memory an operation is given: a table's array, a copy of the text, a bucket table. -/
structure Grants where
  array : Bool := true
  copy : Bool := true
  buckets : Bool := true

/-- `coco_hash`. -/
def hash (name : List UInt8) : UInt64 :=
  let h := name.foldl (fun h c => (h * 33) ^^^ c.toUInt64) 5381 * 1099511628211
  h ^^^ (h >>> 29)

/-- `coco_name_arity_hash`. -/
def nameArityHash (f : Functor) : UInt64 :=
  let h := (f.name * 64 + f.arity.toUInt64) * 1099511628211
  h ^^^ (h >>> 29)

/-- How a probe ends: at the entry or at a free bucket. In a table that is full it goes round
for ever, and so does the operation, with nothing more done. -/
inductive Found where
  | hit (id : Nat)
  | miss (slot : Nat)
  | never
deriving Repr, DecidableEq

/-- Where the probe of a table starts. -/
def startAt (h : UInt64) (cap : Nat) : Nat := (h &&& UInt64.ofNat (cap - 1)).toNat

/-- The probe for an entry that `same` accepts. -/
def find (bucket : Nat → Nat) (cap : Nat) (same : Nat → Bool) (h : UInt64) : Found :=
  let stop j := bucket j == 0 || same (bucket j - 1)
  let j := probe stop (fun j => (j + 1) &&& (cap - 1)) cap (startAt h cap)
  if bucket j = 0 then .miss j
  else if same (bucket j - 1) = true then .hit (bucket j - 1)
  else .never

/-- The buckets of `len` entries made anew. -/
def rehashed (hashOf : Nat → UInt64) (len cap : Nat) : Nat → Nat :=
  (List.range len).foldl (fun bucket i =>
    Function.update bucket
      (probe (fun j => bucket j == 0) (fun j => (j + 1) &&& (cap - 1)) cap (startAt (hashOf i) cap)) (i + 1))
    fun _ => 0

/-- A machine's fields and the memory, while it has the lock. -/
structure Held where
  mem : Mem
  fields : Fields

namespace Held

/-- `coco_tbl_grow` under the mutex: the old block is left as it is. -/
def tblGrow (s : Held) (r : Role) (need : Nat) (granted : Bool) : Option Held :=
  let a := s.fields.arr r
  if need ≤ a.cap then some s
  else if granted = false then none
  else
    let contents := (a.ptr.bind s.mem.blocks).getD r.blank
    some ⟨s.mem.alloc contents,
      { s.fields with arr := Function.update s.fields.arr r ⟨some s.mem.next, doubled a.cap need⟩ }⟩

/-- A bucket table replaced by a new one, and freed. -/
def rebucket (s : Held) (r : Role) (cap : Nat) (b : Block) : Held :=
  ⟨(s.mem.alloc b).free (s.fields.arr r).ptr,
    { s.fields with arr := Function.update s.fields.arr r ⟨some s.mem.next, cap⟩ }⟩

/-- `coco_atoms_rehash`. -/
def atomsRehash (s : Held) : Held :=
  let cap := (s.fields.arr .atomBuckets).cap * 2
  s.rebucket .atomBuckets cap
    (.atomBuckets (rehashed (fun i => (s.mem.atomAt (s.fields.arr .atoms).ptr i).hash) s.fields.atomsLen cap))

/-- `coco_functors_rehash`. -/
def functorsRehash (s : Held) : Held :=
  let was := (s.fields.arr .functorBuckets).cap
  let cap := if was = 0 then 256 else was * 2
  s.rebucket .functorBuckets cap
    (.functorBuckets
      (rehashed (fun i => nameArityHash (s.mem.functorAt (s.fields.arr .functors).ptr i)) s.fields.functorsLen cap))

/-- The probe of `coco_intern_h`. -/
def findAtom (s : Held) (name : List UInt8) (h : UInt64) : Found :=
  find (s.mem.bucketAt (s.fields.arr .atomBuckets).ptr) (s.fields.arr .atomBuckets).cap
    (fun id =>
      let a := s.mem.atomAt (s.fields.arr .atoms).ptr id
      a.hash == h && a.name == name) h

/-- The probe of `coco_functor_id`. -/
def findFunctor (s : Held) (f : Functor) : Found :=
  find (s.mem.bucketAt (s.fields.arr .functorBuckets).ptr) (s.fields.arr .functorBuckets).cap
    (fun id => s.mem.functorAt (s.fields.arr .functors).ptr id == f) (nameArityHash f)

/-- An atom appended, its bucket at `slot`. -/
def addAtom (s : Held) (a : Atom) (slot : Nat) : Held :=
  let id := s.fields.atomsLen
  ⟨(s.mem.write (s.fields.arr .atoms).ptr (.setAtom id a)).write (s.fields.arr .atomBuckets).ptr
      (.setBucket slot (id + 1)),
    { s.fields with atomsLen := id + 1 }⟩

def addFunctor (s : Held) (f : Functor) (slot : Nat) : Held :=
  let id := s.fields.functorsLen
  ⟨(s.mem.write (s.fields.arr .functors).ptr (.setFunctor id f)).write (s.fields.arr .functorBuckets).ptr
      (.setBucket slot (id + 1)),
    { s.fields with functorsLen := id + 1 }⟩

/-- The atoms' table is half full. -/
def half (s : Held) : Bool := decide ((s.fields.arr .atomBuckets).cap ≤ s.fields.atomsLen * 2)

/-- `coco_intern_h` once the name was missed under the lock: the atom appended. -/
def intern (s : Held) (name : List UInt8) (h : UInt64) (slot : Nat) (g : Grants) : Held :=
  match s.tblGrow .atoms (s.fields.atomsLen + 1) g.array with
  | none => s
  | some s =>
    if g.copy = false then s
    else
      let s := s.addAtom ⟨name, h⟩ slot
      if s.half && g.buckets then s.atomsRehash else s

/-- The functors' table would be over half full. -/
def crowded (s : Held) : Bool := decide ((s.fields.arr .functorBuckets).cap < (s.fields.functorsLen + 1) * 2)

/-- `coco_functor_id` under the lock. -/
def functorId (s : Held) (f : Functor) (g : Grants) : Held :=
  if s.crowded && !g.buckets then s
  else
    let s := if s.crowded then s.functorsRehash else s
    match s.findFunctor f with
    | .hit _ | .never => s
    | .miss slot =>
      match s.tblGrow .functors (s.fields.functorsLen + 1) g.array with
      | none => s
      | some s => s.addFunctor f slot

/-- An entry's value written. -/
def setBox (s : Held) (k : Kind) (i : Nat) (v : k.Val) : Held :=
  ⟨s.mem.write (s.fields.arr (.boxes k)).ptr (.setBox k i v), s.fields⟩

/-- What `coco_new_float`, `coco_new_string`, `coco_big_entry` and `coco_rat_entry` do under
the lock. Only a string has text to copy. -/
def entry (s : Held) (k : Kind) (v : k.Val) (g : Grants) : Held :=
  if k = .str ∧ g.copy = false then s
  else match s.fields.boxFree k with
    | i :: rest => setBox { s with fields.boxFree := Function.update s.fields.boxFree k rest } k i v
    | [] =>
      match s.tblGrow (.boxes k) (s.fields.boxLen k + 1) g.array with
      | none => s
      | some s =>
        setBox { s with fields.boxLen := Function.update s.fields.boxLen k (s.fields.boxLen k + 1) } k
          (s.fields.boxLen k) v

end Held

/-- The root, machine 0, and `n` aliases of it, with the generation of the names. -/
structure World (n : Nat) where
  mem : Mem
  fields : Fin (n + 1) → Fields
  tgen : Fin (n + 1) → Nat
  gen : Nat

/-- An operation on the tables. -/
inductive Op where
  | intern (name : List UInt8)
  | internTnil
  | functorId (f : Functor)
  | entry (k : Kind) (v : k.Val)
  | sync

/-- An operation by one of the machines, with the memory it is given. -/
structure Event (n : Nat) where
  who : Fin (n + 1)
  op : Op
  grants : Grants := {}

namespace World

variable {n : Nat}

/-- `coco_tsync`. -/
def tsync (w : World n) (i : Fin (n + 1)) : World n :=
  if i = 0 then w else { w with fields := Function.update w.fields i (w.fields 0) }

/-- `coco_tupdate`. -/
def tupdate (w : World n) (i : Fin (n + 1)) : World n :=
  if i = 0 then w else { w with fields := Function.update w.fields 0 (w.fields i) }

/-- `coco_tbl_sync`, and what `coco_tbl_begin` does once it has the lock. -/
def tblSync (w : World n) (i : Fin (n + 1)) : World n :=
  if w.tgen i = w.gen then w
  else
    let w := w.tsync i
    { w with tgen := Function.update w.tgen i w.gen }

/-- `coco_tbl_end`. -/
def tblEnd (w : World n) (i : Fin (n + 1)) : World n :=
  let w := w.tupdate i
  { w with gen := w.gen + 1, tgen := Function.update w.tgen i (w.gen + 1) }

/-- Machine `i` with the lock. -/
def held (w : World n) (i : Fin (n + 1)) : Held := ⟨w.mem, w.fields i⟩

/-- What the lock's holder leaves. -/
def put (w : World n) (i : Fin (n + 1)) (s : Held) : World n :=
  { w with mem := s.mem, fields := Function.update w.fields i s.fields }

/-- `coco_intern_h`. The name is looked for first without the lock and then with it; found,
nothing is published. -/
def internH (w : World n) (i : Fin (n + 1)) (name : List UInt8) (h : UInt64) (g : Grants) : World n :=
  let w := w.tblSync i
  match (w.held i).findAtom name h with
  | .hit _ | .never => w
  | .miss _ =>
    let w := w.tblSync i
    match (w.held i).findAtom name h with
    | .hit _ | .never => w
    | .miss slot => (w.put i ((w.held i).intern name h slot g)).tblEnd i

/-- `coco_functor_id`. -/
def functorId (w : World n) (i : Fin (n + 1)) (f : Functor) (g : Grants) : World n :=
  let w := w.tblSync i
  (w.put i ((w.held i).functorId f g)).tblEnd i

/-- A whole operation. -/
def step (w : World n) (e : Event n) : World n :=
  match e.op with
  | .intern name => w.internH e.who name (hash name) e.grants
  | .internTnil => w.internH e.who [91, 93] (hash [91, 93] ^^^ 1) e.grants
  | .functorId f => w.functorId e.who f e.grants
  | .entry k v =>
    let w := w.tblSync e.who
    (w.put e.who ((w.held e.who).entry k v e.grants)).tblEnd e.who
  | .sync => w.tblSync e.who

/-- Every array a machine's fields name is allocated. -/
def Safe (w : World n) : Prop := ∀ j r p, ((w.fields j).arr r).ptr = some p → (w.mem.blocks p).isSome

end World

namespace Held

/-- The atoms' table is doubled by an intern of this name: it is not there, is given its room
and its text, and brings the table to half. -/
def internDoubles (s : Held) (name : List UInt8) (h : UInt64) (g : Grants) : Bool :=
  match s.findAtom name h with
  | .miss _ =>
    (decide (s.fields.atomsLen + 1 ≤ (s.fields.arr .atoms).cap) || g.array) && g.copy &&
      decide ((s.fields.arr .atomBuckets).cap ≤ (s.fields.atomsLen + 1) * 2) && g.buckets
  | _ => false

end Held

namespace World

variable {n : Nat}

/-- The bucket table the operation doubles, from what the machine is brought up to. -/
def doubles (w : World n) (e : Event n) : Option Role :=
  let s := (w.tblSync e.who).held e.who
  match e.op with
  | .intern name => if s.internDoubles name (hash name) e.grants = true then some .atomBuckets else none
  | .internTnil =>
    if s.internDoubles [91, 93] (hash [91, 93] ^^^ 1) e.grants = true then some .atomBuckets else none
  | .functorId _ => if s.crowded && e.grants.buckets then some .functorBuckets else none
  | .entry _ _ | .sync => none

/-- No alias but the acting machine names the bucket table that is doubled. -/
def Apart (w : World n) (e : Event n) : Prop :=
  ∀ r p, w.doubles e = some r → ((w.fields 0).arr r).ptr = some p →
    ∀ j, j ≠ e.who → j ≠ 0 → ((w.fields j).arr r).ptr ≠ some p

end World

/- What a machine does with the lock. -/

/-- What kind of block is at `p`. -/
def Mem.roleAt (mem : Mem) (p : Nat) : Option Role := (mem.blocks p).map Block.role

namespace Held

/-- Every array of the fields is a block of its kind. -/
def Typed (s : Held) : Prop := ∀ r p, (s.fields.arr r).ptr = some p → s.mem.roleAt p = some r

/-- What was allocated stays, but for one block that may be freed. -/
structure Change (s s' : Held) (freed : Option Nat) : Prop where
  grown : s.mem.next ≤ s'.mem.next
  roles : ∀ p < s.mem.next, s'.mem.roleAt p = if freed = some p then none else s.mem.roleAt p
  typed : s.Typed → s'.Typed

variable {s s' s'' : Held} {q : Option Nat} {r : Role}

theorem Typed.lt (typed : s.Typed) {p : Nat} (names : (s.fields.arr r).ptr = some p) : p < s.mem.next := by
  by_contra far
  have gone := typed r p names
  rw [Mem.roleAt, s.mem.fresh p (by omega)] at gone
  cases gone

theorem Change.refl (s : Held) : Change s s none := ⟨le_rfl, fun _ _ => by rw [if_neg (by simp)], id⟩

theorem Change.then (one : Change s s' none) (two : Change s' s'' q) : Change s s'' q := by
  refine ⟨one.grown.trans two.grown, ?_, two.typed ∘ one.typed⟩
  intro p lt
  have first := one.roles p lt
  rw [if_neg (by simp)] at first
  rw [two.roles p (lt.trans_le one.grown), first]

theorem Change.after (one : Change s s' q) (two : Change s' s'' none) : Change s s'' q := by
  refine ⟨one.grown.trans two.grown, ?_, two.typed ∘ one.typed⟩
  intro p lt
  rw [two.roles p (lt.trans_le one.grown), one.roles p lt, if_neg (by simp)]

theorem roleAt_alloc (mem : Mem) (b : Block) (p : Nat) :
    (mem.alloc b).roleAt p = if p = mem.next then some b.role else mem.roleAt p := by
  unfold Mem.roleAt Mem.alloc
  dsimp only
  by_cases same : p = mem.next
  · rw [if_pos same, same, Function.update_self]
    rfl
  · rw [if_neg same, Function.update_of_ne same]

theorem roleAt_free (mem : Mem) (q : Option Nat) (p : Nat) :
    (mem.free q).roleAt p = if q = some p then none else mem.roleAt p := by
  cases q with
  | none => rfl
  | some q =>
    unfold Mem.roleAt Mem.free
    dsimp only
    by_cases same : q = p
    · subst same
      rw [if_pos rfl, Function.update_self]
      rfl
    · rw [if_neg (by simpa using same), Function.update_of_ne (Ne.symm same)]

theorem roleAt_write (mem : Mem) (q : Option Nat) {f : Block → Block} (keeps : ∀ b, (f b).role = b.role) (p : Nat) :
    (mem.write q f).roleAt p = mem.roleAt p := by
  cases q with
  | none => rfl
  | some q =>
    unfold Mem.roleAt Mem.write
    dsimp only
    by_cases same : p = q
    · subst same
      rw [Function.update_self, Option.map_map]
      exact congrFun (congrArg Option.map (funext keeps)) _
    · rw [Function.update_of_ne same]

theorem setAtom_role (i : Nat) (a : Atom) (b : Block) : (b.setAtom i a).role = b.role := by
  cases b <;> rfl

theorem setFunctor_role (i : Nat) (f : Functor) (b : Block) : (b.setFunctor i f).role = b.role := by
  cases b <;> rfl

theorem setBucket_role (i v : Nat) (b : Block) : (b.setBucket i v).role = b.role := by
  cases b <;> rfl

theorem setBox_role (k : Kind) (i : Nat) (v : k.Val) (b : Block) : (b.setBox k i v).role = b.role := by
  cases b with
  | boxes k' at_ =>
    dsimp only [Block.setBox]
    split <;> rfl
  | _ => rfl

/-- Blocks of the same kinds at the same places, and the same arrays. -/
theorem Change.of_roles (roles : ∀ p, s'.mem.roleAt p = s.mem.roleAt p) (next : s'.mem.next = s.mem.next)
    (arr : s'.fields.arr = s.fields.arr) : Change s s' none := by
  refine ⟨next.ge, fun p _ => by rw [if_neg (by simp), roles p], ?_⟩
  intro typed r p names
  rw [arr] at names
  rw [roles p, typed r p names]

theorem write_next (mem : Mem) (q : Option Nat) (f : Block → Block) : (mem.write q f).next = mem.next := by
  cases q <;> rfl

theorem addAtom_change (s : Held) (a : Atom) (slot : Nat) : Change s (s.addAtom a slot) none := by
  refine .of_roles ?_ ?_ rfl
  · intro p
    exact (roleAt_write _ _ (setBucket_role _ _) p).trans (roleAt_write _ _ (setAtom_role _ _) p)
  · exact (write_next ..).trans (write_next ..)

theorem addFunctor_change (s : Held) (f : Functor) (slot : Nat) : Change s (s.addFunctor f slot) none := by
  refine .of_roles ?_ ?_ rfl
  · intro p
    exact (roleAt_write _ _ (setBucket_role _ _) p).trans (roleAt_write _ _ (setFunctor_role _ _) p)
  · exact (write_next ..).trans (write_next ..)

theorem setBox_change (s : Held) (k : Kind) (i : Nat) (v : k.Val) : Change s (s.setBox k i v) none :=
  .of_roles (roleAt_write _ _ (setBox_role k i v)) (write_next ..) rfl

theorem blank_role (r : Role) : r.blank.role = r := by
  cases r with
  | boxes k => cases k <;> rfl
  | _ => rfl

/-- Growing an array leaves the old block where it is. -/
theorem tblGrow_change {need : Nat} {granted : Bool} (grown : s.tblGrow r need granted = some s') :
    Change s s' none ∧ (∀ r', r' ≠ r → s'.fields.arr r' = s.fields.arr r') ∧
      s'.fields.atomsLen = s.fields.atomsLen := by
  unfold tblGrow at grown
  dsimp only at grown
  split at grown
  · cases grown
    exact ⟨.refl s, fun _ _ => rfl, rfl⟩
  · split at grown
    · cases grown
    · cases grown
      refine ⟨⟨Nat.le_succ _, ?_, ?_⟩, fun r' ne => Function.update_of_ne ne .., rfl⟩
      · intro p lt
        rw [if_neg (by simp), roleAt_alloc, if_neg (Nat.ne_of_lt lt)]
      · intro typed r' p names
        dsimp only at names ⊢
        rw [roleAt_alloc]
        by_cases same : r' = r
        · subst same
          rw [Function.update_self] at names
          rw [if_pos (Option.some.inj names).symm]
          cases ptr : (s.fields.arr r').ptr with
          | none => exact congrArg some (blank_role r')
          | some old =>
            have kind := typed r' old ptr
            obtain ⟨b, at_, role⟩ := Option.map_eq_some_iff.mp kind
            simp only [Option.bind_some, at_, Option.getD_some]
            exact congrArg some role
        · rw [Function.update_of_ne same] at names
          have lt := typed.lt names
          rw [if_neg (Nat.ne_of_lt lt)]
          exact typed r' p names

/-- A bucket table that is doubled is freed. -/
theorem rebucket_change (s : Held) {b : Block} (cap : Nat) (kind : b.role = r) :
    Change s (s.rebucket r cap b) (s.fields.arr r).ptr := by
  have next : (s.rebucket r cap b).mem.next = s.mem.next + 1 := by
    unfold rebucket
    cases (s.fields.arr r).ptr <;> rfl
  refine ⟨next ▸ Nat.le_succ _, ?_, ?_⟩
  · intro p lt
    refine (roleAt_free ..).trans ?_
    rw [roleAt_alloc, if_neg (Nat.ne_of_lt lt)]
  · intro typed r' p names
    refine (roleAt_free ..).trans ?_
    rw [roleAt_alloc]
    by_cases same : r' = r
    · subst same
      have new : s.mem.next = p := by
        simpa only [rebucket, Function.update_self, Option.some.injEq] using names
      have other : (s.fields.arr r').ptr ≠ some p := by
        intro old
        exact Nat.ne_of_lt (typed.lt old) new.symm
      rw [if_neg other, if_pos new.symm, kind]
    · have names : (s.fields.arr r').ptr = some p := by
        simpa only [rebucket, Function.update_of_ne same] using names
      have other : (s.fields.arr r).ptr ≠ some p := by
        intro old
        have both := (typed r p old).symm.trans (typed r' p names)
        exact same (Option.some.inj both).symm
      rw [if_neg other, if_neg (Nat.ne_of_lt (typed.lt names))]
      exact typed r' p names

theorem tblGrow_none {need : Nat} {granted : Bool} (refused : s.tblGrow r need granted = none) :
    (decide (need ≤ (s.fields.arr r).cap) || granted) = false := by
  unfold tblGrow at refused
  dsimp only at refused
  split at refused
  · cases refused
  · rename_i short
    split at refused
    · rename_i no
      rw [no, decide_eq_false short]
      rfl
    · cases refused

theorem tblGrow_some {need : Nat} {granted : Bool} (grown : s.tblGrow r need granted = some s') :
    (decide (need ≤ (s.fields.arr r).cap) || granted) = true := by
  unfold tblGrow at grown
  dsimp only at grown
  split at grown
  · rename_i fits
    rw [decide_eq_true fits, Bool.true_or]
  · split at grown
    · cases grown
    · rename_i given
      rw [Bool.not_eq_false] at given
      rw [given, Bool.or_true]

/-- An intern frees the atoms' bucket table when it doubles it, and nothing else. -/
theorem intern_change (s : Held) {name : List UInt8} {h : UInt64} {slot : Nat} (g : Grants)
    (miss : s.findAtom name h = .miss slot) :
    Change s (s.intern name h slot g)
      (if s.internDoubles name h g = true then (s.fields.arr .atomBuckets).ptr else none) := by
  unfold intern internDoubles
  rw [miss]
  dsimp only
  cases grown : s.tblGrow .atoms (s.fields.atomsLen + 1) g.array with
  | none =>
    rw [tblGrow_none grown]
    exact .refl s
  | some s₁ =>
    obtain ⟨change, others, len⟩ := tblGrow_change grown
    have buckets : s₁.fields.arr .atomBuckets = s.fields.arr .atomBuckets := others _ (by decide)
    rw [tblGrow_some grown, Bool.true_and]
    dsimp only
    cases copied : g.copy with
    | false => exact change
    | true =>
      rw [if_neg (by decide), Bool.true_and]
      have added := change.then (s₁.addAtom_change ⟨name, h⟩ slot)
      have is : (s₁.addAtom ⟨name, h⟩ slot).half =
          decide ((s.fields.arr .atomBuckets).cap ≤ (s.fields.atomsLen + 1) * 2) := by
        simp only [half, addAtom, buckets, len]
      have ptr : ((s₁.addAtom ⟨name, h⟩ slot).fields.arr .atomBuckets).ptr = (s.fields.arr .atomBuckets).ptr := by
        rw [← buckets]
        rfl
      rw [is]
      split
      · exact ptr ▸ added.then (rebucket_change _ _ rfl)
      · exact added

/-- So does the search for a functor with the functors' table. -/
theorem functorId_change (s : Held) (f : Functor) (g : Grants) :
    Change s (s.functorId f g)
      (if (s.crowded && g.buckets) = true then (s.fields.arr .functorBuckets).ptr else none) := by
  have rest (s : Held) : Change s
      (match s.findFunctor f with
        | .hit _ | .never => s
        | .miss slot =>
          match s.tblGrow .functors (s.fields.functorsLen + 1) g.array with
          | none => s
          | some s => s.addFunctor f slot) none := by
    split
    · exact .refl s
    · exact .refl s
    · split
      · exact .refl s
      · rename_i s₁ grown
        exact (tblGrow_change grown).1.then (s₁.addFunctor_change f _)
  unfold functorId
  cases full : s.crowded with
  | false => exact rest s
  | true =>
    cases given : g.buckets with
    | false => exact .refl s
    | true =>
      have doubled : Change s s.functorsRehash (s.fields.arr .functorBuckets).ptr := rebucket_change s _ rfl
      exact doubled.after (rest s.functorsRehash)

theorem entry_change (s : Held) (k : Kind) (v : k.Val) (g : Grants) : Change s (s.entry k v g) none := by
  have relabel (s : Held) (f : Fields) (arr : f.arr = s.fields.arr) : Change s { s with fields := f } none :=
    .of_roles (fun _ => rfl) rfl arr
  unfold entry
  split
  · exact .refl s
  · split
    · rename_i i rest _
      exact (relabel s { s.fields with boxFree := Function.update s.fields.boxFree k rest } rfl).then
        (setBox_change _ k i v)
    · split
      · exact .refl s
      · rename_i s₁ grown
        have longer := relabel s₁
          { s₁.fields with boxLen := Function.update s₁.fields.boxLen k (s₁.fields.boxLen k + 1) } rfl
        exact ((tblGrow_change grown).1.then longer).then (setBox_change _ k _ v)

end Held

namespace World

variable {n : Nat} {w : World n} {i : Fin (n + 1)}

/-- What holds between two operations: arrays are of their kind, and a machine at the present
generation has the root's fields. -/
structure Inv (w : World n) : Prop where
  typed : ∀ j, (w.held j).Typed
  current : ∀ j, w.tgen j = w.gen → w.fields j = w.fields 0
  early : ∀ j, j ≠ 0 → w.tgen j ≤ w.gen

theorem Inv.safe (inv : Inv w) : w.Safe := by
  intro j r p names
  have kind := inv.typed j r p names
  obtain ⟨b, here, -⟩ := Option.map_eq_some_iff.mp kind
  exact Option.isSome_iff_exists.mpr ⟨b, here⟩

/-- Brought up to date, a machine has the root's fields; nothing else changes. -/
theorem tblSync_spec (w : World n) (i : Fin (n + 1)) (current : w.tgen i = w.gen → w.fields i = w.fields 0) :
    (w.tblSync i).mem = w.mem ∧ (w.tblSync i).gen = w.gen ∧
      (w.tblSync i).fields = Function.update w.fields i (w.fields 0) ∧
      (w.tblSync i).tgen = Function.update w.tgen i w.gen := by
  unfold tblSync
  by_cases now : w.tgen i = w.gen
  · rw [if_pos now]
    refine ⟨rfl, rfl, ?_, ?_⟩
    · rw [← current now, Function.update_eq_self]
    · rw [← now, Function.update_eq_self]
  · rw [if_neg now]
    unfold tsync
    by_cases root : i = 0
    · rw [if_pos root]
      refine ⟨rfl, rfl, ?_, rfl⟩
      rw [root, Function.update_eq_self]
    · rw [if_neg root]
      exact ⟨rfl, rfl, rfl, rfl⟩

theorem Inv.sync (inv : Inv w) (i : Fin (n + 1)) : Inv (w.tblSync i) := by
  obtain ⟨mem, gen, fields, tgen⟩ := tblSync_spec w i (inv.current i)
  have root : (w.tblSync i).fields 0 = w.fields 0 := by
    rw [fields]
    by_cases zero : 0 = i
    · rw [zero, Function.update_self]
    · rw [Function.update_of_ne zero]
  refine ⟨?_, ?_, ?_⟩
  · intro j
    unfold held
    rw [mem, fields]
    by_cases self : j = i
    · rw [self, Function.update_self]
      exact inv.typed 0
    · rw [Function.update_of_ne self]
      exact inv.typed j
  · intro j
    rw [root, fields, tgen, gen]
    by_cases self : j = i
    · rw [self]
      exact fun _ => Function.update_self ..
    · rw [Function.update_of_ne self, Function.update_of_ne self]
      exact inv.current j
  · intro j alias_
    rw [tgen, gen]
    by_cases self : j = i
    · rw [self, Function.update_self]
    · rw [Function.update_of_ne self]
      exact inv.early j alias_

/-- What the lock's holder publishes: it and the root have the new fields. -/
theorem published (w : World n) (i : Fin (n + 1)) (s : Held) :
    ((w.put i s).tblEnd i).mem = s.mem ∧ ((w.put i s).tblEnd i).gen = w.gen + 1 ∧
      ((w.put i s).tblEnd i).tgen = Function.update w.tgen i (w.gen + 1) ∧
      ∀ j, ((w.put i s).tblEnd i).fields j = if j = i ∨ j = 0 then s.fields else w.fields j := by
  unfold tblEnd tupdate
  by_cases root : i = 0
  · subst root
    rw [if_pos rfl]
    refine ⟨rfl, rfl, rfl, ?_⟩
    intro j
    by_cases self : j = 0
    · rw [if_pos (.inl self), self]
      exact Function.update_self 0 s.fields w.fields
    · rw [if_neg (by tauto)]
      exact Function.update_of_ne self s.fields w.fields
  · rw [if_neg root]
    refine ⟨rfl, rfl, rfl, ?_⟩
    intro j
    have new : (w.put i s).fields i = s.fields := by
      unfold put
      exact Function.update_self i s.fields w.fields
    dsimp only
    by_cases zero : j = 0
    · rw [zero, Function.update_self, if_pos (.inr rfl), new]
    · rw [Function.update_of_ne zero]
      by_cases self : j = i
      · rw [if_pos (.inl self), self, new]
      · rw [if_neg (by tauto)]
        exact Function.update_of_ne self s.fields w.fields

/-- The world after an operation that frees nothing another machine names. -/
theorem Inv.publish (inv : Inv w) {s : Held} {q : Option Nat} (change : Held.Change (w.held i) s q)
    (apart : ∀ r p, q = some p → ∀ j, j ≠ i → j ≠ 0 → ((w.fields j).arr r).ptr ≠ some p) :
    Inv ((w.put i s).tblEnd i) := by
  obtain ⟨mem, gen, tgen, fields⟩ := published w i s
  refine ⟨?_, ?_, ?_⟩
  · intro j
    unfold held
    rw [mem, fields]
    split
    · exact change.typed (inv.typed i)
    · rename_i other
      intro r p names
      have kind := inv.typed j r p names
      have lt : p < w.mem.next := (inv.typed j).lt names
      have stays : ¬ q = some p := fun freed => apart r p freed j (by tauto) (by tauto) names
      have same := change.roles p lt
      rw [if_neg stays] at same
      exact same.trans kind
  · intro j now
    have root : ((w.put i s).tblEnd i).fields 0 = s.fields := by rw [fields, if_pos (.inr rfl)]
    rw [root, fields]
    split
    · rfl
    · rename_i other
      rw [gen, tgen, Function.update_of_ne (by tauto)] at now
      have old := inv.early j (by tauto)
      omega
  · intro j alias_
    rw [gen, tgen]
    by_cases self : j = i
    · rw [self, Function.update_self]
    · rw [Function.update_of_ne self]
      exact Nat.le_succ_of_le (inv.early j alias_)

/-- A third machine that names what was freed. -/
theorem Inv.dangles (inv : Inv w) {s : Held} {q : Option Nat} (change : Held.Change (w.held i) s q) {j : Fin (n + 1)}
    {r : Role} {p : Nat} (freed : q = some p) (third : j ≠ i) (alias_ : j ≠ 0)
    (names : ((w.fields j).arr r).ptr = some p) : ¬ ((w.put i s).tblEnd i).Safe := by
  intro safe
  obtain ⟨mem, -, -, fields⟩ := published w i s
  have still := safe j r p (by rw [fields, if_neg (by tauto), names])
  have gone := change.roles p ((inv.typed j).lt names)
  rw [if_pos freed] at gone
  rw [mem] at still
  rw [Option.map_eq_none_iff.mp gone] at still
  cases still

theorem tblSync_tblSync (w : World n) (i : Fin (n + 1)) : (w.tblSync i).tblSync i = w.tblSync i := by
  have now : (w.tblSync i).tgen i = (w.tblSync i).gen := by
    unfold tblSync tsync
    by_cases same : w.tgen i = w.gen
    · rw [if_pos same]
      exact same
    · rw [if_neg same]
      split <;> exact Function.update_self i w.gen w.tgen
  rw [tblSync.eq_def, if_pos now]

/-- The block an operation frees: the bucket table it doubles. -/
def frees (w : World n) (e : Event n) : Option Nat :=
  (w.doubles e).bind fun r => (((w.tblSync e.who).fields e.who).arr r).ptr

theorem internH_cases (w : World n) (i : Fin (n + 1)) (name : List UInt8) (h : UInt64) (g : Grants) :
    (((w.tblSync i).held i).internDoubles name h g = false ∧ w.internH i name h g = w.tblSync i) ∨
      ∃ slot, ((w.tblSync i).held i).findAtom name h = .miss slot ∧
        w.internH i name h g =
          ((w.tblSync i).put i (((w.tblSync i).held i).intern name h slot g)).tblEnd i := by
  unfold internH
  dsimp only
  rw [tblSync_tblSync]
  cases found : ((w.tblSync i).held i).findAtom name h with
  | hit id =>
    refine .inl ⟨?_, rfl⟩
    unfold Held.internDoubles
    rw [found]
  | never =>
    refine .inl ⟨?_, rfl⟩
    unfold Held.internDoubles
    rw [found]
  | miss slot => exact .inr ⟨slot, rfl, rfl⟩

/-- What an operation does: it brings its machine up to date, and may publish a change that
frees the bucket table it doubles and nothing else. -/
theorem step_cases (w : World n) (e : Event n) :
    (w.frees e = none ∧ w.step e = w.tblSync e.who) ∨
      ∃ s, w.step e = ((w.tblSync e.who).put e.who s).tblEnd e.who ∧
        Held.Change ((w.tblSync e.who).held e.who) s (w.frees e) := by
  obtain ⟨i, op, g⟩ := e
  have intern (name : List UInt8) (h : UInt64) (op : Op) (is : w.step ⟨i, op, g⟩ = w.internH i name h g)
      (doubles : w.doubles ⟨i, op, g⟩ =
        if ((w.tblSync i).held i).internDoubles name h g = true then some .atomBuckets else none) :
      (w.frees ⟨i, op, g⟩ = none ∧ w.step ⟨i, op, g⟩ = w.tblSync i) ∨
        ∃ s, w.step ⟨i, op, g⟩ = ((w.tblSync i).put i s).tblEnd i ∧
          Held.Change ((w.tblSync i).held i) s (w.frees ⟨i, op, g⟩) := by
    unfold frees
    rw [is, doubles]
    rcases w.internH_cases i name h g with ⟨not, same⟩ | ⟨slot, miss, same⟩
    · rw [not]
      exact .inl ⟨rfl, same⟩
    · refine .inr ⟨_, same, ?_⟩
      have change := Held.intern_change _ g miss
      split
      · rename_i yes
        rw [if_pos yes] at change
        exact change
      · rename_i no
        rw [if_neg no] at change
        exact change
  cases op with
  | intern name => exact intern name (hash name) _ rfl rfl
  | internTnil => exact intern [91, 93] (hash [91, 93] ^^^ 1) _ rfl rfl
  | functorId f =>
    refine .inr ⟨_, rfl, ?_⟩
    have change := Held.functorId_change ((w.tblSync i).held i) f g
    unfold frees doubles
    dsimp only
    split
    · rename_i yes
      rw [if_pos yes] at change
      exact change
    · rename_i no
      rw [if_neg no] at change
      exact change
  | entry k v => exact .inr ⟨_, rfl, Held.entry_change ..⟩
  | sync => exact .inl ⟨rfl, rfl⟩

/-- Freed is the root's table. -/
theorem Inv.frees_iff (inv : Inv w) (e : Event n) (p : Nat) :
    w.frees e = some p ↔ ∃ r, w.doubles e = some r ∧ ((w.fields 0).arr r).ptr = some p := by
  have same : (w.tblSync e.who).fields e.who = w.fields 0 := by
    rw [(tblSync_spec w e.who (inv.current e.who)).2.2.1]
    exact Function.update_self ..
  unfold frees
  rw [same, Option.bind_eq_some_iff]

/-- The other machines' fields are not touched by bringing one up to date. -/
theorem Inv.sync_other (inv : Inv w) {j : Fin (n + 1)} (other : j ≠ i) : (w.tblSync i).fields j = w.fields j := by
  rw [(tblSync_spec w i (inv.current i)).2.2.1]
  exact Function.update_of_ne other ..

theorem Inv.step_apart (inv : Inv w) {e : Event n} (apart : w.Apart e) : Inv (w.step e) := by
  rcases w.step_cases e with ⟨-, same⟩ | ⟨s, same, change⟩
  · rw [same]
    exact inv.sync e.who
  · rw [same]
    refine (inv.sync e.who).publish change ?_
    intro r p freed j other alias_
    obtain ⟨r', doubles, root⟩ := (inv.frees_iff e p).mp freed
    rw [inv.sync_other other]
    intro names
    have kinds := (inv.typed j r p names).symm.trans (inv.typed 0 r' p root)
    obtain rfl := Option.some.inj kinds
    exact apart r p doubles root j other alias_ names

theorem Inv.step_dangles (inv : Inv w) {e : Event n} (close : ¬ w.Apart e) : ¬ (w.step e).Safe := by
  unfold Apart at close
  push Not at close
  obtain ⟨r, p, doubles, root, j, other, alias_, names⟩ := close
  have freed := (inv.frees_iff e p).mpr ⟨r, doubles, root⟩
  rcases w.step_cases e with ⟨none_, -⟩ | ⟨s, same, change⟩
  · rw [none_] at freed
    cases freed
  · rw [same]
    have still : (((w.tblSync e.who).fields j).arr r).ptr = some p := by
      rw [inv.sync_other other]
      exact names
    exact (inv.sync e.who).dangles change freed other alias_ still

/-- Aliases just made of a root whose tables are arrays of their own. -/
structure Start (w : World n) : Prop where
  typed : (w.held 0).Typed
  copies : ∀ j, w.fields j = w.fields 0
  early : ∀ j, j ≠ 0 → w.tgen j ≤ w.gen

theorem Start.inv (start : Start w) : Inv w := by
  refine ⟨?_, fun j _ => start.copies j, start.early⟩
  intro j
  unfold held
  rw [start.copies j]
  exact start.typed

/-- Whether each state of a run keeps every named array is whether each of its operations
leaves apart the bucket table it doubles. -/
theorem safe_along_iff (inv : Inv w) (events : List (Event n)) :
    (∀ k, (run step w (events.take k)).Safe) ↔ Along step Apart w events := by
  induction events generalizing w with
  | nil =>
    constructor
    · exact fun _ => trivial
    · intro _ k
      rw [List.take_nil]
      exact inv.safe
  | cons e rest ih =>
    constructor
    · intro all
      have apart : w.Apart e := by
        by_contra close
        exact inv.step_dangles close (all 1)
      exact ⟨apart, (ih (inv.step_apart apart)).mp fun k => all (k + 1)⟩
    · rintro ⟨apart, later⟩ k
      cases k with
      | zero => exact inv.safe
      | succ k => exact (ih (inv.step_apart apart)).mpr later k

/-- In every run of operations by a root and its aliases, what any machine's fields name is
allocated in every state exactly when no bucket table is doubled while an alias other than
the acting machine names it. -/
theorem named_arrays_allocated_iff (w : World n) (start : Start w) (events : List (Event n)) :
    (∀ k, (run step w (events.take k)).Safe) ↔ Along step Apart w events :=
  safe_along_iff start.inv events

/-- A root with 128 functors in 256 buckets, and an alias of it. -/
def pair : World 1 where
  mem :=
    { blocks := fun
        | 0 => some (.atoms fun _ => ⟨[97], hash [97]⟩)
        | 1 => some (.atomBuckets (rehashed (fun _ => hash [97]) 1 256))
        | 2 => some (.functors fun i => ⟨0, UInt32.ofNat i⟩)
        | 3 => some (.functorBuckets (rehashed (fun i => nameArityHash ⟨0, UInt32.ofNat i⟩) 128 256))
        | _ => none
      next := 4
      fresh := by
        intro p le
        match p with
        | p + 4 => rfl }
  fields _ :=
    { arr := fun
        | .atoms => ⟨some 0, 64⟩
        | .atomBuckets => ⟨some 1, 256⟩
        | .functors => ⟨some 2, 128⟩
        | .functorBuckets => ⟨some 3, 256⟩
        | .boxes _ => {}
      atomsLen := 1
      functorsLen := 128 }
  tgen _ := 0
  gen := 0

theorem pair_start : Start pair := by
  refine ⟨?_, fun _ => rfl, fun _ _ => le_rfl⟩
  intro r p names
  cases r with
  | boxes k => cases names
  | _ =>
    cases names
    rfl

theorem named_arrays_allocated_iff_pair :
    (run step pair ([⟨1, .entry .flt (5 : UInt64), {}⟩].take 1)).Safe := by
  refine (named_arrays_allocated_iff pair pair_start [⟨1, .entry .flt (5 : UInt64), {}⟩]).mpr
    ⟨?_, trivial⟩ 1
  intro r p none_
  cases none_

/-- The root asks for one functor more. -/
theorem doubled_table_dangles :
    ¬ ∀ (n : Nat) (w : World n), Start w → ∀ (events : List (Event n)) (k : Nat),
      (run step w (events.take k)).Safe := by
  intro all
  refine pair_start.inv.step_dangles (e := ⟨0, .functorId ⟨0, 128⟩, {}⟩) ?_
    (all 1 pair pair_start [⟨0, .functorId ⟨0, 128⟩, {}⟩] 1)
  intro apart
  exact apart .functorBuckets 3 rfl rfl 1 (by decide) (by decide) rfl

end World

end Cocolog.Tables
