import Cocolog.Gc.Bits
import Cocolog.Lib.Slots
import Cocolog.State.WellFormed
import Mathlib.Logic.Relation

/-! The tables of floats, strings, wide integers and rationals. A cell names an entry by its
index, and cells are held by the heap, by the stores of the engines on the chain and by the
programs those keep. `coco_tables_reclaim` gives back what none of them names. -/

set_option linter.all false

namespace Cocolog.Tables

open Cocolog.Lib Cocolog.Gc

/-- The tables. -/
inductive Kind where
  | flt
  | str
  | big
  | rat
deriving Repr, DecidableEq

namespace Kind

/-- What an entry is: a float's bits, a string's bytes, which a dead string has not, an
integer, or a rational. -/
def Val : Kind → Type
  | flt => UInt64
  | str => Option (List UInt8)
  | big => Int64
  | rat => Int64 × Int64

/-- What becomes of a dead entry: a string's bytes are freed. -/
def drop : (k : Kind) → k.Val → k.Val
  | str => fun _ => none
  | flt | big | rat => id

def tag : Kind → UInt64
  | flt => 4
  | str => 5
  | big => 7
  | rat => 8

/-- The cell that names entry `i`. -/
def cell (k : Kind) (i : Nat) : UInt64 := State.cell k.tag (UInt64.ofNat i)

end Kind

/-- The entry a word names, by its tag. -/
def entryOf (w : UInt64) : Option (Kind × Nat) :=
  let i := (w >>> 4).toNat
  match (w &&& 15).toNat with
  | 4 => some (.flt, i)
  | 5 => some (.str, i)
  | 8 => some (.rat, i)
  | 7 => some (.big, i)
  | _ => none

/-- A word of a program. An operand may look like a cell and is none; the mark does not ask. -/
structure Word where
  bits : UInt64
  operand : Bool := false
deriving Repr, DecidableEq

/-- The six programs of a `coco_code`. -/
structure Code where
  head : List Word := []
  body : List Word := []
  rbody : List Word := []
  gbody : List Word := []
  ebody : List Word := []
  xbody : List Word := []

/-- A `coco_store`: its cells, the code table by key, each predicate's programs where it has
any, and the programs retired. -/
structure Store where
  cells : List UInt64 := []
  codeTable : List (Nat × Option Code) := []
  preds : List (Option (List (Option Code))) := []
  retired : List Code := []

/-- A `coco_engine`: its store, and its private ones once they are ready. -/
structure Engine where
  st : Option Nat
  pst : Option Store := none
  bst : Option Store := none

/-- A `coco_machine` with the chain of engines on it, innermost first. -/
structure Machine where
  heap : List UInt64 := []
  tables : (k : Kind) → Slots k.Val := fun _ => {}
  stores : Nat → Store := fun _ => {}
  chain : List Engine := []
  tshared : Bool := false
  tmade : Nat := 0
  tlimit : Nat := 65536
  treq : Nat := 65536

/-- What memory a reclamation has: its bitmaps, and the growth of each free list; and the
collector's floor. -/
structure Memory where
  bitmaps : Bool := true
  free : Kind → Grant := fun _ => .doubled
  floor : Nat := 65536

/-- One word of `coco_tables_mark`, with a bitmap a table. -/
def markWord (len : Kind → Nat) (marks : Kind → Bits) (w : Word) : Kind → Bits :=
  match entryOf w.bits with
  | none => marks
  | some (k, i) => if i < len k then Function.update marks k ((marks k).mark i) else marks

/-- `coco_tables_mark`. -/
def tablesMark (len : Kind → Nat) (marks : Kind → Bits) (ws : List Word) : Kind → Bits := ws.foldl (markWord len) marks

/-- The words `coco_tables_mark_code` looks at. -/
def codeWords : Option Code → List Word
  | none => []
  | some c => c.head ++ c.body ++ c.rbody ++ c.gbody ++ c.ebody ++ c.xbody

/-- The words `coco_tables_mark_store` looks at. -/
def Store.words (st : Store) : List Word :=
  st.cells.map (fun c => ⟨c, false⟩) ++
    (st.codeTable.filter fun e => e.1 != 0).flatMap (fun e => codeWords e.2) ++
    st.preds.flatMap (fun codes => (codes.getD []).flatMap codeWords) ++
    st.retired.flatMap fun c => codeWords (some c)

def storeWords (st : Option Store) : List Word := (st.map Store.words).getD []

namespace Machine

/-- The words of the stores on the chain, innermost engine first: a store is not looked at
again right after itself. -/
def chainWords (stores : Nat → Store) : Option Nat → List Engine → List Word
  | _, [] => []
  | last, x :: outer =>
    (if x.st ≠ last then storeWords (x.st.map stores) else []) ++
      storeWords x.pst ++ storeWords x.bst ++ chainWords stores x.st outer

def len (m : Machine) (k : Kind) : Nat := (m.tables k).entries.length

/-- Every word the mark looks at. -/
def seen (m : Machine) : List Word :=
  m.heap.map (fun c => ⟨c, false⟩) ++ chainWords m.stores none m.chain

def marks (m : Machine) : Kind → Bits := tablesMark m.len (fun _ => Bits.empty) m.seen

/-- How many entries are live. -/
def live (m : Machine) (k : Kind) : Nat := Slots.lives (m.marks k).marked (m.len k)

/-- `coco_tables_reclaim`. -/
def tablesReclaim (m : Machine) (asked : Bool) (mem : Memory) : Machine :=
  if m.tshared = true then m
  else if asked = false ∧ (m.tmade < m.tlimit ∨ m.tmade < m.heap.length >>> 1) then m
  else if mem.bitmaps = false then m
  else
    -- the next time waits for as many new entries as the work of this one
    let least := min mem.floor 65536
    let limit := max (max least ((m.live .flt + m.live .str) + (m.live .big + m.live .rat))) (m.seen.length >>> 1)
    { m with
      tables := fun k => (m.tables k).sweep (m.marks k).marked k.drop (mem.free k)
      tlimit := limit
      treq := limit
      tmade := 0 }

/-- `coco_table_made`, without the collection it may ask for. -/
def tableMade (m : Machine) : Machine :=
  { m with
    tmade := m.tmade + 1
    treq := if m.treq ≤ m.tmade + 1 then m.tmade + 1 + m.tlimit else m.treq }

/-- An entry of a table for `v`, and the machine with it. -/
def tableEntry (m : Machine) (k : Kind) (v : k.Val) (g : Grant) : Option (Nat × Machine) :=
  ((m.tables k).take v g).map fun r => (r.1, { m with tables := Function.update m.tables k r.2 }.tableMade)

/-- The entry's cell on the heap. -/
def pushEntry (m : Machine) (k : Kind) (v : k.Val) (g : Grant) : Option Machine :=
  (m.tableEntry k v g).map fun r => { r.2 with heap := r.2.heap ++ [k.cell r.1] }

/-- `coco_new_float`. -/
def newFloat (m : Machine) (bits : UInt64) (g : Grant) : Option Machine := m.pushEntry .flt bits g

/-- `coco_new_string`, with the bytes copied. -/
def newString (m : Machine) (bytes : List UInt8) (g : Grant) : Option Machine := m.pushEntry .str (some bytes) g

/-- `coco_big_entry`. -/
def bigEntry (m : Machine) (v : Int64) (g : Grant) : Option (Nat × Machine) := m.tableEntry .big v g

/-- `coco_rat_entry`. -/
def ratEntry (m : Machine) (n d : Int64) (g : Grant) : Option (Nat × Machine) := m.tableEntry .rat (n, d) g

/-- The words an engine's stores and their programs hold. -/
def engineWords (stores : Nat → Store) (x : Engine) : List Word :=
  storeWords (x.st.map stores) ++ storeWords x.pst ++ storeWords x.bst

/-- Every word the heap, a store on the chain or a program of one holds. -/
def held (m : Machine) : List Word :=
  m.heap.map (fun c => ⟨c, false⟩) ++ m.chain.flatMap (engineWords m.stores)

/-- A word of the machine names the entry. -/
def Names (m : Machine) (k : Kind) (i : Nat) : Prop := ∃ w ∈ m.held, entryOf w.bits = some (k, i)

/-- A cell of the machine names the entry. -/
def Holds (m : Machine) (k : Kind) (i : Nat) : Prop :=
  ∃ w ∈ m.held, w.operand = false ∧ entryOf w.bits = some (k, i)

/-- Every cell names an entry in use. -/
def Sound (m : Machine) : Prop := ∀ k i, m.Holds k i → (m.tables k).InUse i

theorem Holds.names {m : Machine} {k : Kind} {i : Nat} (holds : m.Holds k i) : m.Names k i := by
  obtain ⟨w, mem, -, is⟩ := holds
  exact ⟨w, mem, is⟩

end Machine

/- The mark. -/

section Marking

variable {len : Kind → Nat} {marks : Kind → Bits} {w : Word} {k : Kind} {i : Nat}

theorem markWord_keeps (is : (marks k).marked i = true) : (markWord len marks w k).marked i = true := by
  unfold markWord
  cases entryOf w.bits with
  | none => exact is
  | some named =>
    obtain ⟨k', i'⟩ := named
    dsimp only
    split
    · by_cases same : k = k'
      · subst same
        rw [Function.update_self, Bits.marked_mark, is, Bool.or_true]
      · rw [Function.update_of_ne same]
        exact is
    · exact is

theorem markWord_names (names : entryOf w.bits = some (k, i)) (lt : i < len k) :
    (markWord len marks w k).marked i = true := by
  unfold markWord
  rw [names]
  simp only [if_pos lt, Function.update_self, Bits.marked_mark, decide_true, Bool.true_or]

theorem tablesMark_keeps (ws : List Word) (is : (marks k).marked i = true) :
    (tablesMark len marks ws k).marked i = true := by
  induction ws generalizing marks with
  | nil => exact is
  | cons w ws ih => exact ih (markWord_keeps is)

theorem tablesMark_names {ws : List Word} (mem : w ∈ ws) (names : entryOf w.bits = some (k, i)) (lt : i < len k) :
    (tablesMark len marks ws k).marked i = true := by
  induction ws generalizing marks with
  | nil => cases mem
  | cons v ws ih =>
    rcases List.mem_cons.mp mem with rfl | later
    · exact tablesMark_keeps ws (markWord_names names lt)
    · exact ih later

end Marking

namespace Machine

variable {m m' : Machine} {k : Kind} {i : Nat}

/-- No store on the chain is missed: one that is passed over was looked at just before. -/
theorem chainWords_covers {stores : Nat → Store} {w : Word} (chain : List Engine) (last : Option Nat)
    (mem : w ∈ chain.flatMap (engineWords stores)) :
    w ∈ storeWords (last.map stores) ∨ w ∈ chainWords stores last chain := by
  induction chain generalizing last with
  | nil => cases mem
  | cons x outer ih =>
    rw [List.flatMap_cons, List.mem_append] at mem
    simp only [chainWords, List.mem_append]
    have own : w ∈ storeWords (x.st.map stores) →
        w ∈ storeWords (last.map stores) ∨ w ∈ if x.st ≠ last then storeWords (x.st.map stores) else [] := by
      intro here
      by_cases same : x.st = last
      · exact .inl (same ▸ here)
      · rw [if_pos same]
        exact .inr here
    rcases mem with here | later
    · simp only [engineWords, List.mem_append] at here
      rcases here with (here | here) | here
      · exact (own here).imp_right fun h => .inl (.inl (.inl h))
      · exact .inr (.inl (.inl (.inr here)))
      · exact .inr (.inl (.inr here))
    · rcases ih x.st later with here | later
      · exact (own here).imp_right fun h => .inl (.inl (.inl h))
      · exact .inr (.inr later)

theorem held_seen {w : Word} (mem : w ∈ m.held) : w ∈ m.seen := by
  rcases List.mem_append.mp mem with here | there
  · exact List.mem_append_left _ here
  · rcases chainWords_covers m.chain none there with gone | seen
    · cases gone
    · exact List.mem_append_right _ seen

/-- What a word names and is there is marked. -/
theorem Names.marked (names : m.Names k i) (lt : i < m.len k) : (m.marks k).marked i = true := by
  obtain ⟨w, mem, is⟩ := names
  exact tablesMark_names (held_seen mem) is lt

/-- A reclamation leaves the tables as they are, or sweeps what is not marked. -/
theorem tablesReclaim_cases (m : Machine) (asked : Bool) (mem : Memory) :
    m.tablesReclaim asked mem = m ∨
      (m.tablesReclaim asked mem).tables =
        fun k => (m.tables k).sweep (m.marks k).marked k.drop (mem.free k) := by
  unfold tablesReclaim
  split
  · exact .inl rfl
  · split
    · exact .inl rfl
    · split
      · exact .inl rfl
      · exact .inr rfl

theorem tablesReclaim_held (m : Machine) (asked : Bool) (mem : Memory) :
    (m.tablesReclaim asked mem).held = m.held := by
  unfold tablesReclaim
  split
  · rfl
  · split
    · rfl
    · split <;> rfl

/-- What a word names and is in use stays in use, with what it holds. -/
theorem tablesReclaim_keeps (asked : Bool) (mem : Memory) (names : m.Names k i) (used : (m.tables k).InUse i) :
    ((m.tablesReclaim asked mem).tables k).InUse i ∧
      ((m.tablesReclaim asked mem).tables k).entries[i]? = (m.tables k).entries[i]? := by
  rcases m.tablesReclaim_cases asked mem with same | swept
  · rw [same]
    exact ⟨used, rfl⟩
  · rw [swept]
    exact Slots.sweep_live used.1 (names.marked used.1)

theorem Sound.reclaim (sound : m.Sound) (asked : Bool) (mem : Memory) : (m.tablesReclaim asked mem).Sound := by
  intro k i holds
  have before : m.Holds k i := by
    unfold Holds at holds
    rwa [tablesReclaim_held] at holds
  exact (tablesReclaim_keeps asked mem before.names (sound k i before)).1

/- New entries. -/

theorem tableEntry_spec {v : k.Val} {g : Grant} (made : m.tableEntry k v g = some (i, m')) :
    m'.held = m.held ∧ ¬ (m.tables k).InUse i ∧ (m'.tables k).InUse i ∧ (m'.tables k).entries[i]? = some v ∧
      ∀ k' j, (m.tables k').InUse j →
        (m'.tables k').InUse j ∧ (m'.tables k').entries[j]? = (m.tables k').entries[j]? := by
  unfold tableEntry at made
  obtain ⟨⟨x, t⟩, taken, is⟩ := Option.map_eq_some_iff.mp made
  obtain ⟨rfl, rfl⟩ := Prod.mk.inj is
  obtain ⟨free, used, holds, others⟩ := Slots.take_spec taken
  have at_ : (tableMade { m with tables := Function.update m.tables k t }).tables k = t :=
    Function.update_self ..
  dsimp only at free ⊢
  refine ⟨rfl, free, ?_, ?_, ?_⟩
  · rw [at_]
    exact used
  · rw [at_]
    exact holds
  intro k' j inUse
  by_cases same : k' = k
  · subst same
    rw [at_]
    exact others j inUse
  · have off : (tableMade { m with tables := Function.update m.tables k t }).tables k' = m.tables k' :=
      Function.update_of_ne same ..
    rw [off]
    exact ⟨inUse, rfl⟩

theorem Sound.entry (sound : m.Sound) {v : k.Val} {g : Grant} (made : m.tableEntry k v g = some (i, m')) :
    m'.Sound := by
  obtain ⟨held, -, -, -, others⟩ := tableEntry_spec made
  intro k' j holds
  have before : m.Holds k' j := by
    unfold Holds at holds ⊢
    rwa [held] at holds
  exact (others k' j (sound k' j before)).1

theorem entryOf_cell (k : Kind) {i : Nat} (small : i < 2 ^ 60) : entryOf (k.cell i) = some (k, i) := by
  have low : k.tag.toNat < 16 := by
    cases k <;> decide
  obtain ⟨tag, payload⟩ := State.cellOf_cell low (UInt64.ofNat i)
  have index : (UInt64.ofNat i).toNat % 2 ^ 60 = i := by
    rw [UInt64.toNat_ofNat']
    omega
  rw [index] at payload
  unfold entryOf Kind.cell
  rw [tag, payload]
  cases k <;> rfl

theorem Sound.push (sound : m.Sound) {v : k.Val} {g : Grant} (made : m.tableEntry k v g = some (i, m'))
    (small : i < 2 ^ 60) : Sound { m' with heap := m'.heap ++ [k.cell i] } := by
  have old := sound.entry made
  obtain ⟨-, -, used, -⟩ := tableEntry_spec made
  rintro k' j ⟨w, mem, cell, is⟩
  simp only [held, List.map_append, List.map_singleton, List.mem_append, List.mem_singleton] at mem
  rcases mem with (here | rfl) | there
  · exact old k' j ⟨w, List.mem_append_left _ here, cell, is⟩
  · rw [entryOf_cell k small] at is
    obtain ⟨rfl, rfl⟩ := Prod.mk.inj (Option.some.inj is)
    exact used
  · exact old k' j ⟨w, List.mem_append_right _ there, cell, is⟩

/-- What happens to the tables and to the cells that name entries. Everything else the program
does to its heap, its stores and its programs copies cells or drops them. -/
inductive Step : Machine → Machine → Prop
  | reclaim (m : Machine) (asked : Bool) (mem : Memory) : Step m (m.tablesReclaim asked mem)
  | entry {m m' : Machine} {k : Kind} {v : k.Val} {g : Grant} {i : Nat} :
      m.tableEntry k v g = some (i, m') → Step m m'
  | push {m m' : Machine} {k : Kind} {v : k.Val} {g : Grant} {i : Nat} :
      m.tableEntry k v g = some (i, m') → i < 2 ^ 60 → Step m { m' with heap := m'.heap ++ [k.cell i] }
  | copy {m m' : Machine} : m'.tables = m.tables → (∀ k i, m'.Holds k i → m.Holds k i) → Step m m'

theorem Sound.step (sound : m.Sound) (step : Step m m') : m'.Sound := by
  cases step with
  | reclaim asked mem => exact sound.reclaim asked mem
  | entry made => exact sound.entry made
  | push made small => exact sound.push made small
  | copy same fewer =>
    intro k i holds
    rw [same]
    exact sound k i (fewer k i holds)

theorem Sound.run (sound : m.Sound) (run : Relation.ReflTransGen Step m m') : m'.Sound := by
  induction run with
  | refl => exact sound
  | tail _ step ih => exact ih.step step

/-- A new entry made. -/
inductive Makes (m : Machine) : Machine → Prop
  | float {m' : Machine} (bits : UInt64) (g : Grant) : m.newFloat bits g = some m' → Makes m m'
  | string {m' : Machine} (bytes : List UInt8) (g : Grant) : m.newString bytes g = some m' → Makes m m'
  | big {m' : Machine} {i : Nat} (v : Int64) (g : Grant) : m.bigEntry v g = some (i, m') → Makes m m'
  | rat {m' : Machine} {i : Nat} (n d : Int64) (g : Grant) : m.ratEntry n d g = some (i, m') → Makes m m'

theorem pushEntry_spec {v : k.Val} {g : Grant} (made : m.pushEntry k v g = some m') :
    ∃ i m₁, m.tableEntry k v g = some (i, m₁) ∧ m'.tables = m₁.tables := by
  obtain ⟨⟨i, m₁⟩, entry, is⟩ := Option.map_eq_some_iff.mp made
  exact ⟨i, m₁, entry, is ▸ rfl⟩

theorem Makes.spec (made : m.Makes m') :
    ∃ k, ∃ (v : k.Val) (g : Grant) (i : Nat) (m₁ : Machine),
      m.tableEntry k v g = some (i, m₁) ∧ m'.tables = m₁.tables := by
  cases made with
  | float bits g made => exact ⟨.flt, bits, g, pushEntry_spec made⟩
  | string bytes g made => exact ⟨.str, some bytes, g, pushEntry_spec made⟩
  | big v g made => exact ⟨.big, v, g, _, m', made, rfl⟩
  | rat n d g made => exact ⟨.rat, (n, d), g, _, m', made, rfl⟩

/-- An entry in use stays what it is when a new one is made. -/
theorem Makes.keeps (made : m.Makes m') (used : (m.tables k).InUse i) :
    (m'.tables k).InUse i ∧ (m'.tables k).entries[i]? = (m.tables k).entries[i]? := by
  obtain ⟨k', v, g, j, m₁, entry, same⟩ := made.spec
  rw [same]
  exact (tableEntry_spec entry).2.2.2.2 k i used

/-- At any time of any run a reclamation spares every entry a cell names: it is still there,
holds what it held and is not free. A free list names each dead entry once, and an entry made
afterwards is no other's. -/
theorem tables_reclaim_spares {m₀ m : Machine} (sound : m₀.Sound) (run : Relation.ReflTransGen Step m₀ m)
    (asked : Bool) (mem : Memory) :
    let after := m.tablesReclaim asked mem
    (∀ k i, m.Holds k i ∨ m.Names k i ∧ (m.tables k).InUse i →
      i < (after.tables k).entries.length ∧ i ∉ (after.tables k).free ∧
        (after.tables k).entries[i]? = (m.tables k).entries[i]?) ∧
    (∀ k, (after.tables k).free.Nodup ∧ ∀ i ∈ (after.tables k).free, i < (after.tables k).entries.length) ∧
    ∀ next, after.Makes next → ∀ k i, after.Holds k i →
      (next.tables k).InUse i ∧ (next.tables k).entries[i]? = (after.tables k).entries[i]? := by
  intro after
  have here := sound.run run
  refine ⟨?_, fun k => ⟨(after.tables k).distinct, (after.tables k).within⟩, ?_⟩
  · intro k i named
    have named : m.Names k i ∧ (m.tables k).InUse i :=
      named.elim (fun holds => ⟨holds.names, here k i holds⟩) id
    obtain ⟨used, same⟩ := tablesReclaim_keeps asked mem named.1 named.2
    exact ⟨used.1, used.2, same⟩
  · intro next made k i holds
    exact made.keeps (here.reclaim asked mem k i holds)

/-- Three floats, of which a cell names the second, and a string that a program names. -/
def littered : Machine where
  heap := [Kind.flt.cell 1, 33]
  tables
    | .flt => (.full [1, 2, 3] : Slots UInt64)
    | .str => (.full [none, some [104]] : Slots (Option (List UInt8)))
    | .big => .full []
    | .rat => .full []
  stores _ := { retired := [{ body := [⟨Kind.str.cell 1, false⟩, ⟨Kind.rat.cell 9, true⟩] }] }
  chain := [{ st := some 0 }]

theorem littered_sound : littered.Sound := by
  rintro k i ⟨w, mem, cell, is⟩
  have which : w = ⟨Kind.flt.cell 1, false⟩ ∨ w = ⟨33, false⟩ ∨ w = ⟨Kind.str.cell 1, false⟩ ∨
      w = ⟨Kind.rat.cell 9, true⟩ := by
    simpa [held, littered, engineWords, storeWords, Store.words, codeWords] using mem
  rcases which with rfl | rfl | rfl | rfl
  · obtain ⟨rfl, rfl⟩ := Prod.mk.inj (Option.some.inj ((show entryOf (Kind.flt.cell 1) = _ from rfl).symm.trans is))
    exact ⟨by decide, by decide⟩
  · cases (show entryOf 33 = none from rfl).symm.trans is
  · obtain ⟨rfl, rfl⟩ := Prod.mk.inj (Option.some.inj ((show entryOf (Kind.str.cell 1) = _ from rfl).symm.trans is))
    exact ⟨by decide, by decide⟩
  · cases cell

theorem tables_reclaim_spares_littered :
    littered.Sound ∧ 1 ∉ ((littered.tablesReclaim true {}).tables .flt).free ∧
      ((littered.tablesReclaim true {}).tables .flt).free = [0] ∧
      ((littered.tablesReclaim true {}).tables .flt).entries.length = 2 := by
  have named : littered.Holds .flt 1 := ⟨⟨Kind.flt.cell 1, false⟩, List.mem_cons_self, rfl, rfl⟩
  exact ⟨littered_sound, ((tables_reclaim_spares littered_sound .refl true {}).1 .flt 1 (.inl named)).2.1,
    by decide, by decide⟩

end Machine

end Cocolog.Tables
