import Cocolog.Lib.Hashed
import Cocolog.Tables.Sharing

/-! The atoms and the functors of one machine. A name's number is where it stands in a list
that only grows; a table of buckets finds it, and is made anew when it fills. -/

set_option linter.all false

namespace Cocolog.Tables

open Cocolog.Lib

/-- Entries by number, and the buckets that find them: a bucket holds a number and one, or 0. -/
structure Filed (α : Type) where
  entries : List α
  bucket : Nat → Nat
  cap : Nat

namespace Filed

variable {α : Type} [DecidableEq α]

/-- The probe for an entry. -/
def find (t : Filed α) (hashOf : α → UInt64) (x : α) : Found :=
  Tables.find t.bucket t.cap (fun id => t.entries[id]? == some x) (hashOf x)

/-- An entry appended, its bucket at `slot`. -/
def append (t : Filed α) (x : α) (slot : Nat) : Filed α :=
  { t with entries := t.entries ++ [x], bucket := Function.update t.bucket slot (t.entries.length + 1) }

/-- The buckets made anew. -/
def rehash (t : Filed α) (hashOf : α → UInt64) (cap : Nat) : Filed α :=
  { t with bucket := rehashed (fun i => (t.entries[i]?.map hashOf).getD 0) t.entries.length cap, cap }

/-- The entry a bucket leads to. -/
def entryAt (t : Filed α) (j : Nat) : Option α := if t.bucket j = 0 then none else t.entries[t.bucket j - 1]?

variable {hashOf : α → UInt64} {t : Filed α} {x : α} {e : Nat}

theorem startAt_lt (h : UInt64) (e : Nat) : startAt h (2 ^ e) < 2 ^ e := by
  have pos := Nat.two_pow_pos e
  have word : (UInt64.ofNat (2 ^ e - 1)).toNat ≤ 2 ^ e - 1 := by
    rw [UInt64.toNat_ofNat']
    exact Nat.mod_le _ _
  have le : (h &&& UInt64.ofNat (2 ^ e - 1)).toNat ≤ (UInt64.ofNat (2 ^ e - 1)).toNat := by
    rw [UInt64.toNat_and]
    exact Nat.and_le_right
  rw [startAt]
  omega

omit [DecidableEq α] in
theorem entryAt_mem {j : Nat} (here : t.entryAt j = some x) : x ∈ t.entries := by
  rw [entryAt] at here
  split at here
  · cases here
  · exact List.mem_of_getElem? here

/-- Every entry is where its search ends, and a bucket is free. -/
structure Sound (t : Filed α) (hashOf : α → UInt64) (e : Nat) : Prop where
  cap : t.cap = 2 ^ e
  hashed : Hashed e (fun x => startAt (hashOf x) (2 ^ e)) t.entryAt
  once : t.entries.Nodup
  ids : ∀ j, t.bucket j ≤ t.entries.length
  every : ∀ i < t.entries.length, ∃ j < 2 ^ e, t.bucket j = i + 1

namespace Sound

theorem taken (sound : Sound t hashOf e) {j : Nat} (some_ : t.bucket j ≠ 0) :
    ∃ y, t.entries[t.bucket j - 1]? = some y ∧ t.entryAt j = some y := by
  have le := sound.ids j
  have lt : t.bucket j - 1 < t.entries.length := by omega
  have is := List.getElem?_eq_getElem lt
  exact ⟨_, is, by rw [entryAt, if_neg some_, is]⟩

theorem entryAt_none (sound : Sound t hashOf e) {j : Nat} : t.entryAt j = none ↔ t.bucket j = 0 := by
  constructor
  · intro none_
    by_contra some_
    obtain ⟨y, -, is⟩ := sound.taken some_
    rw [none_] at is
    cases is
  · intro zero
    rw [entryAt, if_pos zero]

/-- The loops of the probe stop where the search does. -/
theorem stop_eq (sound : Sound t hashOf e) (x : α) (j : Nat) :
    (t.bucket j == 0 || t.entries[t.bucket j - 1]? == some x) = ends t.entryAt x j := by
  by_cases zero : t.bucket j = 0
  · rw [ends, sound.entryAt_none.mpr zero, zero]
    rfl
  · obtain ⟨y, entry, is⟩ := sound.taken zero
    rw [ends, entry, is, beq_false_of_ne zero, Bool.false_or, show (some y == none) = false from rfl, Bool.false_or]

/-- An entry is found by its number. -/
theorem find_entered (sound : Sound t hashOf e) {i : Nat} (is : t.entries[i]? = some x) : t.find hashOf x = .hit i := by
  have lt : i < t.entries.length := (List.getElem?_eq_some_iff.mp is).1
  obtain ⟨j, inside, bucket⟩ := sound.every i lt
  have here : t.entryAt j = some x := by
    rw [entryAt, if_neg (by omega), bucket]
    exact is
  have at_ := sound.hashed.found inside here
  have stop : (fun j => t.bucket j == 0 || t.entries[t.bucket j - 1]? == some x) = ends t.entryAt x := funext (sound.stop_eq x)
  rw [find, Tables.find, sound.cap, stop]
  rw [seek] at at_
  rw [show probe (ends t.entryAt x) (fun j => (j + 1) &&& (2 ^ e - 1)) (2 ^ e) (startAt (hashOf x) (2 ^ e)) = j from at_, bucket,
    if_neg (Nat.succ_ne_zero i), Nat.add_sub_cancel, is, if_pos (beq_self_eq_true _)]

/-- Any other is missed, at a free bucket. -/
theorem find_absent (sound : Sound t hashOf e) (new : x ∉ t.entries) :
    t.find hashOf x = .miss (seek e (fun x => startAt (hashOf x) (2 ^ e)) t.entryAt x) ∧
      t.entryAt (seek e (fun x => startAt (hashOf x) (2 ^ e)) t.entryAt x) = none := by
  have free : t.entryAt (seek e (fun x => startAt (hashOf x) (2 ^ e)) t.entryAt x) = none :=
    (sound.hashed.seek_ends x).resolve_right fun here => new (entryAt_mem here)
  refine ⟨?_, free⟩
  have stop : (fun j => t.bucket j == 0 || t.entries[t.bucket j - 1]? == some x) = ends t.entryAt x := funext (sound.stop_eq x)
  rw [find, Tables.find, sound.cap, stop]
  exact if_pos (sound.entryAt_none.mp free)

theorem append (sound : Sound t hashOf e) (new : x ∉ t.entries) (room : t.entries.length + 1 < 2 ^ e) :
    Sound (t.append x (seek e (fun x => startAt (hashOf x) (2 ^ e)) t.entryAt x)) hashOf e := by
  have free := (sound.find_absent new).2
  have lt := sound.hashed.seek_lt x
  generalize at_ : seek e (fun x => startAt (hashOf x) (2 ^ e)) t.entryAt x = slot at free lt
  have entries : (t.append x slot).entryAt = Function.update t.entryAt slot (some x) := by
    funext j
    by_cases here : j = slot
    · have bucket : (t.append x slot).bucket j = t.entries.length + 1 := by rw [here]; exact Function.update_self ..
      rw [entryAt, bucket, if_neg (Nat.succ_ne_zero _), here, Function.update_self]
      exact List.getElem?_concat_length
    · have bucket : (t.append x slot).bucket j = t.bucket j := Function.update_of_ne here ..
      rw [entryAt, bucket, Function.update_of_ne here, entryAt]
      split
      · rfl
      · have le := sound.ids j
        exact List.getElem?_append_left (by omega)
  refine ⟨sound.cap, ?_, ?_, fun j => ?_, fun i lt' => ?_⟩
  · rw [entries, ← at_]
    refine sound.hashed.enter (at_ ▸ free) ?_
    exact free_besides _ room (fun _ _ _ is => entryAt_mem is) fun s s' y lts lts' is is' => sound.hashed.inj lts lts' is is'
  · exact List.nodup_append.mpr ⟨sound.once, List.nodup_singleton x, fun a mem b is => by
      rw [List.mem_singleton] at is
      rintro rfl
      exact new (is ▸ mem)⟩
  · have length : (t.append x slot).entries.length = t.entries.length + 1 := List.length_append
    rw [length]
    by_cases here : j = slot
    · rw [here]
      exact Nat.le_of_eq (Function.update_self ..)
    · have le := sound.ids j
      rw [show (t.append x slot).bucket j = t.bucket j from Function.update_of_ne here ..]
      omega
  · have length : (t.append x slot).entries.length = t.entries.length + 1 := List.length_append
    rw [length] at lt'
    by_cases last : i = t.entries.length
    · exact ⟨slot, lt, last ▸ Function.update_self ..⟩
    · obtain ⟨j, inside, is⟩ := sound.every i (by omega)
      have other : j ≠ slot := by
        rintro rfl
        rw [sound.entryAt_none] at free
        omega
      exact ⟨j, inside, (Function.update_of_ne other ..).trans is⟩

theorem entry_inj (sound : Sound t hashOf e) {i j : Nat} {x y : α} (one : t.entries[i]? = some x) (two : t.entries[j]? = some y) :
    i = j ↔ x = y := by
  obtain ⟨lt, rfl⟩ := List.getElem?_eq_some_iff.mp one
  obtain ⟨lt', rfl⟩ := List.getElem?_eq_some_iff.mp two
  exact sound.once.getElem_inj_iff.symm

end Sound

/-- Buckets none of which is taken. -/
theorem sound_empty (hashOf : α → UInt64) (e : Nat) : Sound (⟨[], fun _ => 0, 2 ^ e⟩ : Filed α) hashOf e := by
  refine ⟨rfl, ⟨fun x => startAt_lt _ e, fun {s k} _ here => ?_, 0, Nat.two_pow_pos e, rfl⟩, List.nodup_nil, fun _ => Nat.le_refl 0,
    fun i lt => absurd lt (Nat.not_lt_zero i)⟩
  cases here

/-- The buckets made anew find every entry. -/
theorem sound_rehash (once : t.entries.Nodup) (room : t.entries.length < 2 ^ e) : Sound (t.rehash hashOf (2 ^ e)) hashOf e := by
  have partly : ∀ n ≤ t.entries.length,
      Sound ⟨t.entries.take n, rehashed (fun i => (t.entries[i]?.map hashOf).getD 0) n (2 ^ e), 2 ^ e⟩ hashOf e := by
    intro n
    induction n with
    | zero => exact fun _ => sound_empty hashOf e
    | succ n ih =>
      intro le
      have before := ih (by omega)
      have lt : n < t.entries.length := by omega
      have is := List.getElem?_eq_getElem lt
      have new : t.entries[n] ∉ t.entries.take n := fun mem => by
        obtain ⟨i, small, same⟩ := List.mem_take_iff_getElem.mp mem
        have := once.getElem_inj_iff.mp same
        omega
      have length : (t.entries.take n).length = n := List.length_take_of_le (by omega)
      have next := before.append new (by rw [length]; omega)
      -- the first free bucket is where the search for the entry ends
      have absent : ∀ s < 2 ^ e, entryAt ⟨t.entries.take n, rehashed (fun i => (t.entries[i]?.map hashOf).getD 0) n (2 ^ e), 2 ^ e⟩ s ≠
          some t.entries[n] := fun s _ here => new (entryAt_mem here)
      have slot := (before.hashed.seek_free absent).1
      rw [← slot] at next
      have free := fun s => before.entryAt_none (j := s)
      have stop : (fun i => entryAt ⟨t.entries.take n, rehashed (fun i => (t.entries[i]?.map hashOf).getD 0) n (2 ^ e), 2 ^ e⟩ i == none) =
          fun j => rehashed (fun i => (t.entries[i]?.map hashOf).getD 0) n (2 ^ e) j == 0 := by
        funext j
        rw [Bool.eq_iff_iff, beq_iff_eq, beq_iff_eq]
        exact free j
      rw [stop] at next
      rw [Filed.append, length, List.take_append_getElem lt] at next
      rw [rehashed, List.range_succ, List.foldl_append, ← rehashed]
      simp only [List.foldl_cons, List.foldl_nil, is, Option.map_some, Option.getD_some]
      exact next
  have all := partly t.entries.length (Nat.le_refl _)
  rwa [List.take_length] at all

end Filed

/-- The names of one machine. -/
structure Names where
  atoms : Filed Atom := ⟨[], fun _ => 0, 256⟩
  functors : Filed Functor := ⟨[], fun _ => 0, 0⟩
  oom : Bool := false

/-- A call that answers a name's number. -/
inductive Call where
  | intern (text : List UInt8)
  | internLen (name : List UInt8)
  | internTnil
  | functorId (f : Functor)
deriving Repr, DecidableEq

/-- The characters `[` and `]`. -/
def brackets : List UInt8 := [91, 93]

namespace Names

/-- `coco_intern_h` on a machine that shares no tables: the probe before the lock and the one under it are the same. -/
def internH (m : Names) (name : List UInt8) (h : UInt64) (g : Grants) : Option (Nat × Names) :=
  match m.atoms.find Atom.hash ⟨name, h⟩ with
  | .never => none
  | .hit id => some (id, m)
  | .miss slot =>
    if g.array = false ∨ g.copy = false then some (0, { m with oom := true })
    else
      let id := m.atoms.entries.length
      let atoms := m.atoms.append ⟨name, h⟩ slot
      if atoms.cap ≤ atoms.entries.length * 2 then
        if g.buckets = false then some (id, { m with atoms, oom := true })
        else some (id, { m with atoms := atoms.rehash Atom.hash (atoms.cap * 2) })
      else some (id, { m with atoms })

/-- `coco_functor_id`. -/
def functorId (m : Names) (f : Functor) (g : Grants) : Option (Nat × Names) :=
  let crowded := m.functors.cap < (m.functors.entries.length + 1) * 2
  if crowded ∧ g.buckets = false then some (0, { m with oom := true })
  else
    let cap := if m.functors.cap = 0 then 256 else m.functors.cap * 2
    let functors := if crowded then m.functors.rehash nameArityHash cap else m.functors
    match functors.find nameArityHash f with
    | .never => none
    | .hit id => some (id, { m with functors })
    | .miss slot =>
      if g.array = false then some (0, { m with functors, oom := true })
      else some (functors.entries.length, { m with functors := functors.append f slot })

/-- `coco_intern_len`. -/
def internLen (m : Names) (name : List UInt8) (g : Grants) : Option (Nat × Names) := m.internH name (hash name) g

/-- `coco_intern`: the text ends at its first NUL. -/
def intern (m : Names) (text : List UInt8) (g : Grants) : Option (Nat × Names) := m.internLen (text.takeWhile (· ≠ 0)) g

/-- `coco_intern_tnil`. -/
def internTnil (m : Names) (g : Grants) : Option (Nat × Names) := m.internH brackets (hash brackets ^^^ 1) g

/-- One call. -/
def call (m : Names) (g : Grants) : Call → Option (Nat × Names)
  | .intern text => m.intern text g
  | .internLen name => m.internLen name g
  | .internTnil => m.internTnil g
  | .functorId f => m.functorId f g

/-- The calls in turn, with what each is given of memory, and what they answered. A machine that
is out of memory is finished: neither that answer nor what it wrote is looked at. `none`: a probe
does not end. -/
def run (m : Names) : List (Call × Grants) → Option (List (Call × Nat) × Names)
  | [] => some ([], m)
  | (c, g) :: rest =>
    match m.call g c with
    | none => none
    | some (id, m') =>
      if m'.oom = true then some ([], m)
      else (m'.run rest).map fun r => ((c, id) :: r.1, r.2)

end Names

/-- What a call asks for: the bytes of an atom with the mark of the atom `'[]'`, or a functor. -/
def Call.key : Call → (List UInt8 × Bool) ⊕ Functor
  | intern text => .inl (text.takeWhile (· ≠ 0), false)
  | internLen name => .inl (name, false)
  | internTnil => .inl (brackets, true)
  | functorId f => .inr f

/-- The entry of an atom. -/
def atomOf (key : List UInt8 × Bool) : Atom := ⟨key.1, if key.2 then hash key.1 ^^^ 1 else hash key.1⟩

namespace Names

/-- The entry is the one asked for. -/
def Leads (m : Names) (id : Nat) : (List UInt8 × Bool) ⊕ Functor → Prop
  | .inl atom => m.atoms.entries[id]? = some (atomOf atom)
  | .inr f => m.functors.entries[id]? = some f

/-- Both tables are sound and at most half full. -/
structure Sound (m : Names) : Prop where
  atoms : ∃ e ≠ 0, m.atoms.Sound Atom.hash e ∧ m.atoms.entries.length * 2 < 2 ^ e
  functors : m.functors = ⟨[], fun _ => 0, 0⟩ ∨
    ∃ e ≠ 0, m.functors.Sound nameArityHash e ∧ m.functors.entries.length * 2 ≤ 2 ^ e

/-- What a call that has its memory does: the answer leads to the entry asked for, and no entry is lost. -/
structure Answers (m : Names) (key : (List UInt8 × Bool) ⊕ Functor) (r : Nat × Names) : Prop where
  sound : r.2.Sound
  leads : r.2.Leads r.1 key
  atoms : m.atoms.entries <+: r.2.atoms.entries
  functors : m.functors.entries <+: r.2.functors.entries

variable {m : Names}

theorem sound_new : Sound {} := ⟨⟨8, by decide, Filed.sound_empty Atom.hash 8, by decide⟩, .inl rfl⟩

theorem two_le {e : Nat} (some_ : e ≠ 0) : 2 ≤ 2 ^ e := by
  have := Nat.pow_le_pow_right (Nat.succ_pos 1) (Nat.one_le_iff_ne_zero.mpr some_)
  omega

/-- A call on the atoms ends, out of memory or with the atom's number. -/
theorem internH_spec (sound : m.Sound) (atom : List UInt8 × Bool) (g : Grants) :
    ∃ r, m.internH (atomOf atom).name (atomOf atom).hash g = some r ∧ (r.2.oom = true ∨ m.Answers (.inl atom) r) ∧
      (g = {} → r.2.oom = m.oom) := by
  obtain ⟨e, wide, atoms, half⟩ := sound.atoms
  have two := two_le wide
  rw [internH, show (⟨(atomOf atom).name, (atomOf atom).hash⟩ : Atom) = atomOf atom from rfl]
  by_cases known : atomOf atom ∈ m.atoms.entries
  · obtain ⟨id, here⟩ := List.mem_iff_getElem?.mp known
    rw [atoms.find_entered here]
    exact ⟨_, rfl, .inr ⟨sound, here, List.prefix_refl _, List.prefix_refl _⟩, fun _ => rfl⟩
  · rw [(atoms.find_absent known).1]
    have next := atoms.append known (by omega)
    generalize seek e (fun x => startAt (Atom.hash x) (2 ^ e)) m.atoms.entryAt (atomOf atom) = slot at next
    have cap : (m.atoms.append (atomOf atom) slot).cap = 2 ^ e := next.cap
    have length : (m.atoms.append (atomOf atom) slot).entries.length = m.atoms.entries.length + 1 := List.length_append
    have entry : (m.atoms.append (atomOf atom) slot).entries[m.atoms.entries.length]? = some (atomOf atom) :=
      List.getElem?_concat_length
    have more : m.atoms.entries <+: (m.atoms.append (atomOf atom) slot).entries := List.prefix_append ..
    dsimp only
    split
    · rename_i refused
      exact ⟨_, rfl, .inl rfl, fun full => by rw [full] at refused; rcases refused with no | no <;> cases no⟩
    · split
      · split
        · rename_i refused
          exact ⟨_, rfl, .inl rfl, fun full => by rw [full] at refused; cases refused⟩
        · have double : (m.atoms.append (atomOf atom) slot).cap * 2 = 2 ^ (e + 1) := by rw [cap, Nat.pow_succ]
          have again : Filed.Sound ((m.atoms.append (atomOf atom) slot).rehash Atom.hash _) Atom.hash (e + 1) :=
            Filed.sound_rehash next.once (by rw [length, Nat.pow_succ]; omega)
          rw [← double] at again
          refine ⟨_, rfl, .inr ⟨⟨⟨e + 1, Nat.succ_ne_zero e, again, ?_⟩, sound.functors⟩, entry, more, List.prefix_refl _⟩, fun _ => rfl⟩
          show (m.atoms.append (atomOf atom) slot).entries.length * 2 < _
          rw [length, Nat.pow_succ]
          omega
      · have half : (m.atoms.append (atomOf atom) slot).entries.length * 2 < 2 ^ e := by omega
        exact ⟨_, rfl, .inr ⟨⟨⟨e, wide, next, half⟩, sound.functors⟩, entry, more, List.prefix_refl _⟩, fun _ => rfl⟩

/-- The functors' table before the probe: room for one more. -/
theorem functors_roomy (sound : m.Sound) :
    ∃ e ≠ 0, Filed.Sound (if m.functors.cap < (m.functors.entries.length + 1) * 2 then
        m.functors.rehash nameArityHash (if m.functors.cap = 0 then 256 else m.functors.cap * 2) else m.functors) nameArityHash e ∧
      (m.functors.entries.length + 1) * 2 ≤ 2 ^ e := by
  rcases sound.functors with none_ | ⟨e, wide, functors, half⟩
  · rw [none_]
    exact ⟨8, by decide, Filed.sound_rehash (e := 8) List.nodup_nil (by decide), by decide⟩
  · have two := two_le wide
    rw [functors.cap]
    split
    · rw [if_neg (by omega), ← Nat.pow_succ]
      have double := Nat.pow_succ (n := 2) (m := e)
      exact ⟨e + 1, Nat.succ_ne_zero e, Filed.sound_rehash functors.once (by omega), by omega⟩
    · exact ⟨e, wide, functors, by omega⟩

/-- A call on the functors likewise. -/
theorem functorId_spec (sound : m.Sound) (f : Functor) (g : Grants) :
    ∃ r, m.functorId f g = some r ∧ (r.2.oom = true ∨ m.Answers (.inr f) r) ∧ (g = {} → r.2.oom = m.oom) := by
  obtain ⟨e, wide, functors, room⟩ := functors_roomy sound
  have two := two_le wide
  rw [functorId]
  dsimp only
  split
  · rename_i refused
    exact ⟨_, rfl, .inl rfl, fun full => by rw [full] at refused; cases refused.2⟩
  · have same : (if m.functors.cap < (m.functors.entries.length + 1) * 2 then
        m.functors.rehash nameArityHash (if m.functors.cap = 0 then 256 else m.functors.cap * 2) else m.functors).entries =
        m.functors.entries := by split <;> rfl
    generalize (if m.functors.cap < (m.functors.entries.length + 1) * 2 then
      m.functors.rehash nameArityHash (if m.functors.cap = 0 then 256 else m.functors.cap * 2) else m.functors) = t at functors same
    have room : (t.entries.length + 1) * 2 ≤ 2 ^ e := by rw [same]; exact room
    by_cases known : f ∈ t.entries
    · have half : t.entries.length * 2 ≤ 2 ^ e := by omega
      obtain ⟨id, here⟩ := List.mem_iff_getElem?.mp known
      rw [functors.find_entered here]
      exact ⟨_, rfl, .inr ⟨⟨sound.atoms, .inr ⟨e, wide, functors, half⟩⟩, here, List.prefix_refl _, by rw [← same]⟩, fun _ => rfl⟩
    · rw [(functors.find_absent known).1]
      have next := functors.append known (by omega)
      generalize seek e (fun x => startAt (nameArityHash x) (2 ^ e)) t.entryAt f = slot at next
      have length : (t.append f slot).entries.length = t.entries.length + 1 := List.length_append
      have entry : (t.append f slot).entries[t.entries.length]? = some f := List.getElem?_concat_length
      have more : t.entries <+: (t.append f slot).entries := List.prefix_append ..
      dsimp only
      split
      · rename_i refused
        exact ⟨_, rfl, .inl rfl, fun full => by rw [full] at refused; cases refused⟩
      · exact ⟨_, rfl, .inr ⟨⟨sound.atoms, .inr ⟨e, wide, next, length ▸ room⟩⟩, entry, List.prefix_refl _, by rw [← same]; exact more⟩, fun _ => rfl⟩

theorem call_spec (sound : m.Sound) (c : Call) (g : Grants) :
    ∃ r, m.call g c = some r ∧ (r.2.oom = true ∨ m.Answers c.key r) ∧ (g = {} → r.2.oom = m.oom) := by
  cases c with
  | intern text => exact internH_spec sound (text.takeWhile (· ≠ 0), false) g
  | internLen name => exact internH_spec sound (name, false) g
  | internTnil => exact internH_spec sound (brackets, true) g
  | functorId f => exact functorId_spec sound f g

theorem entry_later {α : Type} {l l' : List α} (more : l <+: l') {i : Nat} {x : α} (is : l[i]? = some x) : l'[i]? = some x := by
  obtain ⟨rest, rfl⟩ := more
  rw [List.getElem?_append_left (List.getElem?_eq_some_iff.mp is).1, is]

theorem Leads.later {m' : Names} {id : Nat} {key : (List UInt8 × Bool) ⊕ Functor} (leads : m.Leads id key)
    (atoms : m.atoms.entries <+: m'.atoms.entries) (functors : m.functors.entries <+: m'.functors.entries) : m'.Leads id key := by
  cases key with
  | inl atom => exact entry_later atoms leads
  | inr f => exact entry_later functors leads

/-- Every probe of a run ends, and every answer leads to its entry when the run is over. -/
theorem run_spec (sound : m.Sound) (running : m.oom = false) (calls : List (Call × Grants)) :
    ∃ log m', m.run calls = some (log, m') ∧ m'.Sound ∧ (∀ c id, (c, id) ∈ log → m'.Leads id c.key) ∧
      m.atoms.entries <+: m'.atoms.entries ∧ m.functors.entries <+: m'.functors.entries ∧
      ((∀ call ∈ calls, call.2 = {}) → log.map Prod.fst = calls.map Prod.fst) := by
  induction calls generalizing m with
  | nil => exact ⟨[], m, rfl, sound, fun _ _ mem => absurd mem List.not_mem_nil, List.prefix_refl _, List.prefix_refl _, fun _ => rfl⟩
  | cons call rest ih =>
    obtain ⟨c, g⟩ := call
    obtain ⟨⟨id, next⟩, answered, ends_, given⟩ := call_spec sound c g
    rw [run, answered]
    dsimp only at ends_ given ⊢
    by_cases out : next.oom = true
    · rw [if_pos out]
      refine ⟨[], m, rfl, sound, fun _ _ mem => absurd mem List.not_mem_nil, List.prefix_refl _, List.prefix_refl _, fun full => ?_⟩
      rw [given (full _ List.mem_cons_self), running] at out
      cases out
    · have answers := ends_.resolve_left out
      obtain ⟨log, last, ran, sound', leads, atoms, functors, all⟩ := ih answers.sound (Bool.eq_false_of_not_eq_true out)
      rw [if_neg out, ran]
      refine ⟨(c, id) :: log, last, rfl, sound', fun c' id' mem => ?_, answers.atoms.trans atoms, answers.functors.trans functors,
        fun full => ?_⟩
      · rcases List.mem_cons.mp mem with here | later
        · cases here
          exact answers.leads.later atoms functors
        · exact leads c' id' later
      · rw [List.map_cons, List.map_cons, all fun call mem => full call (List.mem_cons_of_mem _ mem)]

theorem atomOf_inj {one two : List UInt8 × Bool} (same : atomOf one = atomOf two) : one = two := by
  obtain ⟨name, mark⟩ := one
  obtain ⟨name', mark'⟩ := two
  obtain ⟨rfl, hashes⟩ := Atom.mk.inj same
  have turned : hash name ^^^ 1 ≠ hash name := fun h => by
    have one : hash name ^^^ (hash name ^^^ 1) = hash name ^^^ hash name := congrArg _ h
    rw [← UInt64.xor_assoc, UInt64.xor_self, UInt64.zero_xor] at one
    exact absurd one (by decide)
  cases mark <;> cases mark'
  · rfl
  · exact absurd hashes.symm turned
  · exact absurd hashes turned
  · rfl

end Names

end Cocolog.Tables
