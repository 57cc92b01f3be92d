import Cocolog.Lib.Intake

/-! The socket under the protocol: bytes read ahead of what the protocol has consumed, bytes
held back until something wants to read, and transfers that end the connection where they
fail. -/

set_option linter.all false

namespace Cocolog.Zigurat

open Cocolog.Lib.Intake

def zgOutSize : Nat := 1024

def zgInSize : Nat := 8192

/-- What a `recv` comes back with. -/
inductive Recv where
  | got (b : List UInt8) (some' : b ≠ []) (fits : b.length ≤ zgInSize)
  | interrupted
  | closed
  | failed (why : String)

/-- What a `send` comes back with. -/
inductive Send where
  | took (k : Nat) (some' : 0 < k)
  | interrupted
  | failed (why : String)

structure Conn where
  fd : Int
  err : String
  /-- `in[pin]` up to `in[nin]`. -/
  ahead : List UInt8
  /-- What the `recv`s to come will come back with; after them the server has closed. -/
  arrivals : List Recv
  /-- `out[0]` up to `out[nout]`. -/
  out : List UInt8
  /-- What the `send`s to come will come back with; after them the pipe is broken. -/
  sends : List Send
  /-- The bytes the socket has taken. -/
  wire : List UInt8

namespace Conn

/-- The bytes that will be received, up to where the stream ends. -/
def arriving : List Recv → List UInt8
  | .got b _ _ :: l => b ++ arriving l
  | .interrupted :: l => arriving l
  | _ => []

def coming (c : Conn) : List UInt8 := c.ahead ++ arriving c.arrivals

def isOpen (c : Conn) : Prop := 0 ≤ c.fd

/-- Whether the sends to come take these bytes. -/
def goes : List Send → List UInt8 → Bool
  | _, [] => true
  | [], _ :: _ => false
  | .interrupted :: l, b :: w => goes l (b :: w)
  | .failed _ :: _, _ :: _ => false
  | .took k _ :: l, b :: w => goes l ((b :: w).drop k)

def clear (c : Conn) : Prop := goes c.sends c.out = true

def source : Source Conn := { coming, isOpen, clear }

end Conn

variable {α : Type}

def say (what : String) : Talk Conn α := fun c => (none, { c with err := what })

def lost (what : String) (detail : Option String) : Talk Conn α := fun c =>
  (none, { c with
    fd := -1, ahead := [], arrivals := []
    err := match detail with
      | some detail => what ++ ": " ++ detail
      | none => what })

/-- The loop of `wr_now`. -/
def wrNowLoop : List Send → List UInt8 → Talk Conn Unit
  | sends, [] => fun c => (some (), { c with sends })
  | [], _ :: _ => lost "write failed" (some "Broken pipe")
  | .interrupted :: sends, b :: w => wrNowLoop sends (b :: w)
  | .failed why :: _, _ :: _ => lost "write failed" (some why)
  | .took k _ :: sends, b :: w => fun c =>
    wrNowLoop sends ((b :: w).drop k) { c with wire := c.wire ++ (b :: w).take k }

def wrNow (w : List UInt8) : Talk Conn Unit := fun c =>
  if c.fd < 0 then say "the connection is closed" c else wrNowLoop c.sends w c

def flushOut : Talk Conn Unit := fun c =>
  if c.out = [] then (some (), c) else wrNow c.out { c with out := [] }

def hold (w : List UInt8) : Talk Conn Unit := fun c => (some (), { c with out := c.out ++ w })

def wr (w : List UInt8) : Talk Conn Unit := fun c =>
  if c.fd < 0 then say "the connection is closed" c
  else if zgOutSize ≤ w.length then (do flushOut; wrNow w : Talk Conn Unit) c
  else if zgOutSize < c.out.length + w.length then (do flushOut; hold w : Talk Conn Unit) c
  else hold w c

/-- The loop of `rd`: `got` is what the buffer holds so far. -/
def rdLoop (n : Nat) (arrivals : List Recv) (got : List UInt8) : Talk Conn (List UInt8) := fun c =>
  let take := min c.ahead.length (n - got.length)
  let got := got ++ c.ahead.take take
  let c := { c with ahead := c.ahead.drop take }
  if n ≤ got.length then (some got, { c with arrivals })
  else
    -- nothing left in hand, and nothing may sit unsent while this end waits
    match flushOut c with
    | (none, c) => (none, c)
    | (some (), c) =>
      match arrivals with
      | .got b _ _ :: arrivals => rdLoop n arrivals got { c with ahead := b, arrivals }
      | .interrupted :: arrivals => rdLoop n arrivals got { c with ahead := [], arrivals }
      | .failed why :: _ => lost "read failed" (some why) c
      | .closed :: _ => lost "the server closed the connection" none c
      | [] => lost "the server closed the connection" none c

def rd (n : Nat) : Talk Conn (List UInt8) := fun c =>
  if c.fd < 0 then say "the connection is closed" c else rdLoop n c.arrivals [] c

/-- Skips the bytes of a value this client does not want, a pail at a time. -/
def skip (n : Nat) : Talk Conn Unit :=
  if _h : 0 < n then do
    let _ ← rd (min n 512)
    skip (n - min n 512)
  else pure ()
termination_by n
decreasing_by omega

def rdBe (n : Nat) : Talk Conn Nat := do
  let w ← rd n
  pure (ofBe w)

def wrBe (n v : Nat) : Talk Conn Unit :=
  if 16 < n then say "a value wider than the protocol carries" else wr (toBe n v)

def rdU8 : Talk Conn Nat := rdBe 1
def rdU16 : Talk Conn Nat := rdBe 2
def rdU32 : Talk Conn Nat := rdBe 4

def wrU8 (v : UInt8) : Talk Conn Unit := wr [v]
def wrU16 (v : Nat) : Talk Conn Unit := wrBe 2 v

/-! ## What is sent -/

/-- An answered writer has put `w` behind what was sent or held before. -/
def Lays (p : Talk Conn α) (w : List UInt8) : Prop :=
  ∀ c, (p c).1 ≠ none → (p c).2.wire ++ (p c).2.out = c.wire ++ c.out ++ w

theorem lost_lost (what : String) (detail : Option String) (c : Conn) :
    Lost Conn.source (lost what detail : Talk Conn α) c :=
  ⟨rfl, by simp [lost, Conn.source, Conn.isOpen], rfl⟩

theorem wrNowLoop_spec (sends : List Send) (w : List UInt8) (c : Conn) :
    (Conn.goes sends w = true →
      ∃ l, wrNowLoop sends w c = (some (), { c with sends := l, wire := c.wire ++ w })) ∧
    (Conn.goes sends w ≠ true → Lost Conn.source (wrNowLoop sends w) c) := by
  induction sends, w using Conn.goes.induct generalizing c with
  | case1 sends => cases sends <;> simp [Conn.goes, wrNowLoop]
  | case2 => exact ⟨by simp [Conn.goes], fun _ => lost_lost _ _ c⟩
  | case3 l b w ih => exact ih c
  | case4 => exact ⟨by simp [Conn.goes], fun _ => lost_lost _ _ c⟩
  | case5 k pos l b w ih =>
    obtain ⟨through, blocked⟩ := ih { c with wire := c.wire ++ (b :: w).take k }
    refine ⟨fun goes => ?_, blocked⟩
    obtain ⟨sends, eq⟩ := through goes
    refine ⟨sends, eq.trans ?_⟩
    rw [List.append_assoc, List.take_append_drop]

theorem flushOut_spec {c : Conn} (is : c.isOpen) :
    (c.clear → ∃ l, flushOut c = (some (), { c with out := [], sends := l, wire := c.wire ++ c.out })) ∧
      (¬c.clear → Lost Conn.source flushOut c) := by
  by_cases empty : c.out = []
  · have same : flushOut c = (some (), c) := by rw [flushOut, if_pos empty]
    constructor
    · intro _
      refine ⟨c.sends, ?_⟩
      rw [same]
      cases c
      simp_all
    · intro blocked
      exact absurd (by rw [Conn.clear, empty]; cases c.sends <;> rfl) blocked
  · have sent : flushOut c = wrNowLoop c.sends c.out { c with out := [] } := by
      rw [flushOut, if_neg empty, wrNow, if_neg (by simpa [Conn.isOpen] using is)]
    have spec := wrNowLoop_spec c.sends c.out { c with out := [] }
    constructor
    · intro clear
      rw [sent]
      exact spec.1 clear
    · intro blocked
      rw [Lost, sent]
      exact spec.2 blocked

/-! ## What is read -/

theorem rdLoop_enough {n : Nat} (arrivals : List Recv) {got : List UInt8} {c : Conn}
    (most : got.length ≤ n) (enough : n ≤ got.length + c.ahead.length) :
    rdLoop n arrivals got c =
      (some (got ++ c.ahead.take (n - got.length)),
        { c with ahead := c.ahead.drop (n - got.length), arrivals }) := by
  have take : min c.ahead.length (n - got.length) = n - got.length := by omega
  cases arrivals <;> (
    rw [rdLoop]
    simp only [take, List.length_append, List.length_take]
    rw [if_pos (by omega)])

/-- The `recv` of the loop, once nothing is in hand and nothing unsent. -/
def rdRecv (n : Nat) (got : List UInt8) : List Recv → Talk Conn (List UInt8)
  | .got b _ _ :: arrivals => fun c => rdLoop n arrivals got { c with ahead := b, arrivals }
  | .interrupted :: arrivals => fun c => rdLoop n arrivals got { c with ahead := [], arrivals }
  | .failed why :: _ => lost "read failed" (some why)
  | .closed :: _ => lost "the server closed the connection" none
  | [] => lost "the server closed the connection" none

theorem rdLoop_more {n : Nat} (arrivals : List Recv) {got : List UInt8} {c : Conn}
    (more : got.length + c.ahead.length < n) :
    rdLoop n arrivals got c =
      (do flushOut; rdRecv n (got ++ c.ahead) arrivals : Talk Conn _) { c with ahead := [] } := by
  have take : min c.ahead.length (n - got.length) = c.ahead.length := by omega
  rw [bind_apply]
  rcases arrivals with _ | ⟨r, arrivals⟩ <;> (
    rw [rdLoop]
    simp only [take, List.take_length, List.drop_length, List.length_append]
    rw [if_neg (by omega)]
    rcases flushOut { c with ahead := [] } with ⟨_ | ⟨⟩, c'⟩)
  · rfl
  · rfl
  · rfl
  · cases r <;> rfl

/-- A turn of the loop takes what is in hand, and what is wanting then off a `recv`. -/
theorem rdLoop_turn {n : Nat} {arrivals : List Recv} {got w : List UInt8} {c : Conn}
    (is : c.isOpen) (at' : c.arrivals = arrivals) (wanting : got.length + w.length = n)
    (recv : ∀ (c' : Conn) (got' w' : List UInt8), c'.isOpen → c'.arrivals = arrivals →
      c'.ahead = [] → got'.length + w'.length = n → w' ≠ [] →
      ExactAt Conn.source (rdRecv n got' arrivals) c' w' (some (got' ++ w'))) :
    ExactAt Conn.source (rdLoop n arrivals got) c w (some (got ++ w)) := by
  have comes : c.coming = c.ahead ++ Conn.arriving c.arrivals := rfl
  by_cases enough : w.length ≤ c.ahead.length
  · have turn := rdLoop_enough arrivals (show got.length ≤ n by omega)
      (show n ≤ got.length + c.ahead.length by omega)
    rw [show n - got.length = w.length by omega] at turn
    constructor
    · intro rest arrives
      have both : c.ahead ++ Conn.arriving c.arrivals = w ++ rest := arrives
      have front : c.ahead.take w.length = w := by
        rw [← List.take_append_of_le_length enough, both, List.take_left]
      have behind : c.ahead.drop w.length ++ Conn.arriving c.arrivals = rest := by
        rw [← List.drop_append_of_le_length enough, both, List.drop_left]
      refine .inl ⟨by rw [turn, front], by rw [turn]; exact is, ?_, fun clear => by rw [turn]; exact clear⟩
      rw [turn, ← behind, at']
      rfl
    · intro before other
      have all := before.eq_of_length_le (by simp [Conn.source, comes]; omega)
      exact absurd all other
  · by_cases front : c.ahead <+: w
    · obtain ⟨w', rfl⟩ := front
      have some' : w' ≠ [] := by rintro rfl; simp at enough
      have turn := rdLoop_more arrivals
        (show got.length + c.ahead.length < n by simp only [List.length_append] at *; omega)
      have is' : Conn.isOpen { c with ahead := [] } := is
      refine ExactAt.onward turn (d := { c with ahead := [] }) rfl id ?_
      rw [← List.append_assoc]
      rw [List.length_append] at wanting
      by_cases clear : c.clear
      · obtain ⟨l, sent⟩ := (flushOut_spec is').1 clear
        have next := recv { c with ahead := [], out := [], sends := l, wire := c.wire ++ c.out }
          (got ++ c.ahead) w' is at' rfl (by rw [List.length_append]; omega) some'
        refine ExactAt.onward (u := []) (by rw [bind_apply, sent]) rfl (fun _ => ?_) next
        simp only [Conn.source, Conn.clear]
        cases l <;> rfl
      · have lost := (flushOut_spec is').2 clear
        exact ⟨fun _ => .inr ⟨lost.bind, clear⟩, fun _ _ => lost.bind⟩
    · exact .apart comes (by omega) front

/-- The loop of `rd` takes exactly what is wanting. -/
theorem rdLoop_exact {n : Nat} {arrivals : List Recv} {got w : List UInt8} {c : Conn}
    (is : c.isOpen) (at' : c.arrivals = arrivals) (wanting : got.length + w.length = n) :
    ExactAt Conn.source (rdLoop n arrivals got) c w (some (got ++ w)) := by
  -- nothing comes where the stream ends
  have ends {l : List Recv} (none' : Conn.arriving l = []) {what : String} {detail : Option String}
      {c' : Conn} {w' : List UInt8} {o : Option (List UInt8)} (arrivals : c'.arrivals = l)
      (hand : c'.ahead = []) (some' : w' ≠ []) :
      ExactAt Conn.source (lost what detail) c' w' o := by
    have nothing : Conn.source.coming c' = [] := by
      simp [Conn.source, Conn.coming, arrivals, hand, none']
    refine ⟨fun arrives => ?_, fun _ _ => lost_lost what detail c'⟩
    rw [nothing] at arrives
    exact absurd (List.append_eq_nil_iff.mp arrives.symm).1 some'
  induction arrivals generalizing got w c with
  | nil =>
    refine rdLoop_turn is at' wanting fun c' got' w' _ at' hand _ some' => ?_
    rw [rdRecv]
    exact ends rfl at' hand some'
  | cons r arrivals ih =>
    refine rdLoop_turn is at' wanting fun c' got' w' is' at' hand wanting' some' => ?_
    cases r with
    | got b _ _ =>
      refine ExactAt.onward (u := []) (d := { c' with ahead := b, arrivals }) rfl ?_ id (ih is' rfl wanting')
      simp [Conn.source, Conn.coming, at', hand, Conn.arriving]
    | interrupted =>
      refine ExactAt.onward (u := []) (d := { c' with ahead := [], arrivals }) rfl ?_ id (ih is' rfl wanting')
      simp [Conn.source, Conn.coming, at', hand, Conn.arriving]
    | closed =>
      rw [rdRecv]
      exact ends rfl at' hand some'
    | failed _ =>
      rw [rdRecv]
      exact ends rfl at' hand some'

theorem rd_exact (w : List UInt8) : Exact Conn.source (rd w.length) w (some w) := by
  intro c is
  have loop := rdLoop_exact is rfl (show ([] : List UInt8).length + w.length = w.length from Nat.zero_add _)
  have eq : rd w.length c = rdLoop w.length c.arrivals [] c := by
    rw [rd, if_neg (not_lt.mpr is)]
  exact loop.onward (u := []) eq rfl id

theorem rdBe_exact (w : List UInt8) : Exact Conn.source (rdBe w.length) w (some (ofBe w)) := by
  have done := (rd_exact w).bind (q := fun w => pure (ofBe w)) (.done _)
  rwa [List.append_nil] at done

theorem rdBe_toBe (k : Nat) {v : Nat} (below : v < 256 ^ k) :
    Exact Conn.source (rdBe k) (toBe k v) (some v) := by
  have read := rdBe_exact (toBe k v)
  rwa [ofBe_toBe, Nat.mod_eq_of_lt below, toBe_length] at read

theorem say_exact (what : String) : Exact Conn.source (say what : Talk Conn α) [] none := fun _ is =>
  ⟨fun arrives => .inl ⟨rfl, is, arrives, id⟩,
    fun before other => absurd (List.prefix_nil.mp before) other⟩

theorem skip_exact {n : Nat} : ∀ {w : List UInt8}, w.length = n →
    Exact Conn.source (skip n) w (some ()) := by
  induction n using Nat.strong_induction_on with
  | _ n ih =>
    intro w length
    rw [skip]
    split
    case isTrue some' =>
      have pail := rd_exact (w.take (min n 512))
      rw [List.length_take, length, min_eq_left (min_le_left n 512)] at pail
      have rest := ih (n - min n 512) (by omega) (w := w.drop (min n 512))
        (by rw [List.length_drop, length])
      have both := pail.bind (q := fun _ => skip (n - min n 512)) rest
      rwa [List.take_append_drop] at both
    case isFalse none' =>
      rw [List.length_eq_zero_iff.mp (show w.length = 0 by omega)]
      exact .done ()

theorem Conn.coming_drop {c : Conn} {n : Nat} (enough : n ≤ c.coming.length) :
    c.coming = c.coming.take n ++ c.coming.drop n ∧ (c.coming.take n).length = n :=
  ⟨(List.take_append_drop n _).symm, by rw [List.length_take, min_eq_left enough]⟩

/-- What `rd` answers with came off the stream. -/
theorem rd_cases (n : Nat) (c : Conn) :
    (rd n c).1 ≠ none ∧ (rd n c).2.coming.length + n = c.coming.length ∨
      (rd n c).1 = none ∧ (rd n c).2.coming.length ≤ c.coming.length := by
  by_cases closed : c.fd < 0
  · have eq : rd n c = say "the connection is closed" c := by rw [rd, if_pos closed]
    exact .inr (by rw [eq]; exact ⟨rfl, le_rfl⟩)
  · by_cases enough : n ≤ c.coming.length
    · obtain ⟨split, length⟩ := Conn.coming_drop enough
      have exact' := rd_exact (c.coming.take n) c (not_lt.mp closed)
      rw [length] at exact'
      rcases exact'.whole split with ok | ⟨lost, _⟩
      · refine .inl ⟨by rw [ok.answer]; exact Option.some_ne_none _, ?_⟩
        have left := congrArg List.length ok.left
        rw [List.length_drop] at left
        change (rd n c).2.coming.length = _ at left
        omega
      · exact .inr ⟨lost.1, (congrArg List.length lost.2.2).trans_le (Nat.zero_le _)⟩
    · have exact' := rd_exact (c.coming ++ List.replicate (n - c.coming.length) 0) c (not_lt.mp closed)
      rw [List.length_append, List.length_replicate, Nat.add_sub_cancel' (by omega)] at exact'
      have lost := exact'.short (List.prefix_append _ _) fun eq => by
        have := congrArg List.length eq
        simp [Conn.source] at this
        omega
      exact .inr ⟨lost.1, (congrArg List.length lost.2.2).trans_le (Nat.zero_le _)⟩

theorem rd_falls (n : Nat) : Falls Conn.source (rd n) := by
  intro c
  have := rd_cases n c
  simp only [Conn.source]
  omega

theorem rdBe_falls (n : Nat) : Falls Conn.source (rdBe n) :=
  (rd_falls n).bind fun _ => .done _

theorem rdBe_takes {n : Nat} (some' : 0 < n) : Takes Conn.source (rdBe n) := by
  intro c answered
  have := rd_cases n c
  cases h : (rd n c).1 with
  | none => exact absurd (by rw [rdBe, bind_none _ h]) answered
  | some w =>
    rw [rdBe, bind_some _ h]
    simp only [h, ne_eq, reduceCtorEq, not_false_eq_true, true_and, false_and, or_false] at this
    simp only [Conn.source, pure_apply]
    omega

theorem skip_falls (n : Nat) : Falls Conn.source (skip n) := by
  induction n using Nat.strong_induction_on with
  | _ n ih =>
    rw [skip]
    split
    · exact (rd_falls _).bind fun _ => ih _ (by omega)
    · exact .done ()

end Cocolog.Zigurat
