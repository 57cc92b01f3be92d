import Cocolog.Copy.Laid

/-! What one turn of a copying walk does, said once for the walks that put, read and
factor: the newest frame's slot gets a compound of its own, or something already there. -/

set_option linter.all false

namespace Cocolog.Copy

open Cocolog.Lib Cocolog.Term

/-- The walk so far, over a memory `old` of `base` cells that it leaves as they were. -/
structure Built (ordered : Prop) (tb : Tables) (item : Nat → Item) (V : Nat → Nat → Prop) (C : Nat → Nat → Nat → Prop)
    (old : Mem) (base : Nat) (w : Walk) : Prop where
  laid : Laid ordered tb item V C (Pending w.frames) w.cells w.len
  apart : Apart w.frames
  within : ∀ fr ∈ w.frames, fr.dst < w.len
  low : ∀ {s f b}, C s f b → base ≤ b
  kept : ∀ i < base, w.cells i = old i
  grown : base ≤ w.len

variable {o : Prop} {tb : Tables} {item : Nat → Item} {V V' : Nat → Nat → Prop} {C : Nat → Nat → Nat → Prop}
  {old m : Mem} {base len a x : Nat} {w w' : Walk} {fr : Frame} {rest : List Frame}

namespace Walk

@[simp] theorem push_len (w : Walk) (c : Cell) : (w.push c).len = w.len + 1 := rfl

@[simp] theorem push_frames (w : Walk) (c : Cell) : (w.push c).frames = w.frames := rfl

theorem push_old (w : Walk) (c : Cell) {i : Nat} (lt : i < w.len) : (w.push c).cells i = w.cells i :=
  Function.update_of_ne (Nat.ne_of_lt lt) ..

theorem push_new (w : Walk) (c : Cell) : (w.push c).cells w.len = c := Function.update_self ..

@[simp] theorem pushStruct_len (w : Walk) (c : Cell) (n : Nat) : (w.pushStruct c n).len = w.len + 1 + n := rfl

@[simp] theorem pushStruct_frames (w : Walk) (c : Cell) (n : Nat) : (w.pushStruct c n).frames = w.frames := rfl

theorem pushStruct_old (w : Walk) (c : Cell) (n : Nat) {i : Nat} (lt : i < w.len) :
    (w.pushStruct c n).cells i = w.cells i := by
  have out : ¬((w.push c).len ≤ i ∧ i < (w.push c).len + n) := by
    rw [push_len]
    omega
  exact (if_neg out).trans (w.push_old c lt)

theorem pushStruct_head (w : Walk) (c : Cell) (n : Nat) : (w.pushStruct c n).cells w.len = c := by
  have out : ¬((w.push c).len ≤ w.len ∧ w.len < (w.push c).len + n) := by
    rw [push_len]
    omega
  exact (if_neg out).trans (w.push_new c)

theorem pushStruct_slot (w : Walk) (c : Cell) {n k : Nat} (below : k < n) :
    (w.pushStruct c n).cells (w.len + 1 + k) = .ref (w.len + 1 + k) := by
  have inside : (w.push c).len ≤ w.len + 1 + k ∧ w.len + 1 + k < (w.push c).len + n := by
    rw [push_len]
    omega
  exact if_pos inside

@[simp] theorem owe_cells (w : Walk) (src dst n : Nat) : (w.owe src dst n).cells = w.cells := by
  unfold owe
  split <;> rfl

@[simp] theorem owe_len (w : Walk) (src dst n : Nat) : (w.owe src dst n).len = w.len := by
  unfold owe
  split <;> rfl

@[simp] theorem owe_vars (w : Walk) (src dst n : Nat) : (w.owe src dst n).vars = w.vars := by
  unfold owe
  split <;> rfl

@[simp] theorem owe_wceil (w : Walk) (src dst n : Nat) : (w.owe src dst n).wceil = w.wceil := by
  unfold owe
  split <;> rfl

theorem mem_owe {w : Walk} {src dst n : Nat} {fr : Frame} (mem : fr ∈ (w.owe src dst n).frames) :
    (fr.dst = dst ∧ 0 < n) ∨ fr ∈ w.frames := by
  unfold owe at mem
  split at mem
  · rename_i some_
    rcases List.mem_cons.mp mem with rfl | mem
    · exact .inl ⟨rfl, some_⟩
    · exact .inr mem
  · exact .inr mem

end Walk

namespace Built

/-- Nothing walked yet. -/
theorem start (w : Walk) (none_ : w.frames = []) (vars : ∀ {v y}, V v y → w.cells y = .ref y ∧ y < w.len) :
    Built o tb item V (fun _ _ _ => False) w.cells w.len w := by
  have no : ∀ {s b k}, ¬ Pending w.frames s b k := by
    rintro s b k ⟨fr, mem, -⟩
    rw [none_] at mem
    cases mem
  refine ⟨⟨?_, ?_, ?_, ?_, ?_⟩, ?_, ?_, ?_, fun _ _ => rfl, le_rfl⟩
  · exact fun block => block.elim
  · exact fun block => block.elim
  · exact fun pending => absurd pending no
  · exact fun block => block.elim
  · exact fun mapped => ⟨(vars mapped).1, (vars mapped).2, fun pending => absurd pending no⟩
  · rw [none_]
    exact ⟨.nil, fun _ mem => (nomatch mem)⟩
  · rw [none_]
    exact fun _ mem => (nomatch mem)
  · exact fun block => block.elim

/-- The slot under the newest frame. -/
theorem next (built : Built o tb item V C old base w) (top : w.frames = fr :: rest) (below : fr.i < fr.n) :
    Pending w.frames fr.src (fr.dst - 1) fr.i ∧ fr.dst + fr.i = fr.dst - 1 + 1 + fr.i ∧ base ≤ fr.dst - 1 := by
  have apart := built.apart
  rw [top] at apart
  have pending : Pending w.frames fr.src (fr.dst - 1) fr.i := by
    rw [top]
    exact pending_next apart below
  have one := apart.2 fr List.mem_cons_self
  obtain ⟨-, f, block, -⟩ := built.laid.owed pending
  exact ⟨pending, by omega, built.low block⟩

theorem within_advance (built : Built o tb item V C old base w) (top : w.frames = fr :: rest) :
    ∀ fr' ∈ advance fr rest, fr'.dst < w.len := by
  have within := built.within
  rw [top] at within
  intro fr' mem
  unfold advance at mem
  split at mem
  · exact within fr' (List.mem_cons_of_mem _ mem)
  · rcases List.mem_cons.mp mem with rfl | mem
    · exact within fr List.mem_cons_self
    · exact within fr' (List.mem_cons_of_mem _ mem)

/-- A frame with nothing left is dropped. -/
theorem drop (built : Built o tb item V C old base w) (top : w.frames = fr :: rest) (done : fr.n ≤ fr.i) :
    Built o tb item V C old base { w with frames := rest } := by
  have apart := built.apart
  have within := built.within
  have laid := built.laid
  rw [top] at apart within laid
  refine ⟨laid.pending_iff (pending_drop done), ?_, ?_, built.low, built.kept, built.grown⟩
  · exact ⟨(List.pairwise_cons.mp apart.1).2, fun fr' mem => apart.2 fr' (List.mem_cons_of_mem _ mem)⟩
  · exact fun fr' mem => within fr' (List.mem_cons_of_mem _ mem)

/-- A compound laid down past the end, its frame on top. -/
theorem lay (built : Built o tb item V C old base w) (s f : Nat) :
    Built o tb item V (fun s' f' b => C s' f' b ∨ (s' = s ∧ f' = f ∧ b = w.len)) old base
      ((w.pushStruct (.func f) (tb.arity f)).owe s (w.len + 1) (tb.arity f)) := by
  have grown := built.grown
  refine ⟨?_, ?_, ?_, ?_, ?_, ?_⟩
  · rw [Walk.owe_cells, Walk.owe_len, Walk.pushStruct_len]
    have laid := built.laid.block (s := s) (fun i lt => w.pushStruct_old (.func f) (tb.arity f) lt)
      (w.pushStruct_head (.func f) (tb.arity f)) fun k lt => w.pushStruct_slot (.func f) lt
    refine laid.pending_iff ?_
    exact pending_owe (w.pushStruct (.func f) (tb.arity f)) s w.len (tb.arity f)
  · apply Apart.owe (w := w.pushStruct (.func f) (tb.arity f)) built.apart
    intro fr mem
    have := built.within fr mem
    omega
  · rw [Walk.owe_len, Walk.pushStruct_len]
    intro fr mem
    rcases Walk.mem_owe mem with ⟨at_, some_⟩ | mem
    · omega
    · have := built.within fr mem
      omega
  · rintro s' f' b (block | ⟨-, -, rfl⟩)
    · exact built.low block
    · exact grown
  · intro i lt
    rw [Walk.owe_cells, w.pushStruct_old _ _ (by omega), built.kept i lt]
  · rw [Walk.owe_len, Walk.pushStruct_len]
    omega

/-- Cells pushed past the end, and variables met. -/
theorem grow (built : Built o tb item V C old base w) (same : ∀ i < w.len, w'.cells i = w.cells i)
    (le : w.len ≤ w'.len) (frames : w'.frames = w.frames) (older : ∀ v y, V v y → V' v y)
    (newer : ∀ v y, V' v y → V v y ∨ (w.len ≤ y ∧ y < w'.len ∧ w'.cells y = .ref y)) :
    Built o tb item V' C old base w' := by
  have grown := built.grown
  refine ⟨?_, ?_, ?_, built.low, ?_, by omega⟩
  · rw [frames]
    exact built.laid.grow same le older newer
  · rw [frames]
    exact built.apart
  · rw [frames]
    intro fr mem
    exact Nat.lt_of_lt_of_le (built.within fr mem) le
  · intro i lt
    rw [same i (by omega), built.kept i lt]

/-- The newest frame's slot pointed at an image: at what is there, or at what was pushed
for it. -/
theorem point (built : Built o tb item V C old base w) (top : w.frames = fr :: rest) (below : fr.i < fr.n)
    (same : ∀ i < w.len, m i = w.cells i) (le : w.len ≤ len) (older : ∀ v y, V v y → V' v y)
    (newer : ∀ v y, V' v y → V v y ∨ (w.len ≤ y ∧ y < len ∧ m y = .ref y))
    (image : Image item V' C m len (fr.src + 1 + fr.i) x)
    (not_comp : o → ∀ s f, item (fr.src + 1 + fr.i) ≠ .comp s f)
    (cells : w'.cells = Function.update m (fr.dst + fr.i) (.ref x)) (is_len : w'.len = len)
    (frames : w'.frames = advance fr rest) : Built o tb item V' C old base w' := by
  obtain ⟨pending, at_, low⟩ := built.next top below
  have apart := built.apart
  rw [top] at apart
  have filled := (built.laid.grow same le older newer).fill pending image
    fun is_o s f comp => absurd comp (not_comp is_o s f)
  have grown := built.grown
  refine ⟨?_, ?_, ?_, built.low, ?_, ?_⟩
  · rw [cells, is_len, frames, at_]
    refine filled.pending_iff ?_
    rw [top]
    exact pending_advance apart below
  · rw [frames]
    exact apart.advance
  · rw [frames, is_len]
    intro fr' mem
    have := built.within_advance top fr' mem
    omega
  · intro i lt
    rw [cells, Function.update_of_ne (by omega), same i (by omega), built.kept i lt]
  · rw [is_len]
    omega

/-- The newest frame's slot pointed at a compound laid down for it. -/
theorem comp (built : Built o tb item V C old base w) (top : w.frames = fr :: rest) (below : fr.i < fr.n)
    {s f : Nat} (is : item (fr.src + 1 + fr.i) = .comp s f)
    (cells : w'.cells = Function.update (w.pushStruct (.func f) (tb.arity f)).cells (fr.dst + fr.i) (.ref w.len))
    (is_len : w'.len = w.len + 1 + tb.arity f)
    (frames : w'.frames =
      (({ w with frames := advance fr rest } : Walk).owe s (w.len + 1) (tb.arity f)).frames) :
    Built o tb item V (fun s' f' b => C s' f' b ∨ (s' = s ∧ f' = f ∧ b = w.len)) old base w' := by
  obtain ⟨pending, at_, low⟩ := built.next top below
  have apart := built.apart
  rw [top] at apart
  have laid := (built.lay s f).laid
  rw [Walk.owe_cells, Walk.owe_len, Walk.pushStruct_len] at laid
  have owed := pending_owe (w.pushStruct (.func f) (tb.arity f)) s w.len (tb.arity f)
  have still := (owed _ _ _).mpr (.inl pending)
  have before := built.within fr (by rw [top]; exact List.mem_cons_self)
  have one := apart.2 fr List.mem_cons_self
  have filled := laid.fill (x := w.len) still (by simp [Image, is]) fun _ _ _ _ => by omega
  have grown := built.grown
  refine ⟨?_, ?_, ?_, ?_, ?_, ?_⟩
  · rw [cells, is_len, frames, at_]
    refine filled.pending_iff ?_
    intro s' b k
    -- what the new frame owes is not the slot just filled
    rw [pending_owe, owed, Walk.pushStruct_frames, top, pending_advance apart below]
    constructor
    · rintro (⟨old_, off⟩ | ⟨rfl, rfl, lt⟩)
      · exact ⟨.inl old_, off⟩
      · exact ⟨.inr ⟨rfl, rfl, lt⟩, by omega⟩
    · rintro ⟨old_ | new_, off⟩
      · exact .inl ⟨old_, off⟩
      · exact .inr new_
  · rw [frames]
    apply Apart.owe (w := { w with frames := advance fr rest }) apart.advance
    intro fr' mem
    have := built.within_advance top fr' mem
    omega
  · rw [frames, is_len]
    intro fr' mem
    rcases Walk.mem_owe mem with ⟨at_, some_⟩ | mem
    · omega
    · have := built.within_advance top fr' mem
      omega
  · rintro s' f' b (block | ⟨-, -, rfl⟩)
    · exact built.low block
    · exact grown
  · intro i lt
    rw [cells, Function.update_of_ne (by omega), w.pushStruct_old _ _ (by omega), built.kept i lt]
  · rw [is_len]
    omega

/-- The newest frame's slot left as the variable first met there. -/
theorem own (built : Built o tb item V C old base w) (top : w.frames = fr :: rest) (below : fr.i < fr.n)
    {v : Nat} (is : item (fr.src + 1 + fr.i) = .var v) (cells : w'.cells = w.cells) (is_len : w'.len = w.len)
    (frames : w'.frames = advance fr rest) :
    Built o tb item (fun v' y => V v' y ∨ (v' = v ∧ y = fr.dst + fr.i)) C old base w' := by
  obtain ⟨pending, at_, low⟩ := built.next top below
  have apart := built.apart
  rw [top] at apart
  refine ⟨?_, ?_, ?_, built.low, ?_, ?_⟩
  · rw [cells, is_len, frames, at_]
    refine (built.laid.own pending is).pending_iff ?_
    rw [top]
    exact pending_advance apart below
  · rw [frames]
    exact apart.advance
  · rw [frames, is_len]
    exact built.within_advance top
  · intro i lt
    rw [cells, built.kept i lt]
  · rw [is_len]
    exact built.grown

/-- Writing the slot leaves every cell that holds something. -/
theorem held (built : Built o tb item V C old base w) (top : w.frames = fr :: rest) (below : fr.i < fr.n)
    (same : ∀ i < w.len, m i = w.cells i) (c : Cell) :
    ∀ i < w.len, (w.cells i).isRef = false → Function.update m (fr.dst + fr.i) c i = w.cells i := by
  intro i lt held
  obtain ⟨pending, at_, -⟩ := built.next top below
  have self := (built.laid.owed pending).1
  rw [Function.update_of_ne, same i lt]
  rintro rfl
  rw [at_, self] at held
  cases held

/-- A turn of the filling loop that places something other than a compound. -/
theorem turn_leaf {node : Nat → Walk → Nat × Walk} {w₁ : Walk} (built : Built o tb item V C old base w)
    (top : w.frames = fr :: rest) (below : fr.i < fr.n)
    (node_is : node (fr.src + (fr.i + 1)) { w with frames := advance fr rest } = (x, w₁))
    (frames : w₁.frames = advance fr rest) (same : ∀ i < w.len, w₁.cells i = w.cells i) (le : w.len ≤ w₁.len)
    (older : ∀ v y, V v y → V' v y) (newer : ∀ v y, V' v y → V v y ∨ (w.len ≤ y ∧ y < w₁.len ∧ w₁.cells y = .ref y))
    (image : Image item V' C w₁.cells w₁.len (fr.src + 1 + fr.i) x)
    (leaf : o → ∀ s f, item (fr.src + 1 + fr.i) ≠ .comp s f) (next : fillStep node w = some w') :
    w' = w₁.setArg (fr.dst + fr.i) x ∧ Built o tb item V' C old base w' ∧
      ∀ a y, Image item V C w.cells w.len a y → Image item V' C w'.cells w'.len a y := by
  simp only [fillStep, top, if_neg (Nat.not_le_of_lt below), node_is, Option.some.injEq] at next
  refine ⟨next.symm, ?_, ?_⟩
  · exact built.point top below same le older newer image leaf (by rw [← next]; rfl) (by rw [← next]; rfl)
      (by rw [← next]; exact frames)
  · intro a y old_image
    rw [← next]
    exact old_image.mono older (fun _ _ _ h => h) (built.held top below same _) le

/-- A turn of the filling loop that lays a compound down. -/
theorem turn_comp {node : Nat → Walk → Nat × Walk} (built : Built o tb item V C old base w)
    (top : w.frames = fr :: rest) (below : fr.i < fr.n) {s f : Nat} (is : item (fr.src + 1 + fr.i) = .comp s f)
    (node_is : node (fr.src + (fr.i + 1)) { w with frames := advance fr rest } =
      (w.len, (({ w with frames := advance fr rest } : Walk).pushStruct (.func f) (tb.arity f)).owe s (w.len + 1)
        (tb.arity f)))
    (next : fillStep node w = some w') :
    (w'.vars = w.vars ∧ w'.wceil = w.wceil ∧ w'.len = w.len + 1 + tb.arity f ∧
      w'.frames = (({ w with frames := advance fr rest } : Walk).owe s (w.len + 1) (tb.arity f)).frames) ∧
    ∃ C' : Nat → Nat → Nat → Prop, Built o tb item V C' old base w' ∧ (∀ s f b, C s f b → C' s f b) ∧
      ∀ a y, Image item V C w.cells w.len a y → Image item V C' w'.cells w'.len a y := by
  simp only [fillStep, top, if_neg (Nat.not_le_of_lt below), node_is, Option.some.injEq] at next
  have cells : w'.cells =
      Function.update (w.pushStruct (.func f) (tb.arity f)).cells (fr.dst + fr.i) (.ref w.len) := by
    rw [← next]
    simp only [Walk.setArg, Walk.owe_cells]
    rfl
  have len : w'.len = w.len + 1 + tb.arity f := by
    rw [← next]
    simp only [Walk.setArg, Walk.owe_len]
    rfl
  have others : w'.vars = w.vars ∧ w'.wceil = w.wceil ∧
      w'.frames = (({ w with frames := advance fr rest } : Walk).owe s (w.len + 1) (tb.arity f)).frames := by
    rw [← next]
    unfold Walk.owe Walk.setArg
    split <;> exact ⟨rfl, rfl, rfl⟩
  obtain ⟨vars, wceil, frames⟩ := others
  refine ⟨⟨vars, wceil, len, frames⟩, _, built.comp top below is cells len frames, fun _ _ _ h => .inl h, ?_⟩
  intro a y old_image
  rw [cells, len]
  refine old_image.mono (fun _ _ h => h) (fun _ _ _ h => .inl h) ?_ (by omega)
  exact built.held top below (fun i lt => w.pushStruct_old _ _ lt) _

/-- At the end of the walk nothing is pending. -/
theorem done (built : Built o tb item V C old base w) (none_ : w.frames = []) :
    Laid o tb item V C (fun _ _ _ => False) w.cells w.len := by
  refine built.laid.pending_iff ?_
  intro s b k
  constructor
  · exact False.elim
  · rintro ⟨fr, mem, -⟩
    rw [none_] at mem
    cases mem

end Built

end Cocolog.Copy
