import Mathlib.Data.List.Basic
import Mathlib.Data.List.Range

/-! An array read as a function of its index, listed up to its count. Each lemma says
which edit of the list an entry-by-entry description of the new array amounts to. -/

set_option linter.all false

namespace Cocolog.Lib

variable {α : Type*}

/-- The first `n` entries. -/
def entries (f : Nat → α) (n : Nat) : List α := (List.range n).map f

@[simp] theorem length_entries (f : Nat → α) (n : Nat) : (entries f n).length = n := by
  simp [entries]

theorem getElem?_entries (f : Nat → α) (n i : Nat) :
    (entries f n)[i]? = if i < n then some (f i) else none := by
  simp only [entries, List.getElem?_map]
  by_cases h : i < n
  · simp [h]
  · simp [h]

theorem entries_congr {f g : Nat → α} {n : Nat} (same : ∀ i < n, g i = f i) :
    entries g n = entries f n := by
  refine List.map_congr_left ?_
  intro i hi
  exact same i (List.mem_range.mp hi)

theorem entries_take {f g : Nat → α} {n k : Nat} (le : k ≤ n) (same : ∀ i < k, g i = f i) :
    entries g k = (entries f n).take k := by
  refine List.ext_getElem? ?_
  intro i
  rw [List.getElem?_take, getElem?_entries, getElem?_entries]
  by_cases h : i < k
  · simp [h, same i h, show i < n by omega]
  · simp [h]

theorem entries_append {f g : Nat → α} {n : Nat} (same : ∀ i < n, g i = f i) :
    entries g (n + 1) = entries f n ++ [g n] := by
  rw [entries, List.range_succ, List.map_append, List.map_singleton]
  exact congrArg (· ++ [g n]) (entries_congr same)

theorem entries_insert {f g : Nat → α} {n k : Nat} (le : k ≤ n)
    (before : ∀ i < k, g i = f i) (after : ∀ i, k ≤ i → i < n → g (i + 1) = f i) :
    entries g (n + 1) = (entries f n).insertIdx k (g k) := by
  refine List.ext_getElem? ?_
  intro i
  rw [List.getElem?_insertIdx, getElem?_entries, length_entries]
  rcases Nat.lt_trichotomy i k with lt | rfl | gt
  · rw [if_pos lt, getElem?_entries, if_pos (show i < n + 1 by omega),
      if_pos (show i < n by omega), before i lt]
  · simp [le, show i < n + 1 by omega]
  · obtain ⟨j, rfl⟩ : ∃ j, i = j + 1 := ⟨i - 1, by omega⟩
    rw [if_neg (show ¬ j + 1 < k by omega), if_neg (show ¬ j + 1 = k by omega),
      Nat.add_sub_cancel, getElem?_entries]
    by_cases h : j < n
    · simp [h, after j (by omega) h]
    · simp [h]

theorem entries_erase {f g : Nat → α} {n k : Nat} (lt : k < n)
    (before : ∀ i < k, g i = f i) (after : ∀ i, k ≤ i → i + 1 < n → g i = f (i + 1)) :
    entries g (n - 1) = (entries f n).eraseIdx k := by
  refine List.ext_getElem? ?_
  intro i
  rw [List.getElem?_eraseIdx, getElem?_entries, getElem?_entries, getElem?_entries]
  by_cases below : i < k
  · rw [if_pos below, if_pos (by omega), if_pos (by omega), before i below]
  · rw [if_neg below]
    by_cases h : i + 1 < n
    · rw [if_pos (by omega), if_pos h, after i (by omega) h]
    · rw [if_neg (by omega), if_neg h]

theorem entries_modify {f g : Nat → α} {h : α → α} {n k : Nat} (here : k < n → g k = h (f k))
    (other : ∀ i < n, i ≠ k → g i = f i) : entries g n = (entries f n).modify k h := by
  refine List.ext_getElem? ?_
  intro i
  rw [List.getElem?_modify, getElem?_entries, getElem?_entries]
  by_cases below : i < n
  · by_cases at_k : k = i
    · subst at_k
      simp [below, here below]
    · simp [below, at_k, other i below (fun same => at_k same.symm)]
  · simp [below]

/-- Reading the array through a filter of its indices is filtering what is read. -/
theorem entries_slice (f : Nat → α) {n hi : Nat} (le : hi ≤ n) (lo : Nat) :
    ((entries f n).take hi).drop lo = (List.range' lo (hi - lo)).map f := by
  refine List.ext_getElem? ?_
  intro i
  rw [List.getElem?_drop, List.getElem?_take, getElem?_entries, List.getElem?_map]
  by_cases below : lo + i < hi
  · rw [if_pos below, if_pos (by omega), List.getElem?_range' (by omega)]
    simp
  · rw [if_neg below, List.getElem?_eq_none (by simp; omega)]
    rfl

theorem map_filter_range (f : Nat → α) (n : Nat) (keep : α → Bool) :
    ((List.range n).filter fun i => keep (f i)).map f = (entries f n).filter keep := by
  rw [entries, List.filter_map]
  rfl

theorem countP_modify {l : List α} {i : Nat} (f : α → α) (test : α → Bool) {x : α}
    (here : l[i]? = some x) (was : test x = false) (now : test (f x) = true) :
    (l.modify i f).countP test = l.countP test + 1 := by
  induction l generalizing i with
  | nil => simp at here
  | cons a rest ih =>
    cases i with
    | zero =>
      have same : a = x := by simpa using here
      simp [same, was, now]
    | succ i =>
      have deeper : rest[i]? = some x := by simpa using here
      simp only [List.modify_succ_cons, List.countP_cons, ih deeper]
      omega

theorem countP_modify_same (l : List α) (i : Nat) {f : α → α} (test : α → Bool)
    (same : ∀ x, test (f x) = test x) : (l.modify i f).countP test = l.countP test := by
  induction l generalizing i with
  | nil => simp
  | cons a rest ih =>
    cases i with
    | zero => simp [List.countP_cons, same]
    | succ i => simp only [List.modify_succ_cons, List.countP_cons, ih]

end Cocolog.Lib
