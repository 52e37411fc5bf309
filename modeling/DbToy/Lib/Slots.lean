import Mathlib.Data.List.Basic

/-!
# Lists kept in numbered slots

An array that a program fills slot by slot is the function from indices to slots together with the
number of slots in use; `slots n f` is the list that it stands for.  The lemmas say which list
results when one element is put between others and when an array is cut in two.
-/

namespace Slots

variable {α : Type}

/-- The first `n` slots. -/
def slots (n : ℕ) (f : ℕ → α) : List α := (List.range n).map f

@[simp] lemma length_slots (n : ℕ) (f : ℕ → α) : (slots n f).length = n := by simp [slots]

lemma getElem?_slots (n : ℕ) (f : ℕ → α) (i : ℕ) :
    (slots n f)[i]? = if i < n then some (f i) else none := by
  rw [slots, List.getElem?_map]
  split_ifs with h
  · rw [List.getElem?_range h]; rfl
  · rw [List.getElem?_eq_none (by rw [List.length_range]; omega)]; rfl

lemma getElem_slots {n : ℕ} {f : ℕ → α} {i : ℕ} (h : i < (slots n f).length) :
    (slots n f)[i] = f i := by
  simp [slots]

/-- A list whose elements are the slots is the list of the slots. -/
lemma slots_eq_of {n : ℕ} {f : ℕ → α} {l : List α} (hl : l.length = n)
    (h : ∀ i < n, l[i]? = some (f i)) : slots n f = l := by
  refine List.ext_getElem? ?_
  intro i
  rw [getElem?_slots]
  split_ifs with hi
  · exact (h i hi).symm
  · exact (List.getElem?_eq_none (by omega)).symm

lemma slots_congr {n : ℕ} {f g : ℕ → α} (h : ∀ i < n, f i = g i) : slots n f = slots n g := by
  refine List.map_congr_left fun i hi => h i (List.mem_range.mp hi)

/-- What a list with an element put in holds at each index. -/
lemma getElem?_put (A B : List α) (x : α) (i : ℕ) :
    (A ++ x :: B)[i]? =
      if i < A.length then (A ++ B)[i]? else if i = A.length then some x else (A ++ B)[i - 1]? := by
  split_ifs with h1 h2
  · rw [List.getElem?_append_left h1, List.getElem?_append_left h1]
  · subst h2
    rw [List.getElem?_append_right (Nat.le_refl _), Nat.sub_self]; rfl
  · rw [List.getElem?_append_right (by omega), List.getElem?_append_right (by omega),
      show i - A.length = (i - 1 - A.length) + 1 by omega, List.getElem?_cons_succ]

/-- Putting one element in: the slots before it stay, the later ones move up by one. -/
theorem slots_put {n : ℕ} {f g : ℕ → α} {A B : List α} {x : α} (h : slots n f = A ++ B)
    (hlt : ∀ j < A.length, g j = f j) (heq : g A.length = x)
    (hgt : ∀ j, A.length < j → j ≤ n → g j = f (j - 1)) :
    slots (n + 1) g = A ++ x :: B := by
  have hlen : A.length + B.length = n := by
    rw [← List.length_append, ← h, length_slots]
  refine slots_eq_of (by simp only [List.length_append, List.length_cons]; omega) ?_
  intro i hi
  rw [getElem?_put, ← h]
  split_ifs with h1 h2
  · rw [getElem?_slots, if_pos (by omega), hlt i h1]
  · rw [h2, heq]
  · rw [getElem?_slots, if_pos (by omega), hgt i (by omega) (by omega)]

/-- The front of a list, slot by slot. -/
lemma slots_eq_take {m : ℕ} {f : ℕ → α} {W : List α} (hm : m ≤ W.length)
    (h : ∀ i < m, W[i]? = some (f i)) : slots m f = W.take m := by
  refine slots_eq_of (by rw [List.length_take]; omega) ?_
  intro i hi
  rw [List.getElem?_take, if_pos hi, h i hi]

/-- The back of a list, slot by slot. -/
lemma slots_eq_drop {m k : ℕ} {f : ℕ → α} {W : List α} (hm : m + k = W.length)
    (h : ∀ i < k, W[m + i]? = some (f i)) : slots k f = W.drop m := by
  refine slots_eq_of (by rw [List.length_drop]; omega) ?_
  intro i hi
  rw [List.getElem?_drop, h i hi]

end Slots
