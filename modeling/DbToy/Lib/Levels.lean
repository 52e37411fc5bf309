import DbToy.Lib.Rooted
import Mathlib.Algebra.BigOperators.Group.Finset.Basic

/-!
# Levels of B+ trees

How many nodes a tree has at each height, and what that says when its nodes are at least half full.

* `width`: the number of nodes at a height; all together they are the nodes of the tree
  (`length_pids`).
* `RootFilled.width_succ_mul_le`: each level is so many times smaller than the one below it.
* `RootFilled.width_zero_mul_le`, `RootFilled.le_length_cells`: the cells that the leaves, and the
  height, are worth.
* `RootFilled.le_width_zero`: the leaves that the height is worth.
-/

namespace SearchTree

variable {κ ν : Type}

/-- The nodes at height `k`, where leaves are at height 0. -/
def width (k : ℕ) : (h : ℕ) → Tree κ ν h → ℕ
  | 0, _ => if k = 0 then 1 else 0
  | h + 1, t => if k = h + 1 then 1 else ((Inner.slots t).children.map (width k h)).sum

lemma width_self : ∀ (h : ℕ) (t : Tree κ ν h), width h h t = 1
  | 0, _ => rfl
  | _ + 1, _ => if_pos rfl

lemma width_succ_of_le {k h : ℕ} (hk : k ≤ h) (t : Tree κ ν (h + 1)) :
    width k (h + 1) t = ((Inner.slots t).children.map (width k h)).sum :=
  if_neg (by omega)

lemma width_of_lt {k : ℕ} : ∀ {h : ℕ} {t : Tree κ ν h}, h < k → width k h t = 0
  | 0, _, hk => if_neg (Nat.ne_of_gt hk)
  | h + 1, t, hk => by
      have hchildren : (Inner.slots t).children.map (width k h)
          = (Inner.slots t).children.map fun _ => 0 :=
        List.map_congr_left fun c _ => width_of_lt (by omega)
      rw [width, if_neg (by omega), hchildren, List.map_const', List.sum_replicate]
      exact Nat.mul_zero _

/-- **Every node is at one height.** -/
theorem length_pids : ∀ (h : ℕ) (t : Tree κ ν h),
    (pids h t).length = ∑ k ∈ Finset.range (h + 1), width k h t
  | 0, _ => rfl
  | h + 1, t => by
      have hchildren : ∀ l : List (Tree κ ν h), (l.flatMap (pids h)).length
          = ∑ k ∈ Finset.range (h + 1), (l.map (width k h)).sum := by
        intro l
        induction l with
        | nil => exact (Finset.sum_const_zero).symm
        | cons c l ih =>
            simp only [List.flatMap_cons, List.length_append, List.map_cons, List.sum_cons,
              Finset.sum_add_distrib]
            rw [ih, length_pids h c]
      rw [Finset.sum_range_succ, width_self, pids, List.length_cons, hchildren]
      refine congrArg (· + 1) (Finset.sum_congr rfl ?_)
      intro k hk
      exact (width_succ_of_le (Nat.lt_succ_iff.mp (Finset.mem_range.mp hk)) t).symm

lemma width_zero_le (h : ℕ) (t : Tree κ ν h) : width 0 h t ≤ (pids h t).length := by
  rw [length_pids h t, Finset.sum_range_succ']
  exact Nat.le_add_left _ _

lemma sum_mul_le {α : Type} {f g : α → ℕ} {m : ℕ} : ∀ {l : List α},
    (∀ c ∈ l, f c * m ≤ g c) → (l.map f).sum * m ≤ (l.map g).sum
  | [], _ => by simp
  | c :: l, h => by
      have hc := h c List.mem_cons_self
      have hl := sum_mul_le fun d hd => h d (List.mem_cons_of_mem _ hd)
      rw [List.map_cons, List.map_cons, List.sum_cons, List.sum_cons, Nat.add_mul]
      omega

lemma length_mul_le_sum {α : Type} {g : α → ℕ} {m : ℕ} : ∀ {l : List α},
    (∀ c ∈ l, m ≤ g c) → l.length * m ≤ (l.map g).sum
  | [], _ => by simp
  | c :: l, h => by
      have hc := h c List.mem_cons_self
      have hl := length_mul_le_sum fun d hd => h d (List.mem_cons_of_mem _ hd)
      rw [List.map_cons, List.sum_cons, List.length_cons, Nat.add_mul, Nat.one_mul]
      omega

/-- The cells below an inner node, child by child. -/
lemma length_cells_succ (h : ℕ) (t : Tree κ ν (h + 1)) : (cells (h + 1) t).length
    = ((Inner.slots t).children.map fun c => (cells h c).length).sum :=
  List.length_flatMap

variable {L I : ℕ}

/-! ## Nodes that are half full -/

namespace Filled

lemma width_succ_mul_le {k : ℕ} : ∀ {h : ℕ} {t : Tree κ ν h}, Filled L I h t → k < h →
    width (k + 1) h t * (I / 2 + 1) ≤ width k h t
  | 0, _, _, hk => absurd hk (Nat.not_lt_zero k)
  | h + 1, t, ht, hk => by
      rcases Nat.lt_or_ge k h with hlt | hge
      · rw [width_succ_of_le hlt, width_succ_of_le hlt.le]
        exact sum_mul_le fun c hc => (ht.2.2 c hc).width_succ_mul_le hlt
      · -- the node itself and its children
        obtain rfl : k = h := by omega
        have hlen := (Inner.slots t).length_children
        have hsum := @length_mul_le_sum _ (width k k) 1 (Inner.slots t).children
          fun c _ => (width_self k c).ge
        have hkeys := ht.1
        rw [width_self, width_succ_of_le le_rfl]
        omega

lemma width_zero_mul_le : ∀ {h : ℕ} {t : Tree κ ν h}, Filled L I h t →
    width 0 h t * (L / 2) ≤ (cells h t).length
  | 0, _, ht => (Nat.one_mul _).trans_le ht.1
  | h + 1, t, ht => by
      rw [width_succ_of_le (Nat.zero_le h), length_cells_succ]
      exact sum_mul_le fun c hc => (ht.2.2 c hc).width_zero_mul_le

lemma le_width_zero : ∀ {h : ℕ} {t : Tree κ ν h}, Filled L I h t →
    (I / 2 + 1) ^ h ≤ width 0 h t
  | 0, t, _ => (width_self 0 t).ge
  | h + 1, t, ht => by
      have hlen := (Inner.slots t).length_children
      have hkeys := ht.1
      have hsum := @length_mul_le_sum _ (width 0 h) ((I / 2 + 1) ^ h) (Inner.slots t).children
        fun c hc => (ht.2.2 c hc).le_width_zero
      rw [width_succ_of_le (Nat.zero_le h), pow_succ, Nat.mul_comm]
      exact le_trans (Nat.mul_le_mul_right _ (by omega)) hsum

lemma le_length_cells : ∀ {h : ℕ} {t : Tree κ ν h}, Filled L I h t →
    (I / 2 + 1) ^ h * (L / 2) ≤ (cells h t).length
  | 0, _, ht => by
      rw [pow_zero, Nat.one_mul]
      exact ht.1
  | h + 1, t, ht => by
      have hlen := (Inner.slots t).length_children
      have hkeys := ht.1
      have hsum := @length_mul_le_sum _ (fun c => (cells h c).length) ((I / 2 + 1) ^ h * (L / 2))
        (Inner.slots t).children fun c hc => (ht.2.2 c hc).le_length_cells
      rw [length_cells_succ]
      refine le_trans ?_ hsum
      rw [pow_succ, Nat.mul_comm ((I / 2 + 1) ^ h), Nat.mul_assoc]
      exact Nat.mul_le_mul_right _ (by omega)

end Filled

namespace RootFilled

/-- **Each level but the top one is so many times smaller than the level below it.** -/
theorem width_succ_mul_le {k h : ℕ} {t : Tree κ ν h} (ht : RootFilled L I h t)
    (hk : 1 < width (k + 1) h t) : width (k + 1) h t * (I / 2 + 1) ≤ width k h t := by
  cases h with
  | zero => exact absurd hk (by simp [width])
  | succ h =>
      rcases Nat.lt_trichotomy k h with hlt | rfl | hgt
      · rw [width_succ_of_le hlt, width_succ_of_le hlt.le]
        exact sum_mul_le fun c hc => (ht.2.2 c hc).width_succ_mul_le hlt
      · rw [width_self] at hk
        exact absurd hk (lt_irrefl 1)
      · rw [width_of_lt (by omega)] at hk
        exact absurd hk (Nat.not_lt_zero 1)

/-- **Leaves are worth half their load.** -/
theorem width_zero_mul_le {h : ℕ} {t : Tree κ ν (h + 1)} (ht : RootFilled L I (h + 1) t) :
    width 0 (h + 1) t * (L / 2) ≤ (cells (h + 1) t).length := by
  rw [width_succ_of_le (Nat.zero_le h), length_cells_succ]
  exact sum_mul_le fun c hc => (ht.2.2 c hc).width_zero_mul_le

/-- **Every level multiplies the leaves.** -/
theorem le_width_zero {h : ℕ} {t : Tree κ ν (h + 1)} (ht : RootFilled L I (h + 1) t) :
    2 * (I / 2 + 1) ^ h ≤ width 0 (h + 1) t := by
  have hlen := (Inner.slots t).length_children
  have hkeys := List.length_pos_of_ne_nil ht.1
  have hsum := @length_mul_le_sum _ (width 0 h) ((I / 2 + 1) ^ h) (Inner.slots t).children
    fun c hc => (ht.2.2 c hc).le_width_zero
  rw [width_succ_of_le (Nat.zero_le h)]
  exact le_trans (Nat.mul_le_mul_right _ (by omega)) hsum

/-- The nodes that the height is worth. -/
lemma le_length_pids {h : ℕ} {t : Tree κ ν (h + 1)} (ht : RootFilled L I (h + 1) t) :
    2 * (I / 2 + 1) ^ h ≤ (pids (h + 1) t).length :=
  le_trans ht.le_width_zero (width_zero_le _ _)

/-- **Every level multiplies the cells.** -/
theorem le_length_cells {h : ℕ} {t : Tree κ ν (h + 1)} (ht : RootFilled L I (h + 1) t) :
    2 * (I / 2 + 1) ^ h * (L / 2) ≤ (cells (h + 1) t).length := by
  have hlen := (Inner.slots t).length_children
  have hkeys := List.length_pos_of_ne_nil ht.1
  have hsum := @length_mul_le_sum _ (fun c => (cells h c).length) ((I / 2 + 1) ^ h * (L / 2))
    (Inner.slots t).children fun c hc => (ht.2.2 c hc).le_length_cells
  rw [length_cells_succ, Nat.mul_assoc]
  exact le_trans (Nat.mul_le_mul_right _ (by omega)) hsum

end RootFilled

end SearchTree
