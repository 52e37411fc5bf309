import DbToy.Lib.Edge
import DbToy.Lib.Levels
import Mathlib.Algebra.BigOperators.Ring.List
import Mathlib.Algebra.Order.BigOperators.Group.List
import Mathlib.Algebra.Order.Floor.Div

/-!
# The most and the fewest nodes for so many cells

A tree whose nodes are at least half full has few nodes, and one whose nodes are no more than full
has many.  Every level bounds the next one, so that the sums over all levels are bounded by those of
the recursions `levelSum` and `fewestSum`.

* `RootFilled.length_pids_le`: no tree of so many cells has more nodes than the one that grew at its
  left edge.  One cell more than half a leaf makes the difference, which is in the leaf that the
  last insertion went to (`Bulky`).
* `RootFilled.fewestSum_le`: the nodes that so many cells need at least.
-/

namespace Odometer

/-- The first level, and the levels from the next one on. -/
lemma sum_levels_succ (a : ℕ → ℕ) (k d : ℕ) : ∑ j ∈ Finset.range (d + 1 + 1), a (k + j)
    = a k + ∑ j ∈ Finset.range (d + 1), a (k + 1 + j) := by
  rw [Finset.sum_range_succ', Nat.add_zero k, Nat.add_comm]
  refine congrArg (a k + ·) (Finset.sum_congr rfl fun j _ => ?_)
  rw [Nat.add_right_comm, Nat.add_assoc]

/-- A sum over levels, each of which gives the next one at most what the wheel gives on. -/
lemma sum_le_levelSum (w : Wheel) {a : ℕ → ℕ} {h : ℕ} (htop : a h = 1) (hlow : ∀ k < h, 1 < a k)
    (hnext : ∀ k < h, a (k + 1) ≤ w.turns (a k - 1) + 1) : ∀ (d k fuel m : ℕ), k + d = h →
    d ≤ fuel → a k ≤ m + 1 → ∑ j ∈ Finset.range (d + 1), a (k + j) ≤ levelSum w fuel m
  | 0, k, fuel, m, hk, _, _ => by
      rw [Finset.sum_range_one, hk, htop]
      exact levelSum_pos w fuel m
  | d + 1, k, fuel, m, hk, hfuel, hm => by
      obtain ⟨fuel, rfl⟩ := Nat.exists_eq_add_of_le' hfuel
      have hgt := hlow k (by omega)
      have hturns : w.turns (a k - 1) ≤ w.turns m := w.turns_mono (by omega)
      have hrest := sum_le_levelSum w htop hlow hnext d (k + 1) (fuel + d) (w.turns m) (by omega)
        (Nat.le_add_left d fuel) ((hnext k (by omega)).trans (Nat.add_le_add_right hturns 1))
      rw [← Nat.add_assoc, levelSum, if_neg (by omega), sum_levels_succ]
      omega

end Odometer

namespace SearchTree

open Odometer

/-! ## Sums with few terms -/

/-- The sum over levels that are `b` times smaller each, rounded up, so many levels at most. -/
def fewestSum (b : ℕ) : ℕ → ℕ → ℕ
  | 0, _ => 1
  | fuel + 1, m => if m ≤ 1 then 1 else m + fewestSum b fuel (m ⌈/⌉ b)

lemma fewestSum_pos (b fuel m : ℕ) : 0 < fewestSum b fuel m := by
  cases fuel with
  | zero => exact Nat.one_pos
  | succ fuel =>
      rw [fewestSum]
      split_ifs
      · exact Nat.one_pos
      · omega

lemma fewestSum_mono {b : ℕ} (hb : 0 < b) : ∀ {fuel fuel' m m' : ℕ}, fuel ≤ fuel' → m ≤ m' →
    fewestSum b fuel m ≤ fewestSum b fuel' m'
  | 0, fuel', m, m', _, _ => fewestSum_pos b fuel' m'
  | fuel + 1, 0, _, _, hfuel, _ => absurd hfuel (Nat.not_succ_le_zero fuel)
  | fuel + 1, fuel' + 1, m, m', hfuel, hm => by
      have hceil : m ⌈/⌉ b ≤ m' ⌈/⌉ b := (gc_mul_ceilDiv hb).monotone_l hm
      have ih := fewestSum_mono hb (Nat.le_of_succ_le_succ hfuel) hceil
      rw [fewestSum, fewestSum]
      split_ifs
      · exact Nat.le_refl 1
      · omega
      · omega
      · omega

/-- A sum over levels, each of which is at most `b` times the next one. -/
lemma fewestSum_le_sum {b : ℕ} (hb : 0 < b) {a : ℕ → ℕ} {h : ℕ} (hpos : ∀ k ≤ h, 1 ≤ a k)
    (htop : a h = 1) (hnext : ∀ k < h, a k ≤ b * a (k + 1)) : ∀ (d k fuel m : ℕ), k + d = h →
    m ≤ a k → fewestSum b fuel m ≤ ∑ j ∈ Finset.range (d + 1), a (k + j)
  | d, k, 0, m, hk, _ => by
      have hone := hpos k (by omega)
      rw [fewestSum, Finset.sum_range_succ', Nat.add_zero k]
      omega
  | 0, k, fuel + 1, m, hk, hm => by
      rw [Nat.add_zero] at hk
      rw [hk, htop] at hm
      rw [fewestSum, if_pos hm, Finset.sum_range_one, Nat.add_zero]
      exact hpos k (by omega)
  | d + 1, k, fuel + 1, m, hk, hm => by
      have hone := hpos k (by omega)
      have hceil : m ⌈/⌉ b ≤ a (k + 1) :=
        (ceilDiv_le_iff_le_mul hb).mpr (hm.trans (hnext k (by omega)))
      have hrest := fewestSum_le_sum hb hpos htop hnext d (k + 1) fuel _ (by omega) hceil
      rw [fewestSum, sum_levels_succ]
      split_ifs
      · omega
      · omega

/-! ## Levels that are not too small -/

variable {κ ν : Type} {L I : ℕ}

lemma width_pos {k : ℕ} : ∀ {h : ℕ} (t : Tree κ ν h), k ≤ h → 0 < width k h t
  | 0, t, hk => by
      rw [Nat.le_zero.mp hk, width_self]
      exact Nat.one_pos
  | h + 1, t, hk => by
      rcases Nat.le_succ_iff.mp hk with hk | rfl
      · have hlen := (Inner.slots t).length_children
        have hsum := @length_mul_le_sum _ (width k h) 1 (Inner.slots t).children
          fun c _ => width_pos c hk
        rw [width_succ_of_le hk]
        omega
      · rw [width_self]
        exact Nat.one_pos

lemma sum_le_mul {α : Type} {f g : α → ℕ} {m : ℕ} {l : List α} (h : ∀ c ∈ l, f c ≤ m * g c) :
    (l.map f).sum ≤ m * (l.map g).sum := by
  rw [← List.sum_map_mul_left]
  exact List.sum_le_sum h

/-- An inner node, where the bound holds below. -/
lemma width_le_mul_of_children {h : ℕ} {t : Tree κ ν (h + 1)}
    (hkeys : (Inner.slots t).keys.length ≤ I)
    (hchildren : ∀ c ∈ (Inner.slots t).children, ∀ k < h,
      width k h c ≤ (I + 1) * width (k + 1) h c) {k : ℕ} (hk : k < h + 1) :
    width k (h + 1) t ≤ (I + 1) * width (k + 1) (h + 1) t := by
  rcases Nat.lt_succ_iff_lt_or_eq.mp hk with hlt | rfl
  · rw [width_succ_of_le hlt.le, width_succ_of_le hlt]
    exact sum_le_mul fun c hc => hchildren c hc k hlt
  · have hone : (Inner.slots t).children.map (width k k)
        = (Inner.slots t).children.map fun _ => 1 :=
      List.map_congr_left fun c _ => width_self k c
    have hlen := (Inner.slots t).length_children
    rw [width_self, width_succ_of_le le_rfl, hone, List.map_const', List.sum_replicate, smul_eq_mul]
    omega

lemma Filled.width_le_mul {k : ℕ} : ∀ {h : ℕ} {t : Tree κ ν h}, Filled L I h t → k < h →
    width k h t ≤ (I + 1) * width (k + 1) h t
  | 0, _, _, hk => absurd hk (Nat.not_lt_zero k)
  | _ + 1, _, ht, hk => width_le_mul_of_children ht.2.1
      (fun c hc _ hk => (ht.2.2 c hc).width_le_mul hk) hk

lemma Filled.length_cells_le_mul : ∀ {h : ℕ} {t : Tree κ ν h}, Filled L I h t →
    (cells h t).length ≤ L * width 0 h t
  | 0, _, ht => ht.2.trans (Nat.le_of_eq (Nat.mul_one L).symm)
  | h + 1, t, ht => by
      rw [width_succ_of_le (Nat.zero_le h), length_cells_succ]
      exact sum_le_mul fun c hc => (ht.2.2 c hc).length_cells_le_mul

namespace RootFilled

variable {h : ℕ} {t : Tree κ ν h}

lemma width_le_mul (ht : RootFilled L I h t) {k : ℕ} (hk : k < h) :
    width k h t ≤ (I + 1) * width (k + 1) h t := by
  cases h with
  | zero => exact absurd hk (Nat.not_lt_zero k)
  | succ h =>
      exact width_le_mul_of_children ht.2.1 (fun c hc _ hk => (ht.2.2 c hc).width_le_mul hk) hk

lemma length_cells_le_mul (ht : RootFilled L I h t) : (cells h t).length ≤ L * width 0 h t := by
  cases h with
  | zero => exact ht.trans (Nat.le_of_eq (Nat.mul_one L).symm)
  | succ h =>
      rw [width_succ_of_le (Nat.zero_le h), length_cells_succ]
      exact sum_le_mul fun c hc => (ht.2.2 c hc).length_cells_le_mul

/-- **The nodes that the cells need**: as if all nodes were full. -/
theorem fewestSum_le (hL : 0 < L) (ht : RootFilled L I h t) (fuel : ℕ) :
    fewestSum (I + 1) fuel ((cells h t).length ⌈/⌉ L) ≤ (pids h t).length := by
  have hleaves : (cells h t).length ⌈/⌉ L ≤ width 0 h t :=
    (ceilDiv_le_iff_le_mul hL).mpr ht.length_cells_le_mul
  have hsum := fewestSum_le_sum (Nat.succ_pos I) (a := fun k => width k h t)
    (fun k hk => width_pos t hk) (width_self h t) (fun k hk => ht.width_le_mul hk) h 0 fuel _
    (Nat.zero_add h) hleaves
  simp only [Nat.zero_add] at hsum
  rwa [length_pids h t]

end RootFilled

/-! ## Levels that are not too large -/

/-- Some leaf has more than `m` cells. -/
def Bulky (m : ℕ) : (h : ℕ) → Tree κ ν h → Prop
  | 0, t => m < (Leaf.cells t).length
  | h + 1, t => ∃ c ∈ (Inner.slots t).children, Bulky m h c

/-- An inner node, where the bound holds below. -/
lemma width_zero_mul_lt_of_children {h : ℕ} {t : Tree κ ν (h + 1)}
    (hfilled : ∀ c ∈ (Inner.slots t).children, Filled L I h c)
    (hchild : ∃ c ∈ (Inner.slots t).children, width 0 h c * (L / 2) < (cells h c).length) :
    width 0 (h + 1) t * (L / 2) < (cells (h + 1) t).length := by
  rw [width_succ_of_le (Nat.zero_le h), length_cells_succ, ← List.sum_map_mul_right]
  exact List.sum_lt_sum _ _ (fun c hc => (hfilled c hc).width_zero_mul_le) hchild

lemma Filled.width_zero_mul_lt : ∀ {h : ℕ} {t : Tree κ ν h}, Filled L I h t →
    Bulky (L / 2) h t → width 0 h t * (L / 2) < (cells h t).length
  | 0, _, _, hbulky => (Nat.one_mul _).trans_lt hbulky
  | _ + 1, _, ht, ⟨c, hc, hbulky⟩ => width_zero_mul_lt_of_children ht.2.2
      ⟨c, hc, (ht.2.2 c hc).width_zero_mul_lt hbulky⟩

namespace RootFilled

variable {h : ℕ} {t : Tree κ ν h}

lemma one_lt_width (ht : RootFilled L I h t) {k : ℕ} (hk : k < h) : 1 < width k h t := by
  cases h with
  | zero => exact absurd hk (Nat.not_lt_zero k)
  | succ h =>
      have hlen := (Inner.slots t).length_children
      have hkeys := List.length_pos_of_ne_nil ht.1
      have hsum := @length_mul_le_sum _ (width k h) 1 (Inner.slots t).children
        fun c _ => width_pos c (Nat.lt_succ_iff.mp hk)
      rw [width_succ_of_le (Nat.lt_succ_iff.mp hk)]
      omega

/-- The leaves are at most those of a tree that grew at its left edge. -/
lemma width_zero_le_turns (hL : L % 2 = 0 ∧ 0 < L) (ht : RootFilled L I h t)
    (hbulky : h ≠ 0 → Bulky (L / 2) h t) :
    width 0 h t ≤ (wheels .left L I 0).turns (cells h t).length + 1 := by
  cases h with
  | zero => exact (width_self 0 t).trans_le (Nat.le_add_left 1 _)
  | succ h =>
      obtain ⟨c, hc, hbulky⟩ := hbulky (Nat.succ_ne_zero h)
      have hlt := width_zero_mul_lt_of_children ht.2.2
        ⟨c, hc, (ht.2.2 c hc).width_zero_mul_lt hbulky⟩
      have hpos := width_pos t (Nat.zero_le (h + 1))
      obtain ⟨w, hw⟩ := Nat.exists_eq_add_of_le' hpos
      have hspan : L - L / 2 - 1 + 1 = L / 2 := by omega
      rw [hw, Nat.succ_mul] at hlt
      rw [hw, Wheel.turns]
      refine Nat.add_le_add_right ?_ 1
      show w ≤ (_ - (L / 2 + 1)) / (L - L / 2 - 1 + 1)
      rw [hspan, Nat.le_div_iff_mul_le (by omega)]
      omega

lemma width_succ_le_turns (hI : I % 2 = 0) (ht : RootFilled L I h t) {k : ℕ} (hk : k < h) :
    width (k + 1) h t ≤ (wheels .left L I 1).turns (width k h t - 1) + 1 := by
  have hpos := width_pos t (Nat.succ_le_of_lt hk)
  rcases Nat.eq_or_lt_of_le hpos with hone | hgt
  · rw [← hone]
    exact Nat.le_add_left 1 _
  · have hle := ht.width_succ_mul_le hgt
    obtain ⟨w, hw⟩ := Nat.exists_eq_add_of_le' hpos
    have hspan : I - I / 2 + 1 = I / 2 + 1 := by omega
    rw [hw, Nat.succ_mul] at hle
    rw [hw, Wheel.turns]
    refine Nat.add_le_add_right ?_ 1
    show w ≤ (_ - I / 2) / (I - I / 2 + 1)
    rw [hspan, Nat.le_div_iff_mul_le (by omega)]
    omega

/-- **The nodes that the cells can have**: those of a tree that grew at its left edge. -/
theorem length_pids_le (hL : L % 2 = 0 ∧ 0 < L) (hI : I % 2 = 0 ∧ 0 < I)
    (ht : RootFilled L I h t) (hbulky : h ≠ 0 → Bulky (L / 2) h t) :
    (pids h t).length ≤ levelSum (wheels .left L I 1) (cells h t).length
      ((wheels .left L I 0).turns (cells h t).length) := by
  have hheight : h ≤ (cells h t).length := by
    cases h with
    | zero => exact Nat.zero_le _
    | succ h =>
        have hpow : h < (I / 2 + 1) ^ h :=
          Nat.lt_pow_self (by omega)
        refine le_trans ?_ ht.le_length_cells
        calc h + 1 ≤ (I / 2 + 1) ^ h := hpow
          _ ≤ 2 * (I / 2 + 1) ^ h := Nat.le_mul_of_pos_left _ Nat.two_pos
          _ ≤ 2 * (I / 2 + 1) ^ h * (L / 2) := Nat.le_mul_of_pos_right _ (by omega)
  have hsum := sum_le_levelSum (wheels .left L I 1) (a := fun k => width k h t) (width_self h t)
    (fun k hk => ht.one_lt_width hk) (fun k hk => ht.width_succ_le_turns hI.1 hk) h 0 _ _
    (Nat.zero_add h) hheight (ht.width_zero_le_turns hL hbulky)
  simp only [Nat.zero_add] at hsum
  rwa [length_pids h t]

end RootFilled

/-! ## Insertion -/

variable [LinearOrder κ] {c : κ × ν} {fresh : ℕ}

lemma Filled.le_leafFor {key : κ} : ∀ {h : ℕ} {t : Tree κ ν h}, Filled L I h t →
    L / 2 ≤ (leafFor key h t).cells.length
  | 0, _, ht => ht.1
  | _ + 1, t, ht => (ht.2.2 _ ((Inner.slots t).childFor_mem key)).le_leafFor

/-- What is put in for the child of a key is among the children then. -/
lemma mem_put {h : ℕ} {s r : Alt κ (Tree κ ν h)} (key : κ) {d : Tree κ ν h}
    (hd : d ∈ r.children) : d ∈ (s.put key r).children := by
  obtain ⟨_, _, C, D, _, _, _, _, hput, _⟩ := s.exists_cut key
  rw [(hput r).2]
  exact List.mem_append_right _ (List.mem_append_left _ hd)

/-- **The leaf of an insertion, or its left half**, has more than half of its cells. -/
theorem insert_bulky : ∀ {h : ℕ} {t : Tree κ ν h}, L / 2 ≤ (leafFor c.1 h t).cells.length →
    ∃ d ∈ (insert L I c fresh h t).1.children, Bulky (L / 2) h d
  | 0, t, hleaf => by
      have hlen := length_putCell c (Leaf.cells t)
      by_cases hfull : (Leaf.cells t).length = L
      · obtain ⟨p, -, heq⟩ := @insert_zero_of_full _ _ _ L I c fresh t hfull
        rw [heq]
        refine ⟨_, List.mem_cons_self, ?_⟩
        show L / 2 < ((putCell c (Leaf.cells t)).take (L / 2 + 1)).length
        rw [List.length_take]
        omega
      · rw [insert_zero_of_ne c fresh hfull]
        refine ⟨_, List.mem_cons_self, ?_⟩
        show L / 2 < (putCell c (Leaf.cells t)).length
        rw [hlen]
        exact Nat.lt_succ_of_le hleaf
  | h + 1, t, hleaf => by
      obtain ⟨d, hd, hbulky⟩ := @insert_bulky h ((Inner.slots t).childFor c.1) hleaf
      have hmem := mem_put (s := Inner.slots t) c.1 hd
      by_cases hfull : (insert L I c fresh h ((Inner.slots t).childFor c.1)).1.keys ≠ [] ∧
        (Inner.slots t).keys.length = I
      · obtain ⟨left, k, right, hput, -, heq⟩ := insert_succ_of_full c fresh hfull
        rw [heq]
        rw [hput, Alt.children_append] at hmem
        rcases List.mem_append.mp hmem with hmem | hmem
        · exact ⟨_, List.mem_cons_self, d, hmem, hbulky⟩
        · exact ⟨_, List.mem_cons_of_mem _ List.mem_cons_self, d, hmem, hbulky⟩
      · rw [insert_succ_of_not c fresh hfull]
        exact ⟨_, List.mem_cons_self, d, hmem, hbulky⟩

/-- After an insertion into a rooted tree. -/
theorem Rooted.insert_bulky {R : Rooted κ ν} (hR : RootFilled L I R.height R.tree) :
    (R.insert L I c fresh).1.height ≠ 0 →
      Bulky (L / 2) (R.insert L I c fresh).1.height (R.insert L I c fresh).1.tree := by
  have hleaf : R.height ≠ 0 ∨ Full L I c.1 R.height R.tree →
      L / 2 ≤ (leafFor c.1 R.height R.tree).cells.length := by
    obtain ⟨h, t⟩ := R
    cases h with
    | zero =>
        rintro (hne | hfull)
        · exact absurd rfl hne
        · have hcells : (Leaf.cells t).length = L := hfull
          exact (Nat.div_le_self L 2).trans hcells.ge
    | succ h => exact fun _ => (hR.2.2 _ ((Inner.slots t).childFor_mem c.1)).le_leafFor
  have hkeys := @insert_keys_ne_nil κ ν _ L I c fresh R.height R.tree
  have hbulky := @SearchTree.insert_bulky κ ν L I _ c fresh R.height R.tree
  rcases R.insert_cases c fresh with ⟨t, next, heq, hr⟩ | ⟨l, k, r, next, heq, hr⟩
  · rw [heq] at hbulky
    rw [hr]
    intro hne
    obtain ⟨d, hd, hbulky⟩ := hbulky (hleaf (Or.inl hne))
    rwa [← List.mem_singleton.mp hd]
  · rw [heq] at hbulky hkeys
    rw [hr]
    exact fun _ => hbulky (hleaf (Or.inr (hkeys.mp (List.cons_ne_nil _ _))))

end SearchTree
