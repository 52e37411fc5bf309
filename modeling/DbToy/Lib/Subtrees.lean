import DbToy.Lib.Rooted
import Mathlib.Data.List.Perm.Basic

/-!
# Subtrees

The nodes of a tree as trees of their own, and the replacement of one leaf.

* `Subtree`: the trees below a node, with the node itself.
* `pids_nodup`: an ordered tree without empty nodes has no node at two places, if equal numbers
  mean equal nodes.
* `insertAt`: a cell put into the leaf with a given number, at a given place.  At the place of its
  key it keeps the tree in order (`ordered_insertAt`).
-/

namespace SearchTree

variable {κ ν : Type}

/-- The first tree is a part of the second. -/
inductive Subtree (r : Rooted κ ν) : Rooted κ ν → Prop
  | refl : Subtree r r
  | child {h : ℕ} {t : Tree κ ν (h + 1)} {c : Tree κ ν h} :
      c ∈ (Inner.slots t).children → Subtree r ⟨h, c⟩ → Subtree r ⟨h + 1, t⟩

def Rooted.pid (R : Rooted κ ν) : ℕ := SearchTree.pid R.height R.tree

namespace Subtree

/-- Every number is that of a subtree. -/
lemma exists_of_mem_pids : ∀ {h : ℕ} {t : Tree κ ν h} {id : ℕ}, id ∈ pids h t →
    ∃ r, Subtree r ⟨h, t⟩ ∧ r.pid = id
  | 0, t, _, hid => ⟨⟨0, t⟩, refl, (List.mem_singleton.mp hid).symm⟩
  | h + 1, t, id, hid => by
      rcases List.mem_cons.mp hid with rfl | hid
      · exact ⟨⟨h + 1, t⟩, refl, rfl⟩
      · obtain ⟨c, hc, hid⟩ := List.mem_flatMap.mp hid
        obtain ⟨r, hr, hpid⟩ := exists_of_mem_pids hid
        exact ⟨r, hr.child hc, hpid⟩

variable {r s : Rooted κ ν}

lemma height_le (hr : Subtree r s) : r.height ≤ s.height := by
  induction hr with
  | refl => exact le_refl _
  | child _ _ ih => exact Nat.le_succ_of_le ih

lemma pid_mem (hr : Subtree r s) : r.pid ∈ pids s.height s.tree := by
  induction hr with
  | refl => exact pid_mem_pids _ _
  | child hc _ ih => exact List.mem_cons_of_mem _ (List.mem_flatMap.mpr ⟨_, hc, ih⟩)

lemma pids_subset (hr : Subtree r s) : pids r.height r.tree ⊆ pids s.height s.tree := by
  induction hr with
  | refl => exact fun _ hid => hid
  | child hc _ ih => exact fun id hid => List.mem_cons_of_mem _ (List.mem_flatMap.mpr ⟨_, hc, ih hid⟩)

lemma cells_subset (hr : Subtree r s) : r.cells ⊆ s.cells := by
  induction hr with
  | refl => exact fun _ hx => hx
  | child hc _ ih => exact fun x hx => List.mem_flatMap.mpr ⟨_, hc, ih hx⟩

lemma nonEmpty (hr : Subtree r s) (hs : NonEmpty s.height s.tree) :
    NonEmpty r.height r.tree := by
  induction hr with
  | refl => exact hs
  | child hc _ ih => exact ih (hs.2 _ hc)

lemma filled {L I : ℕ} (hr : Subtree r s) (hs : Filled L I s.height s.tree) :
    Filled L I r.height r.tree := by
  induction hr with
  | refl => exact hs
  | child hc _ ih => exact ih (hs.2.2 _ hc)

/-- Below the root there are at least half full nodes only. -/
lemma eq_or_filled {L I : ℕ} (hr : Subtree r s) (hs : RootFilled L I s.height s.tree) :
    r = s ∨ Filled L I r.height r.tree := by
  cases hr with
  | refl => exact Or.inl rfl
  | child hc hr => exact Or.inr (hr.filled (hs.2.2 _ hc))

end Subtree

section Order

variable [LinearOrder κ]

lemma Subtree.ordered {r s : Rooted κ ν} (hr : Subtree r s) (hs : Ordered s.height s.tree) :
    Ordered r.height r.tree := by
  induction hr with
  | refl => exact hs
  | child hc _ ih => exact ih (hs.1 _ hc)

lemma leafFor_subtree (key : κ) : ∀ (h : ℕ) (t : Tree κ ν h),
    Subtree ⟨0, (leafFor key h t : Tree κ ν 0)⟩ ⟨h, t⟩
  | 0, _ => .refl
  | h + 1, t => (leafFor_subtree key h _).child ((Inner.slots t).childFor_mem key)

/-- A leaf that has a cell with the key is the one where the key belongs. -/
lemma Subtree.eq_leafFor {key : κ} {u : Tree κ ν 0} (hkey : key ∈ (Leaf.cells u).map Prod.fst) :
    ∀ {h : ℕ} {t : Tree κ ν h}, Subtree ⟨0, u⟩ ⟨h, t⟩ → Ordered h t → u = leafFor key h t := by
  intro h
  induction h with
  | zero =>
      intro t hr _
      cases hr
      rfl
  | succ h ih =>
      intro t hr ht
      cases hr with
      | child hc hr =>
          obtain ⟨x, hx, rfl⟩ := List.mem_map.mp hkey
          have hx' := hr.cells_subset hx
          obtain ⟨A, B, C, D, -, hchildren, -, -, -, hC, hD, -⟩ := ht.cut x.1
          rw [hchildren, List.mem_append, List.mem_cons] at hc
          rcases hc with hc | rfl | hc
          · exact absurd (hC x (List.mem_flatMap.mpr ⟨_, hc, hx'⟩)) (lt_irrefl _)
          · exact ih hr (ht.1 _ ((Inner.slots t).childFor_mem x.1))
          · exact absurd (hD x (List.mem_flatMap.mpr ⟨_, hc, hx'⟩)) (lt_irrefl _)

/-- The cells of an ordered tree are in order. -/
theorem Ordered.sorted_cells : ∀ {h : ℕ} {t : Tree κ ν h}, Ordered h t → Sorted (cells h t)
  | 0, _, ht => ht
  | h + 1, t, ht => by
      refine List.pairwise_flatMap.mpr ⟨fun c hc => (ht.1 c hc).sorted_cells, ?_⟩
      refine ht.2.children_pairwise.imp ?_
      rintro c d ⟨k, hbelow, habove⟩ x hx y hy
      exact lt_of_le_of_lt (hbelow x hx) (habove y hy)

/-- Between the least and the greatest key there are all children. -/
lemma between_eq_children {h : ℕ} {t : Tree κ ν (h + 1)} (ht : Ordered (h + 1) t)
    (hne : NonEmpty (h + 1) t) {lo hi : κ} (hlo : ∀ k, lo ≤ k) (hhi : ∀ k, k ≤ hi) :
    between lo hi (Inner.slots t) = (Inner.slots t).children := by
  obtain ⟨C, D, hchildren, -, hC, hD⟩ := ht.range_cut (hlo hi)
  -- no child is without a cell
  have hnil : ∀ l : List (Tree κ ν h), (∀ c ∈ l, c ∈ (Inner.slots t).children) →
      (∀ x, x ∉ l.flatMap (cells h)) → l = [] := by
    intro l hl hno
    refine List.eq_nil_iff_forall_not_mem.mpr ?_
    intro c hc
    obtain ⟨x, xs, hx⟩ := List.exists_cons_of_ne_nil (hne.2 c (hl c hc)).cells_ne_nil
    exact hno x (List.mem_flatMap.mpr ⟨c, hc, hx ▸ List.mem_cons_self⟩)
  have hC' : C = [] := hnil C (fun c hc => hchildren ▸ List.mem_append_left _ hc)
    fun x hx => absurd (hC x hx) (not_lt_of_ge (hlo x.1))
  have hD' : D = [] := hnil D
    (fun c hc => hchildren ▸ List.mem_append_right _ (List.mem_append_right _ hc))
    fun x hx => absurd (hD x hx) (not_lt_of_ge (hhi x.1))
  rw [hchildren, hC', hD', List.nil_append, List.append_nil]

/-- **A tree has no node at two places**, if the number of a node determines the tree below it. -/
theorem pids_nodup : ∀ {h : ℕ} {t : Tree κ ν h}, Ordered h t → (h ≠ 0 → NonEmpty h t) →
    (∀ r s, Subtree r ⟨h, t⟩ → Subtree s ⟨h, t⟩ → r.pid = s.pid → r = s) → (pids h t).Nodup
  | 0, _, _, _, _ => List.nodup_singleton _
  | h + 1, t, hord, hne, huniq => by
      have hne' := hne (Nat.succ_ne_zero h)
      refine List.nodup_cons.mpr ⟨?_, List.nodup_flatMap.mpr ⟨?_, ?_⟩⟩
      · intro hmem
        -- the node itself is not below one of its children
        obtain ⟨c, hc, hid⟩ := List.mem_flatMap.mp hmem
        obtain ⟨r, hr, hpid⟩ := Subtree.exists_of_mem_pids hid
        have heq := huniq r ⟨h + 1, t⟩ (hr.child hc) .refl hpid
        have hle := hr.height_le
        rw [heq] at hle
        exact absurd hle (Nat.not_succ_le_self h)
      · intro c hc
        exact pids_nodup (hord.1 c hc) (fun _ => hne'.2 c hc) fun r s hr hs =>
          huniq r s (hr.child hc) (hs.child hc)
      · -- a node below two children would have its cells on both sides of the key between them
        refine (List.Pairwise.and_mem.mp hord.2.children_pairwise).imp ?_
        rintro c d ⟨hc, hd, k, hbelow, habove⟩ id hidc hidd
        obtain ⟨r, hr, hpid⟩ := Subtree.exists_of_mem_pids hidc
        obtain ⟨s, hs, hpid'⟩ := Subtree.exists_of_mem_pids hidd
        cases huniq r s (hr.child hc) (hs.child hd) (hpid.trans hpid'.symm)
        obtain ⟨x, xs, hx⟩ := List.exists_cons_of_ne_nil (hr.nonEmpty (hne'.2 c hc)).cells_ne_nil
        have hmem : x ∈ r.cells := by
          rw [Rooted.cells, hx]
          exact List.mem_cons_self
        exact absurd (hbelow x (hr.cells_subset hmem)) (not_le_of_gt (habove x (hs.cells_subset hmem)))

end Order

/-! ## Post-order -/

/-- All subtrees, each behind those below it. -/
def postOrder : (h : ℕ) → Tree κ ν h → List (Rooted κ ν)
  | 0, t => [⟨0, t⟩]
  | h + 1, t => (Inner.slots t).children.flatMap (postOrder h) ++ [⟨h + 1, t⟩]

lemma mem_postOrder {r : Rooted κ ν} : ∀ {h : ℕ} {t : Tree κ ν h},
    r ∈ postOrder h t ↔ Subtree r ⟨h, t⟩
  | 0, t => by
      rw [postOrder, List.mem_singleton]
      constructor
      · rintro rfl
        exact .refl
      · rintro ⟨⟩
        rfl
  | h + 1, t => by
      rw [postOrder, List.mem_append, List.mem_flatMap, List.mem_singleton]
      constructor
      · rintro (⟨c, hc, hr⟩ | rfl)
        · exact (mem_postOrder.mp hr).child hc
        · exact .refl
      · rintro (_ | ⟨hc, hr⟩)
        · exact Or.inr rfl
        · exact Or.inl ⟨_, hc, mem_postOrder.mpr hr⟩

lemma map_pid_postOrder : ∀ (h : ℕ) (t : Tree κ ν h),
    ((postOrder h t).map Rooted.pid).Perm (pids h t)
  | 0, _ => List.Perm.refl _
  | h + 1, t => by
      rw [postOrder, List.map_append, List.map_flatMap, pids]
      refine (List.perm_append_singleton _ _).trans (List.Perm.cons _ ?_)
      exact List.Perm.flatMap_left _ fun c _ => map_pid_postOrder h c

/-! ## Replacing a leaf -/

/-- The cell put in front of cell number `i` of the leaf with the number `id`. -/
def insertAt (id i : ℕ) (c : κ × ν) : (h : ℕ) → Tree κ ν h → Tree κ ν h
  | 0, t => if Leaf.pid t = id then Leaf.mk id ((Leaf.cells t).insertIdx i c) else t
  | h + 1, t => Inner.mk (Inner.pid t) ((Inner.slots t).map (insertAt id i c h))

variable {id i : ℕ} {c : κ × ν}

lemma insertAt_leaf {t : Tree κ ν 0} (hid : Leaf.pid t = id) :
    insertAt id i c 0 t = Leaf.mk id ((Leaf.cells t).insertIdx i c) := if_pos hid

lemma insertAt_of_notMem : ∀ {h : ℕ} {t : Tree κ ν h}, id ∉ pids h t → insertAt id i c h t = t
  | 0, t, hid => if_neg fun heq => hid (List.mem_singleton.mpr heq.symm)
  | h + 1, t, hid => by
      have hchildren : (Inner.slots t).children.map (insertAt id i c h)
          = (Inner.slots t).children := by
        refine (List.map_congr_left ?_).trans (List.map_id _)
        intro d hd
        exact insertAt_of_notMem fun hmem =>
          hid (List.mem_cons_of_mem _ (List.mem_flatMap.mpr ⟨d, hd, hmem⟩))
      have hslots : (Inner.slots t).map (insertAt id i c h) = Inner.slots t :=
        Alt.eq_of_lists ((Inner.slots t).keys_map _) (((Inner.slots t).children_map _).trans hchildren)
      rw [insertAt, hslots]
      rfl

/-- The cells afterwards are those from before and the new one. -/
lemma mem_cells_insertAt : ∀ {h : ℕ} {t : Tree κ ν h} {x : κ × ν},
    x ∈ cells h (insertAt id i c h t) → x = c ∨ x ∈ cells h t
  | 0, t, x, hx => by
      by_cases heq : Leaf.pid t = id
      · have hx' : x ∈ (Leaf.cells t).insertIdx i c := by
          rw [insertAt_leaf heq] at hx
          exact hx
        rcases Nat.lt_or_ge (Leaf.cells t).length i with hlt | hle
        · rw [List.insertIdx_of_length_lt hlt] at hx'
          exact Or.inr hx'
        · exact (List.mem_insertIdx hle).mp hx'
      · rw [insertAt_of_notMem fun hmem => heq (List.mem_singleton.mp hmem).symm] at hx
        exact Or.inr hx
  | h + 1, t, x, hx => by
      obtain ⟨d, hd, hx⟩ := List.mem_flatMap.mp hx
      have hd' : d ∈ (Inner.slots t).children.map (insertAt id i c h) := by
        rwa [← Alt.children_map]
      obtain ⟨e, he, rfl⟩ := List.mem_map.mp hd'
      exact (mem_cells_insertAt hx).imp_right fun hx => List.mem_flatMap.mpr ⟨e, he, hx⟩

variable [LinearOrder κ]

/-- The leaf of a key is below one child only. -/
lemma insertAt_slots {key : κ} {h : ℕ} {t : Tree κ ν (h + 1)} (hnodup : (pids (h + 1) t).Nodup)
    (hid : (leafFor key (h + 1) t).pid = id) : (Inner.slots t).map (insertAt id i c h)
      = (Inner.slots t).put key (.one (insertAt id i c h ((Inner.slots t).childFor key))) := by
  obtain ⟨A, B, C, D, hkeys, hchildren, -, -, hput, -⟩ := (Inner.slots t).exists_cut key
  obtain ⟨hputkeys, hputchildren⟩ :=
    hput (.one (insertAt id i c h ((Inner.slots t).childFor key)))
  have hmem : id ∈ pids h ((Inner.slots t).childFor key) := hid ▸ leafFor_pid key h _
  have hnodup' := (List.nodup_cons.mp hnodup).2
  rw [hchildren, List.flatMap_append, List.flatMap_cons] at hnodup'
  have hsame : ∀ l : List (Tree κ ν h), (∀ d ∈ l, id ∉ pids h d) →
      l.map (insertAt id i c h) = l := fun l hl =>
    (List.map_congr_left fun d hd => insertAt_of_notMem (hl d hd)).trans (List.map_id _)
  have hC : ∀ d ∈ C, id ∉ pids h d := fun d hd hidd =>
    List.disjoint_of_nodup_append hnodup' (List.mem_flatMap.mpr ⟨d, hd, hidd⟩)
      (List.mem_append_left _ hmem)
  have hD : ∀ d ∈ D, id ∉ pids h d := fun d hd hidd =>
    List.disjoint_of_nodup_append (List.Nodup.of_append_right hnodup') hmem
      (List.mem_flatMap.mpr ⟨d, hd, hidd⟩)
  refine Alt.eq_of_lists ?_ ?_
  · rw [Alt.keys_map, hputkeys, hkeys]
    rfl
  · rw [Alt.children_map, hputchildren, hchildren, List.map_append, List.map_cons, hsame C hC,
      hsame D hD]
    rfl

/-- A new cell at the place of its key keeps sorted cells sorted. -/
lemma sorted_insertIdx_rank {l : List (κ × ν)} (hl : Sorted l) (hc : c.1 ∉ l.map Prod.fst) :
    Sorted (l.insertIdx (rank c.1 l) c) := by
  have hne : ∀ d ∈ l, d.1 ≠ c.1 := fun d hd heq => hc (List.mem_map.mpr ⟨d, hd, heq⟩)
  obtain ⟨A, B, hcut, hlen, hA, hB⟩ := exists_rank_cut c.1 hl
  have hB' : ∀ b ∈ B, c.1 < b.1 := fun b hb =>
    lt_of_le_of_ne (hB b hb) fun heq => hne b (hcut ▸ List.mem_append_right _ hb) heq.symm
  have hput : l.insertIdx (rank c.1 l) c = putCell c l := by
    rw [← hlen, hcut, putCell_append hA hB', insertIdx_append]
  rw [hput]
  exact sorted_putCell hl hne

/-- **A new cell at the place of its key** keeps a tree in order. -/
theorem ordered_insertAt : ∀ {h : ℕ} {t : Tree κ ν h}, Ordered h t → (pids h t).Nodup →
    c.1 ∉ (cells h t).map Prod.fst →
    Ordered h (insertAt (leafFor c.1 h t).pid (rank c.1 (leafFor c.1 h t).cells) c h t)
  | 0, t, ht, _, hc => by
      rw [insertAt_leaf (show Leaf.pid t = (leafFor c.1 0 t).pid from rfl)]
      exact sorted_insertIdx_rank ht hc
  | h + 1, t, ht, hnodup, hc => by
      have hmem := (Inner.slots t).childFor_mem c.1
      have hsub : ∀ d ∈ (Inner.slots t).children, ∀ x ∈ cells h d, x ∈ cells (h + 1) t :=
        fun d hd x hx => List.mem_flatMap.mpr ⟨d, hd, hx⟩
      have hchild := ordered_insertAt (ht.1 _ hmem)
        ((List.nodup_flatMap.mp (List.nodup_cons.mp hnodup).2).1 _ hmem) fun hin => hc (by
          obtain ⟨x, hx, hkey⟩ := List.mem_map.mp hin
          exact List.mem_map.mpr ⟨x, hsub _ hmem x hx, hkey⟩)
      rw [insertAt, insertAt_slots hnodup rfl]
      obtain ⟨_, _, C, D, _, hchildren, _, _, hput, _⟩ := (Inner.slots t).exists_cut c.1
      refine ⟨?_, ht.2.put_one _ ?_ ?_⟩
      · intro d hd
        have hd' : d ∈ C ++ ([_] ++ D) := (hput _).2 ▸ hd
        rw [List.mem_append, List.singleton_append, List.mem_cons] at hd'
        rcases hd' with hd' | rfl | hd'
        · exact ht.1 d (hchildren ▸ List.mem_append_left _ hd')
        · exact hchild
        · exact ht.1 d (hchildren ▸ List.mem_append_right _ (List.mem_cons_of_mem _ hd'))
      · intro k hbelow hk x hx
        rcases mem_cells_insertAt hx with rfl | hx
        · exact hk
        · exact hbelow x hx
      · intro k habove hk x hx
        rcases mem_cells_insertAt hx with rfl | hx
        · exact hk
        · exact habove x hx

end SearchTree
