import DbToy.Lib.Occupancy

/-!
# Rooted B+ trees

A tree that has its root: insertion puts a new root on top of a root that splits, and the tree
grows by one level.

`Sound` is what holds of every tree that insertion builds; its cells are those that were put into
it, in order (`Rooted.insert_sound`).
-/

namespace SearchTree

variable {κ ν : Type} [LinearOrder κ]

/-- The tree is tight and in order, without empty nodes, and its nodes are numbered from 0 to
`n - 1`. -/
structure Sound (n h : ℕ) (t : Tree κ ν h) : Prop where
  pids : (pids h t).Perm (List.range n)
  tight : Tight h t
  nonEmpty : h ≠ 0 → NonEmpty h t
  sorted : Sorted (cells h t)

namespace Sound

variable {n h : ℕ} {t : Tree κ ν h}

lemma ordered (ht : Sound n h t) : Ordered h t := ordered_of_tight ht.tight ht.sorted

lemma nodup (ht : Sound n h t) : (SearchTree.pids h t).Nodup :=
  ht.pids.nodup_iff.mpr List.nodup_range

lemma lt_of_mem (ht : Sound n h t) : ∀ id ∈ SearchTree.pids h t, id < n :=
  fun _ hid => List.mem_range.mp (ht.pids.mem_iff.mp hid)

lemma height_lt (ht : Sound n h t) : h < n := by
  have hlen := height_lt_length_pids h t
  rwa [ht.pids.length_eq, List.length_range] at hlen

end Sound

structure Rooted (κ ν : Type) where
  height : ℕ
  tree : Tree κ ν height

namespace Rooted

def cells (R : Rooted κ ν) : List (κ × ν) := SearchTree.cells R.height R.tree

/-- Insertion at the root: the new tree and the next free number. -/
def insert (L I : ℕ) (c : κ × ν) (fresh : ℕ) (R : Rooted κ ν) : Rooted κ ν × ℕ :=
  match SearchTree.insert L I c fresh R.height R.tree with
  | (.one t, next) => (⟨R.height, t⟩, next)
  | (.cons l k rest, next) => (⟨R.height + 1, Inner.mk next (.cons l k rest)⟩, next + 1)

section

variable {L I : ℕ} (c : κ × ν) (fresh : ℕ) (R : Rooted κ ν)

/-- What an insertion does at the root. -/
lemma insert_cases :
    (∃ t next, SearchTree.insert L I c fresh R.height R.tree = (.one t, next) ∧
      R.insert L I c fresh = (⟨R.height, t⟩, next)) ∨
    ∃ l k r next, SearchTree.insert L I c fresh R.height R.tree = (.cons l k (.one r), next) ∧
      R.insert L I c fresh = (⟨R.height + 1, Inner.mk next (.cons l k (.one r))⟩, next + 1) := by
  rw [insert]
  rcases insert_one_or_two c fresh R.height R.tree with ⟨t, next, hr⟩ | ⟨l, k, r, next, hr⟩
  · rw [hr]
    exact Or.inl ⟨t, next, rfl, rfl⟩
  · rw [hr]
    exact Or.inr ⟨l, k, r, next, rfl, rfl⟩

/-- The pages that an insertion takes: one for each node that splits, and one for a new root. -/
theorem insert_snd : (R.insert L I c fresh).2 = fresh + splits L I c.1 R.height R.tree
    + if Full L I c.1 R.height R.tree then 1 else 0 := by
  have hkeys := @insert_keys_ne_nil κ ν _ L I c fresh R.height R.tree
  have hnext := @SearchTree.insert_snd κ ν _ L I c fresh R.height R.tree
  rcases R.insert_cases c fresh with ⟨t, next, heq, hR⟩ | ⟨l, k, r, next, heq, hR⟩
  · rw [heq] at hkeys hnext
    rw [hR, if_neg (hkeys.not.mp fun h => h rfl), ← hnext]
    rfl
  · rw [heq] at hkeys hnext
    rw [hR, if_pos (hkeys.mp (List.cons_ne_nil _ _)), ← hnext]

/-- The tree grows if its root splits. -/
theorem height_insert : (R.insert L I c fresh).1.height
    = R.height + if Full L I c.1 R.height R.tree then 1 else 0 := by
  have hkeys := @insert_keys_ne_nil κ ν _ L I c fresh R.height R.tree
  rcases R.insert_cases c fresh with ⟨t, next, heq, hR⟩ | ⟨l, k, r, next, heq, hR⟩
  · rw [heq] at hkeys
    rw [hR, if_neg (hkeys.not.mp fun h => h rfl)]
    rfl
  · rw [heq] at hkeys
    rw [hR, if_pos (hkeys.mp (List.cons_ne_nil _ _))]

variable {c} {n : ℕ} {R}

/-- The numbers of an insertion's trees are those up to the next free one. -/
lemma pids_range {h : ℕ} {t : Tree κ ν h} {r : Alt κ (Tree κ ν h) × ℕ}
    (hr : Inserted h t c n r) (ht : (pids h t).Perm (List.range n)) :
    (r.1.children.flatMap (pids h)).Perm (List.range r.2) := by
  have hrange : List.range n ++ List.range' n (r.2 - n) = List.range r.2 := by
    have h := @List.range'_append_1 0 n (r.2 - n)
    rwa [Nat.zero_add, Nat.add_sub_cancel' hr.fresh_le, ← List.range_eq_range',
      ← List.range_eq_range'] at h
  rw [← hrange]
  exact hr.pids.trans (ht.append_right _)

/-- **Insertion keeps a rooted tree sound**, and is sorted insertion on its cells. -/
theorem insert_sound (hL : 2 ≤ L) (hI : 2 ≤ I) (hR : Sound n R.height R.tree)
    (hne : ∀ d ∈ R.cells, d.1 ≠ c.1) :
    Sound (R.insert L I c n).2 (R.insert L I c n).1.height (R.insert L I c n).1.tree ∧
      (R.insert L I c n).1.cells = putCell c R.cells := by
  have hins := insert_spec hL hI c n R.height R.tree hR.tight hR.nonEmpty hR.sorted hne
  have hsorted := sorted_putCell hR.sorted hne
  have hpids := pids_range hins hR.pids
  rcases R.insert_cases c n with ⟨t, next, heq, hr⟩ | ⟨l, k, r, next, heq, hr⟩
  · rw [heq] at hins hpids
    have hcells : SearchTree.cells R.height t = putCell c R.cells :=
      (List.flatMap_singleton _ _).symm.trans hins.cells
    rw [hr]
    refine ⟨⟨?_, hins.tight t List.mem_cons_self, fun _ => hins.nonEmpty t List.mem_cons_self, ?_⟩,
      hcells⟩
    · rwa [Alt.children_one, List.flatMap_singleton] at hpids
    · exact hcells.symm ▸ hsorted
  · rw [heq] at hins hpids
    rw [hr]
    refine ⟨⟨?_, ⟨hins.tight, hins.pairs⟩, fun _ => ⟨List.cons_ne_nil _ _, hins.nonEmpty⟩, ?_⟩,
      hins.cells⟩
    · show (next :: (Alt.cons l k (Alt.one r)).children.flatMap (SearchTree.pids R.height)).Perm _
      rw [List.range_succ]
      exact (hpids.cons next).trans (List.perm_append_singleton _ _).symm
    · show Sorted ((Alt.cons l k (Alt.one r)).children.flatMap (SearchTree.cells R.height))
      rw [show _ = _ from hins.cells]
      exact hsorted

/-- The number of the root after an insertion: of the old one or, if it splits, of the node behind
the right halves. -/
theorem pid_insert (hL : 2 ≤ L) (hI : 2 ≤ I) (hR : Sound n R.height R.tree)
    (hne : ∀ d ∈ R.cells, d.1 ≠ c.1) :
    pid (R.insert L I c n).1.height (R.insert L I c n).1.tree
      = if Full L I c.1 R.height R.tree then n + splits L I c.1 R.height R.tree
        else pid R.height R.tree := by
  have hins := insert_spec hL hI c n R.height R.tree hR.tight hR.nonEmpty hR.sorted hne
  have hkeys := @insert_keys_ne_nil κ ν _ L I c n R.height R.tree
  have hnext := @SearchTree.insert_snd κ ν _ L I c n R.height R.tree
  rcases R.insert_cases c n with ⟨t, next, heq, hr⟩ | ⟨l, k, r, next, heq, hr⟩
  · rw [heq] at hins hkeys
    rw [hr, if_neg (hkeys.not.mp fun h => h rfl)]
    exact hins.head
  · rw [heq] at hkeys hnext
    rw [hr, if_pos (hkeys.mp (List.cons_ne_nil _ _)), ← hnext]
    rfl

/-- Insertion at the root leaves every other node at least half full. -/
theorem insert_rootFilled (hL : 0 < L) (hI : 0 < I) (c : κ × ν) (fresh : ℕ)
    (hR : RootFilled L I R.height R.tree) :
    RootFilled L I (R.insert L I c fresh).1.height (R.insert L I c fresh).1.tree := by
  have hparts : (Full L I c.1 R.height R.tree →
        ∀ d ∈ (SearchTree.insert L I c fresh R.height R.tree).1.children,
          Filled L I R.height d) ∧
      (¬Full L I c.1 R.height R.tree → ∃ d,
        (SearchTree.insert L I c fresh R.height R.tree).1 = .one d ∧
          RootFilled L I R.height d) := by
    obtain ⟨h, t⟩ := R
    cases h with
    | zero =>
        obtain ⟨hsplit, hone⟩ := @insert_zero_filled κ ν _ L I hL c fresh t hR
        refine ⟨hsplit, ?_⟩
        intro hfull
        obtain ⟨d, heq, -, hle⟩ := hone hfull
        exact ⟨d, heq, hle⟩
    | succ h =>
        have hbelow := insert_filled hL c fresh h _
          (hR.2.2 _ ((Inner.slots t).childFor_mem c.1))
        obtain ⟨hsplit, hone⟩ := insert_succ_filled c fresh hR.2.1 hR.2.2 hbelow
        refine ⟨hsplit, ?_⟩
        intro hfull
        obtain ⟨d, heq, hge, hle, hchildren⟩ := hone hfull
        have hpos := List.length_pos_of_ne_nil hR.1
        exact ⟨d, heq, List.ne_nil_of_length_pos (by omega), hle, hchildren⟩
  have hkeys := @insert_keys_ne_nil κ ν _ L I c fresh R.height R.tree
  rcases R.insert_cases c fresh with ⟨t, next, heq, hr⟩ | ⟨l, k, r, next, heq, hr⟩
  · rw [heq] at hkeys hparts
    obtain ⟨d, hd, hroot⟩ := hparts.2 (hkeys.not.mp fun h => h rfl)
    cases hd
    rw [hr]
    exact hroot
  · rw [heq] at hkeys hparts
    rw [hr]
    exact ⟨List.cons_ne_nil _ _, hI, hparts.1 (hkeys.mp (List.cons_ne_nil _ _))⟩

end

end Rooted

end SearchTree
