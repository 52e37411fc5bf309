import DbToy.Lib.SearchTree

/-!
# Trees level by level

The nodes of a B+ tree from the root to the leaves, each level from left to right.

* `levels`: the levels below some trees, each node with its number and its own keys.
* `levels_perm`: every node is on one level.
* `exists_bottom`: the keys of the lowest level are those of the cells.
-/

namespace SearchTree

variable {κ ν : Type}

/-- The keys in the node itself. -/
def rootKeys : (h : ℕ) → Tree κ ν h → List κ
  | 0, t => (Leaf.cells t).map Prod.fst
  | _ + 1, t => (Inner.slots t).keys

def childTrees {h : ℕ} (t : Tree κ ν (h + 1)) : List (Tree κ ν h) := (Inner.slots t).children

/-- The nodes one level below. -/
def below {h : ℕ} (l : List (Tree κ ν (h + 1))) : List (Tree κ ν h) := l.flatMap childTrees

/-- What stands on a level. -/
def row (h : ℕ) (l : List (Tree κ ν h)) : List (ℕ × List κ) :=
  l.map fun t => (pid h t, rootKeys h t)

def levels : (h : ℕ) → List (Tree κ ν h) → List (List (ℕ × List κ))
  | 0, l => [row 0 l]
  | h + 1, l => row (h + 1) l :: levels h (below l)

lemma length_levels : ∀ (h : ℕ) (l : List (Tree κ ν h)), (levels h l).length = h + 1
  | 0, _ => rfl
  | h + 1, l => by rw [levels, List.length_cons, length_levels h]

lemma below_ne_nil {h : ℕ} {l : List (Tree κ ν (h + 1))} (hl : l ≠ []) : below l ≠ [] := by
  obtain ⟨t, l', rfl⟩ := List.exists_cons_of_ne_nil hl
  exact List.append_ne_nil_of_left_ne_nil (List.ne_nil_of_mem (Inner.slots t).head_mem) _

lemma flatMap_pids_perm {h : ℕ} : ∀ l : List (Tree κ ν (h + 1)),
    (l.flatMap (pids (h + 1))).Perm (l.map (pid (h + 1)) ++ (below l).flatMap (pids h))
  | [] => List.Perm.refl _
  | t :: l => by
      have hswap : ((childTrees t).flatMap (pids h) ++
          (l.map (pid (h + 1)) ++ (below l).flatMap (pids h))).Perm
          (l.map (pid (h + 1)) ++ ((childTrees t).flatMap (pids h) ++
            (below l).flatMap (pids h))) := by
        rw [← List.append_assoc, ← List.append_assoc]
        exact List.perm_append_comm.append_right _
      rw [List.flatMap_cons, List.map_cons, below, List.flatMap_cons, List.flatMap_append]
      exact List.Perm.cons _ (((flatMap_pids_perm l).append_left _).trans hswap)

/-- **Every node is on one level.** -/
theorem levels_perm : ∀ (h : ℕ) (l : List (Tree κ ν h)),
    ((levels h l).flatten.map Prod.fst).Perm (l.flatMap (pids h))
  | 0, l => by
      have hleaves : ∀ l : List (Tree κ ν 0), l.flatMap (pids 0) = l.map (pid 0) := by
        intro l
        induction l with
        | nil => rfl
        | cons t l ih => rw [List.flatMap_cons, ih]; rfl
      rw [levels, List.flatten_singleton, row, List.map_map, hleaves l]
      exact List.Perm.refl _
  | h + 1, l => by
      rw [levels, List.flatten_cons, List.map_append, row, List.map_map]
      exact ((levels_perm h (below l)).append_left _).trans (flatMap_pids_perm l).symm

/-- **The lowest level has the keys of the cells**, in their order. -/
theorem exists_bottom : ∀ (h : ℕ) (l : List (Tree κ ν h)), ∃ upper bottom,
    levels h l = upper ++ [bottom] ∧ bottom.flatMap Prod.snd = (l.flatMap (cells h)).map Prod.fst
  | 0, l => ⟨[], row 0 l, rfl, by
      rw [row, List.flatMap_map, List.map_flatMap]
      rfl⟩
  | h + 1, l => by
      obtain ⟨upper, bottom, hlevels, hkeys⟩ := exists_bottom h (below l)
      refine ⟨row (h + 1) l :: upper, bottom, by rw [levels, hlevels]; rfl, ?_⟩
      rw [hkeys, below, List.flatMap_assoc]
      rfl

end SearchTree
