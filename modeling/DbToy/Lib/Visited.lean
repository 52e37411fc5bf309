import DbToy.Lib.SearchTree

/-!
# The nodes that a range reaches

A search for the cells of a range goes, in every node, to the children between the places of its
two ends.  `visited` lists the nodes that it comes to; for a range of one key that is one path
(`length_visited_self`), down to the leaf where the key belongs (`leafFor_mem_visited`).
-/

namespace SearchTree

variable {κ ν : Type} [LinearOrder κ]

/-- The numbers of the nodes that the range from `lo` to `hi` reaches, each before those below
it. -/
def visited (lo hi : κ) : (h : ℕ) → Tree κ ν h → List ℕ
  | 0, t => [Leaf.pid t]
  | h + 1, t => Inner.pid t :: (between lo hi (Inner.slots t)).flatMap (visited lo hi h)

variable {lo hi key : κ}

lemma visited_eq_cons : ∀ (h : ℕ) (t : Tree κ ν h),
    visited lo hi h t = pid h t :: (visited lo hi h t).tail
  | 0, _ => rfl
  | _ + 1, _ => rfl

lemma mem_of_mem_between {τ : Type} {s : Alt κ τ} {c : τ} (hc : c ∈ between lo hi s) :
    c ∈ s.children :=
  List.mem_of_mem_drop (List.mem_of_mem_take hc)

lemma visited_subset : ∀ {h : ℕ} {t : Tree κ ν h}, visited lo hi h t ⊆ pids h t
  | 0, _ => fun _ hid => hid
  | h + 1, t => by
      intro id hid
      rcases List.mem_cons.mp hid with rfl | hid
      · exact pid_mem_pids (h + 1) t
      · obtain ⟨c, hc, hid⟩ := List.mem_flatMap.mp hid
        exact List.mem_cons_of_mem _
          (List.mem_flatMap.mpr ⟨c, mem_of_mem_between hc, visited_subset hid⟩)

/-! ## One key -/

/-- Between the places of a key and itself is the child where the key belongs. -/
lemma Ordered.between_self {h : ℕ} {t : Tree κ ν (h + 1)} (ht : Ordered (h + 1) t) (key : κ) :
    between key key (Inner.slots t) = [(Inner.slots t).childFor key] := by
  obtain ⟨A, B, C, D, hkeys, hchildren, hlen, hA, hB, -⟩ := ht.cut key
  rw [between, hkeys, countP_of_cut hA hB, hchildren, ← hlen, List.drop_left]
  rw [Nat.add_sub_cancel_left]
  rfl

lemma Ordered.visited_self {h : ℕ} {t : Tree κ ν (h + 1)} (ht : Ordered (h + 1) t) (key : κ) :
    visited key key (h + 1) t
      = Inner.pid t :: visited key key h ((Inner.slots t).childFor key) := by
  rw [visited, ht.between_self key, List.flatMap_singleton]

/-- **A key reaches one node on each level.** -/
theorem length_visited_self (key : κ) : ∀ {h : ℕ} {t : Tree κ ν h}, Ordered h t →
    (visited key key h t).length = h + 1
  | 0, _, _ => rfl
  | h + 1, t, ht => by
      rw [ht.visited_self key, List.length_cons,
        length_visited_self key (ht.1 _ ((Inner.slots t).childFor_mem key))]

lemma leafFor_mem_visited (key : κ) : ∀ {h : ℕ} {t : Tree κ ν h}, Ordered h t →
    (leafFor key h t).pid ∈ visited key key h t
  | 0, t, _ => List.mem_singleton_self (Leaf.pid t)
  | h + 1, t, ht => by
      rw [ht.visited_self key]
      exact List.mem_cons_of_mem _
        (leafFor_mem_visited key (ht.1 _ ((Inner.slots t).childFor_mem key)))

end SearchTree
