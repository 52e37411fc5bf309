import DbToy.Lib.Rooted

/-!
# Values and the shape of a tree

Insertion looks at keys only: it puts a cell in the same place whatever values the tree has, and
takes the same numbers for it.  `mapVal` replaces every value of a tree, and `insert_mapVal` says
that it does not matter whether this is done before an insertion or afterwards.
-/

namespace SearchTree

variable {κ ν : Type} (f : ν → ν)

/-- The cell with its value replaced. -/
def mapCell (c : κ × ν) : κ × ν := (c.1, f c.2)

/-- Every value replaced. -/
def mapVal : (h : ℕ) → Tree κ ν h → Tree κ ν h
  | 0, t => Leaf.mk (Leaf.pid t) ((Leaf.cells t).map (mapCell f))
  | h + 1, t => Inner.mk (Inner.pid t) ((Inner.slots t).map (mapVal h))

lemma cells_mapVal : ∀ (h : ℕ) (t : Tree κ ν h),
    cells h (mapVal f h t) = (cells h t).map (mapCell f)
  | 0, _ => rfl
  | h + 1, t => by
      show ((Inner.slots t).map (mapVal f h)).children.flatMap (cells h) = _
      rw [Alt.children_map, List.flatMap_map, cells, List.map_flatMap]
      exact List.flatMap_congr fun c _ => cells_mapVal h c

lemma map_fst_mapCell (l : List (κ × ν)) : (l.map (mapCell f)).map Prod.fst = l.map Prod.fst := by
  rw [List.map_map]
  rfl

variable [LinearOrder κ] {L I : ℕ}

lemma putCell_mapCell (c : κ × ν) (l : List (κ × ν)) :
    putCell (mapCell f c) (l.map (mapCell f)) = (putCell c l).map (mapCell f) :=
  (List.map_orderedInsert _ _ (mapCell f) l c (fun _ _ => Iff.rfl) fun _ _ => Iff.rfl).symm

/-- **Insertion does not look at values.** -/
theorem insert_mapVal (c : κ × ν) (fresh : ℕ) : ∀ (h : ℕ) (t : Tree κ ν h),
    insert L I (mapCell f c) fresh h (mapVal f h t)
      = ((insert L I c fresh h t).1.map (mapVal f h), (insert L I c fresh h t).2)
  | 0, t => by
      have hput : putCell (mapCell f c) (Leaf.cells (mapVal f 0 t))
          = (putCell c (Leaf.cells t)).map (mapCell f) := putCell_mapCell f c _
      have hlen : (Leaf.cells (mapVal f 0 t)).length = (Leaf.cells t).length :=
        List.length_map _
      by_cases hfull : (Leaf.cells t).length = L
      · obtain ⟨p, hp, heq⟩ := insert_zero_of_full c fresh hfull
        obtain ⟨q, hq, heq'⟩ := insert_zero_of_full (mapCell f c) fresh (hlen.trans hfull)
        rw [hput, List.getElem?_map, hp] at hq
        cases hq
        rw [heq, heq', hput, ← List.map_take, ← List.map_drop]
        rfl
      · rw [insert_zero_of_ne c fresh hfull,
          insert_zero_of_ne (mapCell f c) fresh (hlen.trans_ne hfull), hput]
        rfl
  | h + 1, t => by
      have hslots : Inner.slots (mapVal f (h + 1) t) = (Inner.slots t).map (mapVal f h) := rfl
      -- below the node that the key goes to
      have hchild := insert_mapVal c fresh h ((Inner.slots t).childFor c.1)
      rw [← Alt.childFor_map (mapVal f h)] at hchild
      rw [insert, insert]
      simp only [show (mapCell f c).1 = c.1 from rfl, hslots, hchild]
      generalize insert L I c fresh h ((Inner.slots t).childFor c.1) = r
      rw [← Alt.put_map, Alt.keys_map, Alt.keys_map, Alt.cutAt_map]
      split_ifs with hfull
      · cases ((Inner.slots t).put c.1 r.1).cutAt (I / 2) <;> rfl
      · rfl

namespace Rooted

def mapVal (R : Rooted κ ν) : Rooted κ ν := ⟨R.height, SearchTree.mapVal f R.height R.tree⟩

omit [LinearOrder κ] in
lemma cells_mapVal (R : Rooted κ ν) : (R.mapVal f).cells = R.cells.map (mapCell f) :=
  SearchTree.cells_mapVal f R.height R.tree

theorem insert_mapVal (c : κ × ν) (fresh : ℕ) (R : Rooted κ ν) :
    (R.mapVal f).insert L I (mapCell f c) fresh
      = ((R.insert L I c fresh).1.mapVal f, (R.insert L I c fresh).2) := by
  obtain ⟨h, t⟩ := R
  have htree := SearchTree.insert_mapVal f c fresh h t (L := L) (I := I)
  simp only [mapVal, insert, htree]
  generalize SearchTree.insert L I c fresh h t = r
  obtain ⟨r, next⟩ := r
  cases r with
  | one t => rfl
  | cons l k rest => rfl

end Rooted

end SearchTree
