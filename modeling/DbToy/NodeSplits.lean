import DbToy.InternalSpec
import DbToy.LeafSpec
import DbToy.Lib.SearchTree

/-!
# Splits are exact partitions

What `insert_and_split` of a full node makes of it, in terms of the node alone: sorted insertion,
cut in two.

* `leaf_split_partition`: the cells of the two leaves are the old ones and the new one, in order.
* `inner_split_partition`: keys and children of the two inner nodes and the pivot between them.
-/

namespace DbToy

open Bytes SearchTree

/-- The place where a key goes: behind the smaller keys. -/
def place (key : UInt32) (keys : List UInt32) : ℕ := keys.countP fun k => decide (k < key)

/-- The keys before the place of a key are smaller, those from it on are not. -/
lemma exists_place_cut_le (key : UInt32) {keys : List UInt32} (hsorted : keys.Pairwise (· < ·)) :
    ∃ A B, keys = A ++ B ∧ A.length = place key keys ∧ (∀ k ∈ A, k < key) ∧ ∀ k ∈ B, key ≤ k := by
  -- keys without values are cells
  have hcells : Sorted (keys.map fun k => (k, ())) := List.pairwise_map.mpr hsorted
  obtain ⟨X, Y, e, hlen, hX, hY⟩ := exists_rank_cut key hcells
  obtain ⟨A, B, rfl, rfl, rfl⟩ := List.map_eq_append_iff.mp e
  refine ⟨A, B, rfl, ?_, ?_, ?_⟩
  · rw [List.length_map] at hlen
    rw [hlen, rank, List.countP_map]
    rfl
  · intro k hk
    exact hX _ (List.mem_map_of_mem hk)
  · intro k hk
    exact hY _ (List.mem_map_of_mem hk)

lemma exists_place_cut {key : UInt32} {keys : List UInt32} (hsorted : keys.Pairwise (· < ·))
    (hkey : key ∉ keys) : ∃ A B, keys = A ++ B ∧ A.length = place key keys ∧
      (∀ k ∈ A, k < key) ∧ ∀ k ∈ B, key < k := by
  obtain ⟨A, B, rfl, hlen, hA, hB⟩ := exists_place_cut_le key hsorted
  refine ⟨A, B, rfl, hlen, hA, ?_⟩
  intro k hk
  refine lt_of_le_of_ne (hB k hk) ?_
  rintro rfl
  exact hkey (List.mem_append_right A hk)

/-- **A leaf split is an exact partition**: the cells of the two pages are the old ones with the new
one in its place, and the pivot is the last key of the old page. -/
theorem leaf_split_partition {n : LeafNode} (hn : n.WF) (hfull : n.numCells = n.numMaxCell)
    (htwo : 2 ≤ n.numCells) (heven : n.numCells % 2 = 0) (hsorted : Sorted n.cells) {key : UInt32}
    (hkey : key ∉ n.cells.map Prod.fst) {value : Row} (hv : value.length = n.rowSize)
    (newPage : Page) :
    ∃ pivot left right, n.insertAndSplit key value newPage = .ok (pivot, left, right) ∧
      left.cells ++ right.cells = putCell (key, value) n.cells ∧
      left.numCells = n.numCells / 2 + 1 ∧ right.numCells = n.numCells / 2 ∧
      pivot ∈ left.cells.map Prod.fst ∧ (∀ c ∈ left.cells, c.1 ≤ pivot) ∧
      right.data.nodeType = nodeTypeLeaf ∧
      right.data.u32 leafNodeRowsizeOffset = n.rowSize ∧ right.cellSize = n.cellSize ∧
      left.data.parent = n.data.parent ∧ left.data.nodeType = n.data.nodeType ∧
      left.data.isRoot = n.data.isRoot ∧
      left.data.u32 leafNodeRowsizeOffset = n.data.u32 leafNodeRowsizeOffset := by
  have hne : ∀ c ∈ n.cells, c.1 ≠ key := fun c hc heq => hkey (List.mem_map.mpr ⟨c, hc, heq⟩)
  obtain ⟨A, B, hcells, hA, hB⟩ := exists_cells_cut hsorted hne
  have hput : putCell (key, value) n.cells = A ++ (key, value) :: B := by
    rw [hcells, putCell_append hA hB]
  have hlen := length_putCell (key, value) n.cells
  obtain ⟨pivot, left, right, hsplit, hpivot, hleft, hright, hheader, htype, -, -, hrow, hsize⟩ :=
    LeafNode.insertAndSplit_spec hn hcells hA hB hfull (by omega) heven hv newPage
  rw [← hput] at hpivot hleft hright
  rw [LeafNode.length_cells] at hlen
  have hlast : lastKey left.cells = some pivot := by
    obtain ⟨p, hp, rfl⟩ := Option.map_eq_some_iff.mp hpivot
    rw [hleft, List.take_add_one, hp, Option.toList,
      lastKey_append_of_ne_nil _ (List.cons_ne_nil _ _)]
    rfl
  have hwhole := sorted_putCell (c := (key, value)) hsorted hne
  have hleftSorted : Sorted left.cells := by
    rw [← List.take_append_drop (n.numCells / 2 + 1) (putCell (key, value) n.cells),
      ← hleft] at hwhole
    exact (sorted_append.mp hwhole).1
  refine ⟨pivot, left, right, hsplit, ?_, ?_, ?_, ?_, le_of_lastKey hleftSorted hlast, htype, hrow,
    hsize, hheader.parent, hheader.nodeType, hheader.isRoot, hheader.rowSizeField⟩
  · rw [hleft, hright, List.take_append_drop]
  · rw [← LeafNode.length_cells, hleft, List.length_take, hlen]
    omega
  · rw [← LeafNode.length_cells, hright, List.length_drop, hlen]
    omega
  · obtain ⟨v, hv⟩ := exists_mem_of_lastKey hlast
    exact List.mem_map.mpr ⟨_, hv, rfl⟩

def smallLeaf : LeafNode where
  data := (Page.filled 7).set leafNodeNumCellsOffset (encodeLE 4 2 ++ encodeLE 4 1
    ++ encodeLE 4 10 ++ [1] ++ encodeLE 4 20 ++ [2])
  rowSize := 1
  cellSize := 5
  numMaxCell := 2

lemma smallLeaf_cells : smallLeaf.cells = [(10, [1]), (20, [2])] := by decide +kernel

theorem leaf_split_partition_small : ∃ pivot left right,
    smallLeaf.insertAndSplit 15 [3] (Page.filled 9) = .ok (pivot, left, right) ∧
      left.cells ++ right.cells = putCell (15, [3]) smallLeaf.cells ∧
      left.numCells = smallLeaf.numCells / 2 + 1 ∧ right.numCells = smallLeaf.numCells / 2 ∧
      pivot ∈ left.cells.map Prod.fst ∧ (∀ c ∈ left.cells, c.1 ≤ pivot) ∧
      right.data.nodeType = nodeTypeLeaf ∧
      right.data.u32 leafNodeRowsizeOffset = smallLeaf.rowSize ∧
      right.cellSize = smallLeaf.cellSize ∧
      left.data.parent = smallLeaf.data.parent ∧ left.data.nodeType = smallLeaf.data.nodeType ∧
      left.data.isRoot = smallLeaf.data.isRoot ∧
      left.data.u32 leafNodeRowsizeOffset = smallLeaf.data.u32 leafNodeRowsizeOffset := by
  have hnum : smallLeaf.numCells = 2 := by
    rw [← LeafNode.length_cells, smallLeaf_cells]
    rfl
  refine leaf_split_partition ⟨rfl, by decide⟩ hnum (by rw [hnum]) (by rw [hnum]) ?_ ?_ rfl
    (Page.filled 9)
  · rw [smallLeaf_cells]
    exact List.pairwise_pair.mpr (by decide)
  · rw [smallLeaf_cells]
    decide

/-- **An inner split is an exact partition** of the keys with the new one in its place and of the
children with the new one behind its left neighbour. -/
theorem inner_split_partition {n : InternalNode} (hn : n.WF) (hfull : n.numKeys = n.numMaxKeys)
    (htwo : 2 ≤ n.numKeys) (heven : n.numKeys % 2 = 0) (hsorted : n.keys.Pairwise (· < ·))
    {key : UInt32} (hkey : key ∉ n.keys) {left right : ℕ}
    (hleft : n.children[place key n.keys]? = some left) (hright : right < 2 ^ 64) (newPage : Page) :
    ∃ pivot l r, n.insertAndSplit key left right newPage = .ok (pivot, l, r) ∧
      (n.keys.insertIdx (place key n.keys) key)[n.numKeys / 2]? = some pivot ∧
      l.keys = (n.keys.insertIdx (place key n.keys) key).take (n.numKeys / 2) ∧
      l.children = (n.children.insertIdx (place key n.keys + 1) right).take (n.numKeys / 2 + 1) ∧
      r.keys = (n.keys.insertIdx (place key n.keys) key).drop (n.numKeys / 2 + 1) ∧
      r.children = (n.children.insertIdx (place key n.keys + 1) right).drop (n.numKeys / 2 + 1) ∧
      r.data.nodeType = nodeTypeInner ∧ l.data.parent = n.data.parent ∧
      l.data.nodeType = n.data.nodeType ∧ l.data.isRoot = n.data.isRoot := by
  obtain ⟨A, B, hkeys, hlen, hA, hB⟩ := exists_place_cut hsorted hkey
  obtain ⟨C, D, hchildren, hpos⟩ := exists_getElem?_cut hleft
  have hK : n.keys.insertIdx (place key n.keys) key = A ++ key :: B := by
    rw [← hlen, hkeys, insertIdx_append]
  have hC : n.children.insertIdx (place key n.keys + 1) right = C ++ left :: right :: D := by
    rw [← hpos, hchildren, insertIdx_succ_append]
  obtain ⟨pivot, l, r, hsplit, hpivot, hlk, hlc, hrk, hrc, hheader, htype, -⟩ :=
    InternalNode.insertAndSplit_spec hn hkeys hA hB hsorted hchildren (hpos.trans hlen.symm) hfull
      (by omega) heven hright newPage
  rw [hK, hC]
  exact ⟨pivot, l, r, hsplit, hpivot, hlk, hlc, hrk, hrc, htype, hheader.parent,
    hheader.nodeType, hheader.isRoot⟩

def smallInner : InternalNode where
  data := (Page.filled 7).set internalNodeNumKeysOffset (encodeLE 4 2 ++ encodeLE 8 5
    ++ encodeLE 4 10 ++ encodeLE 8 6 ++ encodeLE 4 20 ++ encodeLE 8 7)
  numMaxKeys := 2

lemma smallInner_keys : smallInner.keys = [10, 20] := by decide +kernel

lemma smallInner_children : smallInner.children = [5, 6, 7] := by decide +kernel

theorem inner_split_partition_small : ∃ pivot l r,
    smallInner.insertAndSplit 15 6 8 (Page.filled 9) = .ok (pivot, l, r) ∧
      (smallInner.keys.insertIdx (place 15 smallInner.keys) 15)[smallInner.numKeys / 2]?
        = some pivot ∧
      l.keys = (smallInner.keys.insertIdx (place 15 smallInner.keys) 15).take
        (smallInner.numKeys / 2) ∧
      l.children = (smallInner.children.insertIdx (place 15 smallInner.keys + 1) 8).take
        (smallInner.numKeys / 2 + 1) ∧
      r.keys = (smallInner.keys.insertIdx (place 15 smallInner.keys) 15).drop
        (smallInner.numKeys / 2 + 1) ∧
      r.children = (smallInner.children.insertIdx (place 15 smallInner.keys + 1) 8).drop
        (smallInner.numKeys / 2 + 1) ∧
      r.data.nodeType = nodeTypeInner ∧ l.data.parent = smallInner.data.parent ∧
      l.data.nodeType = smallInner.data.nodeType ∧ l.data.isRoot = smallInner.data.isRoot := by
  have hnum : smallInner.numKeys = 2 := by
    rw [← InternalNode.length_keys, smallInner_keys]
    rfl
  have hmax : smallInner.numMaxKeys ≤ InternalNode.pageMax := by decide
  refine inner_split_partition hmax hnum (by rw [hnum]) (by rw [hnum]) ?_ ?_ ?_ (by decide)
    (Page.filled 9)
  · rw [smallInner_keys]
    exact List.pairwise_pair.mpr (by decide)
  · rw [smallInner_keys]
    decide
  · rw [smallInner_keys, smallInner_children]
    rfl

end DbToy
