import DbToy.BPlusTree
import DbToy.NodeSplits

/-!
# Nodes as sorted lists

What one node is to the operations above it: its keys in order.

* `search_exact`: the binary search of any node finds the position of a key, and the search for an
  insertion tells a key that is there from one that is not.
* `node_inserts_sorted`: `insert` of a node with room puts its argument in its place, in both kinds
  of node.
-/

namespace DbToy

open Bytes SearchTree

namespace BtreeNode

/-- The keys of a node, in the order of its page. -/
def keys : BtreeNode → List UInt32
  | inner node => node.keys
  | leaf node => node.cells.map Prod.fst

/-- The node says of itself only what its page can hold. -/
def Fits : BtreeNode → Prop
  | inner node => node.WF ∧ node.numKeys ≤ node.numMaxKeys
  | leaf node => node.WF ∧ node.numCells ≤ LeafNode.pageMax node.rowSize

variable {node : BtreeNode}

@[simp] lemma length_keys (node : BtreeNode) : node.keys.length = node.getNumKeys := by
  cases node with
  | inner node => exact InternalNode.length_keys node
  | leaf node => rw [keys, List.length_map, LeafNode.length_cells, getNumKeys]

lemma getKey_keys (h : node.Fits) : ∀ i (hi : i < node.keys.length),
    node.getKey i = .ok node.keys[i] := by
  cases node with
  | inner node => exact InternalNode.getKey_keys h.1 h.2
  | leaf node => exact LeafNode.getKey_cells h.1 h.2

/-- A page holds far fewer keys than an `int` counts. -/
lemma getNumKeys_lt (h : node.Fits) : node.getNumKeys < 2 ^ 31 := by
  cases node with
  | inner node =>
      have hmax : node.numMaxKeys ≤ InternalNode.pageMax := h.1
      have hpm := InternalNode.pageMax_eq
      have hle := h.2
      rw [getNumKeys]
      omega
  | leaf node =>
      exact lt_of_le_of_lt h.2 (LeafNode.pageMax_lt node.rowSize)

end BtreeNode

/-! ## Search -/

/-- A key that is there is at its own place. -/
lemma getElem?_place {key : UInt32} {keys : List UInt32} (hsorted : keys.Pairwise (· < ·))
    (hkey : key ∈ keys) : keys[place key keys]? = some key := by
  obtain ⟨A, B, rfl, hlen, hA, hB⟩ := exists_place_cut_le key hsorted
  rw [← hlen, List.getElem?_append_right le_rfl, Nat.sub_self]
  rcases List.mem_append.mp hkey with hmem | hmem
  · exact absurd (hA key hmem) (lt_irrefl key)
  · cases B with
    | nil => simp at hmem
    | cons k B =>
        have hle := hB k List.mem_cons_self
        rcases List.mem_cons.mp hmem with rfl | hmem
        · rfl
        · have hrest := (List.pairwise_append.mp hsorted).2.1
          have hlt := (List.pairwise_cons.mp hrest).1 key hmem
          exact absurd hlt (not_lt_of_ge hle)

/-- `search_insert_location`: whether the key may be inserted, and the number of smaller keys. -/
lemma InternalNode.searchInsertLocation_place {n : InternalNode} (hn : n.WF)
    (hle : n.numKeys ≤ n.numMaxKeys) (hpos : 0 < n.numKeys) (hsorted : n.keys.Pairwise (· < ·))
    (key : UInt32) :
    n.searchInsertLocation key = .ok (decide (key ∉ n.keys), (place key n.keys : ℤ)) := by
  have hmax : n.numMaxKeys ≤ pageMax := hn
  have hpm := pageMax_eq
  obtain ⟨A, B, hkeys, hlen, hA, hB⟩ := exists_place_cut_le key hsorted
  have hiff : key ∈ n.keys ↔ key ∈ B := by
    rw [hkeys, List.mem_append]
    refine ⟨?_, Or.inr⟩
    rintro (hmem | hmem)
    · exact absurd (hA key hmem) (lt_irrefl key)
    · exact hmem
  obtain ⟨pos, e, h⟩ := searchKeyPosition_cut key hsorted (getKey_keys hn hle)
    (by rw [length_keys]; exact hpos) (by rw [length_keys]; omega) hkeys hA hB
  rw [length_keys] at e
  rw [searchInsertLocation, e, ok_bind, ← hlen]
  rcases h with ⟨hmem, rfl, hget⟩ | ⟨hmem, hpos', hget⟩
  · rw [if_pos (by omega), Int.toNat_natCast, hget, ok_bind, if_pos rfl]
    simp only [hiff, hmem, not_true, decide_false]
  · have hnot : decide (key ∉ n.keys) = true := by simpa [hiff] using hmem
    rw [hnot, hpos']
    split_ifs with h0
    · obtain ⟨k, hk, hne⟩ := hget h0
      rw [hk, ok_bind, if_neg hne]
    · rfl

/-- **Binary search in a node is exact.**  It ends, for every key, at the position that cuts the
keys of the node there.  The search for an insertion refuses a key that is in the node and gives
its index, and gives the number of smaller keys for one that is not. -/
theorem search_exact {node : BtreeNode} (h : node.Fits) (hpos : 0 < node.getNumKeys)
    (hsorted : node.keys.Pairwise (· < ·)) (key : UInt32) :
    (∃ pos, node.searchKeyPosition key = .ok pos ∧ IsPosition node.keys key pos) ∧
      ∀ n, node = .inner n →
        n.searchInsertLocation key = .ok (decide (key ∉ n.keys), (place key n.keys : ℤ)) ∧
          (key ∈ n.keys → n.keys[place key n.keys]? = some key) := by
  refine ⟨?_, ?_⟩
  · obtain ⟨pos, e, hp⟩ := searchKeyPosition_spec key hsorted (BtreeNode.getKey_keys h)
      (by rw [BtreeNode.length_keys]; exact hpos)
      (by rw [BtreeNode.length_keys]; exact BtreeNode.getNumKeys_lt h)
    rw [BtreeNode.length_keys] at e
    exact ⟨pos, e, hp⟩
  · rintro n rfl
    exact ⟨InternalNode.searchInsertLocation_place h.1 h.2 hpos hsorted key,
      getElem?_place hsorted⟩

theorem search_exact_small :
    (∃ pos, (BtreeNode.inner smallInner).searchKeyPosition 20 = .ok pos ∧
        IsPosition smallInner.keys 20 pos) ∧
      ∀ n, BtreeNode.inner smallInner = .inner n →
        n.searchInsertLocation 20 = .ok (decide (20 ∉ n.keys), (place 20 n.keys : ℤ)) ∧
          (20 ∈ n.keys → n.keys[place 20 n.keys]? = some 20) := by
  have hnum : smallInner.numKeys = 2 := by
    rw [← InternalNode.length_keys, smallInner_keys]
    rfl
  have hmax : smallInner.numMaxKeys ≤ InternalNode.pageMax := by decide
  have hsorted : smallInner.keys.Pairwise (· < ·) := by
    rw [smallInner_keys]
    exact List.pairwise_pair.mpr (by decide)
  exact @search_exact (.inner smallInner) ⟨hmax, by rw [hnum]; decide⟩
    (by rw [BtreeNode.getNumKeys, hnum]; decide) hsorted 20

/-! ## Insertion -/

lemma LeafNode.insert_sorted {n : LeafNode} (hn : n.WF) (hroom : n.numCells < n.numMaxCell)
    (hsorted : Sorted n.cells) {key : UInt32} (hkey : key ∉ n.cells.map Prod.fst) {value : Row}
    (hvalue : value.length = n.rowSize) :
    ∃ n', n.insert key value = .ok n' ∧
      n'.cells = n.cells.insertIdx (place key (n.cells.map Prod.fst)) (key, value) ∧
      SameHeader n n' := by
  obtain ⟨X, Y, hkeys, hlen, hX, hY⟩ := exists_place_cut (List.pairwise_map.mpr hsorted) hkey
  obtain ⟨A, B, hcells, rfl, rfl⟩ := List.map_eq_append_iff.mp hkeys
  rw [List.length_map] at hlen
  have hput : n.cells.insertIdx (place key (n.cells.map Prod.fst)) (key, value)
      = A ++ (key, value) :: B := by
    rw [← hlen, hcells, insertIdx_append]
  rw [hput]
  refine insert_spec hn hcells ?_ ?_ hroom hvalue
  · intro c hc
    exact hX _ (List.mem_map_of_mem hc)
  · intro c hc
    exact hY _ (List.mem_map_of_mem hc)

lemma InternalNode.insert_sorted {n : InternalNode} (hn : n.WF) (hroom : n.numKeys < n.numMaxKeys)
    (hsorted : n.keys.Pairwise (· < ·)) {key : UInt32} (hkey : key ∉ n.keys) {left right : ℕ}
    (hleft : n.children[place key n.keys]? = some left) (hne : 0 < n.numKeys)
    (hright : right < 2 ^ 64) :
    ∃ n', n.insert key left right = .ok n' ∧
      n'.keys = n.keys.insertIdx (place key n.keys) key ∧
      n'.children = n.children.insertIdx (place key n.keys + 1) right ∧ SameHeader n n' := by
  obtain ⟨A, B, hkeys, hlen, hA, hB⟩ := exists_place_cut hsorted hkey
  obtain ⟨C, D, hchildren, hpos⟩ := exists_getElem?_cut hleft
  have hK : n.keys.insertIdx (place key n.keys) key = A ++ key :: B := by
    rw [← hlen, hkeys, insertIdx_append]
  have hC : n.children.insertIdx (place key n.keys + 1) right = C ++ left :: right :: D := by
    rw [← hpos, hchildren, insertIdx_succ_append]
  rw [hK, hC]
  exact insert_spec hn hkeys hA hB hchildren (hpos.trans hlen.symm) hne hroom hright

/-- **Insertion into a node with room is sorted insertion**, in both kinds of node: the new key goes
behind the smaller ones, in a leaf with its value and in an internal node with its right child
behind its left one.  Nothing else of the node changes, and every assertion holds. -/
theorem node_inserts_sorted :
    (∀ (n : LeafNode) (key : UInt32) (value : Row), n.WF → n.numCells < n.numMaxCell →
      Sorted n.cells → key ∉ n.cells.map Prod.fst → value.length = n.rowSize →
      ∃ n', n.insert key value = .ok n' ∧
        n'.cells = n.cells.insertIdx (place key (n.cells.map Prod.fst)) (key, value) ∧
        LeafNode.SameHeader n n') ∧
    (∀ (n : InternalNode) (key : UInt32) (left right : ℕ), n.WF → n.numKeys < n.numMaxKeys →
      n.keys.Pairwise (· < ·) → key ∉ n.keys →
      (n.numKeys = 0 ∨ n.children[place key n.keys]? = some left) →
      left < 2 ^ 64 → right < 2 ^ 64 →
      ∃ n', n.insert key left right = .ok n' ∧
        n'.keys = n.keys.insertIdx (place key n.keys) key ∧
        n'.children = (if n.numKeys = 0 then [left, right]
          else n.children.insertIdx (place key n.keys + 1) right) ∧
        InternalNode.SameHeader n n') := by
  refine ⟨?_, ?_⟩
  · intro n key value hn hroom hsorted hkey hvalue
    exact LeafNode.insert_sorted hn hroom hsorted hkey hvalue
  · intro n key left right hn hroom hsorted hkey hchild hleft hright
    rcases Nat.eq_zero_or_pos n.numKeys with hempty | hpos
    · -- the first key of the node
      have hkeys : n.keys = [] := by
        rw [← List.length_eq_zero_iff, InternalNode.length_keys, hempty]
      obtain ⟨n', e, hkeys', hchildren', hheader⟩ :=
        InternalNode.insert_empty_spec hn key hempty (by omega) hleft hright
      refine ⟨n', e, ?_, ?_, hheader⟩
      · rw [hkeys', hkeys]
        rfl
      · rw [hchildren', if_pos hempty]
    · have hchild' : n.children[place key n.keys]? = some left := by
        rcases hchild with hempty | hchild
        · omega
        · exact hchild
      obtain ⟨n', e, hkeys', hchildren', hheader⟩ :=
        InternalNode.insert_sorted hn hroom hsorted hkey hchild' hpos hright
      refine ⟨n', e, hkeys', ?_, hheader⟩
      rw [hchildren', if_neg (Nat.ne_of_gt hpos)]

def roomyLeaf : LeafNode := { smallLeaf with numMaxCell := 4 }

def roomyInner : InternalNode := { smallInner with numMaxKeys := 4 }

/-- One key between two others, in each kind of node. -/
theorem node_inserts_sorted_small :
    (∃ n', roomyLeaf.insert 15 [3] = .ok n' ∧ n'.cells = [(10, [1]), (15, [3]), (20, [2])] ∧
      LeafNode.SameHeader roomyLeaf n') ∧
    ∃ n', roomyInner.insert 15 6 8 = .ok n' ∧ n'.keys = [10, 15, 20] ∧
      n'.children = [5, 6, 8, 7] ∧ InternalNode.SameHeader roomyInner n' := by
  have hcells : roomyLeaf.cells = [(10, [1]), (20, [2])] := smallLeaf_cells
  have hkeys : roomyInner.keys = [10, 20] := smallInner_keys
  have hchildren : roomyInner.children = [5, 6, 7] := smallInner_children
  have hnumCells : roomyLeaf.numCells = 2 := by
    rw [← LeafNode.length_cells, hcells]
    rfl
  have hnumKeys : roomyInner.numKeys = 2 := by
    rw [← InternalNode.length_keys, hkeys]
    rfl
  have hmax : roomyInner.numMaxKeys ≤ InternalNode.pageMax := by decide
  obtain ⟨n₁, e₁, hcells₁, hheader₁⟩ := node_inserts_sorted.1 roomyLeaf 15 [3] ⟨rfl, by decide⟩
    (by rw [hnumCells]; decide) (by rw [hcells]; exact List.pairwise_pair.mpr (by decide))
    (by rw [hcells]; decide) rfl
  obtain ⟨n₂, e₂, hkeys₂, hchildren₂, hheader₂⟩ := node_inserts_sorted.2 roomyInner 15 6 8 hmax
    (by rw [hnumKeys]; decide) (by rw [hkeys]; exact List.pairwise_pair.mpr (by decide))
    (by rw [hkeys]; decide) (Or.inr (by rw [hkeys, hchildren]; rfl)) (by decide) (by decide)
  refine ⟨⟨n₁, e₁, ?_, hheader₁⟩, n₂, e₂, ?_, ?_, hheader₂⟩
  · rw [hcells₁, hcells]
    rfl
  · rw [hkeys₂, hkeys]
    rfl
  · rw [hchildren₂, hchildren, hkeys, hnumKeys]
    rfl

end DbToy
