import DbToy.CheckedTrees

/-!
# The tests that a node has of itself

`BtreeNode` comes with tests of one node: `contain_duplicate` compares neighbours only,
`is_key_monotonic_increasing` too, and `is_half_loaded` asks of every node but the root for half of
`node_load`.  `LeafNode::is_duplicate` goes through all keys of a leaf.

* `HasKeys.containDuplicate_eq_false`, `HasKeys.isDuplicate_eq`: what the loops decide.
* `node_tests`: after any series of calls all pages pass, and `is_duplicate` is true in exactly the
  leaf that `find` gives, if `find` says that the key exists.
-/

namespace DbToy

open SearchTree
open Dictionary (SameLoads)

namespace BtreeNode

def data : BtreeNode → Page
  | inner node => node.data
  | leaf node => node.data

def getNodeLoad : BtreeNode → ℕ
  | inner node => node.numMaxKeys
  | leaf node => node.numMaxCell

def setNodeLoad : BtreeNode → ℕ → Except Fault BtreeNode
  | inner node, size => (node.setNodeLoad size).map inner
  | leaf node, size => (node.setNodeLoad size).map leaf

/-- The loop of `contain_duplicate`, from number `i` on; `count` turns are left. -/
def duplicateLoop (node : BtreeNode) : ℕ → ℕ → Except Fault Bool
  | 0, _ => .ok false
  | count + 1, i => do
      let a ← node.getKey i
      let b ← node.getKey (i + 1)
      if a = b then .ok true else duplicateLoop node count (i + 1)

/-- `contain_duplicate()`. -/
def containDuplicate (node : BtreeNode) : Except Fault Bool :=
  duplicateLoop node (node.getNumKeys - 1) 0

/-- `is_half_loaded()`. -/
def isHalfLoaded (node : BtreeNode) : Bool :=
  if node.data.isRoot then true else decide (node.getNodeLoad ≤ node.getNumKeys * 2 % 2 ^ 32)

end BtreeNode

namespace LeafNode

/-- The loop of `is_duplicate`, from cell `i` on; `count` cells are left. -/
def duplicateLoop (n : LeafNode) (key : UInt32) : ℕ → ℕ → Except Fault Bool
  | 0, _ => .ok false
  | count + 1, i => do
      let k ← n.getKey i
      if k = key then .ok true else duplicateLoop n key count (i + 1)

/-- `is_duplicate(key)`. -/
def isDuplicate (n : LeafNode) (key : UInt32) : Except Fault Bool :=
  duplicateLoop n key n.numCells 0

end LeafNode

/-! ## What the loops decide -/

namespace BtreeNode

variable {node : BtreeNode} {keys : List UInt32}

lemma HasKeys.duplicateLoop_eq (h : node.HasKeys keys) : ∀ count i, i + count < keys.length →
    node.duplicateLoop count i
      = .ok (decide (∃ j < count, keys[i + j]? = keys[i + j + 1]?)) := by
  intro count
  induction count with
  | zero =>
      intro i _
      rw [duplicateLoop, decide_eq_false]
      rintro ⟨j, hj, -⟩
      exact Nat.not_lt_zero j hj
  | succ count ih =>
      intro i hi
      have hlt : i < keys.length := by omega
      have hlt' : i + 1 < keys.length := by omega
      have hiff : keys[i] = keys[i + 1] ↔ keys[i]? = keys[i + 1]? := by
        rw [List.getElem?_eq_getElem hlt, List.getElem?_eq_getElem hlt', Option.some.injEq]
      rw [duplicateLoop, h.get i hlt, ok_bind, h.get (i + 1) hlt', ok_bind]
      split_ifs with heq
      · rw [decide_eq_true ⟨0, Nat.succ_pos count, hiff.mp heq⟩]
      · rw [ih (i + 1) (by omega)]
        refine congrArg _ (decide_eq_decide.mpr ⟨?_, ?_⟩)
        · rintro ⟨j, hj, hdup⟩
          exact ⟨j + 1, by omega, by rwa [show i + (j + 1) = i + 1 + j by omega]⟩
        · rintro ⟨j, hj, hdup⟩
          cases j with
          | zero => exact absurd (hiff.mpr hdup) heq
          | succ j => exact ⟨j, by omega, by rwa [show i + 1 + j = i + (j + 1) by omega]⟩

/-- **`contain_duplicate` finds two equal neighbours**, whatever the order of the keys. -/
theorem HasKeys.containDuplicate_eq_false (h : node.HasKeys keys) :
    node.containDuplicate = .ok false ↔ keys.IsChain (· ≠ ·) := by
  rw [containDuplicate, h.length]
  by_cases hnil : keys = []
  · subst hnil
    exact iff_of_true rfl List.IsChain.nil
  · have hpos := List.length_pos_of_ne_nil hnil
    rw [h.duplicateLoop_eq (keys.length - 1) 0 (by omega), Except.ok.injEq,
      decide_eq_false_iff_not, List.isChain_iff_getElem]
    constructor
    · intro hno i hi heq
      refine hno ⟨i, by omega, ?_⟩
      rw [Nat.zero_add, List.getElem?_eq_getElem (by omega), List.getElem?_eq_getElem hi, heq]
    · rintro hne ⟨j, hj, heq⟩
      rw [Nat.zero_add, List.getElem?_eq_getElem (by omega),
        List.getElem?_eq_getElem (by omega)] at heq
      exact hne j (by omega) (Option.some.inj heq)

/-- Half a load is half loaded: the product does not overflow. -/
lemma isHalfLoaded_eq_true (hlt : node.getNumKeys < 2 ^ 31) :
    node.isHalfLoaded = true ↔
      node.data.isRoot = true ∨ node.getNodeLoad ≤ 2 * node.getNumKeys := by
  rw [isHalfLoaded, Nat.mod_eq_of_lt (by omega), Nat.mul_comm]
  split_ifs with hroot
  · exact iff_of_true rfl (Or.inl hroot)
  · rw [decide_eq_true_iff, or_iff_right hroot]

/-- **`is_duplicate` finds the key**, in whatever cell it is. -/
theorem HasKeys.isDuplicate_eq {leaf : LeafNode} (h : (BtreeNode.leaf leaf).HasKeys keys)
    (key : UInt32) : leaf.isDuplicate key = .ok (decide (key ∈ keys)) := by
  have hloop : ∀ count i, i + count = keys.length →
      leaf.duplicateLoop key count i = .ok (decide (key ∈ keys.drop i)) := by
    intro count
    induction count with
    | zero =>
        intro i hi
        rw [LeafNode.duplicateLoop, List.drop_of_length_le (by omega),
          decide_eq_false List.not_mem_nil]
    | succ count ih =>
        intro i hi
        have hget : leaf.getKey i = .ok keys[i] := h.get i (by omega)
        rw [LeafNode.duplicateLoop, hget, ok_bind, List.drop_eq_getElem_cons (by omega)]
        split_ifs with heq
        · rw [decide_eq_true (heq ▸ List.mem_cons_self)]
        · rw [ih (i + 1) (by omega)]
          refine congrArg _ (decide_eq_decide.mpr ⟨List.mem_cons_of_mem _, ?_⟩)
          intro hmem
          exact (List.mem_cons.mp hmem).resolve_left (Ne.symm heq)
  have hnum : leaf.numCells = keys.length := h.length
  rw [LeafNode.isDuplicate, hnum, hloop _ 0 (Nat.zero_add _), List.drop_zero]

end BtreeNode

/-! ## After insertions -/

/-- What the tests say about a node; its load is set as for an insertion. -/
structure BtreeNode.PassesTests (P : TreeParams) (node : BtreeNode) : Prop where
  noDuplicate : node.containDuplicate = .ok false
  increasing : node.isKeyMonotonicIncreasing = .ok true
  loaded : ∃ node', node.setNodeLoad (node.nodeLoad P) = .ok node' ∧ node'.isHalfLoaded = true

namespace TreeImage.Stores

variable {P : TreeParams} {s : TreeImage} {h : ℕ} {t : RowTree h}

/-- With the load of an insertion a node that is filled is half loaded. -/
lemma exists_setNodeLoad (hP : P.Valid) : ∀ {n : ℕ} {u : RowTree n},
    Holds P.rowSize s.map.content n u →
    ∃ node', (nodeOf P.rowSize s.map.content n u).setNodeLoad
        ((nodeOf P.rowSize s.map.content n u).nodeLoad P) = .ok node' ∧
      node'.getNumKeys = (nodeKeys n u).length ∧ node'.data = s.map.content (pid n u) ∧
      (Filled P.leafCapacity P.innerCapacity n u →
        node'.getNodeLoad ≤ 2 * (nodeKeys n u).length)
  | 0, u, hu => by
      refine ⟨.leaf (BPlusTree.loadedLeaf P (s.map.content (Leaf.pid u))), ?_, hu.hasKeys.length,
        rfl, ?_⟩
      · exact congrArg (Except.map BtreeNode.leaf) (BPlusTree.setNodeLoad_view hP _)
      · intro hfilled
        have heven := hP.leafCapacity_even
        have hhalf : P.leafCapacity / 2 ≤ (Leaf.cells u).length := hfilled.1
        show P.leafCapacity ≤ 2 * ((Leaf.cells u).map Prod.fst).length
        rw [List.length_map]
        omega
  | n + 1, u, hu => by
      refine ⟨.inner (BPlusTree.loadedInner P (s.map.content (Inner.pid u))), ?_, hu.hasKeys.length,
        rfl, ?_⟩
      · exact congrArg (Except.map BtreeNode.inner) (BPlusTree.setNodeLoad_load hP _)
      · intro hfilled
        have heven := hP.innerCapacity_even
        have hhalf : P.innerCapacity / 2 ≤ (Inner.slots u).keys.length := hfilled.1
        show P.innerCapacity ≤ 2 * (Inner.slots u).keys.length
        omega

/-- Every node of the tree passes. -/
theorem passesTests (hP : P.Valid) (hs : s.Stores P.rowSize h t)
    (hfilled : RootFilled P.leafCapacity P.innerCapacity h t) {r : Rooted UInt32 Row}
    (hr : Subtree r ⟨h, t⟩) :
    (nodeOf P.rowSize s.map.content r.height r.tree).PassesTests P := by
  have hholds := hs.holds.subtree hr
  have hkeys := hholds.hasKeys
  have hsorted : (nodeKeys r.height r.tree).Pairwise (· < ·) :=
    (hr.ordered hs.ordered).nodeKeys_sorted
  refine ⟨?_, hkeys.isKeyMonotonicIncreasing_eq_true.mpr hsorted, ?_⟩
  · exact hkeys.containDuplicate_eq_false.mpr (hsorted.imp ne_of_lt).isChain
  · obtain ⟨node', hset, hnum, hdata, hload⟩ := exists_setNodeLoad hP hholds
    refine ⟨node', hset, ?_⟩
    rw [BtreeNode.isHalfLoaded_eq_true (hnum ▸ hholds.length_nodeKeys_lt), hdata, hnum]
    rcases hr.eq_or_filled hfilled with rfl | hfilled
    · exact Or.inl hs.isRoot
    · exact Or.inr (hload hfilled)

/-- **The descent agrees with going through all leaves.** -/
theorem isDuplicate_eq (hP : P.Valid) (hs : s.Stores P.rowSize h t) {id : ℕ}
    (hid : id < s.map.numPages) {leaf : LeafNode} (hleaf : s.nodeAt id = .ok (.leaf leaf))
    (key : UInt32) : leaf.isDuplicate key
      = .ok (decide ((locate key h t).isExist = true ∧ (locate key h t).pageId = id)) := by
  obtain ⟨⟨n, u⟩, hr, rfl⟩ :=
    Subtree.exists_of_mem_pids (hs.sound.pids.mem_iff.mpr (List.mem_range.mpr hid))
  have hholds := hs.holds.subtree hr
  have hnode := hholds.nodeAt hP.room hs.numPages_le hid
  cases n with
  | succ n => cases hnode.symm.trans hleaf
  | zero =>
      cases hnode.symm.trans hleaf
      rw [hholds.hasKeys.isDuplicate_eq key]
      refine congrArg _ (decide_eq_decide.mpr ⟨?_, ?_⟩)
      · intro hkey
        have hu := hr.eq_leafFor hkey hs.ordered
        subst hu
        exact ⟨decide_eq_true hkey, rfl⟩
      · rintro ⟨hexist, hpid⟩
        -- no other node is in the page of the leaf that `find` gives
        have heq := (hs.holds.subtree (leafFor_subtree key h t)).unique hholds hpid
        cases heq
        exact of_decide_eq_true hexist

end TreeImage.Stores

/-- **The tests of the nodes, after any series of calls.**  All pages pass, and of a key
`is_duplicate` is true in exactly the leaf that `find` gives, if `find` says that the key exists. -/
theorem node_tests {P : TreeParams} {S₀ S : Session} (hP : P.Valid) {file : Option (List UInt8)}
    {counts : ℕ → ℕ} {malloc : ℕ → Page} (hcreate : Session.create P file counts malloc = .ok S₀)
    {calls : List TreeCall} (hcalls : ∀ c ∈ calls, SameLoads P c) {replies : List TreeReply}
    (hrun : S₀.runCalls calls = .ok (replies, S)) :
    (∀ id < S.tree.pager.numPages, ∃ node t', (BPlusTree.getNodeBy id).run BPlusTree.handler S.tree
        = .ok (node, t') ∧ node.PassesTests P) ∧
      ∀ key, ∃ loc t', (BPlusTree.find key).run BPlusTree.handler S.tree = .ok (loc, t') ∧
        ∀ id < S.tree.pager.numPages, ∀ leaf t'',
          (BPlusTree.getNodeBy id).run BPlusTree.handler S.tree = .ok (.leaf leaf, t'') →
          leaf.isDuplicate key = .ok (decide (loc.isExist = true ∧ loc.pageId = id)) := by
  obtain ⟨s, D, hs, hsteady, hstores, -⟩ := Session.stores_of_run hP hcreate hcalls hrun
  have hrep := hs.represents
  rw [hrep.pager.numPages_eq]
  have hgetNode := fun id => BPlusTree.run_agrees (BPlusTree.getNodeBy id) hrep
  simp only [BPlusTree.run_getNodeBy_map] at hgetNode
  constructor
  · intro id hid
    obtain ⟨r, hr, rfl⟩ :=
      Subtree.exists_of_mem_pids (hstores.sound.pids.mem_iff.mpr (List.mem_range.mpr hid))
    have hnode := (hstores.holds.subtree hr).nodeAt hP.room hstores.numPages_le hid
    have hagree := hgetNode r.pid
    rw [show s.nodeAt r.pid = .ok _ from hnode, map_ok] at hagree
    obtain ⟨t', ht', -⟩ := hagree.exists_ok
    exact ⟨_, t', ht', hstores.passesTests hP hsteady.filled hr⟩
  · intro key
    have hfind := BPlusTree.run_agrees (BPlusTree.find key) hrep
    rw [BPlusTree.run_find (hstores.wellFormed hP.room)] at hfind
    obtain ⟨t', ht', -⟩ := hfind.exists_ok
    refine ⟨_, t', ht', ?_⟩
    intro id hid leaf t'' hleaf
    have hagree := hgetNode id
    rw [hleaf] at hagree
    obtain ⟨s', hs', -⟩ := hagree.exists_ok'
    have hnode : s.nodeAt id = .ok (.leaf leaf) := by
      cases hat : s.nodeAt id with
      | error e => rw [hat] at hs'; cases hs'
      | ok node => rw [hat] at hs'; cases hs'; rfl
    exact hstores.isDuplicate_eq hP hid hnode key

/-- After a run that splits the root and reopens the tree. -/
theorem node_tests_small : ∃ S₀ replies S,
    Session.create smallParams none (fun _ => 0) (fun _ => Page.filled 7) = .ok S₀ ∧
      S₀.runCalls smallCalls = .ok (replies, S) ∧
      (∀ id < S.tree.pager.numPages, ∃ node t',
        (BPlusTree.getNodeBy id).run BPlusTree.handler S.tree = .ok (node, t') ∧
          node.PassesTests smallParams) ∧
      ∀ key, ∃ loc t', (BPlusTree.find key).run BPlusTree.handler S.tree = .ok (loc, t') ∧
        ∀ id < S.tree.pager.numPages, ∀ leaf t'',
          (BPlusTree.getNodeBy id).run BPlusTree.handler S.tree = .ok (.leaf leaf, t'') →
          leaf.isDuplicate key = .ok (decide (loc.isExist = true ∧ loc.pageId = id)) := by
  obtain ⟨S₀, replies, S, hcreate, hrun⟩ := exists_run_smallCalls
  exact ⟨S₀, replies, S, hcreate, hrun,
    node_tests smallParams_valid hcreate smallCalls_sameLoads hrun⟩

end DbToy
