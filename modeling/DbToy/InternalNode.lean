import DbToy.BtreeNode

/-!
# Internal nodes

`InternalNode` of `btree.h`: a page that holds `(p0, k0, p1, k1, ..., pn-1, kn-1, pn)`, child page
ids of 8 bytes and keys of 4 bytes, behind the number of keys.

As for leaves, a node is a view of its page, and the operations return it with the page as it is
afterwards.
-/

namespace DbToy

open Bytes

def internalNodeNumKeysOffset : ℕ := commonNodeHeaderSize
def internalNodeHeaderSize : ℕ := commonNodeHeaderSize + 4
def internalNodeKeySize : ℕ := 4
def internalNodeChildSize : ℕ := 8

structure InternalNode where
  data : Page
  numMaxKeys : ℕ

namespace InternalNode

/-- The number of keys that fit beside their children, made even. -/
def pageMax : ℕ :=
  let payloadSize := pageSize - internalNodeHeaderSize
  let maxNumCell := (payloadSize - internalNodeChildSize)
    / (internalNodeChildSize + internalNodeKeySize)
  if maxNumCell % 2 = 1 then maxNumCell - 1 else maxNumCell

def numKeys (n : InternalNode) : ℕ := n.data.u32 internalNodeNumKeysOffset

def setNumKeys (n : InternalNode) (v : ℕ) : InternalNode :=
  { n with data := n.data.setU32 internalNodeNumKeysOffset v }

/-- `InternalNode(page, true)`: make the page an empty internal node.  Root flag and parent are not
written. -/
def create (page : Page) : InternalNode :=
  { data := (page.setNodeType nodeTypeInner).setU32 internalNodeNumKeysOffset 0,
    numMaxKeys := pageMax }

/-- `InternalNode(page)`. -/
def load (page : Page) : InternalNode := { data := page, numMaxKeys := pageMax }

def setNodeLoad (n : InternalNode) (size : ℕ) : Except Fault InternalNode := do
  assertThat (size % 2 = 0 ∧ 0 < size) "size % 2 == 0 && size > 0"
  .ok { n with numMaxKeys := size }

def isFull (n : InternalNode) : Bool := n.numKeys == n.numMaxKeys

/-- Where child `id` starts in the page. -/
def childPos (id : ℕ) : ℕ :=
  internalNodeHeaderSize + id * (internalNodeChildSize + internalNodeKeySize) % 2 ^ 32

/-- Where key `id` starts in the page. -/
def keyPos (id : ℕ) : ℕ :=
  internalNodeHeaderSize + id * (internalNodeChildSize + internalNodeKeySize) % 2 ^ 32
    + internalNodeChildSize

def getKey (n : InternalNode) (id : ℕ) : Except Fault UInt32 := do
  assertThat (id < n.numMaxKeys) "id < num_max_keys"
  let bs ← n.data.load (keyPos id) 4
  .ok (UInt32.ofNat (decodeLE bs))

/-- `get_key(id) = key`. -/
def setKey (n : InternalNode) (id : ℕ) (key : UInt32) : Except Fault InternalNode := do
  assertThat (id < n.numMaxKeys) "id < num_max_keys"
  let data ← n.data.store (keyPos id) (encodeLE 4 key.toNat)
  .ok { n with data := data }

def getChild (n : InternalNode) (id : ℕ) : Except Fault ℕ := do
  assertThat (id ≤ n.numMaxKeys) "id <= num_max_keys"
  let bs ← n.data.load (childPos id) 8
  .ok (decodeLE bs)

/-- `get_child(id) = child`. -/
def setChild (n : InternalNode) (id : ℕ) (child : ℕ) : Except Fault InternalNode := do
  assertThat (id ≤ n.numMaxKeys) "id <= num_max_keys"
  let data ← n.data.store (childPos id) (encodeLE 8 child)
  .ok { n with data := data }

/-- `search_insert_location(key, pos)`. -/
def searchInsertLocation (n : InternalNode) (key : UInt32) : Except Fault (Bool × ℤ) := do
  let pos ← searchKeyPosition n.numKeys n.getKey key
  if 0 ≤ pos then
    let k ← n.getKey pos.toNat
    if k = key then .ok (false, pos) else .ok (true, pos + 1)
  else .ok (true, pos + 1)

/-! ## Insertion -/

/-- The loop of `insert`, which moves `(key_i, child_{i+1})` up by one from the end.  The argument
is `i + 1`. -/
def insertLoop (key : UInt32) : ℕ → InternalNode → Except Fault (ℕ × InternalNode)
  | 0, n => .ok (0, n)
  | i + 1, n => do
      let k ← n.getKey i
      if key ≤ k then
        assertThat (k ≠ key) "get_key(i) != key"
        let n ← n.setKey (i + 1) k
        let c ← n.getChild (i + 1)
        let n ← n.setChild (i + 2) c
        insertLoop key i n
      else .ok (i + 1, n)

/-- `insert(key, left, right)`. -/
def insert (n : InternalNode) (key : UInt32) (left right : ℕ) : Except Fault InternalNode := do
  let m := n.numKeys
  let n := n.setNumKeys (m + 1)
  if m = 0 then
    let n ← n.setChild 0 left
    let n ← n.setKey 0 key
    n.setChild 1 right
  else
    let (i, n) ← insertLoop key m n
    let n ← n.setKey i key
    let n ← n.setChild (i + 1) right
    let c ← n.getChild i
    assertThat (c = left) "get_child(i + 1) == left"
    .ok n

/-! ## Split -/

/-- The loop that moves the keys below `i`, each with its right child, to their places in the two
nodes, from the end.  The place `pivotPos` is the last one of the left node; its right child goes
to the front of the right node. -/
def moveLoop (keyPos pivotPos : ℕ) :
    ℕ → InternalNode × InternalNode → Except Fault (InternalNode × InternalNode)
  | 0, nodes => .ok nodes
  | i + 1, (left, right) => do
      let leftLoad := pivotPos + 1
      let idx := i + if keyPos ≤ i then 1 else 0
      if idx = pivotPos then
        let c ← left.getChild (i + 1)
        let right ← right.setChild 0 c
        if idx ≠ i then
          let k ← left.getKey i
          let left ← left.setKey idx k
          moveLoop keyPos pivotPos i (left, right)
        else moveLoop keyPos pivotPos i (left, right)
      else if idx < leftLoad then
        if i ≠ idx then
          let k ← left.getKey i
          let left ← left.setKey idx k
          let c ← left.getChild (i + 1)
          let left ← left.setChild (idx + 1) c
          moveLoop keyPos pivotPos i (left, right)
        else moveLoop keyPos pivotPos i (left, right)
      else
        let k ← left.getKey i
        let right ← right.setKey (idx - leftLoad) k
        let c ← left.getChild (i + 1)
        let right ← right.setChild (idx - leftLoad + 1) c
        moveLoop keyPos pivotPos i (left, right)

/-- `insert_and_split(key, left, right, new_page)`: the pivot, the node and the new right node. -/
def insertAndSplit (n : InternalNode) (key : UInt32) (left right : ℕ) (newPage : Page) :
    Except Fault (UInt32 × InternalNode × InternalNode) := do
  let rightNode := create newPage
  assertThat (n.isFull = true) "isFull()"
  let m := n.numKeys
  let rightNode := rightNode.setNumKeys (m / 2)
  let (success, pos) ← n.searchInsertLocation key
  assertThat (success = true) "success"
  let keyPos := pos.toNat
  let leftLoad := m / 2 + 1
  let pivotPos := m / 2
  let (leftNode, rightNode) ← moveLoop keyPos pivotPos m (n, rightNode)
  if keyPos < leftLoad then
    let leftNode ← leftNode.setKey keyPos key
    let (leftNode, rightNode) ←
      if keyPos = pivotPos then do
        let rightNode ← rightNode.setChild 0 right
        .ok (leftNode, rightNode)
      else do
        let leftNode ← leftNode.setChild (keyPos + 1) right
        .ok (leftNode, rightNode)
    let c ← leftNode.getChild keyPos
    assertThat (c = left) "get_child(key_pos) == left"
    let pivot ← leftNode.getKey pivotPos
    .ok (pivot, leftNode.setNumKeys (m / 2), rightNode)
  else
    let rightNode ← rightNode.setKey (keyPos - leftLoad) key
    let rightNode ← rightNode.setChild (keyPos - leftLoad + 1) right
    let c ← rightNode.getChild (keyPos - leftLoad)
    assertThat (c = left) "rightNode.get_child(key_pos - left_load) == left"
    let pivot ← leftNode.getKey pivotPos
    .ok (pivot, leftNode.setNumKeys (m / 2), rightNode)

end InternalNode

end DbToy
