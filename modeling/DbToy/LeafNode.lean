import DbToy.BtreeNode

/-!
# Leaf nodes

`LeafNode` of `btree.h`: a page that holds cells of a 4 byte key and `row_size` bytes of value,
behind the header of number of cells and row size.

A node is a view of its page: the operations take the view and return it with the page as it is
afterwards.  `Row` stands for the bytes that `Row::serialize` writes.
-/

namespace DbToy

open Bytes

def leafNodeNumCellsOffset : ℕ := commonNodeHeaderSize
def leafNodeRowsizeOffset : ℕ := leafNodeNumCellsOffset + 4
def leafNodeHeaderSize : ℕ := commonNodeHeaderSize + 4 + 4
def leafNodeValueOffset : ℕ := 4
def leafNodeSpaceForCells : ℕ := pageSize - leafNodeHeaderSize

structure LeafNode where
  data : Page
  rowSize : ℕ
  cellSize : ℕ
  numMaxCell : ℕ

namespace LeafNode

/-- The number of cells that fit, made even. -/
def capacity (cellSize : ℕ) : ℕ :=
  let n := leafNodeSpaceForCells / cellSize
  if n % 2 = 1 then n - 1 else n

/-- `LeafNode(page, row_size)`: make the page an empty leaf.  Root flag and parent are not
written. -/
def create (page : Page) (rowSize : ℕ) : Except Fault LeafNode := do
  let cellSize := (4 + rowSize) % 2 ^ 32
  if cellSize = 0 then .error .divisionByZero
  else
    let data := page.setU32 leafNodeNumCellsOffset 0
    assertThat (0 < capacity cellSize) "num_max_cell > 0"
    let data := data.setNodeType nodeTypeLeaf
    .ok { data := data.setU32 leafNodeRowsizeOffset rowSize, rowSize := rowSize,
          cellSize := cellSize, numMaxCell := capacity cellSize }

/-- `LeafNode(page)`: build the node from the page. -/
def load (page : Page) : Except Fault LeafNode := do
  let rowSize := page.u32 leafNodeRowsizeOffset
  let cellSize := (4 + rowSize) % 2 ^ 32
  if cellSize = 0 then .error .divisionByZero
  else
    assertThat (0 < capacity cellSize) "num_max_cell > 0"
    .ok { data := page, rowSize := rowSize, cellSize := cellSize,
          numMaxCell := capacity cellSize }

def setNodeLoad (n : LeafNode) (size : ℕ) : Except Fault LeafNode := do
  assertThat (size % 2 = 0 ∧ 0 < size) "size % 2 == 0 && size > 0"
  .ok { n with numMaxCell := size }

def numCells (n : LeafNode) : ℕ := n.data.u32 leafNodeNumCellsOffset

def setNumCells (n : LeafNode) (v : ℕ) : LeafNode :=
  { n with data := n.data.setU32 leafNodeNumCellsOffset v }

def isFull (n : LeafNode) : Bool := n.numCells == n.numMaxCell

/-- `get_cell(cell_num)`: where the cell starts in the page. -/
def getCell (n : LeafNode) (cellNum : ℕ) : Except Fault ℕ := do
  assertThat (cellNum < n.numCells) "cell_num < num_cells()"
  .ok (leafNodeHeaderSize + cellNum * n.cellSize % 2 ^ 32)

/-- `allocate_cell()`: the place of the new cell, none when no slot is available. -/
def allocateCell (n : LeafNode) : Option ℕ × LeafNode :=
  let m := n.numCells
  if m = n.numMaxCell then (none, n)
  else (some (leafNodeHeaderSize + m * n.cellSize % 2 ^ 32), n.setNumCells (m + 1))

def getKey (n : LeafNode) (cellNum : ℕ) : Except Fault UInt32 := do
  let cell ← n.getCell cellNum
  let bs ← n.data.load cell 4
  .ok (UInt32.ofNat (decodeLE bs))

/-- `get_key(cell_num) = key`. -/
def setKey (n : LeafNode) (cellNum : ℕ) (key : UInt32) : Except Fault LeafNode := do
  let cell ← n.getCell cellNum
  let data ← n.data.store cell (encodeLE 4 key.toNat)
  .ok { n with data := data }

/-- `value->serialize(get_value(cell_num))`. -/
def serialize (n : LeafNode) (cellNum : ℕ) (value : Row) : Except Fault LeafNode := do
  let cell ← n.getCell cellNum
  let data ← n.data.store (cell + leafNodeValueOffset) value
  .ok { n with data := data }

/-- `memcpy(dst.get_cell(j), src.get_cell(i), cell_size)`, with the cell size of `src`. -/
def copyCell (dst : LeafNode) (j : ℕ) (src : LeafNode) (i : ℕ) : Except Fault LeafNode := do
  let dstCell ← dst.getCell j
  let srcCell ← src.getCell i
  let bs ← src.data.load srcCell src.cellSize
  let data ← dst.data.store dstCell bs
  .ok { dst with data := data }

/-! ## Insertion -/

/-- The loop of `insert`: move the cells with a greater key up by one, from the end.  The cell
`i` is free. -/
def insertLoop (key : UInt32) : ℕ → LeafNode → Except Fault (ℕ × LeafNode)
  | 0, n => .ok (0, n)
  | i + 1, n => do
      let k ← n.getKey i
      if key < k then
        let n ← n.copyCell (i + 1) n i
        insertLoop key i n
      else .ok (i + 1, n)

/-- `insert(key, value)`: duplicates are not checked. -/
def insert (n : LeafNode) (key : UInt32) (value : Row) : Except Fault LeafNode := do
  assertThat (n.numCells < n.numMaxCell) "num_cells() < num_max_cell"
  let m := n.numCells
  let n := n.allocateCell.2
  let (i, n) ← insertLoop key m n
  let n ← n.setKey i key
  n.serialize i value

/-! ## Split -/

/-- The loop that finds where the key goes: `key_pos == 0` or `get_key(key_pos - 1) <= key`. -/
def keyPosLoop (n : LeafNode) (key : UInt32) : ℕ → Except Fault ℕ
  | 0 => .ok 0
  | pos + 1 => do
      let k ← n.getKey pos
      if key < k then keyPosLoop n key pos else .ok (pos + 1)

/-- The assertion after that loop. -/
def keyPosCheck (n : LeafNode) (key : UInt32) (keyPos : ℕ) : Except Fault Unit := do
  let text := "key_pos == 0 && key < get_key(key_pos) || key_pos > 0 && get_key(key_pos - 1) < key"
  if keyPos = 0 then
    let k ← n.getKey keyPos
    assertThat (key < k) text
  else
    let k ← n.getKey (keyPos - 1)
    assertThat (k < key) text

/-- `allocate_cell()` called `count` times. -/
def allocateCells : ℕ → LeafNode → LeafNode
  | 0, n => n
  | count + 1, n => allocateCells count n.allocateCell.2

/-- The loop that moves the cells below `i` to their places in the two nodes, from the end. -/
def moveLoop (keyPos leftLoad : ℕ) :
    ℕ → LeafNode × LeafNode → Except Fault (LeafNode × LeafNode)
  | 0, nodes => .ok nodes
  | i + 1, (left, right) => do
      let idx := i + if keyPos ≤ i then 1 else 0
      if idx < leftLoad then
        if i = idx then moveLoop keyPos leftLoad i (left, right)
        else
          let left ← left.copyCell idx left i
          moveLoop keyPos leftLoad i (left, right)
      else
        let right ← right.copyCell (idx - leftLoad) left i
        moveLoop keyPos leftLoad i (left, right)

/-- `insert_and_split(key, value, new_page)`: the pivot, the node and the new right node. -/
def insertAndSplit (n : LeafNode) (key : UInt32) (value : Row) (newPage : Page) :
    Except Fault (UInt32 × LeafNode × LeafNode) := do
  assertThat (n.isFull = true) "isFull()"
  let right ← create newPage n.rowSize
  let m := n.numCells
  let keyPos ← keyPosLoop n key m
  keyPosCheck n key keyPos
  let leftLoad := m / 2 + 1
  let rightLoad := m / 2
  let right := allocateCells rightLoad right
  let (left, right) ← moveLoop keyPos leftLoad m (n, right)
  if keyPos < leftLoad then
    let left ← left.setKey keyPos key
    let left ← left.serialize keyPos value
    let left := left.setNumCells leftLoad
    let pivot ← left.getKey (leftLoad - 1)
    .ok (pivot, left, right)
  else
    let right ← right.setKey (keyPos - leftLoad) key
    let right ← right.serialize (keyPos - leftLoad) value
    let left := left.setNumCells leftLoad
    let pivot ← left.getKey (leftLoad - 1)
    .ok (pivot, left, right)

end LeafNode

end DbToy
