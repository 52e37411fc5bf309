import DbToy.InternalNode
import DbToy.LeafNode
import DbToy.Lib.Interface
import DbToy.PagerRuns

/-!
# The B+ tree

`BPlusTree` of `btree.h` and `btree.cpp`, as programs over the requests that it makes of its pager
(`PageOp`).  The pointers `root_page` and `root`, which point to one page, are the tree's own
state; they are modelled, like every pointer into a page, by the id that `get_page` was given.

A node object is a view of its page: what a node operation writes lands in the page at once, so
each operation on a node is followed here by the write of its page, and a field that is read after
a write to another page is read again.

* `find`, `insert`, `postOrderVisit`, `selectCell`: the methods.
* `BPlusTree.new`: the constructor.
* `BPlusTree.handler`: the requests answered by a `BTreePager`.
-/

namespace DbToy

open Bytes

/-- What the tree asks of its pager and of its own root pointer. -/
inductive PageOp where
  | getPage (id : ℕ)
  /-- A write of the block through the pointer that `get_page(id)` gave. -/
  | writePage (id : ℕ) (page : Page)
  | allocatePage
  | getRootPage
  | setRootPage (id : ℕ)
  | numPages
  | getRoot
  | setRoot (id : ℕ)

def PageOp.Ans : PageOp → Type
  | getPage _ => Page
  | writePage _ _ => Unit
  | allocatePage => ℕ × Page
  | getRootPage => ℕ
  | setRootPage _ => Unit
  | numPages => ℕ
  | getRoot => Option ℕ
  | setRoot _ => Unit

abbrev PageM : Type → Type := Prog PageOp PageOp.Ans Fault

/-! ## Nodes -/

/-- `std::unique_ptr<BtreeNode>`. -/
inductive BtreeNode where
  | inner (node : InternalNode)
  | leaf (node : LeafNode)

namespace BtreeNode

/-- `LoadNodeFrom(page)`. -/
def loadNodeFrom (page : Page) : Except Fault BtreeNode :=
  if page.nodeType = nodeTypeInner then .ok (.inner (InternalNode.load page))
  else if page.nodeType = nodeTypeLeaf then do
    let node ← LeafNode.load page
    .ok (.leaf node)
  else .error (.thrown "Unknown Node Type")

def getNumKeys : BtreeNode → ℕ
  | inner node => node.numKeys
  | leaf node => node.numCells

def getKey : BtreeNode → ℕ → Except Fault UInt32
  | inner node => node.getKey
  | leaf node => node.getKey

def searchKeyPosition (node : BtreeNode) (key : UInt32) : Except Fault ℤ :=
  DbToy.searchKeyPosition node.getNumKeys node.getKey key

end BtreeNode

structure KeyLocation where
  pageId : ℕ
  rowId : ℕ
  isExist : Bool
  deriving DecidableEq, Repr

inductive InsertStatus where
  | success
  | failDuplicateKey
  deriving DecidableEq, Repr

/-- What the constructor keeps of its arguments. -/
structure TreeParams where
  rowSize : ℕ
  leafLoad : ℕ
  innerNodeLoad : ℕ

namespace BPlusTree

def getPage (id : ℕ) : PageM Page := Prog.request (PageOp.getPage id)

def writePage (id : ℕ) (page : Page) : PageM Unit := Prog.request (PageOp.writePage id page)

def allocatePage : PageM (ℕ × Page) := Prog.request PageOp.allocatePage

def getRootPage : PageM ℕ := Prog.request PageOp.getRootPage

def setRootPage (id : ℕ) : PageM Unit := Prog.request (PageOp.setRootPage id)

def getTotalPage : PageM ℕ := Prog.request PageOp.numPages

def getRoot : PageM (Option ℕ) := Prog.request PageOp.getRoot

def setRoot (id : ℕ) : PageM Unit := Prog.request (PageOp.setRoot id)

/-- `get_node_by(page_id)`. -/
def getNodeBy (id : ℕ) : PageM BtreeNode := do
  let page ← getPage id
  BtreeNode.loadNodeFrom page

/-- The block that `root_page` points to. -/
def rootBlock : PageM Page := do
  match ← getRoot with
  | none => Prog.fail .nullPointer
  | some id => getPage id

/-- `link_to(child, parent)`. -/
def linkTo (child parent : ℕ) : PageM Unit := do
  let page ← getPage child
  let _ ← (BtreeNode.loadNodeFrom page : Except Fault BtreeNode)
  writePage child (page.setParent parent)

/-- `if (root != nullptr) root->set_root(false)`: change bit of old root. -/
def unmarkRoot : PageM Unit := do
  match ← getRoot with
  | none => pure ()
  | some old => do
      let page ← getPage old
      writePage old (page.setRoot false)

/-- `update_root(page_id)`. -/
def updateRoot (id : ℕ) : PageM Unit := do
  unmarkRoot
  setRootPage id
  let page ← getPage id
  let _ ← (BtreeNode.loadNodeFrom page : Except Fault BtreeNode)
  setRoot id
  writePage id ((page.setRoot true).setParent nodeParentInvalid)

/-! ## Search -/

/-- The descent of `find`.  Nothing is written on the way, so a descent that makes more turns than
there are pages has met one of them twice and goes on for ever. -/
def findLoop (key : UInt32) : ℕ → ℕ → BtreeNode → PageM (ℕ × BtreeNode)
  | 0, _, _ => Prog.fail .diverges
  | _ + 1, pageId, .leaf node => pure (pageId, .leaf node)
  | fuel + 1, _, .inner node => do
      let pos ← (BtreeNode.searchKeyPosition (.inner node) key : Except Fault ℤ)
      let slot ← (if 0 ≤ pos then do
          let k ← node.getKey pos.toNat
          .ok (if k = key then pos.toNat else pos.toNat + 1)
        else .ok (pos + 1).toNat : Except Fault ℕ)
      let child ← (node.getChild slot : Except Fault ℕ)
      let node ← getNodeBy child
      findLoop key fuel child node

def find (key : UInt32) : PageM KeyLocation := do
  let pageId ← getRootPage
  let page ← rootBlock
  let curr ← (BtreeNode.loadNodeFrom page : Except Fault BtreeNode)
  if curr.getNumKeys = 0 then pure ⟨pageId, 0, false⟩
  else
    let (pageId, curr) ← findLoop key (tableMaxPages + 1) pageId curr
    let pos ← (curr.searchKeyPosition key : Except Fault ℤ)
    if 0 ≤ pos then
      let k ← (curr.getKey pos.toNat : Except Fault UInt32)
      if k = key then pure ⟨pageId, pos.toNat, true⟩
      else pure ⟨pageId, (pos + 1).toNat, false⟩
    else pure ⟨pageId, (pos + 1).toNat, false⟩

/-! ## Insertion -/

/-- A key that has to go into the inner node `parent`, between the pages `left` and `right`. -/
structure Upward where
  key : UInt32
  left : ℕ
  right : ℕ
  parent : ℕ

/-- `for (r = 0; r <= num_keys; ++r)`: make `parent` the parent of the children, from number `r`
on; `count` of them are left. -/
def relinkLoop (node : InternalNode) (parent : ℕ) : ℕ → ℕ → PageM Unit
  | 0, _ => pure ()
  | count + 1, r => do
      let child ← (node.getChild r : Except Fault ℕ)
      linkTo child parent
      relinkLoop node parent count (r + 1)

/-- When inner node splits, the parent link shall move too: where the two pages go depends on the
key between them and the pivot. -/
def linkHalves (up : Upward) (pivot : UInt32) (newPageId : ℕ) : PageM Unit :=
  if up.key < pivot then do
    linkTo up.left up.parent
    linkTo up.right up.parent
  else if pivot < up.key then do
    linkTo up.left newPageId
    linkTo up.right newPageId
  else do
    linkTo up.left up.parent
    linkTo up.right newPageId

/-- The loop of `insert` that posts the overflow on inner nodes: none when the job is done, else
what is left to do for the root.  Every turn that does not end the loop allocates a page. -/
def climb (P : TreeParams) : ℕ → Upward → PageM (Option Upward)
  | 0, _ => Prog.fail .diverges
  | fuel + 1, up => do
      if up.parent = nodeParentInvalid then pure (some up)
      else
        let page ← getPage up.parent
        let parentNode ← ((InternalNode.load page).setNodeLoad
          (min (InternalNode.load page).numMaxKeys P.innerNodeLoad) : Except Fault InternalNode)
        if parentNode.isFull = false then
          let parentNode ← (parentNode.insert up.key up.left up.right : Except Fault InternalNode)
          writePage up.parent parentNode.data
          let leftPage ← getPage up.left
          let _ ← (BtreeNode.loadNodeFrom leftPage : Except Fault BtreeNode)
          (assertThat (leftPage.parent = up.parent) "get_node_by(left)->parent() == parent" :
            Except Fault Unit)
          linkTo up.right up.parent
          pure none
        else
          let (newPageId, newPage) ← allocatePage
          let (pivot, leftNode, rightNode) ← (parentNode.insertAndSplit up.key up.left up.right
            newPage : Except Fault (UInt32 × InternalNode × InternalNode))
          writePage up.parent leftNode.data
          writePage newPageId rightNode.data
          linkHalves up pivot newPageId
          match ← getNodeBy newPageId with
          | .leaf _ => Prog.fail .nullPointer
          | .inner newRightNode =>
              relinkLoop newRightNode newPageId (newRightNode.numKeys + 1) 0
              let page ← getPage up.parent
              climb P fuel ⟨pivot, up.parent, newPageId, page.parent⟩

/-- The part of `insert` that works on the leaf: none when the row fits, else the overflow. -/
def insertToLeaf (P : TreeParams) (pageId : ℕ) (key : UInt32) (row : Row) :
    PageM (Option Upward) := do
  let page ← getPage pageId
  let leaf ← (LeafNode.load page : Except Fault LeafNode)
  let leaf ← (leaf.setNodeLoad (min leaf.numMaxCell P.leafLoad) : Except Fault LeafNode)
  if leaf.isFull = false then
    let leaf ← (leaf.insert key row : Except Fault LeafNode)
    writePage pageId leaf.data
    pure none
  else
    let (newPageId, newPage) ← allocatePage
    let (keyUpward, left, right) ← (leaf.insertAndSplit key row newPage :
      Except Fault (UInt32 × LeafNode × LeafNode))
    writePage pageId left.data
    writePage newPageId right.data
    pure (some ⟨keyUpward, pageId, newPageId, left.data.parent⟩)

/-- A new root above the two halves of the old one. -/
def growRoot (up : Upward) : PageM Unit := do
  let (newPageId, newPage) ← allocatePage
  let newRoot ← ((InternalNode.create newPage).insert up.key up.left up.right :
    Except Fault InternalNode)
  writePage newPageId newRoot.data
  linkTo up.left newPageId
  linkTo up.right newPageId
  updateRoot newPageId

/-- `insert(key, row)`. -/
def insert (P : TreeParams) (key : UInt32) (row : Row) : PageM InsertStatus := do
  let keyLocation ← find key
  if keyLocation.isExist = true then pure .failDuplicateKey
  else
    match ← insertToLeaf P keyLocation.pageId key row with
    | none => pure .success
    | some up =>
      match ← climb P (tableMaxPages + 1) up with
      | none => pure .success
      | some up => do
          growRoot up
          pure .success

/-! ## The visit -/

/-- What a visit does at the nodes and cells it meets, to a state `σ`; an action that is `nullptr`
does nothing and is not called.  A cell is given by its page and its place in it. -/
structure VisitActions (σ : Type) where
  innerNode : Option (ℕ → σ → PageM σ)
  leafNode : Option (ℕ → σ → PageM σ)
  leafCell : Option (ℕ → ℕ → σ → PageM σ)

/-- `while (i < n && get_key(i) < min_key) i += 1`, with `n - i` keys left. -/
def lowerLoop (node : InternalNode) (minKey : UInt32) : ℕ → ℕ → Except Fault ℕ
  | 0, i => .ok i
  | count + 1, i => do
      let k ← node.getKey i
      if k < minKey then lowerLoop node minKey count (i + 1) else .ok i

/-- `while (j >= 0 && get_key(j) >= max_key) j -= 1`; the argument and the result are `j + 1`. -/
def upperLoop (node : InternalNode) (maxKey : UInt32) : ℕ → Except Fault ℕ
  | 0 => .ok 0
  | j + 1 => do
      let k ← node.getKey j
      if maxKey ≤ k then upperLoop node maxKey j else .ok (j + 1)

/-- `j = n - 1` and that loop, for the `int` that the number of keys is read into; the result is
`j + 1`.  A number from `2 ^ 31` on is negative, and no key is looked at; `2 ^ 31` itself gives the
least `int`, which has nothing below it. -/
def upperScan (node : InternalNode) (maxKey : UInt32) (n : ℤ) : Except Fault ℤ :=
  if n = -2 ^ 31 then .error .intOverflow
  else if n < 0 then .ok n
  else do
    let j ← upperLoop node maxKey n.toNat
    .ok j

lemma upperScan_natCast (node : InternalNode) (maxKey : UInt32) (n : ℕ) :
    upperScan node maxKey n = (upperLoop node maxKey n).map (↑·) := by
  have hleast : (n : ℤ) ≠ -2 ^ 31 := by omega
  rw [upperScan, if_neg hleast, if_neg (not_lt_of_ge (Int.natCast_nonneg n)), Int.toNat_natCast]
  exact (map_eq_pure_bind _ _).symm

/-- The loop over the cells of a leaf, from number `k` on; `count` of them are left. -/
def cellLoop {σ : Type} (pageId : ℕ) (node : LeafNode) (action : ℕ → ℕ → σ → PageM σ)
    (minKey maxKey : UInt32) : ℕ → ℕ → σ → PageM σ
  | 0, _, s => pure s
  | count + 1, k, s => do
      let key ← (node.getKey k : Except Fault UInt32)
      if minKey ≤ key ∧ key ≤ maxKey then
        let cell ← (node.getCell k : Except Fault ℕ)
        let s ← action pageId cell s
        cellLoop pageId node action minKey maxKey count (k + 1) s
      else cellLoop pageId node action minKey maxKey count (k + 1) s

/-- All cells of a leaf, if there is an action for them; none where `int n` is negative. -/
def visitCells {σ : Type} (action : Option (ℕ → ℕ → σ → PageM σ)) (pageId : ℕ) (node : LeafNode)
    (minKey maxKey : UInt32) (s : σ) : PageM σ :=
  match action with
  | none => pure s
  | some action => cellLoop pageId node action minKey maxKey (toInt node.numCells).toNat 0 s

/-- The loop over the children of an inner node, from number `k` on; `count` of them are left. -/
def childLoop {σ : Type} (node : InternalNode) (visit : ℕ → σ → PageM σ) :
    ℕ → ℕ → σ → PageM σ
  | 0, _, s => pure s
  | count + 1, k, s => do
      let child ← (node.getChild k : Except Fault ℕ)
      let s ← visit child s
      childLoop node visit count (k + 1) s

/-- An action that may be `nullptr`. -/
def callAction {σ : Type} (action : Option (ℕ → σ → PageM σ)) (pageId : ℕ) (s : σ) : PageM σ :=
  match action with
  | none => pure s
  | some f => f pageId s

/-- `post_order_visit`.  The fuel bounds the depth: nodes nested deeper than there are pages are
nested in themselves. -/
def postOrderVisit {σ : Type} (actions : VisitActions σ) (minKey maxKey : UInt32) :
    ℕ → ℕ → σ → PageM σ
  | 0, _, _ => Prog.fail .diverges
  | fuel + 1, pageId, s => do
      if maxKey < minKey then pure s
      else
        let node ← getNodeBy pageId
        if node.getNumKeys = 0 then pure s
        else
          match node with
          | .inner node => do
              let n := toInt node.numKeys
              let i ← (lowerLoop node minKey n.toNat 0 : Except Fault ℕ)
              let j ← (upperScan node maxKey n : Except Fault ℤ)
              (assertThat ((i : ℤ) ≤ j) "i <= j + 1" : Except Fault Unit)
              let s ← childLoop node (postOrderVisit actions minKey maxKey fuel) (j + 1 - i).toNat
                i s
              callAction actions.innerNode pageId s
          | .leaf node => do
              let s ← visitCells actions.leafCell pageId node minKey maxKey s
              callAction actions.leafNode pageId s

/-- `select_cell(min_val, max_val)`: where the cells are. -/
def selectCell (minVal maxVal : UInt32) : PageM (List (ℕ × ℕ)) := do
  let rootPid ← getRootPage
  postOrderVisit ⟨none, none, some fun pageId cell result => pure (result ++ [(pageId, cell)])⟩
    minVal maxVal (tableMaxPages + 1) rootPid []

/-- What a client reads through the pointer to a cell: `extract_key` and `rowSize` bytes from
`extract_value` on. -/
def readCell (rowSize : ℕ) (cell : ℕ × ℕ) : PageM (UInt32 × Row) := do
  let page ← getPage cell.1
  let key ← (page.load cell.2 4 : Except Fault (List UInt8))
  let value ← (page.load (cell.2 + leafNodeValueOffset) rowSize : Except Fault (List UInt8))
  pure (UInt32.ofNat (decodeLE key), value)

def readCells (rowSize : ℕ) : List (ℕ × ℕ) → PageM (List (UInt32 × Row))
  | [] => pure []
  | cell :: rest => do
      let c ← readCell rowSize cell
      let cs ← readCells rowSize rest
      pure (c :: cs)

/-- `select_cell` by a client that reads every cell of the result. -/
def selectRows (rowSize : ℕ) (minVal maxVal : UInt32) : PageM (List (UInt32 × Row)) := do
  let result ← selectCell minVal maxVal
  readCells rowSize result

/-- The cell at a location that `find` gave. -/
def readLocation (rowSize : ℕ) (loc : KeyLocation) : PageM (UInt32 × Row) := do
  let page ← getPage loc.pageId
  let node ← (LeafNode.load page : Except Fault LeafNode)
  let cell ← (node.getCell loc.rowId : Except Fault ℕ)
  readCell rowSize (loc.pageId, cell)

/-- `find` by a client that reads the cell if the key exists. -/
def findRow (rowSize : ℕ) (key : UInt32) : PageM (KeyLocation × Option (UInt32 × Row)) := do
  let loc ← find key
  if loc.isExist = true then
    let cell ← readLocation rowSize loc
    pure (loc, some cell)
  else pure (loc, none)

/-! ## The constructor -/

/-- When start from empty tree one must init the root page to a leaf node. -/
def createRoot (P : TreeParams) : PageM Unit := do
  let (pid, page) ← allocatePage
  let leaf ← (LeafNode.create page P.rowSize : Except Fault LeafNode)
  -- set parent of root to invalid
  writePage pid (leaf.data.setParent nodeParentInvalid)
  updateRoot pid

/-- When the tree is not first open we load its page from disk. -/
def loadRoot : PageM Unit := do
  let pid ← getRootPage
  let page ← getPage pid
  let _ ← (BtreeNode.loadNodeFrom page : Except Fault BtreeNode)
  setRoot pid

/-- Check root bit. -/
def checkRoot : PageM Unit := do
  let page ← rootBlock
  (assertThat (page.isRoot = true) "root->is_root()" : Except Fault Unit)

/-- The body of the constructor, after the pager has been opened with `mode`. -/
def init (P : TreeParams) (mode : Char) : PageM Unit := do
  if mode = 'c' then createRoot P else loadRoot
  checkRoot

end BPlusTree

/-! ## A tree on a pager -/

/-- A tree object: its pager, its root pointer, and what `malloc` will hand out to it. -/
structure BPlusTree where
  pager : BTreePager
  root : Option ℕ
  malloc : ℕ → Page

namespace BPlusTree

/-- The requests answered by the pager. -/
def handler : Handler PageOp PageOp.Ans Fault BPlusTree
  | .getPage id, t => do
      let (page, pager) ← t.pager.getPage t.malloc id
      .ok (page, { t with pager := pager })
  | .writePage id page, t => do
      let pager ← t.pager.writePage t.malloc id page
      .ok ((), { t with pager := pager })
  | .allocatePage, t => do
      let (new, pager) ← t.pager.allocatePage t.malloc
      .ok (new, { t with pager := pager })
  | .getRootPage, t => .ok (t.pager.getRootPage, t)
  | .setRootPage id, t => .ok ((), { t with pager := t.pager.setRootPage (id % 2 ^ 64) })
  | .numPages, t => .ok (t.pager.numPages, t)
  | .getRoot, t => .ok (t.root, t)
  | .setRoot id, t => .ok ((), { t with root := some id })

/-- `BPlusTree(path, mode, row_size, leaf_node_load, inner_node_load)`. -/
def new (P : TreeParams) (file : Option (List UInt8)) (mode : Char) (counts : ℕ → ℕ)
    (malloc : ℕ → Page) : Except Fault BPlusTree := do
  let pager ← BTreePager.new file mode counts
  let (_, t) ← (init P mode).run handler { pager := pager, root := none, malloc := malloc }
  .ok t

/-- `~BPlusTree()`: the content of the file afterwards. -/
def destroy (t : BPlusTree) : Except Fault (List UInt8) := t.pager.destroy

end BPlusTree

end DbToy
