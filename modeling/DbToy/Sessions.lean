import DbToy.BPlusTree
import DbToy.Lib.Runs

/-!
# Sessions with a tree

A client opens a tree, calls its methods in any order, and may destroy it and open its file again,
with the same loads or with others: the file does not record them.  `TreeCall` lists what it may
do, `Session.answer` what the tree object does, and `Session.runCalls` runs a whole session.
-/

namespace DbToy

inductive TreeCall where
  | insert (key : UInt32) (row : Row)
  | find (key : UInt32)
  | select (minVal maxVal : UInt32)
  | getRootPage
  | getTotalPage
  /-- Destroy the tree and open the file with mode 'o' and these loads; `counts` is for the new
  descriptor, and `malloc` hands out the blocks from then on. -/
  | reopen (leafLoad innerNodeLoad : ℕ) (counts : ℕ → ℕ) (malloc : ℕ → Page)

/-- What a call returns to the client. -/
inductive TreeReply where
  | status (status : InsertStatus)
  | location (loc : KeyLocation) (cell : Option (UInt32 × Row))
  | rows (cells : List (UInt32 × Row))
  | number (n : ℕ)
  | reopened
  deriving DecidableEq

/-- A tree object with the arguments of its constructor. -/
structure Session where
  params : TreeParams
  tree : BPlusTree

namespace Session

/-- Run a method. -/
def call {α : Type} (S : Session) (p : PageM α) (reply : α → TreeReply) :
    Except Fault (TreeReply × Session) := do
  let (a, tree) ← p.run BPlusTree.handler S.tree
  .ok (reply a, { S with tree := tree })

def answer : TreeCall → Session → Except Fault (TreeReply × Session)
  | .insert key row, S => S.call (BPlusTree.insert S.params key row) .status
  | .find key, S => S.call (BPlusTree.findRow S.params.rowSize key) fun r => .location r.1 r.2
  | .select minVal maxVal, S => S.call (BPlusTree.selectRows S.params.rowSize minVal maxVal) .rows
  | .getRootPage, S => S.call BPlusTree.getRootPage .number
  | .getTotalPage, S => S.call BPlusTree.getTotalPage .number
  | .reopen leafLoad innerNodeLoad counts malloc, S => do
      let params := { S.params with leafLoad := leafLoad, innerNodeLoad := innerNodeLoad }
      let file ← S.tree.destroy
      let tree ← BPlusTree.new params (some file) 'o' counts malloc
      .ok (.reopened, ⟨params, tree⟩)

/-- A whole session. -/
def runCalls : List TreeCall → Session → Except Fault (List TreeReply × Session) :=
  Runs.runAll answer

/-- `BPlusTree(path, 'c', row_size, leaf_load, inner_node_load)`. -/
def create (P : TreeParams) (file : Option (List UInt8)) (counts : ℕ → ℕ) (malloc : ℕ → Page) :
    Except Fault Session := do
  let tree ← BPlusTree.new P file 'c' counts malloc
  .ok ⟨P, tree⟩

end Session

end DbToy
