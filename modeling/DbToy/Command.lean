import DbToy.Sessions
import DbToy.UserInfo

/-!
# Commands

`parse` makes a command of a line, and `Command.evaluate` carries it out.  Each gives, besides its
result, what it writes to the standard output.
-/

namespace DbToy

open Istream

inductive ExecuteStatus where
  | executeSuccess
  | executeFail
  | duplicateKey
  | tableFull

/-- `Exit`, `SelectUsingBtree`, and `InsertToBtree` with its row. -/
inductive Command where
  | exit
  | select
  | insert (row : UserInfo)

/-- `parse(cmd)`, where `mem` is what a new row finds in memory. -/
def parse (mem : Uninit) (cmd : List UInt8) : Except Fault (Option Command × List UInt8) :=
  if cmd = bytesOf ".exit" then .ok (some .exit, [])
  else if cmd = bytesOf "select" then .ok (some .select, [])
  else if cmd.take 6 = bytesOf "insert" then do
    -- insert 1 cstack foo@bar.com
    let row ← (UserInfo.new mem).fromString mem (cmd.drop 6)
    .ok (some (.insert row), [])
  else .ok (none, bytesOf "Unrecognized command '" ++ cmd ++ bytesOf "'.\n")

/-- The loop over the selected cells: each row is loaded and printed. -/
def printRows : List (UInt32 × Row) → Except Fault (List UInt8)
  | [] => .ok []
  | cell :: cells => do
      let row ← UserInfo.deserialize cell.2
      let line ← row.toString
      let lines ← printRows cells
      .ok (line ++ bytesOf "\n" ++ lines)

/-- What becomes of the process. -/
inductive Evaluated where
  /-- The command has a result; the session goes on. -/
  | result (status : ExecuteStatus) (session : Session) (said : List UInt8)
  /-- `exit(EXIT_SUCCESS)`: the tree is destroyed, and the file stays. -/
  | exited (file : List UInt8)

namespace Session

/-- Run a method of the tree. -/
def method {α : Type} (S : Session) (p : PageM α) : Except Fault (α × Session) := do
  let (a, tree) ← p.run BPlusTree.handler S.tree
  .ok (a, { S with tree := tree })

end Session

/-- `evaluate()`. -/
def Command.evaluate (S : Session) : Command → Except Fault Evaluated
  | .exit => do
      let file ← S.tree.destroy
      .ok (.exited file)
  | .select => do
      let (results, S) ← S.method (BPlusTree.selectRows S.params.rowSize 0 uint32Max)
      let lines ← printRows results
      .ok (.result .executeSuccess S
        ((if results.length = 0 then bytesOf "no entries found\n" else []) ++ lines))
  | .insert row => do
      let (status, S) ← S.method (BPlusTree.insert S.params row.getPrimaryKey row.serialize)
      match status with
      | .success => .ok (.result .executeSuccess S [])
      | .failDuplicateKey => .ok (.result .duplicateKey S [])

end DbToy
