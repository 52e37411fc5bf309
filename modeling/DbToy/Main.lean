import DbToy.Command

/-!
# The shell

`main` opens the tree and then turns in a loop: prompt, read a line, parse it, evaluate the command
and report its status.  The loop has no way out but the command `.exit`; `turns` runs it for some
number of turns.
-/

namespace DbToy

open Istream

/-- The arguments that the shell opens its tree with. -/
def mainParams : TreeParams := ⟨UserInfo.getRowByte, 10000, 1000⟩

/-- `initalize(dbpath)`: the tree is opened if the path exists, and created otherwise. -/
def initalize (file : Option (List UInt8)) (counts : ℕ → ℕ) (malloc : ℕ → Page) :
    Except Fault Session := do
  let mode := if file.isSome = true then 'o' else 'c'
  let tree ← BPlusTree.new mainParams file mode counts malloc
  .ok ⟨mainParams, tree⟩

/-- The shell between two turns: its tree, the input that is left, the output so far, and what the
rows of the turns to come find in memory. -/
structure Shell where
  session : Session
  stdin : List UInt8
  stdout : List UInt8
  memory : ℕ → Uninit

inductive Process where
  | running (shell : Shell)
  | exited (file : List UInt8) (stdout : List UInt8)

def prompt : List UInt8 := bytesOf "db > "

/-- What `main` says about the status of a command. -/
def report : ExecuteStatus → List UInt8
  | .duplicateKey => bytesOf "insert error: duplicate key, insertion ignored\n"
  | .executeFail => bytesOf "execute command error, command ignored\n"
  | _ => []

/-- What comes of the evaluation of a command: the next turn or the end. -/
def Shell.finish (shell : Shell) : Evaluated → Process
  | .exited file => .exited file shell.stdout
  | .result status session said =>
      .running { shell with session := session, stdout := shell.stdout ++ said ++ report status }

/-- The body of the loop of `main`. -/
def Shell.turn (shell : Shell) : Except Fault Process := do
  let (cmd, stdin) := getline shell.stdin
  let (query, said) ← parse (shell.memory 0) cmd
  let shell : Shell :=
    { shell with
      stdin := stdin
      stdout := shell.stdout ++ prompt ++ said
      memory := fun i => shell.memory (i + 1) }
  match query with
  | none => .ok (.running shell)
  | some query => do
      let evaluated ← query.evaluate shell.session
      .ok (shell.finish evaluated)

/-- `main` after so many turns of its loop. -/
def turns : ℕ → Process → Except Fault Process
  | n + 1, .running shell => do
      let process ← shell.turn
      turns n process
  | _, process => .ok process

/-- `main` when its loop begins. -/
def main (file : Option (List UInt8)) (counts : ℕ → ℕ) (malloc : ℕ → Page) (memory : ℕ → Uninit)
    (stdin : List UInt8) : Except Fault Process := do
  let session ← initalize file counts malloc
  .ok (.running ⟨session, stdin, [], memory⟩)

end DbToy
