import DbToy.Main
import DbToy.TreeRefinement

/-!
# Turns of the shell

What one turn of the loop of `main` does, when the pages of its tree store a dictionary of rows
that can be printed: `turn_spec` gives the five ways it can go.

* `evaluate_insert`, `evaluate_select`: what the commands do to the dictionary.
* `initalize_found`: the shell starts with an empty dictionary, or with the one that an earlier
  process has left in the file (`initalize_saved`).
-/

namespace DbToy

open SearchTree Istream

lemma mainParams_valid : mainParams.Valid := ⟨by decide, by decide, by decide⟩

/-! ## Evaluation -/

namespace Session

variable {S : Session}

lemma call_eq_method {α : Type} (p : PageM α) (reply : α → TreeReply) :
    S.call p reply = (S.method p).map fun q => (reply q.1, q.2) := by
  rw [call, method]
  cases p.run BPlusTree.handler S.tree <;> rfl

lemma method_of_call_ok {α : Type} {p : PageM α} {reply : α → TreeReply} {r : TreeReply}
    {S' : Session} (h : S.call p reply = .ok (r, S')) :
    ∃ a, S.method p = .ok (a, S') ∧ reply a = r := by
  rw [call_eq_method] at h
  cases hm : S.method p with
  | error e => rw [hm] at h; exact nomatch h
  | ok q =>
      rw [hm] at h
      cases h
      exact ⟨q.1, rfl, rfl⟩

lemma method_of_call_error {α : Type} {p : PageM α} {reply : α → TreeReply} {e : Fault}
    (h : S.call p reply = .error e) : S.method p = .error e := by
  rw [call_eq_method] at h
  cases hm : S.method p with
  | error f => rw [hm] at h; cases h; rfl
  | ok q => rw [hm] at h; exact nomatch h

end Session

namespace Dictionary

variable {D : Dictionary}

/-- Every row can be printed: it was made of a `UserInfo` whose strings end. -/
def Printable (D : Dictionary) : Prop :=
  ∀ c ∈ D.cells, ∃ u : UserInfo, c.2 = u.serialize ∧ ∃ line, u.toString = .ok line

lemma printRows_of_printable : ∀ {cells : List (UInt32 × Row)},
    (∀ c ∈ cells, ∃ u : UserInfo, c.2 = u.serialize ∧ ∃ line, u.toString = .ok line) →
      ∃ out, printRows cells = .ok out
  | [], _ => ⟨[], rfl⟩
  | c :: cells, h => by
      obtain ⟨u, hu, line, hline⟩ := h c List.mem_cons_self
      obtain ⟨out, hout⟩ := printRows_of_printable fun d hd => h d (List.mem_cons_of_mem _ hd)
      refine ⟨line ++ bytesOf "\n" ++ out, ?_⟩
      rw [printRows, hu, UserInfo.deserialize_serialize, ok_bind, hline, ok_bind, hout, ok_bind]

end Dictionary

section Evaluate

variable {S : Session} {D : Dictionary} (hS : S.Mirrors D) (hD : D.Steady mainParams)

include hS hD

/-- **`insert`**: the row is taken, refused, or one too many for the page table. -/
theorem evaluate_insert (row : UserInfo) :
    (row.getPrimaryKey ∈ D.cells.map Prod.fst ∧ ∃ S', S'.Mirrors D ∧
      Command.evaluate S (.insert row) = .ok (.result .duplicateKey S' [])) ∨
    (row.getPrimaryKey ∉ D.cells.map Prod.fst ∧
      ((∃ S', S'.Mirrors (D.put (row.getPrimaryKey, row.serialize)) ∧
          (D.put (row.getPrimaryKey, row.serialize)).numPages ≤ tableMaxPages ∧
          Command.evaluate S (.insert row) = .ok (.result .executeSuccess S' [])) ∨
        (tableMaxPages < (D.put (row.getPrimaryKey, row.serialize)).numPages ∧
          Command.evaluate S (.insert row) = .error (.pageIndex tableMaxPages)))) := by
  have hsized : Dictionary.SameLoads mainParams (.insert row.getPrimaryKey row.serialize) :=
    row.length_serialize
  have hagree := hS.answer (hD.admits hsized)
  rw [Dictionary.answer] at hagree
  by_cases hmem : row.getPrimaryKey ∈ D.cells.map Prod.fst
  · rw [if_pos hmem] at hagree
    obtain ⟨S', hcall, hmirrors⟩ := hagree.exists_ok
    obtain ⟨status, hmethod, hstatus⟩ := Session.method_of_call_ok hcall
    cases hstatus
    refine Or.inl ⟨hmem, S', hmirrors, ?_⟩
    rw [Command.evaluate, hmethod, ok_bind]
  · rw [if_neg hmem] at hagree
    refine Or.inr ⟨hmem, ?_⟩
    split_ifs at hagree with hroom
    · obtain ⟨S', hcall, hmirrors⟩ := hagree.exists_ok
      obtain ⟨status, hmethod, hstatus⟩ := Session.method_of_call_ok hcall
      cases hstatus
      refine Or.inl ⟨S', hmirrors, hroom, ?_⟩
      rw [Command.evaluate, hmethod, ok_bind]
    · have hmethod := Session.method_of_call_error hagree.eq_error
      exact Or.inr ⟨not_le.mp hroom, by rw [Command.evaluate, hmethod, error_bind]⟩

/-- **`select`**: every row is printed, in the order of the keys. -/
theorem evaluate_select {out : List UInt8} (hout : printRows D.cells = .ok out) :
    ∃ S', S'.Mirrors D ∧ Command.evaluate S .select = .ok (.result .executeSuccess S'
      ((if D.cells.length = 0 then bytesOf "no entries found\n" else []) ++ out)) := by
  have hagree := hS.answer (hD.admits (c := .select 0 uint32Max) trivial)
  obtain ⟨S', hcall, hmirrors⟩ := hagree.exists_ok
  obtain ⟨cells, hmethod, hcells⟩ := Session.method_of_call_ok hcall
  have hall : D.cells.filter (inRange 0 uint32Max) = D.cells := by
    refine List.filter_eq_self.mpr ?_
    intro c _
    rw [inRange, decide_eq_true_eq]
    exact ⟨zero_le_uint32 c.1, le_uint32Max c.1⟩
  rw [hall] at hcells
  cases hcells
  refine ⟨S', hmirrors, ?_⟩
  rw [Command.evaluate, hmethod, ok_bind]
  show (printRows D.cells >>= _) = _
  rw [hout, ok_bind]

end Evaluate

/-! ## The start -/

/-- The file holds the dictionary: a process that had it in its tree has left the file. -/
def Saved (file : List UInt8) (D : Dictionary) : Prop :=
  ∃ S : Session, S.Mirrors D ∧ S.tree.destroy = .ok file

/-- What the shell finds: no file and hence an empty dictionary, or a file of an earlier process. -/
def Found (file : Option (List UInt8)) (D : Dictionary) : Prop :=
  match file with
  | none => D = .create mainParams
  | some file => Saved file D ∧ D.Steady mainParams ∧ D.Printable

lemma Session.Mirrors.exists_saved {S : Session} {D : Dictionary} (h : S.Mirrors D) :
    ∃ file, S.tree.destroy = .ok file ∧ Saved file D := by
  obtain ⟨s, hs⟩ := h
  obtain ⟨file, -, hdestroy, -⟩ := BPlusTree.reopen_stores hs.valid hs.represents hs.stores
    (fun _ => 0) s.malloc
  exact ⟨file, hdestroy, S, ⟨s, hs⟩, hdestroy⟩

/-- **A saved file opens** to the dictionary that it holds. -/
theorem initalize_saved {file : List UInt8} {D : Dictionary} (h : Saved file D)
    (hD : D.Steady mainParams) (counts : ℕ → ℕ) (malloc : ℕ → Page) :
    ∃ S, initalize (some file) counts malloc = .ok S ∧ S.Mirrors D := by
  obtain ⟨S, ⟨s, hs⟩, hdestroy⟩ := h
  have hparams := hD.params_eq
  have hstores := hs.stores
  rw [hparams] at hstores
  obtain ⟨file', t, hdestroy', hnew, hrep, hstores'⟩ :=
    BPlusTree.reopen_stores mainParams_valid hs.represents hstores counts malloc
  cases hdestroy.symm.trans hdestroy'
  refine ⟨⟨mainParams, t⟩, ?_, _, hparams.symm, hs.valid, hrep, hparams.symm ▸ hstores', hs.numPages⟩
  rw [initalize]
  show (BPlusTree.new mainParams (some file) 'o' counts malloc >>= _) = _
  rw [hnew, ok_bind]

lemma Found.none : Found .none (.create mainParams) := rfl

theorem initalize_found {file : Option (List UInt8)} {D : Dictionary} (h : Found file D)
    (counts : ℕ → ℕ) (malloc : ℕ → Page) :
    ∃ S, initalize file counts malloc = .ok S ∧ S.Mirrors D ∧ D.Steady mainParams ∧
      D.Printable := by
  cases file with
  | none =>
      obtain rfl : D = .create mainParams := h
      obtain ⟨S, hcreate, hmirrors⟩ :=
        Session.create_mirrors mainParams_valid none counts malloc
      exact ⟨S, hcreate, hmirrors, Dictionary.create_steady mainParams_valid,
        fun c hc => absurd hc List.not_mem_nil⟩
  | some file =>
      obtain ⟨hsaved, hsteady, hprintable⟩ := h
      obtain ⟨S, hS, hmirrors⟩ := initalize_saved hsaved hsteady counts malloc
      exact ⟨S, hS, hmirrors, hsteady, hprintable⟩

/-- The file determines what a shell finds in it. -/
lemma Found.unique {file : Option (List UInt8)} {D D' : Dictionary} (h : Found file D)
    (h' : Found file D') : D = D' := by
  obtain ⟨S, hS, hmirrors, -⟩ := initalize_found h (fun _ => 0) fun _ => Page.filled 0
  obtain ⟨S', hS', hmirrors', -⟩ := initalize_found h' (fun _ => 0) fun _ => Page.filled 0
  cases hS.symm.trans hS'
  exact hmirrors.unique hmirrors'

/-! ## One turn -/

/-- The line is taken for an insertion. -/
def IsInsert (cmd : List UInt8) : Prop := cmd.take 6 = bytesOf "insert"

instance (cmd : List UInt8) : Decidable (IsInsert cmd) := inferInstanceAs (Decidable (_ = _))

lemma IsInsert.ne_exit {cmd : List UInt8} (h : IsInsert cmd) : cmd ≠ bytesOf ".exit" := by
  rintro rfl
  exact absurd h (by decide)

lemma IsInsert.ne_select {cmd : List UInt8} (h : IsInsert cmd) : cmd ≠ bytesOf "select" := by
  rintro rfl
  exact absurd h (by decide)

lemma parse_insert {mem : Uninit} {cmd : List UInt8} (hcmd : IsInsert cmd) :
    parse mem cmd = (do
      let row ← (UserInfo.new mem).fromString mem (cmd.drop 6)
      .ok (some (.insert row), [])) := by
  rw [parse, if_neg hcmd.ne_exit, if_neg hcmd.ne_select]
  exact if_pos hcmd

/-- The fields of an insertion: what can be read behind the first six bytes. -/
def fieldsOf (mem : Uninit) (cmd : List UInt8) : ℤ × List UInt8 × List UInt8 :=
  (UserInfo.readFields mem (cmd.drop 6)).1

lemma readFields_eq (mem : Uninit) (cmd : List UInt8) :
    (UserInfo.readFields mem (cmd.drop 6)).1
      = ((fieldsOf mem cmd).1, (fieldsOf mem cmd).2.1, (fieldsOf mem cmd).2.2) := rfl

/-- The key of an insertion. -/
def keyOf (mem : Uninit) (cmd : List UInt8) : UInt32 := (Int32.ofInt (fieldsOf mem cmd).1).toUInt32

/-- Both strings of an insertion fit their columns. -/
def FitsColumns (mem : Uninit) (cmd : List UInt8) : Prop :=
  UserInfo.FitColumns (fieldsOf mem cmd).2.1 (fieldsOf mem cmd).2.2

instance (mem : Uninit) (cmd : List UInt8) : Decidable (FitsColumns mem cmd) :=
  inferInstanceAs (Decidable (UserInfo.FitColumns _ _))

namespace Shell

variable (shell : Shell)

/-- The line that the turn reads. -/
def cmd : List UInt8 := (getline shell.stdin).1

/-- The shell after a turn. -/
def after (session : Session) (said : List UInt8) : Shell where
  session := session
  stdin := (getline shell.stdin).2
  stdout := shell.stdout ++ prompt ++ said
  memory := fun i => shell.memory (i + 1)

/-- How a turn can go, from a dictionary `D`. -/
inductive Turn (D : Dictionary) : Except Fault Process → Prop
  /-- `.exit`: the tree is saved. -/
  | exit (file : List UInt8) : shell.cmd = bytesOf ".exit" → Saved file D →
      Turn D (.ok (.exited file (shell.stdout ++ prompt)))
  /-- The dictionary stays as it is. -/
  | same (session : Session) (said : List UInt8) : shell.cmd ≠ bytesOf ".exit" →
      (IsInsert shell.cmd → FitsColumns (shell.memory 0) shell.cmd ∧
        keyOf (shell.memory 0) shell.cmd ∈ D.cells.map Prod.fst ∧ said = report .duplicateKey) →
      (shell.cmd = bytesOf "select" → ∃ out, printRows D.cells = .ok out ∧
        said = (if D.cells.length = 0 then bytesOf "no entries found\n" else []) ++ out) →
      session.Mirrors D → Turn D (.ok (.running (shell.after session said)))
  /-- A new row is taken. -/
  | put (session : Session) (row : UserInfo) : IsInsert shell.cmd →
      (UserInfo.new (shell.memory 0)).fromString (shell.memory 0) (shell.cmd.drop 6) = .ok row →
      row.HasFields (fieldsOf (shell.memory 0) shell.cmd).1
        (fieldsOf (shell.memory 0) shell.cmd).2.1 (fieldsOf (shell.memory 0) shell.cmd).2.2 →
      FitsColumns (shell.memory 0) shell.cmd → row.getPrimaryKey ∉ D.cells.map Prod.fst →
      session.Mirrors (D.put (row.getPrimaryKey, row.serialize)) →
      Turn D (.ok (.running (shell.after session [])))
  /-- A string is too long for its column: an assertion fails. -/
  | abort (cond : String) : IsInsert shell.cmd → ¬FitsColumns (shell.memory 0) shell.cmd →
      Turn D (.error (.assertFailed cond))
  /-- The page table is full. -/
  | full (row : UserInfo) : IsInsert shell.cmd → row.getPrimaryKey ∉ D.cells.map Prod.fst →
      tableMaxPages < (D.put (row.getPrimaryKey, row.serialize)).numPages →
      Turn D (.error (.pageIndex tableMaxPages))

variable {shell} {D : Dictionary}

lemma report_executeSuccess : report .executeSuccess = [] := rfl

lemma turn_of_parse_none {said : List UInt8}
    (h : parse (shell.memory 0) shell.cmd = .ok (none, said)) :
    shell.turn = .ok (.running (shell.after shell.session said)) := by
  rw [turn]
  show (parse (shell.memory 0) shell.cmd >>= _) = _
  rw [h, ok_bind]
  rfl

lemma turn_of_parse {query : Command} (h : parse (shell.memory 0) shell.cmd = .ok (some query, []))
    {evaluated : Except Fault Evaluated} (heval : query.evaluate shell.session = evaluated) :
    shell.turn = (evaluated.map (shell.after shell.session []).finish) := by
  rw [turn]
  show (parse (shell.memory 0) shell.cmd >>= _) = _
  rw [h, ok_bind, ← heval]
  show (query.evaluate shell.session >>= _) = _
  cases query.evaluate shell.session with
  | error e => rfl
  | ok evaluated => rfl

lemma finish_result (session : Session) (status : ExecuteStatus) (said : List UInt8) :
    (shell.after shell.session []).finish (.result status session said)
      = .running (shell.after session (said ++ report status)) := by
  simp only [finish, after, List.append_nil, List.append_assoc]

section

variable (h : shell.session.Mirrors D) (hD : D.Steady mainParams)

include h

lemma turn_exit (hcmd : shell.cmd = bytesOf ".exit") : shell.Turn D shell.turn := by
  obtain ⟨file, hdestroy, hsaved⟩ := h.exists_saved
  have hparse : parse (shell.memory 0) shell.cmd = .ok (some .exit, []) := by
    rw [parse, if_pos hcmd]
  have heval : Command.exit.evaluate shell.session = .ok (.exited file) := by
    rw [Command.evaluate, hdestroy, ok_bind]
  rw [turn_of_parse hparse heval]
  have hout : (shell.after shell.session []).finish (.exited file)
      = .exited file (shell.stdout ++ prompt) := by
    simp only [finish, after, List.append_nil]
  rw [Except.map, hout]
  exact .exit file hcmd hsaved

include hD

lemma turn_select (hP : D.Printable) (hcmd : shell.cmd = bytesOf "select") :
    shell.Turn D shell.turn := by
  have hexit : shell.cmd ≠ bytesOf ".exit" := by
    rw [hcmd]
    decide
  obtain ⟨out, hout⟩ := Dictionary.printRows_of_printable hP
  obtain ⟨S', hmirrors, heval⟩ := evaluate_select h hD hout
  have hparse : parse (shell.memory 0) shell.cmd = .ok (some .select, []) := by
    rw [parse, if_neg hexit, if_pos hcmd]
  rw [turn_of_parse hparse heval, Except.map, finish_result, report_executeSuccess, List.append_nil]
  exact .same S' _ hexit (fun hins => absurd hcmd hins.ne_select) (fun _ => ⟨out, hout, rfl⟩)
    hmirrors

lemma turn_insert (hcmd : IsInsert shell.cmd) : shell.Turn D shell.turn := by
  by_cases hfit : FitsColumns (shell.memory 0) shell.cmd
  · obtain ⟨row, hrow, hfields⟩ := UserInfo.fromString_of_fit (UserInfo.new (shell.memory 0))
      (readFields_eq (shell.memory 0) shell.cmd) hfit
    have hkey : row.getPrimaryKey = keyOf (shell.memory 0) shell.cmd := hfields.getPrimaryKey
    have hparse : parse (shell.memory 0) shell.cmd = .ok (some (.insert row), []) := by
      rw [parse_insert hcmd, hrow, ok_bind]
    rcases evaluate_insert h hD row with ⟨hmem, S', hmirrors, heval⟩ | ⟨hmem, heval | heval⟩
    · rw [turn_of_parse hparse heval, Except.map, finish_result, List.nil_append]
      exact .same S' _ hcmd.ne_exit (fun _ => ⟨hfit, hkey ▸ hmem, rfl⟩)
        (fun hsel => absurd hsel hcmd.ne_select) hmirrors
    · obtain ⟨S', hmirrors, -, heval⟩ := heval
      rw [turn_of_parse hparse heval, Except.map, finish_result, List.nil_append, report_executeSuccess]
      exact .put S' row hcmd hrow hfields hfit hmem hmirrors
    · obtain ⟨hfull, heval⟩ := heval
      rw [turn_of_parse hparse heval]
      exact .full row hcmd hmem hfull
  · obtain ⟨cond, hcond⟩ := UserInfo.fromString_of_not_fit (UserInfo.new (shell.memory 0))
      (readFields_eq (shell.memory 0) shell.cmd) hfit
    have hturn : shell.turn = .error (.assertFailed cond) := by
      rw [turn]
      show (parse (shell.memory 0) shell.cmd >>= _) = _
      rw [parse_insert hcmd, hcond, error_bind, error_bind]
    rw [hturn]
    exact .abort cond hcmd hfit

/-- **One turn** goes in one of these ways. -/
theorem turn_spec (hP : D.Printable) : shell.Turn D shell.turn := by
  by_cases hexit : shell.cmd = bytesOf ".exit"
  · exact turn_exit h hexit
  · by_cases hselect : shell.cmd = bytesOf "select"
    · exact turn_select h hD hP hselect
    · by_cases hinsert : IsInsert shell.cmd
      · exact turn_insert h hD hinsert
      · have hparse : parse (shell.memory 0) shell.cmd = .ok (none,
            bytesOf "Unrecognized command '" ++ shell.cmd ++ bytesOf "'.\n") := by
          rw [parse, if_neg hexit, if_neg hselect]
          exact if_neg hinsert
        rw [turn_of_parse_none hparse]
        exact .same shell.session _ hexit (fun hins => absurd hins hinsert)
          (fun hsel => absurd hsel hselect) h

end

/-! ## Runs -/

/-- The pages of the shell's tree store `D`, whose rows were all made by the shell. -/
structure Holds (shell : Shell) (D : Dictionary) : Prop where
  mirrors : shell.session.Mirrors D
  steady : D.Steady mainParams
  printable : D.Printable

/-- The shell has read `n` lines of `stdin`. -/
structure HasRead (shell : Shell) (n : ℕ) (stdin : List UInt8) (memory : ℕ → Uninit) : Prop where
  stdin : shell.stdin = restAfter n stdin
  memory : shell.memory = fun i => memory (n + i)

variable {n : ℕ} {stdin : List UInt8} {memory : ℕ → Uninit}

lemma HasRead.cmd (h : shell.HasRead n stdin memory) : shell.cmd = lineAt stdin n := by
  rw [Shell.cmd, h.stdin]
  rfl

lemma HasRead.memory_zero (h : shell.HasRead n stdin memory) : shell.memory 0 = memory n := by
  rw [h.memory]
  rfl

lemma HasRead.after (h : shell.HasRead n stdin memory) (session : Session) (said : List UInt8) :
    (shell.after session said).HasRead (n + 1) stdin memory := by
  refine ⟨?_, ?_⟩
  · rw [restAfter_succ, ← h.stdin]
    rfl
  · show (fun i => shell.memory (i + 1)) = _
    rw [h.memory]
    funext i
    exact congrArg memory (by omega)

lemma Holds.turn (h : shell.Holds D) : shell.Turn D shell.turn :=
  turn_spec h.mirrors h.steady h.printable

/-- `.exit` leaves a file with the dictionary. -/
lemma Holds.turn_saved (h : shell.Holds D) (hcmd : shell.cmd = bytesOf ".exit") :
    ∃ file stdout, shell.turn = .ok (.exited file stdout) ∧ Saved file D := by
  have hspec := h.turn
  generalize shell.turn = r at hspec ⊢
  cases hspec with
  | exit file hexit hsaved => exact ⟨file, _, rfl, hsaved⟩
  | same session said hexit hinsert hselect hmirrors => exact absurd hcmd hexit
  | put session row hinsert hrow hfields hfit hne hmirrors => exact absurd hcmd hinsert.ne_exit
  | abort cond hinsert hfit => exact absurd hcmd hinsert.ne_exit
  | full row hinsert hne hfull => exact absurd hcmd hinsert.ne_exit

lemma Holds.same (h : shell.Holds D) {session : Session} (hsession : session.Mirrors D)
    (said : List UInt8) : (shell.after session said).Holds D := ⟨hsession, h.steady, h.printable⟩

/-- A row that the shell has read can be printed. -/
lemma Holds.put (h : shell.Holds D) {row : UserInfo} {id : ℤ} {username email : List UInt8}
    (hrow : row.HasFields id username email) (hne : row.getPrimaryKey ∉ D.cells.map Prod.fst)
    {session : Session} (hsession : session.Mirrors (D.put (row.getPrimaryKey, row.serialize)))
    (said : List UInt8) :
    (shell.after session said).Holds (D.put (row.getPrimaryKey, row.serialize)) := by
  refine ⟨hsession, h.steady.put hne, ?_⟩
  intro c hc
  rw [(h.steady.wf.put hne).2, mem_putCell] at hc
  rcases hc with rfl | hc
  · exact ⟨row, rfl, _, hrow.toString⟩
  · exact h.printable c hc

/-- The page table overflows only when there is no room for a new row. -/
lemma Holds.turn_ne_pageIndex (h : shell.Holds D)
    (hroom : ∀ row : UserInfo, row.getPrimaryKey ∉ D.cells.map Prod.fst →
      (D.put (row.getPrimaryKey, row.serialize)).numPages ≤ tableMaxPages) (id : ℕ) :
    shell.turn ≠ .error (.pageIndex id) := by
  have hturn := h.turn
  generalize shell.turn = r at hturn ⊢
  rintro rfl
  cases hturn with
  | full row hinsert hne hfull => exact absurd (hroom row hne) (not_le.mpr hfull)

lemma Holds.turn_ne_pageIndex_of_not_insert (h : shell.Holds D) (hcmd : ¬IsInsert shell.cmd)
    (id : ℕ) : shell.turn ≠ .error (.pageIndex id) := by
  have hturn := h.turn
  generalize shell.turn = r at hturn ⊢
  rintro rfl
  cases hturn with
  | full row hinsert hne hfull => exact absurd hinsert hcmd

end Shell

/-- **The start.** -/
theorem main_found {file : Option (List UInt8)} {D : Dictionary} (h : Found file D)
    (counts : ℕ → ℕ) (malloc : ℕ → Page) (memory : ℕ → Uninit) (stdin : List UInt8) :
    ∃ start, main file counts malloc memory stdin = .ok (.running start) ∧
      start.HasRead 0 stdin memory ∧ start.Holds D := by
  obtain ⟨S, hS, hmirrors, hsteady, hprintable⟩ := initalize_found h counts malloc
  refine ⟨⟨S, stdin, [], memory⟩, by rw [main, hS, ok_bind], ⟨rfl, ?_⟩,
    hmirrors, hsteady, hprintable⟩
  funext i
  rw [Nat.zero_add]

lemma turns_zero (p : Process) : turns 0 p = .ok p := by
  cases p <;> rfl

/-- One turn more. -/
lemma turns_succ : ∀ (n : ℕ) (p : Process), turns (n + 1) p = turns n p >>= turns 1
  | 0, p => by rw [turns_zero, ok_bind]
  | n + 1, .exited file stdout => rfl
  | n + 1, .running shell => by
      show (shell.turn >>= turns (n + 1)) = (shell.turn >>= turns n) >>= turns 1
      cases shell.turn with
      | error e => rfl
      | ok p =>
          rw [ok_bind, ok_bind]
          exact turns_succ n p

lemma turns_succ_of_running {n : ℕ} {p : Process} {shell : Shell}
    (h : turns n p = .ok (.running shell)) : turns (n + 1) p = shell.turn := by
  rw [turns_succ, h, ok_bind]
  show (shell.turn >>= turns 0) = _
  cases shell.turn with
  | error e => rfl
  | ok p => exact turns_zero p

/-- A new tree takes a row without a new page. -/
lemma numPages_put_create (c : UInt32 × Row) : ((Dictionary.create mainParams).put c).numPages = 1 :=
  rfl

def smallMemory : Uninit where
  field1 := 7
  username := ⟨List.replicate 32 42, List.length_replicate⟩
  email := ⟨List.replicate 32 42, List.length_replicate⟩

end DbToy
