import DbToy.TableBounds
import DbToy.TableSessions

/-!
# The table under the commands

`Insert` and `Select` work on the `Table` of `TableBuffer`; the commands that `parse` makes derive
from them and work on the tree instead.  Under `Insert` and `Select` the database is a log: an
insertion appends its row whatever its number, `select` prints the rows in the order in which they
came, and when all pages are full the log stays as it is (`table_engine_is_log`).

* `Table.evaluate`: the two commands.
* `UserLog`: the log, and what it answers.
-/

namespace DbToy

open Bytes Istream
open Runs (runAll Along)

/-- `Select`, and `Insert` with its row. -/
inductive Statement where
  | insert (row : UserInfo)
  | select

/-- What a statement has to say: its status, and what it prints. -/
abbrev Said : Type := ExecuteStatus × List UInt8

namespace Table

/-- `row.deserialize(table.get_row_slot(i))`. -/
def loadUser (t : Table) (i : ℕ) : Except Fault (UserInfo × Table) := do
  let ((pageId, offset), t) ← t.getRowSlot i
  let (page, dbfile) ← t.dbfile.getPage pageId
  let src ← page.load offset UserInfo.getRowByte
  let row ← UserInfo.deserialize src
  .ok (row, { t with dbfile := dbfile })

/-- The loop of `Select::evaluate()`: the `n` rows from row `i` on. -/
def selectLoop : ℕ → ℕ → Table → Except Fault (List UInt8 × Table)
  | 0, _, t => .ok ([], t)
  | n + 1, i, t => do
      let (row, t) ← t.loadUser i
      let line ← row.toString
      let (lines, t) ← selectLoop n (i + 1) t
      .ok (line ++ bytesOf "\n" ++ lines, t)

/-- `evaluate()` of the two commands. -/
def evaluate : Statement → Table → Except Fault (Said × Table)
  | .insert row, t => do
      let (status, t) ← evaluateInsert row.serialize t
      .ok ((status, []), t)
  | .select, t => do
      let (lines, t) ← selectLoop t.numRows 0 t
      .ok ((.executeSuccess, lines), t)

end Table

/-- A process: its commands, and what the system does. -/
structure ClientProcess where
  statements : List Statement
  counts : ℕ → ℕ
  blocks : ℕ → Page

/-- The table of `TableBuffer` is made when the first command asks for it and destroyed when the
process exits. -/
def ClientProcess.runTable (p : ClientProcess) (file : List UInt8) :
    Except Fault (List Said × List UInt8) := do
  let t ← Table.new UserInfo.getRowByte (some file) p.counts p.blocks
  let (said, t) ← runAll Table.evaluate p.statements t
  let file ← t.destroy
  .ok (said, file)

/-! ## Rows that can be printed -/

namespace UserInfo

/-- Both strings end inside their arrays. -/
def Ends (u : UserInfo) : Prop := 0 ∈ u.username.bytes ∧ 0 ∈ u.email.bytes

instance (u : UserInfo) : Decidable u.Ends := inferInstanceAs (Decidable (_ ∧ _))

/-- The line that is printed for a row. -/
def line (u : UserInfo) : List UInt8 :=
  decimal u.id.toInt ++ bytesOf "," ++ CharArray.cString u.username.bytes ++ bytesOf ","
    ++ CharArray.cString u.email.bytes ++ bytesOf "\n"

lemma Ends.exists_line {u : UserInfo} (h : u.Ends) :
    ∃ str, u.toString = .ok str ∧ str ++ bytesOf "\n" = u.line := by
  have husername : u.username.toString = .ok (CharArray.cString u.username.bytes) := if_pos h.1
  have hemail : u.email.toString = .ok (CharArray.cString u.email.bytes) := if_pos h.2
  exact ⟨_, by rw [toString, husername, ok_bind, hemail, ok_bind], rfl⟩

/-- What `from_string` makes of a line can be printed. -/
lemma ends_of_fromString {u u' : UserInfo} {mem : Uninit} {str : List UInt8}
    (h : u.fromString mem str = .ok u') : u'.Ends := by
  obtain ⟨_, -, h⟩ := bind_eq_ok h
  obtain ⟨_, -, h⟩ := bind_eq_ok h
  obtain ⟨username, husername, h⟩ := bind_eq_ok h
  obtain ⟨email, hemail, h⟩ := bind_eq_ok h
  cases h
  have hzero : ∀ {n : ℕ} {a b : CharArray n} {str : List UInt8}, a.strcpy str = .ok b →
      0 ∈ b.bytes := by
    intro n a b str hb
    rw [CharArray.strcpy] at hb
    split_ifs at hb with hfit
    cases hb
    show 0 ∈ patch 0 a.bytes 0 (CharArray.cString str ++ [0])
    simp [patch]
  exact ⟨hzero husername, hzero hemail⟩

/-- The row is the one of a line. -/
def IsParsed (u : UserInfo) : Prop := ∃ mem cmd, parse mem cmd = .ok (some (.insert u), [])

lemma IsParsed.ends {u : UserInfo} (h : u.IsParsed) : u.Ends := by
  obtain ⟨mem, cmd, h⟩ := h
  rw [parse] at h
  split_ifs at h with hexit hselect hinsert
  · cases h
  · cases h
  · obtain ⟨row, hrow, h⟩ := bind_eq_ok h
    cases h
    exact ends_of_fromString hrow
  · cases h

end UserInfo

/-! ## The log -/

/-- The rows that a table has room for. -/
def tableRoom : ℕ := tableMaxPages * (pageSize / UserInfo.getRowByte)

namespace UserLog

def evaluate : Statement → List UserInfo → Except Fault (Said × List UserInfo)
  | .insert row, log =>
      if log.length < tableRoom then .ok ((.executeSuccess, []), log ++ [row])
      else .ok ((.tableFull, []), log)
  | .select, log => .ok ((.executeSuccess, log.flatMap UserInfo.line), log)

def run (p : ClientProcess) (log : List UserInfo) : Except Fault (List Said × List UserInfo) :=
  runAll evaluate p.statements log

end UserLog

/-- The rows that are inserted. -/
def Statement.rows : Statement → List UserInfo
  | .insert row => [row]
  | .select => []

/-- The rows that are inserted, whether they find room or not. -/
def ClientProcess.rows (p : ClientProcess) : List UserInfo := p.statements.flatMap Statement.rows

namespace UserLog

/-- The rows of the process can be printed, and it does not leave an empty table. -/
def Admits (log : List UserInfo) (p : ClientProcess) : Prop :=
  (∀ row ∈ p.rows, row.Ends) ∧ log ++ p.rows ≠ []

instance (log : List UserInfo) : DecidablePred (Admits log) :=
  fun _ => inferInstanceAs (Decidable (_ ∧ _))

/-- **What the log becomes**: all rows, as many as there is room for. -/
lemma runAll_eq : ∀ (statements : List Statement) {log : List UserInfo},
    log.length ≤ tableRoom → ∃ said, runAll evaluate statements log
      = .ok (said, (log ++ statements.flatMap Statement.rows).take tableRoom)
  | [], log, hlen => by
      rw [List.flatMap_nil, List.append_nil, List.take_of_length_le hlen]
      exact ⟨[], rfl⟩
  | .select :: statements, log, hlen => by
      obtain ⟨said, hsaid⟩ := runAll_eq statements hlen
      have hone : evaluate .select log
          = .ok ((.executeSuccess, log.flatMap UserInfo.line), log) := rfl
      refine ⟨(.executeSuccess, log.flatMap UserInfo.line) :: said, ?_⟩
      rw [Runs.runAll_cons_of_ok hone, hsaid]
      rfl
  | .insert row :: statements, log, hlen => by
      by_cases hroom : log.length < tableRoom
      · have hone : evaluate (.insert row) log = .ok ((.executeSuccess, []), log ++ [row]) :=
          if_pos hroom
        have hlen' : (log ++ [row]).length ≤ tableRoom := by
          rw [List.length_append, List.length_singleton]
          exact hroom
        obtain ⟨said, hsaid⟩ := runAll_eq statements hlen'
        refine ⟨(.executeSuccess, []) :: said, ?_⟩
        rw [Runs.runAll_cons_of_ok hone, hsaid, List.append_assoc]
        rfl
      · have hone : evaluate (.insert row) log = .ok ((.tableFull, []), log) := if_neg hroom
        obtain ⟨said, hsaid⟩ := runAll_eq statements hlen
        have hfull : ∀ rows : List UserInfo, (log ++ rows).take tableRoom = log := fun rows =>
          List.take_left' (by omega)
        refine ⟨(.tableFull, []) :: said, ?_⟩
        rw [Runs.runAll_cons_of_ok hone, hsaid, hfull, hfull]
        rfl

end UserLog

/-! ## One command -/

section

variable {saved : ℕ} {log : List UserInfo}

/-- The table has the rows of the log, the first `saved` of them in its file. -/
structure Table.Logs (saved : ℕ) (log : List UserInfo) (t : Table) : Prop where
  holds : t.Holds UserInfo.getRowByte saved (log.map UserInfo.serialize)
  ends : ∀ row ∈ log, row.Ends

lemma rowByte_pos : 0 < UserInfo.getRowByte := by decide

lemma rowByte_le : UserInfo.getRowByte ≤ pageSize := by decide

namespace Table.Logs

variable {t : Table}

lemma numRows_eq (h : t.Logs saved log) : t.numRows = log.length := by
  rw [h.holds.numRows_eq, List.length_map]

/-- A row is loaded from its slot. -/
lemma loadUser (h : t.Logs saved log) {i : ℕ} {row : UserInfo} (hrow : log[i]? = some row) :
    ∃ t', t.loadUser i = .ok (row, t') ∧ t'.Logs saved log := by
  have hbytes : (log.map UserInfo.serialize)[i]? = some row.serialize := by
    rw [List.getElem?_map, hrow]
    rfl
  obtain ⟨t', hread, hholds⟩ := h.holds.readRow rowByte_pos rowByte_le hbytes
  refine ⟨t', ?_, hholds, h.ends⟩
  rw [Table.readRow] at hread
  obtain ⟨⟨slot, t₁⟩, hslot, hread⟩ := bind_eq_ok hread
  obtain ⟨⟨page, f⟩, hpage, hread⟩ := bind_eq_ok hread
  obtain ⟨src, hsrc, hread⟩ := bind_eq_ok hread
  have hsize : t₁.rowSize = UserInfo.getRowByte := by
    rw [getRowSlot_eq (h.holds.rowSize_eq ▸ rowByte_pos) (h.holds.rowSize_eq ▸ rowByte_le)] at hslot
    cases hget : t.dbfile.getPage (t.slotPage i) with
    | error e =>
        rw [hget, map_error] at hslot
        cases hslot
    | ok r =>
        rw [hget, map_ok] at hslot
        cases hslot
        exact h.holds.rowSize_eq
  cases hread
  rw [hsize] at hsrc
  rw [Table.loadUser, hslot, ok_bind]
  show (t₁.dbfile.getPage slot.1 >>= _) = _
  rw [hpage, ok_bind]
  show (page.load slot.2 UserInfo.getRowByte >>= _) = _
  rw [hsrc, ok_bind, UserInfo.deserialize_serialize, ok_bind]

/-- **The loop of `select`** over the rows `rest` behind `front`. -/
lemma selectLoop : ∀ (rest front : List UserInfo) {t : Table}, log = front ++ rest →
    t.Logs saved log → ∃ t', Table.selectLoop rest.length front.length t
      = .ok (rest.flatMap UserInfo.line, t') ∧ t'.Logs saved log
  | [], front, t, _, h => ⟨t, rfl, h⟩
  | row :: rest, front, t, hlog, h => by
      have hrow : log[front.length]? = some row := by
        rw [hlog, List.getElem?_append_right (le_refl _), Nat.sub_self, List.getElem?_cons_zero]
      obtain ⟨t₁, hload, h₁⟩ := h.loadUser hrow
      obtain ⟨str, hstr, hline⟩ := (h.ends row (List.mem_of_getElem? hrow)).exists_line
      obtain ⟨t', hrest, h'⟩ := selectLoop rest (front ++ [row])
        (by rw [hlog, List.append_assoc]; rfl) h₁
      rw [List.length_append, List.length_singleton] at hrest
      refine ⟨t', ?_, h'⟩
      rw [List.length_cons, Table.selectLoop, hload, ok_bind]
      show (row.toString >>= _) = _
      rw [hstr, ok_bind, hrest, ok_bind, List.flatMap_cons, ← hline]

/-- **One command** is answered as by the log. -/
theorem evaluate (h : t.Logs saved log) {c : Statement} (hc : ∀ row ∈ c.rows, row.Ends) :
    Prog.Agree (fun t log => Table.Logs saved log t) (Table.evaluate c t)
      (UserLog.evaluate c log) := by
  cases c with
  | insert row =>
      have hlen := row.length_serialize
      rw [Table.evaluate, evaluateInsert, h.holds.rowSize_eq, getMaxRows_eq rowByte_pos, ok_bind,
        h.numRows_eq, UserLog.evaluate]
      show Prog.Agree _ ((if log.length < tableRoom then _ else _) >>= _) _
      split_ifs with hroom
      · obtain ⟨t', happend, hholds⟩ := h.holds.append rowByte_pos rowByte_le hlen (by
          rw [List.length_map]
          exact hroom)
        rw [happend, ok_bind, ok_bind]
        refine ⟨rfl, ?_, fun u hu => ?_⟩
        · rw [List.map_append, List.map_singleton]
          exact hholds
        · rcases List.mem_append.mp hu with hu | hu
          · exact h.ends u hu
          · exact hc u hu
      · rw [ok_bind]
        exact ⟨rfl, h⟩
  | select =>
      obtain ⟨t', hloop, h'⟩ := selectLoop log [] rfl h
      rw [List.length_nil] at hloop
      rw [Table.evaluate, h.numRows_eq, hloop, ok_bind]
      exact ⟨rfl, h'⟩

end Table.Logs

end

/-! ## Processes -/

/-- A file of printable rows. -/
structure LogFile (log : List UserInfo) (file : List UInt8) : Prop where
  rowFile : RowFile UserInfo.getRowByte (log.map UserInfo.serialize) file
  ends : ∀ row ∈ log, row.Ends

namespace LogFile

variable {log : List UserInfo} {file : List UInt8}

lemma nil : LogFile [] [] := ⟨rowFile_nil, fun _ hrow => absurd hrow List.not_mem_nil⟩

lemma length_le (h : LogFile log file) : log.length ≤ tableRoom := by
  have hle := h.rowFile.length_le
  rwa [List.length_map] at hle

lemma new (h : LogFile log file) (counts : ℕ → ℕ) (blocks : ℕ → Page) :
    ∃ t, Table.new UserInfo.getRowByte (some file) counts blocks = .ok t ∧
      t.Logs log.length log := by
  obtain ⟨t, hnew, hholds⟩ := new_holds rowByte_pos rowByte_le h.rowFile counts blocks
  rw [List.length_map] at hholds
  exact ⟨t, hnew, hholds, h.ends⟩

/-- **One process** says what the log says, and leaves its file. -/
theorem run (h : LogFile log file) {p : ClientProcess} (hp : UserLog.Admits log p) :
    Prog.Agree (fun file log => LogFile log file) (p.runTable file) (UserLog.run p log) := by
  obtain ⟨t, hnew, hlogs⟩ := h.new p.counts p.blocks
  obtain ⟨said, hsaid⟩ := UserLog.runAll_eq p.statements h.length_le
  have hrun : UserLog.run p log = .ok (said, (log ++ p.rows).take tableRoom) := hsaid
  have hagree := @Runs.runAll_related _ _ _ _ _ (fun t log' => Table.Logs log.length log' t)
    Table.evaluate UserLog.evaluate (fun _ c => ∀ row ∈ c.rows, row.Ends)
    (fun _ _ _ hrel hc => hrel.evaluate hc) p.statements t log hlogs
    (@Runs.along_of_invariant _ _ _ _ UserLog.evaluate (fun _ => True)
      (fun c => ∀ row ∈ c.rows, row.Ends) _ (fun _ _ _ hc => ⟨hc, fun _ _ _ => trivial⟩)
      p.statements log trivial fun c hc row hrow =>
        hp.1 row (List.mem_flatMap.mpr ⟨c, hc, hrow⟩))
  rw [show runAll UserLog.evaluate p.statements log = _ from hrun] at hagree
  obtain ⟨t', hcommands, hlogs'⟩ := hagree.exists_ok
  have hne : ((log ++ p.rows).take tableRoom).map UserInfo.serialize ≠ [] := by
    have hroom : tableRoom ≠ 0 := by decide
    rw [ne_eq, List.map_eq_nil_iff, List.take_eq_nil_iff]
    exact not_or_intro hroom hp.2
  obtain ⟨file', hdestroy, hfile⟩ := destroy_rowFile rowByte_pos rowByte_le hlogs'.holds hne
  rw [hrun, ClientProcess.runTable, hnew, ok_bind, hcommands, ok_bind]
  show Prog.Agree _ (t'.destroy >>= _) _
  rw [hdestroy, ok_bind]
  exact ⟨rfl, hfile, hlogs'.ends⟩

end LogFile

/-! ## A log with room -/

namespace UserLog

/-- What the table answers as long as it has room. -/
def reply : Statement → List UserInfo → Said
  | .insert _, _ => (.executeSuccess, [])
  | .select, log => (.executeSuccess, log.flatMap UserInfo.line)

def replies (p : ClientProcess) (log : List UserInfo) : List Said :=
  Runs.replyAll reply Statement.rows p.statements log

lemma evaluate_eq (c : Statement) (log : List UserInfo)
    (hroom : (log ++ c.rows).length ≤ tableRoom) :
    evaluate c log = .ok (reply c log, log ++ c.rows) := by
  cases c with
  | insert row =>
      rw [Statement.rows, List.length_append, List.length_singleton] at hroom
      exact if_pos hroom
  | select =>
      rw [Statement.rows, List.append_nil]
      rfl

lemma run_eq (p : ClientProcess) (log : List UserInfo)
    (hroom : (log ++ p.rows).length ≤ tableRoom) :
    run p log = .ok (replies p log, log ++ p.rows) :=
  Runs.runAll_replyAll evaluate_eq hroom

/-- If the first process inserts a row, no process leaves an empty table. -/
lemma along_admits : ∀ {ps : List ClientProcess} {log : List UserInfo},
    (log ++ ps.flatMap ClientProcess.rows).length ≤ tableRoom →
    (∀ row ∈ ps.flatMap ClientProcess.rows, row.Ends) →
    (log ≠ [] ∨ ∀ p ∈ ps.head?, p.rows ≠ []) → Along run Admits ps log
  | [], _, _, _, _ => trivial
  | p :: ps, log, hroom, hends, hne => by
      rw [List.flatMap_cons, ← List.append_assoc] at hroom
      have hone : (log ++ p.rows).length ≤ tableRoom := by
        rw [List.length_append] at hroom
        omega
      have hfull : log ++ p.rows ≠ [] := by
        rcases hne with hlog | hp
        · exact List.append_ne_nil_of_left_ne_nil hlog _
        · exact List.append_ne_nil_of_right_ne_nil _ (hp p rfl)
      refine ⟨⟨fun row hrow => hends row ?_, hfull⟩, fun said log' hrun => ?_⟩
      · rw [List.flatMap_cons]
        exact List.mem_append_left _ hrow
      · rw [run_eq p log hone] at hrun
        cases hrun
        refine along_admits hroom (fun row hrow => hends row ?_) (Or.inl hfull)
        rw [List.flatMap_cons]
        exact List.mem_append_right _ hrow

end UserLog

/-! ## Runs of processes -/

/-- The log at the end. -/
lemma UserLog.runs_eq : ∀ (ps : List ClientProcess) {log : List UserInfo}, log.length ≤ tableRoom →
    ∃ said, runAll UserLog.run ps log
      = .ok (said, (log ++ ps.flatMap ClientProcess.rows).take tableRoom)
  | [], log, hlen => by
      rw [List.flatMap_nil, List.append_nil, List.take_of_length_le hlen]
      exact ⟨[], rfl⟩
  | p :: ps, log, hlen => by
      obtain ⟨said, hsaid⟩ := UserLog.runAll_eq p.statements hlen
      have hrun : UserLog.run p log = .ok (said, (log ++ p.rows).take tableRoom) := hsaid
      obtain ⟨rest, hrest⟩ := runs_eq ps (List.length_take_le tableRoom (log ++ p.rows))
      refine ⟨said :: rest, ?_⟩
      have htake : ∀ X Y : List UserInfo,
          (X.take tableRoom ++ Y).take tableRoom = (X ++ Y).take tableRoom := by
        intro X Y
        rw [List.take_append, List.take_append, List.take_take, min_self, List.length_take]
        exact congrArg (X.take tableRoom ++ Y.take ·) (by omega)
      rw [Runs.runAll_cons_of_ok hrun, hrest, htake, List.flatMap_cons, ← List.append_assoc]
      rfl

/-- **Under `Insert` and `Select` the database is a log**, over any number of processes, whatever
the kernel's counts and uninitialised memory are in each.  Every command is answered from the rows
inserted so far, as many as there is room for, and the file left at the end opens as a table that
lists them. -/
theorem table_engine_is_log {ps : List ClientProcess}
    (hps : Along UserLog.run UserLog.Admits ps []) :
    ∃ said file, runAll ClientProcess.runTable ps [] = .ok (said, file) ∧
      runAll UserLog.run ps []
        = .ok (said, (ps.flatMap ClientProcess.rows).take tableRoom) ∧
      ∀ counts blocks, ∃ t t',
        Table.new UserInfo.getRowByte (some file) counts blocks = .ok t ∧
        t.evaluate .select = .ok ((.executeSuccess,
          ((ps.flatMap ClientProcess.rows).take tableRoom).flatMap UserInfo.line), t') := by
  obtain ⟨said, hsaid⟩ := @UserLog.runs_eq ps [] (Nat.zero_le _)
  rw [List.nil_append] at hsaid
  have hagree := @Runs.runAll_related _ _ _ _ _ (fun file log => LogFile log file)
    ClientProcess.runTable UserLog.run UserLog.Admits (fun _ _ _ hrel hp => hrel.run hp) ps [] []
    LogFile.nil hps
  rw [hsaid] at hagree
  obtain ⟨file, hrun, hfile⟩ := hagree.exists_ok
  refine ⟨said, file, hrun, hsaid, fun counts blocks => ?_⟩
  obtain ⟨t, hnew, hlogs⟩ := hfile.new counts blocks
  have hselect := hlogs.evaluate (c := .select) fun _ hrow => absurd hrow List.not_mem_nil
  obtain ⟨t', ht', -⟩ := hselect.exists_ok
  exact ⟨t, t', hnew, ht'⟩

/-- The row of one who shares the number with others. -/
def elice (name : UInt8) : UserInfo where
  id := 13
  username := ⟨name :: List.replicate 31 0, rfl⟩
  email := ⟨name :: List.replicate 31 0, rfl⟩

/-- Two processes that insert rows with the same number. -/
def twoProcesses : List ClientProcess :=
  [⟨[.select, .insert (elice 97), .select], fun _ => 7, fun _ => Page.filled 9⟩,
    ⟨[.insert (elice 98), .insert (elice 97), .select], fun _ => 0, fun _ => Page.filled 8⟩]

lemma twoProcesses_ends : ∀ row ∈ twoProcesses.flatMap ClientProcess.rows, row.Ends := by
  have hparsed : ∀ name ∈ [97, 98], (elice name).IsParsed := by
    intro name hname
    rcases List.mem_cons.mp hname with rfl | hname
    · exact ⟨⟨0, (elice 0).username, (elice 0).email⟩, bytesOf "insert 13 a a", rfl⟩
    · obtain rfl := List.mem_singleton.mp hname
      exact ⟨⟨0, (elice 0).username, (elice 0).email⟩, bytesOf "insert 13 b b", rfl⟩
  intro row hrow
  have hrows : row = elice 97 ∨ row = elice 98 ∨ row = elice 97 := by
    simpa [twoProcesses, ClientProcess.rows, Statement.rows] using hrow
  rcases hrows with rfl | rfl | rfl
  · exact (hparsed 97 (by decide)).ends
  · exact (hparsed 98 (by decide)).ends
  · exact (hparsed 97 (by decide)).ends

theorem table_engine_is_log_two : ∃ said file,
    runAll ClientProcess.runTable twoProcesses [] = .ok (said, file) ∧
      runAll UserLog.run twoProcesses []
        = .ok (said, (twoProcesses.flatMap ClientProcess.rows).take tableRoom) ∧
      ∀ counts blocks, ∃ t t',
        Table.new UserInfo.getRowByte (some file) counts blocks = .ok t ∧
        t.evaluate .select = .ok ((.executeSuccess,
          ((twoProcesses.flatMap ClientProcess.rows).take tableRoom).flatMap UserInfo.line), t') :=
  table_engine_is_log
    (UserLog.along_admits (by decide) twoProcesses_ends (Or.inr (by decide)))

end DbToy
