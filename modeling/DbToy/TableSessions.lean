import DbToy.TableRows

/-!
# Sessions with a table

`RowList` is the table as its clients see it: the list of the rows appended so far, in this session
and in those before.  A table answers whole sequences of sessions as the list does, and the file
that they leave opens as a table with these rows (`table_persists`).
-/

namespace DbToy

open Runs (runAll Along)

/-- The rows that a session appends. -/
def TableSession.appended (s : TableSession) : List Row :=
  s.calls.filterMap fun
    | .append row => some row
    | .read _ => none
    | .numRows => none

namespace RowList

/-- The calls answered from the list. -/
def answer : TableCall → List Row → Except Fault (TableReply × List Row)
  | .append row, rows => .ok (.appended, rows ++ [row])
  | .read rowid, rows => .ok (.row (rows[rowid]?.getD []), rows)
  | .numRows, rows => .ok (.number rows.length, rows)

/-- A row has the size of the table's rows and `num_rows < get_max_rows()` (`getMaxRows_eq`); what is
read is there. -/
def Admits (rowSize : ℕ) (rows : List Row) : TableCall → Prop
  | .append row => row.length = rowSize ∧ rows.length < tableMaxPages * (pageSize / rowSize)
  | .read rowid => rowid < rows.length
  | .numRows => True

instance (rowSize : ℕ) (rows : List Row) : DecidablePred (Admits rowSize rows)
  | .append _ => inferInstanceAs (Decidable (_ ∧ _))
  | .read _ => inferInstanceAs (Decidable (_ < _))
  | .numRows => isTrue trivial

def session (s : TableSession) (rows : List Row) : Except Fault (List TableReply × List Row) :=
  runAll answer s.calls rows

def sessions : List TableSession → List Row → Except Fault (List (List TableReply) × List Row) :=
  runAll session

/-- Every call of the session is admitted, and it leaves a table that is not empty. -/
def AdmitsSession (rowSize : ℕ) (rows : List Row) (s : TableSession) : Prop :=
  Along answer (Admits rowSize) s.calls rows ∧ rows ++ s.appended ≠ []

instance (rowSize : ℕ) (rows : List Row) : DecidablePred (AdmitsSession rowSize rows) :=
  fun _ => inferInstanceAs (Decidable (_ ∧ _))

lemma session_eq (s : TableSession) (rows : List Row) :
    ∃ replies, session s rows = .ok (replies, rows ++ s.appended) := by
  obtain ⟨calls, counts, blocks⟩ := s
  simp only [session, TableSession.appended]
  induction calls generalizing rows with
  | nil => exact ⟨[], by simp [runAll]⟩
  | cons c calls ih =>
      cases c with
      | append row =>
          obtain ⟨replies, hreplies⟩ := ih (rows ++ [row])
          exact ⟨.appended :: replies, by simp [runAll, answer, hreplies]⟩
      | read rowid =>
          obtain ⟨replies, hreplies⟩ := ih rows
          exact ⟨.row (rows[rowid]?.getD []) :: replies, by simp [runAll, answer, hreplies]⟩
      | numRows =>
          obtain ⟨replies, hreplies⟩ := ih rows
          exact ⟨.number rows.length :: replies, by simp [runAll, answer, hreplies]⟩

/-- The list at the end has the rows of all sessions. -/
lemma sessions_eq (ss : List TableSession) (rows : List Row) :
    ∃ replies, sessions ss rows = .ok (replies, rows ++ ss.flatMap TableSession.appended) := by
  induction ss generalizing rows with
  | nil => exact ⟨[], by simp [sessions, runAll]⟩
  | cons s ss ih =>
      obtain ⟨replies, hs⟩ := session_eq s rows
      obtain ⟨rest, hss⟩ := ih (rows ++ s.appended)
      rw [sessions] at hss
      refine ⟨replies :: rest, ?_⟩
      rw [sessions, Runs.runAll_cons_of_ok hs, hss, List.flatMap_cons, List.append_assoc]
      rfl

end RowList

variable {rowSize : ℕ}

/-- **One call** is answered alike. -/
lemma Table.Holds.answer (hpos : 0 < rowSize) (hle : rowSize ≤ pageSize) {saved : ℕ} {t : Table}
    {rows : List Row} (h : t.Holds rowSize saved rows) {c : TableCall}
    (hc : RowList.Admits rowSize rows c) :
    Prog.Agree (fun t rows => Table.Holds rowSize saved rows t) (Table.answer c t)
      (RowList.answer c rows) := by
  cases c with
  | append row =>
      obtain ⟨t', happend, hholds⟩ := h.append hpos hle hc.1 hc.2
      rw [Table.answer, happend]
      exact ⟨rfl, hholds⟩
  | read rowid =>
      obtain ⟨row, hrow⟩ : ∃ row, rows[rowid]? = some row := ⟨_, List.getElem?_eq_getElem hc⟩
      obtain ⟨t', hread, hholds⟩ := h.readRow hpos hle hrow
      rw [Table.answer, hread, RowList.answer, hrow]
      exact ⟨rfl, hholds⟩
  | numRows =>
      rw [Table.answer, h.numRows_eq]
      exact ⟨rfl, h⟩

/-- **One session** is answered alike, and leaves the file of its rows. -/
lemma RowFile.session (hpos : 0 < rowSize) (hle : rowSize ≤ pageSize) {file : List UInt8}
    {rows : List Row} (h : RowFile rowSize rows file) {s : TableSession}
    (hs : RowList.AdmitsSession rowSize rows s) :
    Prog.Agree (fun file rows => RowFile rowSize rows file) (Table.session rowSize s file)
      (RowList.session s rows) := by
  obtain ⟨t, hnew, hholds⟩ := new_holds hpos hle h s.counts s.blocks
  have hagree := @Runs.runAll_related _ _ _ _ _
    (fun t rows' => Table.Holds rowSize rows.length rows' t) Table.answer RowList.answer
    (RowList.Admits rowSize) (fun _ _ _ hrel hc => hrel.answer hpos hle hc) s.calls t rows hholds hs.1
  obtain ⟨replies, hsession⟩ := RowList.session_eq s rows
  have hcalls : runAll RowList.answer s.calls rows = .ok (replies, rows ++ s.appended) := hsession
  rw [hcalls] at hagree
  obtain ⟨t', hrun, hholds'⟩ := hagree.exists_ok
  obtain ⟨file', hdestroy, hfile⟩ := destroy_rowFile hpos hle hholds' hs.2
  have hanswer : Table.session rowSize s file = .ok (replies, file') := by
    simp only [Table.session, hnew, hrun, hdestroy, ok_bind]
  rw [hsession, hanswer]
  exact ⟨rfl, hfile⟩

/-- An empty file has no rows. -/
lemma rowFile_nil : RowFile rowSize [] [] :=
  ⟨by simp [Records.start], fun _ _ hrow => (nomatch hrow), Nat.zero_le _⟩

/-- **A table keeps its rows** over any number of sessions, whatever the kernel's counts and
uninitialised memory are in each: every call is answered from the list of the rows appended so far,
and the file left at the end opens as a table with all of them. -/
theorem table_persists (hpos : 0 < rowSize) (hle : rowSize ≤ pageSize) {ss : List TableSession}
    (hss : Along RowList.session (RowList.AdmitsSession rowSize) ss []) :
    ∃ replies file, Table.sessions rowSize ss [] = .ok (replies, file) ∧
      RowList.sessions ss [] = .ok (replies, ss.flatMap TableSession.appended) ∧
      ∀ counts blocks, ∃ t, Table.new rowSize (some file) counts blocks = .ok t ∧
        t.numRows = (ss.flatMap TableSession.appended).length ∧
        ∀ i row, (ss.flatMap TableSession.appended)[i]? = some row →
          ∃ t', t.readRow i = .ok (row, t') := by
  have hagree := @Runs.runAll_related _ _ _ _ _ (fun file rows => RowFile rowSize rows file)
    (Table.session rowSize) RowList.session (RowList.AdmitsSession rowSize)
    (fun _ _ _ hrel hs => hrel.session hpos hle hs) ss [] [] rowFile_nil hss
  obtain ⟨replies, hsessions⟩ := RowList.sessions_eq ss []
  rw [List.nil_append] at hsessions
  have hruns : runAll RowList.session ss [] = .ok (replies, ss.flatMap TableSession.appended) :=
    hsessions
  rw [hruns] at hagree
  obtain ⟨file, hrun, hfile⟩ := hagree.exists_ok
  refine ⟨replies, file, hrun, hsessions, ?_⟩
  intro counts blocks
  obtain ⟨t, hnew, hholds⟩ := new_holds hpos hle hfile counts blocks
  refine ⟨t, hnew, hholds.numRows_eq, ?_⟩
  intro i row hrow
  obtain ⟨t', hread, -⟩ := hholds.readRow hpos hle hrow
  exact ⟨t', hread⟩

/-- A last page that is reloaded, extended and written again; two rows fit a page. -/
def twoSessions : List TableSession :=
  [⟨[.append (List.replicate 1500 1)], fun _ => 7, fun _ => Page.filled 9⟩,
    ⟨[.numRows, .append (List.replicate 1500 2), .append (List.replicate 1500 3), .read 1],
      fun _ => 0, fun _ => Page.filled 8⟩]

theorem table_persists_two : ∃ replies file,
    Table.sessions 1500 twoSessions [] = .ok (replies, file) ∧
      RowList.sessions twoSessions []
        = .ok (replies, twoSessions.flatMap TableSession.appended) ∧
      ∀ counts blocks, ∃ t, Table.new 1500 (some file) counts blocks = .ok t ∧
        t.numRows = (twoSessions.flatMap TableSession.appended).length ∧
        ∀ i row, (twoSessions.flatMap TableSession.appended)[i]? = some row →
          ∃ t', t.readRow i = .ok (row, t') :=
  table_persists (by decide) (by decide) (by decide +kernel)

end DbToy
