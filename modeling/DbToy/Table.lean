import DbToy.DbFile
import DbToy.Lib.Runs

/-!
# Tables

`Table` of `table.h` and `table.cpp`: rows of one size in the pages of a file, as many to a page as
fit.  The number of rows is not stored: the constructor computes it from the length of the file,
so the destructor writes full pages in full and the last page as far as it holds rows.

A slot is an address in a page.  Clients write a row into the slot of row `num_rows` and count it,
and read rows from their slots: `TableCall` lists what they do, `Table.answer` what they get, and
`Table.session` is what happens between the constructor and the destructor.
-/

namespace DbToy

open Bytes

/-- `a / b` on unsigned numbers. -/
def divUnsigned (a b : ℕ) : Except Fault ℕ := if b = 0 then .error .divisionByZero else .ok (a / b)

/-- `a % b` on unsigned numbers. -/
def modUnsigned (a b : ℕ) : Except Fault ℕ := if b = 0 then .error .divisionByZero else .ok (a % b)

structure Table where
  numRows : ℕ
  dbfile : DbFile
  rowSize : ℕ

namespace Table

/-- `get_row_per_page()`. -/
def getRowPerPage (rowSize : ℕ) : Except Fault ℕ := do
  assertThat (0 < rowSize) "row_size > 0"
  .ok (pageSize / rowSize)

/-- `get_max_rows()`. -/
def getMaxRows (rowSize : ℕ) : Except Fault ℕ := do
  let rowPerPage ← getRowPerPage rowSize
  .ok (tableMaxPages * rowPerPage)

/-- `Table(rsize, file_path)`. -/
def new (rowSize : ℕ) (file : Option (List UInt8)) (counts : ℕ → ℕ) (blocks : ℕ → Page) :
    Except Fault Table := do
  let dbfile := DbFile.new file counts blocks
  let remainByte := dbfile.length % pageSize
  if remainByte = 0 then
    let rowPerPage ← getRowPerPage rowSize
    .ok ⟨dbfile.numPages * rowPerPage, dbfile, rowSize⟩
  else
    let rest ← modUnsigned remainByte rowSize
    assertThat (rest = 0) "remain_byte % row_size == 0"
    let rowPerPage ← getRowPerPage rowSize
    let rows ← divUnsigned remainByte rowSize
    .ok ⟨(dbfile.numPages - 1) * rowPerPage + rows, dbfile, rowSize⟩

/-- `get_row_slot(rowid)`: the page and the offset in it. -/
def getRowSlot (t : Table) (rowid : ℕ) : Except Fault ((ℤ × ℕ) × Table) := do
  let rowPerPage ← getRowPerPage t.rowSize
  let pageId ← divUnsigned rowid rowPerPage
  let offset ← modUnsigned rowid rowPerPage
  let (_, dbfile) ← t.dbfile.getPage (toInt pageId)
  .ok ((toInt pageId, offset * t.rowSize), { t with dbfile := dbfile })

/-- `~Table()`: the content of the file afterwards. -/
def destroy (t : Table) : Except Fault (List UInt8) := do
  let rowPerPage ← getRowPerPage t.rowSize
  let totalPages ← divUnsigned (t.numRows + rowPerPage - 1) rowPerPage
  -- page 0 .. total_pages-2 shall flush with full size
  let dbfile ← (List.range (totalPages - 1)).foldlM
    (fun f i => f.flushPage (toInt i) pageSize) t.dbfile
  -- flush remain part; `total_pages - 1` is a `size_t`
  let last := toInt ((totalPages + 2 ^ 64 - 1) % 2 ^ 64)
  let remainRow ← modUnsigned t.numRows rowPerPage
  let dbfile ← if remainRow = 0 then dbfile.flushPage last pageSize
    else dbfile.flushPage last (remainRow * t.rowSize)
  .ok dbfile.destroy

/-! ## Clients -/

/-- `row.serialize(get_row_slot(num_rows)); num_rows += 1`. -/
def append (t : Table) (row : Row) : Except Fault Table := do
  let ((pageId, offset), t) ← t.getRowSlot t.numRows
  let dbfile ← t.dbfile.write pageId offset row
  .ok { t with numRows := t.numRows + 1, dbfile := dbfile }

/-- The bytes at `get_row_slot(rowid)`. -/
def readRow (t : Table) (rowid : ℕ) : Except Fault (Row × Table) := do
  let ((pageId, offset), t) ← t.getRowSlot rowid
  let (page, dbfile) ← t.dbfile.getPage pageId
  let row ← page.load offset t.rowSize
  .ok (row, { t with dbfile := dbfile })

end Table

inductive TableCall where
  | append (row : Row)
  | read (rowid : ℕ)
  | numRows

inductive TableReply where
  | appended
  | row (row : Row)
  | number (n : ℕ)
  deriving DecidableEq

/-- What a client does between the constructor and the destructor, and what the system does: the
counts it grants and the blocks it hands out. -/
structure TableSession where
  calls : List TableCall
  counts : ℕ → ℕ
  blocks : ℕ → Page

namespace Table

def answer : TableCall → Table → Except Fault (TableReply × Table)
  | .append row, t => do
      let t ← t.append row
      .ok (.appended, t)
  | .read rowid, t => do
      let (row, t) ← t.readRow rowid
      .ok (.row row, t)
  | .numRows, t => .ok (.number t.numRows, t)

/-- One session on the file: the replies, and the content of the file afterwards. -/
def session (rowSize : ℕ) (s : TableSession) (file : List UInt8) :
    Except Fault (List TableReply × List UInt8) := do
  let t ← new rowSize (some file) s.counts s.blocks
  let (replies, t) ← Runs.runAll answer s.calls t
  let file ← t.destroy
  .ok (replies, file)

/-- Sessions one after the other. -/
def sessions (rowSize : ℕ) : List TableSession → List UInt8 →
    Except Fault (List (List TableReply) × List UInt8) :=
  Runs.runAll (session rowSize)

end Table

end DbToy
