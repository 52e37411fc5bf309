import DbToy.File
import DbToy.Page
import Mathlib.Logic.Function.Basic

/-!
# The table's page cache

`DbFile` of `dbfile.h` and `dbfile.cpp`: the pages of a file, read when they are asked for and
written back when they are flushed.  `numPages` is the number of pages that the file had when it
was opened; nothing changes it later.

Page ids are of type `int`.  A pointer into a page's block is modelled by the page's id, as in the
B+ tree's pager.  The blocks that `malloc` hands out are not initialised and `blocks` is what they
hold, one after the other.
-/

namespace DbToy

open Bytes

structure DbFile where
  fd : FileDesc
  length : ℕ
  pages : ℕ → Option Page
  numPages : ℕ
  /-- What the blocks hold that `malloc` hands out from now on. -/
  blocks : ℕ → Page

/-- An `int` as a `size_t`. -/
def intToSize (x : ℤ) : ℕ := (x % 2 ^ 64).toNat

namespace DbFile

/-- `DbFile(path)`, where `file` is the content of the file at `path`: it is created if there is
none.  Length and number of pages are kept as `uint32_t`. -/
def new (file : Option (List UInt8)) (counts : ℕ → ℕ) (blocks : ℕ → Page) : DbFile :=
  let bytes := file.getD []
  let length := bytes.length % 2 ^ 32
  { fd := ⟨bytes, 0, counts⟩
    length := length
    pages := fun _ => none
    numPages := (length + pageSize - 1) / pageSize % 2 ^ 32
    blocks := blocks }

def setPage (f : DbFile) (id : ℕ) (page : Option Page) : DbFile :=
  { f with pages := Function.update f.pages id page }

/-- `malloc(PAGE_SIZE)`. -/
def mallocBlock (f : DbFile) : Page × DbFile :=
  (f.blocks 0, { f with blocks := fun i => f.blocks (i + 1) })

/-- Fill a block with the run of the file that begins at page `id`, as far as the file goes. -/
def fill (f : DbFile) (id : ℕ) (block : Page) : Page × DbFile :=
  let fd := f.fd.lseek (id * pageSize)
  (⟨(readBuffer fd block.bytes).2.1, by rw [length_readBuffer, block.length_bytes]⟩,
    { f with fd := (readBuffer fd block.bytes).2.2 })

/-- `get_page(page_id)`. -/
def getPage (f : DbFile) (pageId : ℤ) : Except Fault (Page × DbFile) :=
  let id := intToSize pageId
  if tableMaxPages ≤ id then
    .error (.exitFailure s!"page_id {pageId} greater than max pages {tableMaxPages}")
  else
    match f.pages id with
    | some page => .ok (page, f)
    | none =>
      let (block, f) := f.mallocBlock
      let (page, f) := if id < f.numPages then f.fill id block else (block, f)
      .ok (page, f.setPage id (some page))

/-- A write of `bytes` at `offset` through the pointer that `get_page(page_id)` gives. -/
def write (f : DbFile) (pageId : ℤ) (offset : ℕ) (bytes : List UInt8) : Except Fault DbFile := do
  let (page, f) ← f.getPage pageId
  let page ← page.store offset bytes
  .ok (f.setPage (intToSize pageId) (some page))

/-- `flush_page(page_id, size)`: write the front of the block back and free it. -/
def flushPage (f : DbFile) (pageId : ℤ) (size : ℕ) : Except Fault DbFile :=
  let id := intToSize pageId
  if id < tableMaxPages then
    match f.pages id with
    | none => .ok f
    | some page => do
      let src ← page.load 0 size
      .ok ({ f with fd := (writeBuffer (f.fd.lseek (id * pageSize)) src).2 }.setPage id none)
  else .error (.pageIndex id)

/-- `~DbFile()`: the content of the file afterwards.  What has not been flushed is lost. -/
def destroy (f : DbFile) : List UInt8 := f.fd.bytes

/-! ## What the operations do -/

section

variable {f : DbFile} {id : ℕ}

lemma toInt_of_lt_tableMaxPages (h : id < tableMaxPages) : toInt id = id := by
  have hmax : tableMaxPages < 2 ^ 31 := by decide
  exact toInt_of_lt (h.trans hmax)

lemma intToSize_natCast (h : id < tableMaxPages) : intToSize (id : ℤ) = id := by
  have hmax : tableMaxPages < 2 ^ 64 := by decide
  rw [intToSize]
  omega

@[simp] lemma setPage_pages (f : DbFile) (id i : ℕ) (page : Option Page) :
    (f.setPage id page).pages i = if i = id then page else f.pages i :=
  Function.update_apply f.pages id page i

lemma getPage_of_some {page : Page} (hid : id < tableMaxPages) (hpage : f.pages id = some page) :
    f.getPage id = .ok (page, f) := by
  simp only [getPage, intToSize_natCast hid, if_neg (not_le_of_gt hid), hpage]

/-- A page that is not in memory: what the file has of it is at its front. -/
lemma getPage_of_none (hid : id < tableMaxPages) (hpage : f.pages id = none) :
    ∃ page f', f.getPage id = .ok (page, f') ∧ f'.pages = Function.update f.pages id (some page) ∧
      f'.fd.bytes = f.fd.bytes ∧ f'.length = f.length ∧ f'.numPages = f.numPages ∧
      (id < f.numPages → ∀ off len, off + len ≤ pageSize →
        id * pageSize + off + len ≤ f.fd.bytes.length →
          page.get off len = slice f.fd.bytes (id * pageSize + off) len) := by
  simp only [getPage, intToSize_natCast hid, if_neg (not_le_of_gt hid), hpage, mallocBlock]
  split_ifs with hnum
  · refine ⟨_, _, rfl, rfl, ?_, rfl, rfl, ?_⟩
    · obtain ⟨counts, hread⟩ := readBuffer_spec
        (f.fd.lseek (id * pageSize)) (f.blocks 0).bytes
      exact congrArg (fun r => r.2.2.bytes) hread
    · intro _ off len hoff hlen
      obtain ⟨counts, hread⟩ := readBuffer_spec
        (f.fd.lseek (id * pageSize)) (f.blocks 0).bytes
      have hbytes : (f.fill id (f.blocks 0)).1.bytes
          = slice f.fd.bytes (id * pageSize) pageSize
            ++ (f.blocks 0).bytes.drop (slice f.fd.bytes (id * pageSize) pageSize).length := by
        have h := congrArg (fun r => r.2.1) hread
        rw [(f.blocks 0).length_bytes] at h
        exact h
      show slice (f.fill id (f.blocks 0)).1.bytes off len = _
      rw [hbytes]
      refine List.ext_getElem? ?_
      intro i
      rw [getElem?_slice, getElem?_slice]
      split_ifs with hi
      · rw [List.getElem?_append_left (by rw [length_slice]; omega), getElem?_slice,
          if_pos (by omega), Nat.add_assoc]
      · rfl
  · exact ⟨_, _, rfl, rfl, rfl, rfl, rfl, fun h => absurd h hnum⟩

lemma flushPage_of_none (hid : id < tableMaxPages) (hpage : f.pages id = none) (size : ℕ) :
    f.flushPage id size = .ok f := by
  simp only [flushPage, intToSize_natCast hid, if_pos hid, hpage]

/-- The front of a page in memory goes to its place in the file. -/
lemma flushPage_of_some {page : Page} (hid : id < tableMaxPages) (hpage : f.pages id = some page)
    {size : ℕ} (hpos : 0 < size) (hsize : size ≤ pageSize) :
    ∃ f', f.flushPage id size = .ok f' ∧ f'.pages = Function.update f.pages id none ∧
      f'.fd.bytes = patch 0 f.fd.bytes (id * pageSize) (page.get 0 size) ∧
      f'.numPages = f.numPages := by
  have hlen : (page.get 0 size).length = size := Page.length_get (by rwa [Nat.zero_add])
  obtain ⟨counts, hwrite⟩ := writeBuffer_spec (f.fd.lseek (id * pageSize)) (page.get 0 size)
    (List.ne_nil_of_length_pos (by omega))
  simp only [flushPage, intToSize_natCast hid, if_pos hid, hpage,
    Page.load_of_le (show 0 + size ≤ pageSize by omega), ok_bind, hwrite]
  exact ⟨_, rfl, rfl, rfl, rfl⟩

end

end DbFile

end DbToy
