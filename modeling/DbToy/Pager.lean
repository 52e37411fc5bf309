import DbToy.File
import DbToy.Page
import Mathlib.Logic.Function.Basic

/-!
# The B+ tree's pager

`BtreeMetaData` and `BTreePager` of `dbfile.h` and `dbfile.cpp`.  The file holds 16 bytes of
metadata and then the pages in the order of their ids; `pages` is the table of the pages that are
in memory.

A pointer into a page's block is modelled by the page's id: a block stays where it is until
`flushPage` frees it, so what is written through a pointer that `getPage` or `allocatePage` gave
lands in the block that `pages` still has for that id.  `writePage` is such a write.

What `malloc` hands out is not initialised: `malloc id` is what the block for page `id` holds
before anything is written to it.
-/

namespace DbToy

open Bytes

structure BtreeMetaData where
  rootPid : ℕ
  numPages : ℕ

namespace BtreeMetaData

def getDataSize : ℕ := 8 + 8

/-- `write_to_disk`: the metadata is located at the front of the file. -/
def writeToDisk (m : BtreeMetaData) (fd : FileDesc) : FileDesc :=
  let fd := (writeBuffer (fd.lseek 0) (encodeLE 8 m.rootPid)).2
  (writeBuffer fd (encodeLE 8 m.numPages)).2

/-- `load_from_disk`: what the file is too short for keeps its value. -/
def loadFromDisk (m : BtreeMetaData) (fd : FileDesc) : BtreeMetaData × FileDesc :=
  match readBuffer (fd.lseek 0) (encodeLE 8 m.rootPid) with
  | (_, rootPid, fd) =>
    match readBuffer fd (encodeLE 8 m.numPages) with
    | (_, numPages, fd) => (⟨decodeLE rootPid, decodeLE numPages⟩, fd)

end BtreeMetaData

structure BTreePager where
  fd : FileDesc
  metaData : BtreeMetaData
  pages : ℕ → Option Page

/-- A page id of type `uint64_t`, passed as an `int` and compared with a `uint64_t` again. -/
def pageId (id : ℕ) : ℕ := (toInt id % 2 ^ 64).toNat

lemma pageId_of_lt {id : ℕ} (h : id < 2 ^ 31) : pageId id = id := by
  rw [pageId, toInt_of_lt h]; omega

/-- Where page `id` starts in the file. -/
def pageStart (id : ℕ) : ℕ := BtreeMetaData.getDataSize + id * pageSize

namespace BTreePager

def numPages (p : BTreePager) : ℕ := p.metaData.numPages

def getRootPage (p : BTreePager) : ℕ := p.metaData.rootPid

def setRootPage (p : BTreePager) (id : ℕ) : BTreePager :=
  { p with metaData := { p.metaData with rootPid := id } }

/-- `BTreePager(path, mode)`, where `file` is the content of the file at `path`, if there is one,
and `counts` what the kernel will grant to the transfers on it. -/
def new (file : Option (List UInt8)) (mode : Char) (counts : ℕ → ℕ) :
    Except Fault BTreePager :=
  if mode = 'c' then
    .ok { fd := ⟨[], 0, counts⟩, metaData := ⟨0, 0⟩, pages := fun _ => none }
  else if mode = 'o' then
    match file with
    | none => .error (.exitFailure "open file error")
    | some bytes =>
      match (BtreeMetaData.mk 0 0).loadFromDisk ⟨bytes, 0, counts⟩ with
      | (metaData, fd) => .ok { fd := fd, metaData := metaData, pages := fun _ => none }
  else .error (.exitFailure "mode shall be 'o' or 'c'")

/-- The entry of the page table, an access out of bounds past its end. -/
def entry (p : BTreePager) (id : ℕ) : Except Fault (Option Page) :=
  if id < tableMaxPages then .ok (p.pages id) else .error (.pageIndex id)

def setEntry (p : BTreePager) (id : ℕ) (page : Option Page) : BTreePager :=
  { p with pages := Function.update p.pages id page }

section

variable (malloc : ℕ → Page)

/-- `get_page(page_id)`. -/
def getPage (p : BTreePager) (id : ℕ) : Except Fault (Page × BTreePager) := do
  let id := pageId id
  if p.numPages ≤ id then .error (.exitFailure "page_id greater than capacity")
  else
    match ← p.entry id with
    | some page => .ok (page, p)
    | none =>
      -- the page is not in memory: malloc a block and fill it from the file
      let fd := p.fd.lseek (pageStart id)
      let page : Page := ⟨(readBuffer fd (malloc id).bytes).2.1, by
        rw [length_readBuffer, (malloc id).length_bytes]⟩
      assertThat ((readBuffer fd (malloc id).bytes).1 = pageSize) "nbytes == PAGE_SIZE"
      .ok (page, { p with fd := (readBuffer fd (malloc id).bytes).2.2 }.setEntry id (some page))

/-- A write of the whole block through the pointer that `get_page(id)` currently gives. -/
def writePage (p : BTreePager) (id : ℕ) (page : Page) : Except Fault BTreePager := do
  let (_, p) ← getPage malloc p id
  .ok (p.setEntry (pageId id) (some page))

/-- `allocate_page(new_page)`: the id of the new page and its block. -/
def allocatePage (p : BTreePager) : Except Fault ((ℕ × Page) × BTreePager) := do
  let metaData := { p.metaData with numPages := p.metaData.numPages + 1 }
  let id := metaData.numPages - 1
  let _ ← p.entry id
  let p := { p with metaData := metaData }.setEntry id (some (malloc id))
  .ok ((id, malloc id), { p with fd := metaData.writeToDisk p.fd })

end

/-- `sync(page_id)`: write the page back to the file. -/
def sync (p : BTreePager) (id : ℕ) : Except Fault BTreePager := do
  match ← p.entry id with
  | none => .ok p
  | some page =>
    let r := writeBuffer (p.fd.lseek (pageStart id)) page.bytes
    assertThat (r.1 = pageSize) "nbytes == PAGE_SIZE"
    .ok { p with fd := r.2 }

/-- `flush_page(page_id)`: write the page back and free its block. -/
def flushPage (p : BTreePager) (id : ℕ) : Except Fault BTreePager := do
  match ← p.entry id with
  | none => .ok p
  | some _ =>
    let p ← p.sync id
    .ok (p.setEntry id none)

/-- `~BTreePager()`: the content of the file afterwards. -/
def destroy (p : BTreePager) : Except Fault (List UInt8) := do
  let p := { p with fd := p.metaData.writeToDisk p.fd }
  let p ← (List.range p.numPages).foldlM flushPage p
  .ok p.fd.bytes

end BTreePager

end DbToy
