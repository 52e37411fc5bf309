import DbToy.TableFiles

/-!
# Table processes that are killed

A table writes to its file in the destructor only, page after page.  A process that is killed before
that has no effect; one that is killed while it writes leaves its first rows, behind all rows of
before (`killed_tables`).  The length of the file alone decides whether it can be opened again, and a
file that ends inside a row cannot, though its rows are there.

* `writeBufferStopped`, `DbFile.flushStopped`, `Table.destroyStopped`: the destructor up to a call
  of `write`.
* `Closing`: what is in the file after the first pages have been flushed.
* `LeftByTables`: the files of processes that exit or are killed.
-/

namespace DbToy

open Bytes Records
open Runs (runAll Along)

/-! ## Stopped writes -/

/-- `write_buffer(fd, src, buffer_size)` after `n` calls of `write`, or as many as it makes. -/
def writeBufferStopped : ℕ → FileDesc → List UInt8 → FileDesc
  | 0, fd, _ => fd
  | n + 1, fd, src =>
      if 0 < src.length then
        writeBufferStopped n (fd.write src).2 (src.drop (fd.write src).1)
      else fd

/-- **A stopped write** has written the front of the buffer. -/
lemma writeBufferStopped_bytes : ∀ (n : ℕ) (fd : FileDesc) (src : List UInt8),
    (writeBufferStopped n fd src).bytes = fd.bytes ∨
      ∃ w, (writeBufferStopped n fd src).bytes = patch 0 fd.bytes fd.pos (src.take w)
  | 0, fd, src => Or.inl rfl
  | n + 1, fd, src => by
      rw [writeBufferStopped]
      split_ifs with hpos
      · have hg := fd.grant_le hpos
        refine Or.inr ?_
        rcases writeBufferStopped_bytes n (fd.write src).2 (src.drop (fd.write src).1) with
          h | ⟨w, h⟩
        · exact ⟨fd.grant src.length, h⟩
        · -- the later calls go on where the first one has stopped
          have hjoin := patch_patch_append 0 fd.bytes fd.pos (src.take (fd.grant src.length))
            ((src.drop (fd.grant src.length)).take w)
          rw [List.length_take, min_eq_left hg, ← List.take_add] at hjoin
          exact ⟨fd.grant src.length + w, h.trans hjoin⟩
      · exact Or.inl rfl

/-- `flush_page(page_id, size)` after `n` calls of `write`: the content of the file. -/
def DbFile.flushStopped (n : ℕ) (f : DbFile) (pageId : ℤ) (size : ℕ) : Except Fault (List UInt8) :=
  let id := intToSize pageId
  if id < tableMaxPages then
    match f.pages id with
    | none => .ok f.fd.bytes
    | some page => do
      let src ← page.load 0 size
      .ok (writeBufferStopped n (f.fd.lseek (id * pageSize)) src).bytes
  else .error (.pageIndex id)

namespace Table

/-- `~Table()` until it has called `write` `n` times in `flush_page(k)`, or in that of the last
page: the content of the file. -/
def destroyStopped (k n : ℕ) (t : Table) : Except Fault (List UInt8) := do
  let rowPerPage ← getRowPerPage t.rowSize
  let totalPages ← divUnsigned (t.numRows + rowPerPage - 1) rowPerPage
  let dbfile ← (List.range (min k (totalPages - 1))).foldlM
    (fun f i => f.flushPage (toInt i) pageSize) t.dbfile
  if k + 1 < totalPages then dbfile.flushStopped n (toInt k) pageSize
  else
    let last := toInt ((totalPages + 2 ^ 64 - 1) % 2 ^ 64)
    let remainRow ← modUnsigned t.numRows rowPerPage
    if remainRow = 0 then dbfile.flushStopped n last pageSize
    else dbfile.flushStopped n last (remainRow * t.rowSize)

end Table

/-! ## The pages of the destructor -/

/-- The size with which page `k` is flushed if there are `m` rows. -/
def flushSize (rowSize m k : ℕ) : ℕ :=
  if k + 1 < (m + pageSize / rowSize - 1) / (pageSize / rowSize) then pageSize
  else if m % (pageSize / rowSize) = 0 then pageSize
  else m % (pageSize / rowSize) * rowSize

section

variable {rowSize m k : ℕ} (hpos : 0 < rowSize) (hle : rowSize ≤ pageSize)

include hpos hle

/-- The pages that have a row. -/
lemma lt_pages_iff :
    k < (m + pageSize / rowSize - 1) / (pageSize / rowSize) ↔ k * (pageSize / rowSize) < m := by
  have hper := perBlock_pos hpos hle
  rw [Nat.lt_div_iff_mul_lt hper]
  omega

/-- The last page that has a row, unless it is full. -/
lemma div_eq_last (hk : k < (m + pageSize / rowSize - 1) / (pageSize / rowSize))
    (hlast : ¬k + 1 < (m + pageSize / rowSize - 1) / (pageSize / rowSize))
    (hrest : m % (pageSize / rowSize) ≠ 0) : m / (pageSize / rowSize) = k := by
  rw [lt_pages_iff hpos hle] at hk hlast
  refine Nat.div_eq_of_lt_le hk.le (lt_of_le_of_ne (not_lt.mp hlast) ?_)
  rintro rfl
  exact hrest (Nat.mul_mod_left _ _)

/-- Up to the end of the page, or of the last row. -/
lemma flushSize_le (hk : k < (m + pageSize / rowSize - 1) / (pageSize / rowSize)) :
    k * pageSize + flushSize rowSize m k ≤ start pageSize rowSize m := by
  have hfull : (k + 1) * (pageSize / rowSize) ≤ m →
      k * pageSize + pageSize ≤ start pageSize rowSize m := by
    intro hle'
    have hmono := start_mono hpos hle hle'
    rwa [start_mul hpos hle, Nat.add_mul, Nat.one_mul] at hmono
  rw [flushSize]
  split_ifs with hlt hzero
  · exact hfull ((lt_pages_iff hpos hle).mp hlt).le
  · obtain ⟨j, rfl⟩ := Nat.dvd_of_mod_eq_zero hzero
    rw [lt_pages_iff hpos hle, Nat.mul_comm] at hk
    rw [Nat.mul_comm] at hfull
    exact hfull (Nat.mul_le_mul_left _ (lt_of_mul_lt_mul_left hk (Nat.zero_le _)))
  · rw [start, div_eq_last hpos hle hk hlt hzero]

/-- A page is flushed with all its rows. -/
lemma le_flushSize {i : ℕ} (hi : i < m) :
    i % (pageSize / rowSize) * rowSize + rowSize
      ≤ flushSize rowSize m (i / (pageSize / rowSize)) := by
  have hoff := offset_add_le hpos hle i
  have hk : i / (pageSize / rowSize) < (m + pageSize / rowSize - 1) / (pageSize / rowSize) :=
    (lt_pages_iff hpos hle).mpr ((Nat.div_mul_le_self _ _).trans_lt hi)
  rw [flushSize]
  split_ifs with hlt hzero
  · exact hoff
  · exact hoff
  · have hend := start_add_le hpos hle hi
    rw [start, start, div_eq_last hpos hle hk hlt hzero] at hend
    omega

lemma flushSize_bounds : 0 < flushSize rowSize m k ∧ flushSize rowSize m k ≤ pageSize := by
  have hoff := offset_add_le hpos hle m
  rw [flushSize]
  split_ifs with hlt hzero
  · exact ⟨by decide, le_refl _⟩
  · exact ⟨by decide, le_refl _⟩
  · exact ⟨Nat.mul_pos (Nat.pos_of_ne_zero hzero) hpos, by omega⟩

/-- A file that ends with such a page can be opened. -/
lemma flushSize_opens : (k * pageSize + flushSize rowSize m k) % pageSize % rowSize = 0 := by
  have hoff := offset_add_le hpos hle m
  rw [Nat.add_comm, Nat.add_mul_mod_self_right, flushSize]
  split_ifs with hlt hzero
  · rw [Nat.mod_self, Nat.zero_mod]
  · rw [Nat.mod_self, Nat.zero_mod]
  · rw [Nat.mod_eq_of_lt (show m % (pageSize / rowSize) * rowSize < pageSize by omega),
      Nat.mul_mod_left]

end

/-! ## What is in the file -/

/-- The file has the rows as far as it goes, and it is no shorter than the old one. -/
structure HasFront (rowSize : ℕ) (rows : List Row) (old file : List UInt8) : Prop where
  stored : Stored pageSize rowSize rows (whole pageSize rowSize file.length) file
  length_ge : old.length ≤ file.length
  length_le : file.length ≤ start pageSize rowSize rows.length

/-- The pages below `k` have been flushed. -/
structure Closing (rowSize : ℕ) (rows : List Row) (f₀ : DbFile) (k : ℕ) (f : DbFile) : Prop where
  pages_eq : ∀ p, k ≤ p → f.pages p = f₀.pages p
  front : HasFront rowSize rows f₀.fd.bytes f.fd.bytes
  below : ∀ i < rows.length, i / (pageSize / rowSize) < k →
    i < whole pageSize rowSize f.fd.bytes.length
  opens : Opens rowSize f.fd.bytes

section

variable {rowSize : ℕ} {rows : List Row} (hpos : 0 < rowSize) (hle : rowSize ≤ pageSize)

include hpos hle

/-- The rows of such a file. -/
lemma HasFront.records_eq {old file : List UInt8} (h : HasFront rowSize rows old file) :
    records pageSize rowSize file = rows.take (whole pageSize rowSize file.length) :=
  records_eq_take hpos hle h.stored h.length_le

/-- The front of a page is written. -/
lemma HasFront.patch {old bytes : List UInt8} (h : HasFront rowSize rows old bytes) {k : ℕ}
    (hbelow : ∀ i < rows.length, i / (pageSize / rowSize) < k →
      i < whole pageSize rowSize bytes.length) {page : Page}
    (hpage : ∀ i row, rows[i]? = some row → i / (pageSize / rowSize) = k →
      page.get (i % (pageSize / rowSize) * rowSize) rowSize = row) {w : ℕ}
    (hw : k * pageSize + w ≤ start pageSize rowSize rows.length) :
    HasFront rowSize rows old (patch 0 bytes (k * pageSize) (page.bytes.take w)) := by
  refine ⟨h.stored.patch hpos hle 0 w hbelow page.length_bytes.le hpage, ?_, ?_⟩
  · rw [length_patch]
    exact h.length_ge.trans (le_max_left _ _)
  · have hlen := List.length_take_le w page.bytes
    rw [length_patch]
    exact max_le h.length_le (by omega)

namespace Closing

variable {t : Table} {file : List UInt8} {f : DbFile} {k : ℕ}

omit hpos hle in
/-- A page that is in memory has its rows. -/
lemma page_get (ht : t.Presents rowSize file rows) {page : Page}
    (hpage : t.dbfile.pages k = some page) {i : ℕ} {row : Row} (hrow : rows[i]? = some row)
    (hi : i / (pageSize / rowSize) = k) :
    page.get (i % (pageSize / rowSize) * rowSize) rowSize = row := by
  have hat := ht.rowAt_eq i row hrow
  rw [DbFile.rowAt_of_some (hi ▸ hpage)] at hat
  exact Option.some.inj hat

lemma page_id_lt (ht : t.Presents rowSize file rows)
    (hk : k < (rows.length + pageSize / rowSize - 1) / (pageSize / rowSize)) :
    k < tableMaxPages :=
  lt_of_mul_lt_mul_right (((lt_pages_iff hpos hle).mp hk).trans_le ht.length_le) (Nat.zero_le _)

/-- **One page is flushed.** -/
lemma flush (ht : t.Presents rowSize file rows) (h : Closing rowSize rows t.dbfile k f)
    (hk : k < (rows.length + pageSize / rowSize - 1) / (pageSize / rowSize)) :
    ∃ f', f.flushPage (toInt k) (flushSize rowSize rows.length k) = .ok f' ∧
      Closing rowSize rows t.dbfile (k + 1) f' := by
  have hmax : k < tableMaxPages := page_id_lt hpos hle ht hk
  have hpages := h.pages_eq k le_rfl
  obtain ⟨hsize, hsize'⟩ := @flushSize_bounds rowSize rows.length k hpos hle
  rw [DbFile.toInt_of_lt_tableMaxPages hmax]
  cases hpage : t.dbfile.pages k with
  | none =>
      refine ⟨f, DbFile.flushPage_of_none hmax (hpages.trans hpage) _, ?_, h.front, ?_, h.opens⟩
      · exact fun p hp => h.pages_eq p (by omega)
      · intro i hi hlt
        rcases Nat.lt_succ_iff_lt_or_eq.mp hlt with hlt | rfl
        · exact h.below i hi hlt
        · -- the page has not been touched, so its rows are in the file
          have hat := ht.rowAt_eq i _ (List.getElem?_eq_getElem hi)
          rw [DbFile.rowAt_of_none hpage] at hat
          have hwhole := (List.getElem?_eq_some_iff.mp hat).1
          rw [length_records] at hwhole
          exact hwhole.trans_le (whole_mono hpos hle h.front.length_ge)
  | some page =>
      obtain ⟨f', hflush, hpages', hbytes, -⟩ :=
        DbFile.flushPage_of_some hmax (hpages.trans hpage) hsize hsize'
      have hsrc : (page.get 0 (flushSize rowSize rows.length k)).length
          = flushSize rowSize rows.length k := Page.length_get (by rwa [Nat.zero_add])
      have hlen : f'.fd.bytes.length
          = max f.fd.bytes.length (k * pageSize + flushSize rowSize rows.length k) := by
        rw [hbytes, length_patch, hsrc]
      refine ⟨f', hflush, ?_, ?_, ?_, ?_⟩
      · intro p hp
        rw [hpages', Function.update_of_ne (by omega)]
        exact h.pages_eq p (by omega)
      · rw [hbytes]
        exact h.front.patch hpos hle h.below (fun i row hrow hi => page_get ht hpage hrow hi)
          (flushSize_le hpos hle hk)
      · intro i hi hlt
        rw [hlen]
        rcases Nat.lt_succ_iff_lt_or_eq.mp hlt with hlt | rfl
        · exact (h.below i hi hlt).trans_le (whole_mono hpos hle (le_max_left _ _))
        · have hend := le_flushSize hpos hle hi
          rw [lt_whole_iff hpos hle, start]
          omega
      · rw [Opens, hlen]
        rcases max_choice f.fd.bytes.length (k * pageSize + flushSize rowSize rows.length k)
          with heq | heq
        · rw [heq]
          exact h.opens
        · rw [heq]
          exact flushSize_opens hpos hle

/-- **The process is killed** while a page is flushed. -/
lemma flushStopped (ht : t.Presents rowSize file rows) (h : Closing rowSize rows t.dbfile k f)
    (hk : k < (rows.length + pageSize / rowSize - 1) / (pageSize / rowSize)) (n : ℕ) :
    ∃ file', f.flushStopped n (toInt k) (flushSize rowSize rows.length k) = .ok file' ∧
      HasFront rowSize rows t.dbfile.fd.bytes file' := by
  have hmax : k < tableMaxPages := page_id_lt hpos hle ht hk
  have hpages := h.pages_eq k le_rfl
  obtain ⟨-, hsize⟩ := @flushSize_bounds rowSize rows.length k hpos hle
  rw [DbFile.toInt_of_lt_tableMaxPages hmax, DbFile.flushStopped]
  simp only [DbFile.intToSize_natCast hmax, if_pos hmax, hpages]
  cases hpage : t.dbfile.pages k with
  | none => exact ⟨_, rfl, h.front⟩
  | some page =>
      have hload : page.load 0 (flushSize rowSize rows.length k)
          = .ok (page.bytes.take (flushSize rowSize rows.length k)) :=
        Page.load_of_le (by rwa [Nat.zero_add])
      simp only [hload, ok_bind]
      refine ⟨_, rfl, ?_⟩
      rcases writeBufferStopped_bytes n (f.fd.lseek (k * pageSize))
        (page.bytes.take (flushSize rowSize rows.length k)) with hbytes | ⟨w, hbytes⟩
      · rw [hbytes]
        exact h.front
      · rw [hbytes, List.take_take]
        have hend := flushSize_le hpos hle hk
        exact h.front.patch hpos hle h.below (fun i row hrow hi => page_get ht hpage hrow hi)
          (by omega)

/-- Nothing has been flushed yet. -/
lemma start (ht : t.Presents rowSize file rows) (hopens : Opens rowSize file) :
    Closing rowSize rows t.dbfile 0 t.dbfile := by
  have hbytes := ht.bytes_eq
  subst hbytes
  have hlen := ht.begins.length_le
  rw [length_records] at hlen
  exact ⟨fun _ _ => rfl, ⟨stored_of_records ht.begins, le_rfl,
    (le_start_whole hpos hle hopens).trans (start_mono hpos hle hlen)⟩,
    fun _ _ hlt => absurd hlt (Nat.not_lt_zero _), hopens⟩

/-- The pages below the last one. -/
lemma run (ht : t.Presents rowSize file rows) (hopens : Opens rowSize file)
    (hk : k < (rows.length + pageSize / rowSize - 1) / (pageSize / rowSize)) :
    ∃ f, (List.range k).foldlM (fun f i => f.flushPage (toInt i) pageSize) t.dbfile = .ok f ∧
      Closing rowSize rows t.dbfile k f := by
  induction k with
  | zero => exact ⟨t.dbfile, rfl, start hpos hle ht hopens⟩
  | succ k ih =>
      obtain ⟨f, hrun, h⟩ := ih (by omega)
      obtain ⟨f', hflush, h'⟩ := h.flush hpos hle ht (by omega)
      rw [flushSize, if_pos hk] at hflush
      refine ⟨f', ?_, h'⟩
      rw [List.range_succ, List.foldlM_append, hrun, ok_bind]
      show (f.flushPage (toInt k) pageSize >>= _) = _
      rw [hflush]
      rfl

end Closing

/-! ## Closing and killing -/

lemma exists_last (hne : rows ≠ []) :
    ∃ last, (rows.length + pageSize / rowSize - 1) / (pageSize / rowSize) = last + 1 := by
  have hlen := List.length_pos_iff.mpr hne
  refine Nat.exists_eq_succ_of_ne_zero (Nat.pos_iff_ne_zero.mp ?_)
  rw [lt_pages_iff hpos hle, Nat.zero_mul]
  exact hlen

namespace Table.Presents

variable {t : Table} {file : List UInt8}

/-- `total_pages - 1`, as a `size_t` and then as an `int`. -/
lemma toInt_last (h : t.Presents rowSize file rows) {last : ℕ}
    (hlast : (rows.length + pageSize / rowSize - 1) / (pageSize / rowSize) = last + 1) :
    toInt ((last + 1 + 2 ^ 64 - 1) % 2 ^ 64) = toInt last := by
  have hmax : last < tableMaxPages := Closing.page_id_lt hpos hle h (by omega)
  have hlt : tableMaxPages < 2 ^ 64 := by decide
  rw [Nat.add_right_comm, Nat.add_sub_cancel, Nat.add_mod_right, Nat.mod_eq_of_lt (by omega)]

/-- **The destructor** leaves a file that opens, with all rows. -/
theorem destroy (h : t.Presents rowSize file rows) (hopens : Opens rowSize file) (hne : rows ≠ []) :
    ∃ file', t.destroy = .ok file' ∧ HasFront rowSize rows file file' ∧ Opens rowSize file' ∧
      records pageSize rowSize file' = rows := by
  obtain ⟨last, hlast⟩ := exists_last hpos hle hne
  have hlt : last < (rows.length + pageSize / rowSize - 1) / (pageSize / rowSize) := by omega
  obtain ⟨f, hrun, hclosing⟩ := Closing.run hpos hle h hopens hlt
  obtain ⟨f', hflush, hclosed⟩ := hclosing.flush hpos hle h hlt
  have hall : rows.length ≤ whole pageSize rowSize f'.fd.bytes.length := by
    refine le_of_forall_lt ?_
    intro i hi
    refine hclosed.below i hi ?_
    rw [← hlast, lt_pages_iff hpos hle]
    exact (Nat.div_mul_le_self _ _).trans_lt hi
  refine ⟨f'.destroy, ?_, h.bytes_eq ▸ hclosed.front, hclosed.opens, ?_⟩
  · rw [flushSize, hlast, if_neg (lt_irrefl _)] at hflush
    simp only [Table.destroy, h.rowSize_eq, h.numRows_eq, getRowPerPage_eq hpos,
      divUnsigned_eq hpos hle, modUnsigned_eq hpos hle, hlast, toInt_last hpos hle h hlast,
      Nat.add_sub_cancel, hrun, ok_bind]
    split_ifs at hflush ⊢ with hzero
    · rw [hflush, ok_bind]
    · rw [hflush, ok_bind]
  · rw [DbFile.destroy, hclosed.front.records_eq hpos hle, List.take_of_length_le hall]

/-- **A destructor that is killed** leaves the first rows. -/
theorem destroyStopped (h : t.Presents rowSize file rows) (hopens : Opens rowSize file)
    (hne : rows ≠ []) (k n : ℕ) :
    ∃ file', t.destroyStopped k n = .ok file' ∧ HasFront rowSize rows file file' := by
  obtain ⟨last, hlast⟩ := exists_last hpos hle hne
  have hlt : min k last < (rows.length + pageSize / rowSize - 1) / (pageSize / rowSize) := by omega
  obtain ⟨f, hrun, hclosing⟩ := Closing.run hpos hle h hopens hlt
  obtain ⟨file', hstopped, hfront⟩ := hclosing.flushStopped hpos hle h hlt n
  refine ⟨file', ?_, h.bytes_eq ▸ hfront⟩
  rw [flushSize, hlast] at hstopped
  simp only [Table.destroyStopped, h.rowSize_eq, h.numRows_eq, getRowPerPage_eq hpos,
    divUnsigned_eq hpos hle, modUnsigned_eq hpos hle, hlast, toInt_last hpos hle h hlast,
    Nat.add_sub_cancel, hrun, ok_bind]
  rcases Nat.lt_or_ge k last with hlt | hge
  · rw [min_eq_left hlt.le, if_pos (Nat.succ_lt_succ hlt)] at hstopped
    rw [if_pos (Nat.succ_lt_succ hlt), hstopped]
  · rw [min_eq_right hge, if_neg (lt_irrefl _)] at hstopped
    rw [if_neg (by omega)]
    split_ifs at hstopped ⊢ with hzero
    · exact hstopped
    · exact hstopped

end Table.Presents

end

/-! ## Processes -/

/-- How a process ends. -/
inductive TableEnd where
  | exits
  /-- It is killed before its destructor calls `write`. -/
  | killed
  /-- It is killed in its destructor, after `n` calls of `write` for page `k`. -/
  | killedClosing (k n : ℕ)
  deriving DecidableEq

/-- A session and its end. -/
abbrev TableProcess : Type := TableSession × TableEnd

namespace Table

/-- The content of the file at the end. -/
def endBy (t : Table) : TableEnd → Except Fault (List UInt8)
  | .exits => t.destroy
  | .killed => .ok t.dbfile.fd.bytes
  | .killedClosing k n => t.destroyStopped k n

/-- One process on the file: the replies, and the content of the file afterwards. -/
def process (rowSize : ℕ) (p : TableProcess) (file : List UInt8) :
    Except Fault (List TableReply × List UInt8) := do
  let t ← new rowSize (some file) p.1.counts p.1.blocks
  let (replies, t) ← runAll answer p.1.calls t
  let file ← t.endBy p.2
  .ok (replies, file)

end Table

/-- Every call of the process is admitted, and it does not close an empty table. -/
def RowList.AdmitsProcess (rowSize : ℕ) (rows : List Row) (p : TableProcess) : Prop :=
  Along answer (Admits rowSize) p.1.calls rows ∧ (p.2 = .killed ∨ rows ++ p.1.appended ≠ [])

instance (rowSize : ℕ) (rows : List Row) : DecidablePred (RowList.AdmitsProcess rowSize rows) :=
  fun _ => inferInstanceAs (Decidable (_ ∧ _))

/-- The rows of a process that reach the file. -/
def TableProcess.Keeps (p : TableProcess) (kept : List Row) : Prop :=
  match p.2 with
  | .exits => kept = p.1.appended
  | .killed => kept = []
  | .killedClosing _ _ => kept <+: p.1.appended

/-- The files that processes leave, one after the other. -/
inductive LeftByTables (rowSize : ℕ) : List TableProcess → List UInt8 → Prop
  | new : LeftByTables rowSize [] []
  | ended {ps : List TableProcess} {file : List UInt8} {p : TableProcess}
      {replies : List TableReply} {file' : List UInt8} : LeftByTables rowSize ps file →
      RowList.AdmitsProcess rowSize (records pageSize rowSize file) p →
      Table.process rowSize p file = .ok (replies, file') → LeftByTables rowSize (ps ++ [p]) file'

section

variable {rowSize : ℕ} (hpos : 0 < rowSize) (hle : rowSize ≤ pageSize)

include hpos hle

/-- **One process** on a file that opens: it is answered from the rows in the file, and the rows
that it keeps are there afterwards. -/
theorem process_spec {file : List UInt8} (hlen : file.length ≤ tableMaxPages * pageSize)
    (hopens : Opens rowSize file) {p : TableProcess}
    (hp : RowList.AdmitsProcess rowSize (records pageSize rowSize file) p) :
    ∃ replies file' kept, Table.process rowSize p file = .ok (replies, file') ∧
      RowList.session p.1 (records pageSize rowSize file)
        = .ok (replies, records pageSize rowSize file ++ p.1.appended) ∧
      p.Keeps kept ∧ records pageSize rowSize file' = records pageSize rowSize file ++ kept ∧
      file'.length ≤ tableMaxPages * pageSize ∧
      (Opens rowSize file' ∨ ∃ k n, p.2 = .killedClosing k n) := by
  obtain ⟨s, ending⟩ := p
  obtain ⟨t, hnew, hpresents⟩ := new_presents hpos hle hlen hopens s.counts s.blocks
  have hagree := @Runs.runAll_related _ _ _ _ _
    (fun t rows => Table.Presents rowSize file rows t) Table.answer RowList.answer
    (RowList.Admits rowSize) (fun _ _ _ hrel hc => hrel.answer hpos hle hc) s.calls t
    (records pageSize rowSize file) hpresents hp.1
  obtain ⟨replies, hsession⟩ := RowList.session_eq s (records pageSize rowSize file)
  have hcalls : runAll RowList.answer s.calls (records pageSize rowSize file)
      = .ok (replies, records pageSize rowSize file ++ s.appended) := hsession
  rw [hcalls] at hagree
  obtain ⟨t', hrun, h⟩ := hagree.exists_ok
  have hend : ∀ {file' : List UInt8}, t'.endBy ending = .ok file' →
      Table.process rowSize (s, ending) file = .ok (replies, file') := by
    intro file' hend
    simp only [Table.process, hnew, hrun, hend, ok_bind]
  have hlength : ∀ {file' : List UInt8},
      HasFront rowSize (records pageSize rowSize file ++ s.appended) file file' →
      file'.length ≤ tableMaxPages * pageSize := by
    intro file' hfront
    have hmono := start_mono hpos hle h.length_le
    rw [start_mul hpos hle] at hmono
    exact hfront.length_le.trans hmono
  cases ending with
  | exits =>
      obtain ⟨file', hdestroy, hfront, hopens', hrows⟩ :=
        h.destroy hpos hle hopens (hp.2.resolve_left (by simp))
      exact ⟨replies, file', s.appended, hend hdestroy, hsession, rfl, hrows, hlength hfront,
        Or.inl hopens'⟩
  | killed =>
      exact ⟨replies, file, [], hend (congrArg Except.ok h.bytes_eq), hsession, rfl,
        (List.append_nil _).symm, hlen, Or.inl hopens⟩
  | killedClosing k n =>
      obtain ⟨file', hstopped, hfront⟩ :=
        h.destroyStopped hpos hle hopens (hp.2.resolve_left (by simp)) k n
      have hrows := hfront.records_eq hpos hle
      have hwhole := whole_mono hpos hle hfront.length_ge
      rw [← length_records file] at hwhole
      rw [List.take_append, List.take_of_length_le hwhole] at hrows
      exact ⟨replies, file', _, hend hstopped, hsession, List.take_prefix _ _, hrows,
        hlength hfront, Or.inr ⟨k, n, rfl⟩⟩

omit hle in
/-- Every process stops at the constructor of a file that does not open. -/
lemma process_fails {file : List UInt8} (hlen : file.length ≤ tableMaxPages * pageSize)
    (hnot : ¬Opens rowSize file) (p : TableProcess) : Table.process rowSize p file
      = .error (.assertFailed "remain_byte % row_size == 0") := by
  rw [Table.process, new_eq hpos hlen, if_neg hnot, error_bind]

/-- **Any number of processes**: the rows that they keep are in the file, in their order. -/
lemma LeftByTables.spec {ps : List TableProcess} {file : List UInt8}
    (h : LeftByTables rowSize ps file) : file.length ≤ tableMaxPages * pageSize ∧
      (∃ kept, List.Forall₂ TableProcess.Keeps ps kept ∧
        records pageSize rowSize file = kept.flatten) ∧
      (Opens rowSize file ∨ ∃ ps' s k n, ps = ps' ++ [(s, TableEnd.killedClosing k n)]) := by
  induction h with
  | new => exact ⟨Nat.zero_le _, ⟨[], .nil, records_nil⟩, Or.inl (opens_nil rowSize)⟩
  | @ended ps file p _ _ _ hp hprocess ih =>
      obtain ⟨hlen, ⟨kept, hkept, hrows⟩, -⟩ := ih
      have hopens : Opens rowSize file := by
        by_contra hnot
        cases hprocess.symm.trans (process_fails hpos hlen hnot p)
      obtain ⟨_, _, new, hprocess', -, hnew, hrows', hlen', hends⟩ :=
        process_spec hpos hle hlen hopens hp
      cases hprocess.symm.trans hprocess'
      refine ⟨hlen', ⟨kept ++ [new], List.rel_append hkept (.cons hnew .nil), ?_⟩,
        hends.imp_right ?_⟩
      · rw [hrows', hrows, List.flatten_append, List.flatten_singleton]
      · rintro ⟨k, n, hend⟩
        exact ⟨ps, p.1, k, n, by rw [← hend]⟩

/-- **Tables under crashes.**  Over any number of processes, each of which exits or is killed at any
time, the file has all rows of those that exited and the first rows of each that was killed while it
closed its table, in their order.

A file that ends inside a row cannot be opened any more, and only a process that is killed while it
closes its table leaves one.  On every other file the next process is answered from the rows that
are there. -/
theorem killed_tables {ps : List TableProcess} {file : List UInt8}
    (h : LeftByTables rowSize ps file) :
    (∃ kept, List.Forall₂ TableProcess.Keeps ps kept ∧
      records pageSize rowSize file = kept.flatten) ∧
    (¬Opens rowSize file →
      (∃ ps' s k n, ps = ps' ++ [(s, TableEnd.killedClosing k n)]) ∧
      ∀ p, Table.process rowSize p file
        = .error (.assertFailed "remain_byte % row_size == 0")) ∧
    (Opens rowSize file → ∀ p, RowList.AdmitsProcess rowSize (records pageSize rowSize file) p →
      ∃ replies file', Table.process rowSize p file = .ok (replies, file') ∧
        RowList.session p.1 (records pageSize rowSize file)
          = .ok (replies, records pageSize rowSize file ++ p.1.appended)) := by
  obtain ⟨hlen, hkept, hends⟩ := h.spec hpos hle
  refine ⟨hkept, fun hnot => ⟨hends.resolve_left hnot, process_fails hpos hlen hnot⟩, ?_⟩
  intro hopens p hp
  obtain ⟨replies, file', _, hprocess, hsession, -⟩ := process_spec hpos hle hlen hopens hp
  exact ⟨replies, file', hprocess, hsession⟩

end

/-- Three rows, two to a page, and two more in a process that is killed when it has written a part
of the second page. -/
def killedProcesses : List TableProcess :=
  [(⟨[.append (List.replicate 1500 1), .append (List.replicate 1500 2),
      .append (List.replicate 1500 3)], fun _ => 0, fun _ => Page.filled 9⟩, .exits),
    (⟨[.read 2, .append (List.replicate 1500 4), .append (List.replicate 1500 5)], fun _ => 7,
      fun _ => Page.filled 8⟩, .killedClosing 1 300)]

/-- Killed after seven bytes of its only row. -/
def tornProcess : TableProcess :=
  (⟨[.append (List.replicate 1500 1)], fun _ => 7, fun _ => Page.filled 9⟩, .killedClosing 0 1)

theorem killed_tables_two :
    (∃ file kept, LeftByTables 1500 killedProcesses file ∧
      List.Forall₂ TableProcess.Keeps killedProcesses kept ∧
      records pageSize 1500 file = kept.flatten) ∧
    ∀ p, Table.process 1500 p (List.replicate 7 1)
      = .error (.assertFailed "remain_byte % row_size == 0") := by
  constructor
  · have hp₁ : RowList.AdmitsProcess 1500 (records pageSize 1500 []) killedProcesses[0] := by
      rw [records_nil]
      decide +kernel
    obtain ⟨_, file₁, kept₁, hprocess₁, -, rfl, hrows₁, hlen₁, hends₁⟩ :=
      process_spec (by decide) (by decide) (Nat.zero_le _) (opens_nil 1500) hp₁
    have hp₂ : RowList.AdmitsProcess 1500 (records pageSize 1500 file₁) killedProcesses[1] := by
      rw [hrows₁, records_nil]
      decide +kernel
    have hopens₁ : Opens 1500 file₁ := by
      refine hends₁.resolve_right ?_
      rintro ⟨k, n, hend⟩
      cases hend
    obtain ⟨_, file₂, _, hprocess₂, -⟩ := process_spec (by decide) (by decide) hlen₁ hopens₁ hp₂
    have hleft : LeftByTables 1500 killedProcesses file₂ :=
      .ended (.ended .new hp₁ hprocess₁) hp₂ hprocess₂
    obtain ⟨⟨kept, hkept, hrows⟩, -⟩ := killed_tables (by decide) (by decide) hleft
    exact ⟨file₂, kept, hleft, hkept, hrows⟩
  · have hp : RowList.AdmitsProcess 1500 (records pageSize 1500 []) tornProcess := by
      rw [records_nil]
      decide +kernel
    have hprocess : Table.process 1500 tornProcess [] = .ok ([.appended], List.replicate 7 1) := by
      decide +kernel
    exact ((killed_tables (by decide) (by decide) (.ended .new hp hprocess)).2.1 (by decide)).2

end DbToy
