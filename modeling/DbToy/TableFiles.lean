import DbToy.TableSessions

/-!
# Any file as a table

A table's file has no header, so any file is opened that ends with a whole row or a whole page, and
its rows are those that end inside it (`new_eq`).  This module follows a session from such a file;
it need not be one that a table has closed.

* `DbFile.rowAt`: the row of a slot, which is on its page if that is in memory, and otherwise in
  the file.
* `Table.Presents`: the rows of the file and those appended since are in their slots.
* `Table.Presents.answer`: every call is answered from them.
-/

namespace DbToy

open Bytes Records
open Runs (runAll Along)

/-- What a file must be like for the constructor: it ends with a row or with a page. -/
def Opens (rowSize : ℕ) (file : List UInt8) : Prop := file.length % pageSize % rowSize = 0

instance (rowSize : ℕ) : DecidablePred (Opens rowSize) :=
  fun _ => inferInstanceAs (Decidable (_ = _))

/-- A new file. -/
lemma opens_nil (rowSize : ℕ) : Opens rowSize [] := Nat.zero_mod rowSize

/-- The row of slot `i`. -/
def DbFile.rowAt (rowSize : ℕ) (f : DbFile) (i : ℕ) : Option Row :=
  match f.pages (i / (pageSize / rowSize)) with
  | some page => some (page.get (i % (pageSize / rowSize) * rowSize) rowSize)
  | none => (records pageSize rowSize f.fd.bytes)[i]?

lemma DbFile.rowAt_of_some {rowSize i : ℕ} {f : DbFile} {page : Page}
    (h : f.pages (i / (pageSize / rowSize)) = some page) :
    f.rowAt rowSize i = some (page.get (i % (pageSize / rowSize) * rowSize) rowSize) := by
  rw [rowAt, h]

lemma DbFile.rowAt_of_none {rowSize i : ℕ} {f : DbFile}
    (h : f.pages (i / (pageSize / rowSize)) = none) :
    f.rowAt rowSize i = (records pageSize rowSize f.fd.bytes)[i]? := by
  rw [rowAt, h]

/-- The table has these rows: first those of its file, then those that have been appended. -/
structure Table.Presents (rowSize : ℕ) (file : List UInt8) (rows : List Row) (t : Table) :
    Prop where
  rowSize_eq : t.rowSize = rowSize
  numRows_eq : t.numRows = rows.length
  length_le : rows.length ≤ tableMaxPages * (pageSize / rowSize)
  bytes_eq : t.dbfile.fd.bytes = file
  bytes_le : file.length ≤ t.dbfile.numPages * pageSize
  begins : records pageSize rowSize file <+: rows
  rowAt_eq : ∀ i row, rows[i]? = some row → t.dbfile.rowAt rowSize i = some row

section

variable {rowSize : ℕ} (hpos : 0 < rowSize) (hle : rowSize ≤ pageSize)

include hpos hle

/-! ## Slots -/

namespace DbFile

variable {f : DbFile}

/-- A page that is asked for has the rows that it has in the file. -/
lemma getPage_rowAt (hbytes : f.fd.bytes.length ≤ f.numPages * pageSize) {p : ℕ}
    (hp : p < tableMaxPages) :
    ∃ page f', f.getPage p = .ok (page, f') ∧ f'.pages p = some page ∧
      f'.fd.bytes = f.fd.bytes ∧ f'.numPages = f.numPages ∧
      ∀ i row, f.rowAt rowSize i = some row → f'.rowAt rowSize i = some row := by
  cases hpage : f.pages p with
  | some page => exact ⟨page, f, getPage_of_some hp hpage, hpage, rfl, rfl, fun _ _ h => h⟩
  | none =>
      obtain ⟨page, f', hget, hpages, hsame, -, hnum, hread⟩ := getPage_of_none hp hpage
      have hnew : f'.pages p = some page := by rw [hpages, Function.update_self]
      refine ⟨page, f', hget, hnew, hsame, hnum, ?_⟩
      intro i row hrow
      by_cases hi : i / (pageSize / rowSize) = p
      · subst hi
        rw [rowAt_of_none hpage] at hrow
        have hwhole : i < whole pageSize rowSize f.fd.bytes.length := by
          rw [← length_records]
          exact (List.getElem?_eq_some_iff.mp hrow).1
        have hend := (lt_whole_iff hpos hle).mp hwhole
        rw [getElem?_records hwhole] at hrow
        rw [start] at hend hrow
        have hbelow : i / (pageSize / rowSize) < f.numPages := by
          refine lt_of_mul_lt_mul_right (a := pageSize) ?_ (Nat.zero_le _)
          omega
        rw [rowAt_of_some hnew, hread hbelow _ _ (offset_add_le hpos hle i) (by omega)]
        exact hrow
      · have hother : f'.pages (i / (pageSize / rowSize)) = f.pages (i / (pageSize / rowSize)) := by
          rw [hpages, Function.update_of_ne hi]
        rw [rowAt] at hrow ⊢
        rwa [hother, hsame]

/-- A row that is written is in its slot, and the others stay. -/
lemma write_rowAt (hbytes : f.fd.bytes.length ≤ f.numPages * pageSize) {i : ℕ} {row : Row}
    (hi : i < tableMaxPages * (pageSize / rowSize)) (hrow : row.length = rowSize) :
    ∃ f', f.write (i / (pageSize / rowSize) : ℕ) (i % (pageSize / rowSize) * rowSize) row = .ok f' ∧
      f'.fd.bytes = f.fd.bytes ∧ f'.numPages = f.numPages ∧ f'.rowAt rowSize i = some row ∧
      ∀ j r, j ≠ i → f.rowAt rowSize j = some r → f'.rowAt rowSize j = some r := by
  have hp := page_lt hi
  have hoff := offset_add_le hpos hle i
  obtain ⟨page, f', hget, hpage, hsame, hnum, hrows⟩ := getPage_rowAt hpos hle hbytes hp
  have hstore : page.store (i % (pageSize / rowSize) * rowSize) row = .ok _ :=
    Page.store_of_le (by rw [hrow]; exact hoff)
  refine ⟨f'.setPage (i / (pageSize / rowSize))
    (some (page.set (i % (pageSize / rowSize) * rowSize) row)), ?_, hsame, hnum, ?_, ?_⟩
  · simp only [DbFile.write, hget, hstore, ok_bind, intToSize_natCast hp]
  · rw [rowAt_of_some (by rw [setPage_pages, if_pos rfl]), Page.get_set_same hrow hoff]
  · intro j r hne hj
    have hj' := hrows j r hj
    by_cases hblock : j / (pageSize / rowSize) = i / (pageSize / rowSize)
    · rw [rowAt_of_some (hblock ▸ hpage)] at hj'
      rw [rowAt_of_some (by rw [setPage_pages, if_pos hblock]), ← hj',
        Page.get_set_of_disjoint hrow (offset_disjoint hpos hle hne.symm hblock.symm)
          (offset_add_le hpos hle j)]
    · rw [rowAt] at hj' ⊢
      rw [setPage_pages, if_neg hblock]
      exact hj'

end DbFile

/-! ## Opening -/

omit hpos hle in
/-- What the page cache makes of the length of the file. -/
lemma DbFile.new_lengths {file : List UInt8} (hlen : file.length ≤ tableMaxPages * pageSize)
    (counts : ℕ → ℕ) (blocks : ℕ → Page) :
    (DbFile.new (some file) counts blocks).length = file.length ∧
      (DbFile.new (some file) counts blocks).numPages
        = file.length / pageSize + if file.length % pageSize = 0 then 0 else 1 := by
  have hmax : tableMaxPages * pageSize < 2 ^ 31 := by decide
  have hlt := hlen.trans_lt hmax
  constructor
  · exact Nat.mod_eq_of_lt (show file.length < 2 ^ 32 by omega)
  · show (file.length % 2 ^ 32 + 4096 - 1) / 4096 % 2 ^ 32
      = file.length / 4096 + if file.length % 4096 = 0 then 0 else 1
    split_ifs <;> omega

omit hle in
/-- **The constructor** of any file: it accepts the file if that ends with a row or with a page, and
counts the rows that end inside. -/
theorem new_eq {file : List UInt8} (hlen : file.length ≤ tableMaxPages * pageSize)
    (counts : ℕ → ℕ) (blocks : ℕ → Page) : Table.new rowSize (some file) counts blocks
      = if Opens rowSize file then
          .ok ⟨whole pageSize rowSize file.length, DbFile.new (some file) counts blocks, rowSize⟩
        else .error (.assertFailed "remain_byte % row_size == 0") := by
  obtain ⟨hlength, hnum⟩ := DbFile.new_lengths hlen counts blocks
  rw [whole]
  simp only [Table.new, hlength, hnum]
  by_cases hrest : file.length % pageSize = 0
  · -- the last page is full
    have hopens : Opens rowSize file := by rw [Opens, hrest, Nat.zero_mod]
    rw [if_pos hrest, if_pos hopens, hrest, getRowPerPage_eq hpos, ok_bind, if_pos rfl,
      Nat.zero_div]
    rfl
  · rw [if_neg hrest, modUnsigned, if_neg hpos.ne', ok_bind, if_neg hrest, Nat.add_sub_cancel]
    by_cases hopens : file.length % pageSize % rowSize = 0
    · rw [assertThat_of hopens, ok_bind, getRowPerPage_eq hpos, ok_bind, divUnsigned,
        if_neg hpos.ne', ok_bind]
      exact (if_pos hopens).symm
    · rw [assertThat_of_not hopens, error_bind]
      exact (if_neg hopens).symm

/-- A table that is opened has the rows of the file. -/
theorem new_presents {file : List UInt8} (hlen : file.length ≤ tableMaxPages * pageSize)
    (h : Opens rowSize file) (counts : ℕ → ℕ) (blocks : ℕ → Page) :
    ∃ t, Table.new rowSize (some file) counts blocks = .ok t ∧
      t.Presents rowSize file (records pageSize rowSize file) := by
  have hnew := new_eq hpos hlen counts blocks
  rw [if_pos h] at hnew
  refine ⟨_, hnew, rfl, (length_records file).symm, ?_, rfl, ?_, List.prefix_refl _, ?_⟩
  · have hmono := whole_mono hpos hle hlen
    rwa [whole_mul hpos hle, ← length_records] at hmono
  · obtain ⟨-, hnum⟩ := DbFile.new_lengths hlen counts blocks
    have hdivmod := Nat.div_add_mod' file.length pageSize
    have hlast := Nat.mod_lt file.length (show 0 < pageSize by decide)
    show file.length ≤ (DbFile.new (some file) counts blocks).numPages * pageSize
    rw [hnum]
    split_ifs
    · rw [Nat.add_zero]
      omega
    · rw [Nat.add_mul]
      omega
  · intro i row hrow
    exact (DbFile.rowAt_of_none rfl).trans hrow

/-! ## Calls -/

namespace Table.Presents

variable {file : List UInt8} {rows : List Row} {t : Table}

lemma getRowSlot (h : t.Presents rowSize file rows) {i : ℕ}
    (hi : i < tableMaxPages * (pageSize / rowSize)) :
    ∃ page f', t.getRowSlot i = .ok ((((i / (pageSize / rowSize) : ℕ) : ℤ),
        i % (pageSize / rowSize) * rowSize), { t with dbfile := f' }) ∧
      f'.pages (i / (pageSize / rowSize)) = some page ∧
      ({ t with dbfile := f' } : Table).Presents rowSize file rows := by
  have hp := page_lt hi
  obtain ⟨page, f', hget, hpage, hsame, hnum, hrows⟩ := DbFile.getPage_rowAt hpos hle
    (h.bytes_eq ▸ h.bytes_le) hp
  refine ⟨page, f', ?_, hpage, h.rowSize_eq, h.numRows_eq, h.length_le, hsame.trans h.bytes_eq,
    h.bytes_le.trans_eq (congrArg (· * pageSize) hnum.symm), h.begins, ?_⟩
  · simp only [Table.getRowSlot, h.rowSize_eq, getRowPerPage_eq hpos, divUnsigned_eq hpos hle,
      modUnsigned_eq hpos hle, ok_bind, DbFile.toInt_of_lt_tableMaxPages hp, hget]
  · exact fun i row hrow => hrows i row (h.rowAt_eq i row hrow)

/-- A row is appended. -/
lemma append (h : t.Presents rowSize file rows) {row : Row} (hrow : row.length = rowSize)
    (hroom : rows.length < tableMaxPages * (pageSize / rowSize)) :
    ∃ t', t.append row = .ok t' ∧ t'.Presents rowSize file (rows ++ [row]) := by
  obtain ⟨page, f', hslot, -, h'⟩ := h.getRowSlot hpos hle hroom
  obtain ⟨f'', hwrite, hsame, hnum, hnew, hrows⟩ := DbFile.write_rowAt hpos hle
    (h'.bytes_eq ▸ h'.bytes_le) hroom hrow
  refine ⟨{ t with numRows := t.numRows + 1, dbfile := f'' }, ?_, h.rowSize_eq, ?_, ?_,
    hsame.trans h'.bytes_eq, h'.bytes_le.trans_eq (congrArg (· * pageSize) hnum.symm),
    h.begins.trans (List.prefix_append _ _), ?_⟩
  · simp only [Table.append, h.numRows_eq, hslot, hwrite, ok_bind]
  · simp [h.numRows_eq]
  · rw [List.length_append]
    exact hroom
  · intro i r hr
    by_cases hi : i = rows.length
    · subst hi
      rw [List.getElem?_concat_length] at hr
      cases hr
      exact hnew
    · have hlen := (List.getElem?_eq_some_iff.mp hr).1
      rw [List.length_append, List.length_singleton] at hlen
      rw [List.getElem?_append_left (by omega)] at hr
      exact hrows i r hi (h'.rowAt_eq i r hr)

/-- A row is read. -/
lemma readRow (h : t.Presents rowSize file rows) {i : ℕ} {row : Row} (hrow : rows[i]? = some row) :
    ∃ t', t.readRow i = .ok (row, t') ∧ t'.Presents rowSize file rows := by
  have hroom := (List.getElem?_eq_some_iff.mp hrow).1.trans_le h.length_le
  obtain ⟨page, f', hslot, hpage, h'⟩ := h.getRowSlot hpos hle hroom
  have hget := DbFile.getPage_of_some (page_lt hroom) hpage
  have hload : page.load (i % (pageSize / rowSize) * rowSize) rowSize = .ok row := by
    have hat := h'.rowAt_eq i row hrow
    rw [DbFile.rowAt_of_some hpage] at hat
    rw [Page.load_of_le (offset_add_le hpos hle i), Option.some.inj hat]
  refine ⟨{ t with dbfile := f' }, ?_, h'⟩
  simp only [Table.readRow, hslot, hget, h.rowSize_eq, hload, ok_bind]

/-- **One call** is answered as by the list of the rows. -/
theorem answer (h : t.Presents rowSize file rows) {c : TableCall}
    (hc : RowList.Admits rowSize rows c) :
    Prog.Agree (fun t rows => Table.Presents rowSize file rows t) (Table.answer c t)
      (RowList.answer c rows) := by
  cases c with
  | append row =>
      obtain ⟨t', happend, h'⟩ := h.append hpos hle hc.1 hc.2
      rw [Table.answer, happend]
      exact ⟨rfl, h'⟩
  | read rowid =>
      obtain ⟨row, hrow⟩ : ∃ row, rows[rowid]? = some row := ⟨_, List.getElem?_eq_getElem hc⟩
      obtain ⟨t', hread, h'⟩ := h.readRow hpos hle hrow
      rw [Table.answer, hread, RowList.answer, hrow]
      exact ⟨rfl, h'⟩
  | numRows =>
      rw [Table.answer, h.numRows_eq]
      exact ⟨rfl, h⟩

end Table.Presents

end

end DbToy
