import DbToy.Lib.Records
import DbToy.Table

/-!
# Tables as lists of rows

A table is the list of the rows that were appended to it, over any number of sessions
(`table_persists`): every call is answered as from the list, and the file that a session leaves
gives a table with as many rows, each with its bytes.

* `RowFile`: the file ends with the last row and has every row in its place.
* `Table.Holds`: in between, the pages in memory have all their rows, and only pages that have not
  been touched are missing.
* `new_holds`, `destroy_rowFile`: the two directions between them.
-/

namespace DbToy

open Bytes Records

/-- The file of a table with these rows. -/
structure RowFile (rowSize : ℕ) (rows : List Row) (file : List UInt8) : Prop where
  length_eq : file.length = start pageSize rowSize rows.length
  stored : Stored pageSize rowSize rows rows.length file
  length_le : rows.length ≤ tableMaxPages * (pageSize / rowSize)

/-- The first `saved` rows are in the file, and all rows in the pages in memory. -/
structure DbFile.Caches (rowSize saved : ℕ) (rows : List Row) (f : DbFile) : Prop where
  length_eq : f.fd.bytes.length = start pageSize rowSize saved
  stored : Stored pageSize rowSize rows saved f.fd.bytes
  numPages_eq : f.numPages = (start pageSize rowSize saved + pageSize - 1) / pageSize
  saved_le : saved ≤ rows.length
  loaded : ∀ p page, f.pages p = some page → ∀ i row, rows[i]? = some row →
    i / (pageSize / rowSize) = p → page.get (i % (pageSize / rowSize) * rowSize) rowSize = row
  /-- The pages of the other rows are in memory. -/
  unsaved : ∀ i, saved ≤ i → i < rows.length → f.pages (i / (pageSize / rowSize)) ≠ none

/-- The table has the rows, the first `saved` of them in the file. -/
structure Table.Holds (rowSize saved : ℕ) (rows : List Row) (t : Table) : Prop where
  rowSize_eq : t.rowSize = rowSize
  numRows_eq : t.numRows = rows.length
  length_le : rows.length ≤ tableMaxPages * (pageSize / rowSize)
  caches : t.dbfile.Caches rowSize saved rows

lemma getRowPerPage_eq {rowSize : ℕ} (hpos : 0 < rowSize) :
    Table.getRowPerPage rowSize = .ok (pageSize / rowSize) := by
  rw [Table.getRowPerPage, assertThat_of hpos, ok_bind]

/-- The rows that a table takes. -/
lemma getMaxRows_eq {rowSize : ℕ} (hpos : 0 < rowSize) :
    Table.getMaxRows rowSize = .ok (tableMaxPages * (pageSize / rowSize)) := by
  rw [Table.getMaxRows, getRowPerPage_eq hpos, ok_bind]

/-- The pages of the rows have ids inside the page table. -/
lemma page_lt {rowSize i : ℕ} (hi : i < tableMaxPages * (pageSize / rowSize)) :
    i / (pageSize / rowSize) < tableMaxPages :=
  Nat.div_lt_of_lt_mul ((Nat.mul_comm _ _).trans_gt hi)

section

variable {rowSize saved : ℕ} {rows : List Row} (hpos : 0 < rowSize) (hle : rowSize ≤ pageSize)

include hpos hle

lemma divUnsigned_eq (a : ℕ) :
    divUnsigned a (pageSize / rowSize) = .ok (a / (pageSize / rowSize)) :=
  if_neg (perBlock_pos hpos hle).ne'

lemma modUnsigned_eq (a : ℕ) :
    modUnsigned a (pageSize / rowSize) = .ok (a % (pageSize / rowSize)) :=
  if_neg (perBlock_pos hpos hle).ne'

namespace DbFile.Caches

variable {f : DbFile}

/-- A page that is asked for has its rows. -/
lemma getPage (h : f.Caches rowSize saved rows) {p : ℕ} (hp : p < tableMaxPages) :
    ∃ page f', f.getPage p = .ok (page, f') ∧ f'.pages p = some page ∧
      f'.Caches rowSize saved rows := by
  cases hpage : f.pages p with
  | some page => exact ⟨page, f, getPage_of_some hp hpage, hpage, h⟩
  | none =>
      obtain ⟨page, f', hget, hpages, hbytes, -, hnum, hread⟩ := getPage_of_none hp hpage
      refine ⟨page, f', hget, by rw [hpages, Function.update_self], ?_⟩
      refine ⟨hbytes ▸ h.length_eq, hbytes ▸ h.stored, hnum.trans h.numPages_eq, h.saved_le, ?_, ?_⟩
      · intro q page' hq i row hrow hi
        by_cases hqp : q = p
        · -- the page has been read: its rows are all in the file
          subst hqp
          rw [hpages, Function.update_self] at hq
          cases hq
          have hlen := (List.getElem?_eq_some_iff.mp hrow).1
          have hsaved : i < saved := by
            by_contra hge
            exact h.unsaved i (not_lt.mp hge) hlen (hi ▸ hpage)
          have hend := start_add_le hpos hle hsaved
          have hstart : start pageSize rowSize i
              = q * pageSize + i % (pageSize / rowSize) * rowSize := by rw [start, hi]
          have hbelow : q < f.numPages := by
            rw [h.numPages_eq, Nat.lt_div_iff_mul_lt (by decide)]
            omega
          rw [hread hbelow _ _ (offset_add_le hpos hle i) (by rw [h.length_eq]; omega), ← hstart]
          exact h.stored i row hrow hsaved
        · rw [hpages, Function.update_of_ne hqp] at hq
          exact h.loaded q page' hq i row hrow hi
      · intro i hge hlt
        rw [hpages, Function.update_apply]
        split_ifs
        · exact Option.some_ne_none page
        · exact h.unsaved i hge hlt

/-- A row more is written into its slot. -/
lemma write (h : f.Caches rowSize saved rows) {row : Row} (hrow : row.length = rowSize)
    (hroom : rows.length < tableMaxPages * (pageSize / rowSize)) :
    ∃ f', f.write (rows.length / (pageSize / rowSize) : ℕ)
        (rows.length % (pageSize / rowSize) * rowSize) row = .ok f' ∧
      f'.Caches rowSize saved (rows ++ [row]) := by
  have hp := page_lt hroom
  have hoff := offset_add_le hpos hle rows.length
  obtain ⟨page, f', hget, hpage, h'⟩ := h.getPage hpos hle hp
  refine ⟨f'.setPage (rows.length / (pageSize / rowSize))
    (some (page.set (rows.length % (pageSize / rowSize) * rowSize) row)), ?_, ?_⟩
  · have hstore : page.store (rows.length % (pageSize / rowSize) * rowSize) row = .ok _ :=
      Page.store_of_le (by rw [hrow]; exact hoff)
    simp only [DbFile.write, hget, hstore, ok_bind, intToSize_natCast hp]
  · have hold : ∀ i, i < rows.length → (rows ++ [row])[i]? = rows[i]? := fun i hi =>
      List.getElem?_append_left hi
    refine ⟨h'.length_eq, ?_, h'.numPages_eq, ?_, ?_, ?_⟩
    · intro i r hr hi
      rw [hold i (hi.trans_le h'.saved_le)] at hr
      exact h'.stored i r hr hi
    · rw [List.length_append]
      exact h'.saved_le.trans (Nat.le_add_right _ _)
    · intro q page' hq i r hr hi
      rw [setPage_pages] at hq
      have hlen := (List.getElem?_eq_some_iff.mp hr).1
      rw [List.length_append, List.length_singleton] at hlen
      rcases Nat.lt_succ_iff_lt_or_eq.mp hlen with hlt | rfl
      · rw [hold i hlt] at hr
        split_ifs at hq with hqp
        · cases hq
          rw [Page.get_set_of_disjoint hrow
            (offset_disjoint hpos hle (ne_of_gt hlt) (hqp ▸ hi).symm) (offset_add_le hpos hle i)]
          exact h'.loaded q page (hqp ▸ hpage) i r hr hi
        · exact h'.loaded q page' hq i r hr hi
      · rw [if_pos hi.symm] at hq
        cases hq
        rw [List.getElem?_concat_length] at hr
        cases hr
        exact Page.get_set_same hrow hoff
    · intro i hge hlt
      rw [List.length_append, List.length_singleton] at hlt
      rw [setPage_pages]
      split_ifs with hip
      · exact nofun
      · rcases Nat.lt_succ_iff_lt_or_eq.mp hlt with hlt | rfl
        · exact h'.unsaved i hge hlt
        · exact absurd rfl hip

end DbFile.Caches

/-! ## Calls -/

namespace Table.Holds

variable {t : Table}

lemma getRowSlot (h : t.Holds rowSize saved rows) {i : ℕ}
    (hi : i < tableMaxPages * (pageSize / rowSize)) :
    ∃ page f', t.getRowSlot i = .ok ((((i / (pageSize / rowSize) : ℕ) : ℤ),
        i % (pageSize / rowSize) * rowSize), { t with dbfile := f' }) ∧
      f'.pages (i / (pageSize / rowSize)) = some page ∧ f'.Caches rowSize saved rows := by
  have hp := page_lt hi
  obtain ⟨page, f', hget, hpage, hcaches⟩ := h.caches.getPage hpos hle hp
  refine ⟨page, f', ?_, hpage, hcaches⟩
  simp only [Table.getRowSlot, h.rowSize_eq, getRowPerPage_eq hpos, divUnsigned_eq hpos hle,
    modUnsigned_eq hpos hle, ok_bind, DbFile.toInt_of_lt_tableMaxPages hp, hget]

/-- **A row is appended.** -/
theorem append (h : t.Holds rowSize saved rows) {row : Row} (hrow : row.length = rowSize)
    (hroom : rows.length < tableMaxPages * (pageSize / rowSize)) :
    ∃ t', t.append row = .ok t' ∧ t'.Holds rowSize saved (rows ++ [row]) := by
  obtain ⟨page, f', hslot, -, hcaches⟩ := h.getRowSlot hpos hle hroom
  obtain ⟨f'', hwrite, hcaches'⟩ := hcaches.write hpos hle hrow hroom
  refine ⟨{ t with numRows := t.numRows + 1, dbfile := f'' }, ?_, h.rowSize_eq, ?_, ?_, hcaches'⟩
  · simp only [Table.append, h.numRows_eq, hslot, hwrite, ok_bind]
  · simp [h.numRows_eq]
  · rw [List.length_append]
    exact hroom

/-- **A row is read.** -/
theorem readRow (h : t.Holds rowSize saved rows) {i : ℕ} {row : Row} (hrow : rows[i]? = some row) :
    ∃ t', t.readRow i = .ok (row, t') ∧ t'.Holds rowSize saved rows := by
  have hlen := (List.getElem?_eq_some_iff.mp hrow).1
  have hroom := hlen.trans_le h.length_le
  obtain ⟨page, f', hslot, hpage, hcaches⟩ := h.getRowSlot hpos hle hroom
  have hget := DbFile.getPage_of_some (page_lt hroom) hpage
  have hload : page.load (i % (pageSize / rowSize) * rowSize) rowSize = .ok row := by
    rw [Page.load_of_le (offset_add_le hpos hle i), hcaches.loaded _ page hpage i row hrow rfl]
  refine ⟨{ t with dbfile := f' }, ?_, h.rowSize_eq, h.numRows_eq, h.length_le, hcaches⟩
  simp only [Table.readRow, hslot, hget, h.rowSize_eq, hload, ok_bind]

end Table.Holds

/-! ## Opening -/

/-- A file of rows is as long as an `unsigned` can say. -/
lemma RowFile.length_lt {file : List UInt8} (h : RowFile rowSize rows file) :
    file.length < 2 ^ 32 := by
  have hmono := start_mono hpos hle h.length_le
  have hend : start pageSize rowSize (tableMaxPages * (pageSize / rowSize))
      = tableMaxPages * pageSize := by
    rw [start, Nat.mul_div_cancel _ (perBlock_pos hpos hle), Nat.mul_mod_left, Nat.zero_mul,
      Nat.add_zero]
  have hmax : tableMaxPages * pageSize < 2 ^ 32 := by decide
  rw [h.length_eq]
  omega

lemma RowFile.caches {file : List UInt8} (h : RowFile rowSize rows file) (counts : ℕ → ℕ)
    (blocks : ℕ → Page) :
    (DbFile.new (some file) counts blocks).length = start pageSize rowSize rows.length ∧
      (DbFile.new (some file) counts blocks).Caches rowSize rows.length rows := by
  have hlt := h.length_lt hpos hle
  refine ⟨?_, h.length_eq, h.stored, ?_, le_refl _, fun _ _ hpage => (nomatch hpage),
    fun i hge hlt => absurd hlt (not_lt_of_ge hge)⟩
  · show file.length % 2 ^ 32 = _
    rw [Nat.mod_eq_of_lt hlt, h.length_eq]
  · show (file.length % 2 ^ 32 + pageSize - 1) / pageSize % 2 ^ 32 = _
    have hpages : (file.length + pageSize - 1) / pageSize < 2 ^ 32 := by
      refine Nat.div_lt_of_lt_mul ?_
      have hpage : pageSize = 4096 := rfl
      omega
    rw [Nat.mod_eq_of_lt hlt, Nat.mod_eq_of_lt hpages, h.length_eq]

/-- **A table that is opened has the rows of its file.** -/
theorem new_holds {file : List UInt8} (h : RowFile rowSize rows file) (counts : ℕ → ℕ)
    (blocks : ℕ → Page) : ∃ t, Table.new rowSize (some file) counts blocks = .ok t ∧
      t.Holds rowSize rows.length rows := by
  obtain ⟨hlength, hcaches⟩ := h.caches hpos hle counts blocks
  have hnum := hcaches.numPages_eq
  have hdivmod := Nat.div_add_mod' rows.length (pageSize / rowSize)
  rw [blocks_start hpos hle] at hnum
  simp only [Table.new]
  generalize DbFile.new (some file) counts blocks = f at hlength hcaches hnum ⊢
  rw [hlength, start_mod hpos hle]
  split_ifs at hnum ⊢ with hremain
  · -- the last page is full
    have hmod : rows.length % (pageSize / rowSize) = 0 :=
      (Nat.mul_eq_zero.mp hremain).resolve_right hpos.ne'
    refine ⟨⟨f.numPages * (pageSize / rowSize), f, rowSize⟩, ?_, rfl, ?_, h.length_le, hcaches⟩
    · rw [getRowPerPage_eq hpos, ok_bind]
    · show f.numPages * (pageSize / rowSize) = rows.length
      rw [hnum, Nat.add_zero]
      omega
  · have hrest : modUnsigned (rows.length % (pageSize / rowSize) * rowSize) rowSize = .ok 0 := by
      rw [modUnsigned, if_neg hpos.ne', Nat.mul_mod_left]
    have hrows : divUnsigned (rows.length % (pageSize / rowSize) * rowSize) rowSize
        = .ok (rows.length % (pageSize / rowSize)) := by
      rw [divUnsigned, if_neg hpos.ne', Nat.mul_div_cancel _ hpos]
    refine ⟨⟨(f.numPages - 1) * (pageSize / rowSize) + rows.length % (pageSize / rowSize), f,
      rowSize⟩, ?_, rfl, ?_, h.length_le, hcaches⟩
    · simp only [hrest, hrows, getRowPerPage_eq hpos, assertThat_of, ok_bind]
    · show (f.numPages - 1) * (pageSize / rowSize) + rows.length % (pageSize / rowSize)
        = rows.length
      rw [hnum, Nat.add_sub_cancel]
      exact hdivmod

/-! ## Closing -/

/-- The pages below `k` have been flushed, which filled the file up to `len`. -/
structure Flushed (rowSize saved : ℕ) (rows : List Row) (f₀ : DbFile) (k len : ℕ) (f : DbFile) :
    Prop where
  length_eq : f.fd.bytes.length = max (start pageSize rowSize saved) len
  written : ∀ i row, rows[i]? = some row → i < saved ∨ i / (pageSize / rowSize) < k →
    slice f.fd.bytes (start pageSize rowSize i) rowSize = row
  pages_eq : ∀ p, k ≤ p → f.pages p = f₀.pages p

/-- One page is flushed, up to the end of its rows. -/
lemma Flushed.flush {f₀ f : DbFile} (hc : f₀.Caches rowSize saved rows) {k : ℕ}
    (h : Flushed rowSize saved rows f₀ k (k * pageSize) f) (hk : k < tableMaxPages) {size : ℕ}
    (hsize : 0 < size ∧ size ≤ pageSize)
    (hrows : ∀ i < rows.length, i / (pageSize / rowSize) = k →
      i % (pageSize / rowSize) * rowSize + rowSize ≤ size)
    (hsaved : f₀.pages k = none → k * pageSize + size ≤ start pageSize rowSize saved) :
    ∃ f', f.flushPage (toInt k) size = .ok f' ∧
      Flushed rowSize saved rows f₀ (k + 1) (k * pageSize + size) f' := by
  have hpages := h.pages_eq k le_rfl
  rw [DbFile.toInt_of_lt_tableMaxPages hk]
  cases hpage : f₀.pages k with
  | none =>
      have hle' := hsaved hpage
      refine ⟨f, DbFile.flushPage_of_none hk (hpages.trans hpage) size, ?_, ?_, ?_⟩
      · rw [h.length_eq]
        omega
      · intro i row hrow hi
        refine h.written i row hrow ?_
        rcases hi with hi | hi
        · exact Or.inl hi
        · rcases Nat.lt_succ_iff_lt_or_eq.mp hi with hi | hi
          · exact Or.inr hi
          · refine Or.inl (not_le.mp ?_)
            intro hge
            exact hc.unsaved i hge (List.getElem?_eq_some_iff.mp hrow).1 (hi ▸ hpage)
      · intro p hp
        exact h.pages_eq p (by omega)
  | some page =>
      obtain ⟨f', hflush, hpages', hbytes, -⟩ :=
        DbFile.flushPage_of_some hk (hpages.trans hpage) hsize.1 hsize.2
      have hsrc : (page.get 0 size).length = size :=
        Page.length_get (by rw [Nat.zero_add]; exact hsize.2)
      refine ⟨f', hflush, ?_, ?_, ?_⟩
      · rw [hbytes, length_patch, h.length_eq, hsrc]
        omega
      · intro i row hrow hi
        have hlen := (List.getElem?_eq_some_iff.mp hrow).1
        rw [hbytes]
        by_cases hik : i / (pageSize / rowSize) = k
        · have hend := hrows i hlen hik
          rw [← hik, slice_start_patch_same 0 (by rw [hsrc]; exact hend), Page.get_get hend,
            Nat.zero_add]
          exact hc.loaded _ page hpage i row hrow hik
        · have hi' : i < saved ∨ i / (pageSize / rowSize) < k := by omega
          rw [slice_start_patch hpos hle 0 (by rw [hsrc]; exact hsize.2) hik]
          · exact h.written i row hrow hi'
          · rw [h.length_eq]
            rcases hi' with hi' | hi'
            · have hend := start_add_le hpos hle hi'
              omega
            · have hoff := offset_add_le hpos hle i
              have hblock : (i / (pageSize / rowSize) + 1) * pageSize ≤ k * pageSize :=
                Nat.mul_le_mul_right _ hi'
              rw [Nat.add_mul, Nat.one_mul] at hblock
              rw [start]
              omega
      · intro p hp
        rw [hpages', Function.update_of_ne (by omega)]
        exact h.pages_eq p (by omega)

/-- The pages below the last one are flushed in full. -/
lemma run_flushAll {f₀ : DbFile} (hc : f₀.Caches rowSize saved rows)
    (hlen : rows.length ≤ tableMaxPages * (pageSize / rowSize)) (k : ℕ)
    (hk : k * (pageSize / rowSize) < rows.length) :
    ∃ f, (List.range k).foldlM (fun f i => f.flushPage (toInt i) pageSize) f₀ = .ok f ∧
      Flushed rowSize saved rows f₀ k (k * pageSize) f := by
  have hper := perBlock_pos hpos hle
  induction k with
  | zero =>
      refine ⟨f₀, rfl, ?_, ?_, fun _ _ => rfl⟩
      · rw [hc.length_eq, Nat.zero_mul, Nat.max_zero]
      · intro i row hrow hi
        exact hc.stored i row hrow (hi.resolve_right (Nat.not_lt_zero _))
  | succ k ih =>
      rw [Nat.add_mul, Nat.one_mul] at hk
      obtain ⟨f, hrun, hflushed⟩ := ih (by omega)
      have hkmax : k < tableMaxPages := by
        have hlt : k * (pageSize / rowSize) < tableMaxPages * (pageSize / rowSize) := by omega
        exact lt_of_mul_lt_mul_right hlt (Nat.zero_le _)
      have hsaved : f₀.pages k = none → k * pageSize + pageSize ≤ start pageSize rowSize saved := by
        -- the last row of the page is in the file, and so the whole page
        intro hnone
        have hlast : (k * (pageSize / rowSize) + (pageSize / rowSize - 1)) / (pageSize / rowSize)
            = k := by
          rw [Nat.add_comm, Nat.add_mul_div_right _ _ hper, Nat.div_eq_of_lt (by omega),
            Nat.zero_add]
        have hfull : (k + 1) * (pageSize / rowSize) ≤ saved := by
          by_contra hgt
          rw [Nat.add_mul, Nat.one_mul] at hgt
          refine hc.unsaved (k * (pageSize / rowSize) + (pageSize / rowSize - 1)) (by omega)
            (by omega) ?_
          rw [hlast]
          exact hnone
        have hmono := start_mono hpos hle hfull
        rw [start, Nat.mul_div_cancel _ hper, Nat.mul_mod_left, Nat.zero_mul, Nat.add_zero,
          Nat.add_mul, Nat.one_mul] at hmono
        exact hmono
      obtain ⟨f', hflush, hflushed'⟩ := hflushed.flush hpos hle hc hkmax
        ⟨by decide, le_refl pageSize⟩ (fun i _ _ => offset_add_le hpos hle i) hsaved
      rw [← Nat.succ_mul] at hflushed'
      refine ⟨f', ?_, hflushed'⟩
      rw [List.range_succ, List.foldlM_append, hrun, ok_bind]
      show (f.flushPage (toInt k) pageSize >>= _) = _
      rw [hflush]
      rfl

/-- **A table that is closed leaves a file of its rows.** -/
theorem destroy_rowFile {t : Table} (h : t.Holds rowSize saved rows) (hne : rows ≠ []) :
    ∃ file, t.destroy = .ok file ∧ RowFile rowSize rows file := by
  have hper := perBlock_pos hpos hle
  have hlen := List.length_pos_iff.mpr hne
  have hmax := h.length_le
  have hc := h.caches
  -- the last page, and where its rows end
  set q := (rows.length - 1) / (pageSize / rowSize) with hq
  have hqdiv := Nat.div_add_mod' (rows.length - 1) (pageSize / rowSize)
  have hqmod := Nat.mod_lt (rows.length - 1) hper
  rw [← hq] at hqdiv
  have hqmax : q < tableMaxPages := page_lt (by omega)
  have htotal : (rows.length + pageSize / rowSize - 1) / (pageSize / rowSize) = q + 1 := by
    rw [show rows.length + pageSize / rowSize - 1 = rows.length - 1 + pageSize / rowSize by omega,
      Nat.add_div_right _ hper]
  obtain ⟨f, hrun, hflushed⟩ := run_flushAll hpos hle hc hmax q (by omega)
  set size := if rows.length % (pageSize / rowSize) = 0 then pageSize
    else rows.length % (pageSize / rowSize) * rowSize with hsize
  have hend : q * pageSize + size = start pageSize rowSize rows.length := by
    have hsucc := succ_div_mod hper (rows.length - 1)
    rw [Nat.sub_add_cancel hlen, ← hq] at hsucc
    rw [hsize, start]
    rcases hsucc with ⟨hdiv, hmod⟩ | ⟨hdiv, hmod⟩
    · rw [if_pos hmod, hdiv, hmod, Nat.zero_mul, Nat.add_zero, Nat.add_mul, Nat.one_mul]
    · rw [if_neg (by omega), hdiv]
  have hsizes : 0 < size ∧ size ≤ pageSize := by
    have hoff := offset_add_le hpos hle rows.length
    rw [hsize]
    split_ifs with hzero
    · exact ⟨by decide, le_refl _⟩
    · exact ⟨Nat.mul_pos (Nat.pos_of_ne_zero hzero) hpos, by omega⟩
  have hrows : ∀ i < rows.length, i / (pageSize / rowSize) = q →
      i % (pageSize / rowSize) * rowSize + rowSize ≤ size := by
    intro i hi hblock
    have hrow := start_add_le hpos hle hi
    rw [← hend, start, hblock] at hrow
    omega
  have hsaved : t.dbfile.pages q = none → q * pageSize + size ≤ start pageSize rowSize saved := by
    intro hnone
    have hall : rows.length ≤ saved := by
      by_contra hgt
      exact hc.unsaved (rows.length - 1) (by omega) (by omega) (hq ▸ hnone)
    rw [hend]
    exact start_mono hpos hle hall
  obtain ⟨f', hflush, hflushed'⟩ := hflushed.flush hpos hle hc hqmax hsizes hrows hsaved
  refine ⟨f'.destroy, ?_, ?_, ?_, hmax⟩
  · have hlast : toInt ((q + 1 + 2 ^ 64 - 1) % 2 ^ 64) = toInt q := by
      have hlt : tableMaxPages < 2 ^ 64 := by decide
      rw [Nat.add_right_comm, Nat.add_sub_cancel, Nat.add_mod_right, Nat.mod_eq_of_lt (by omega)]
    simp only [Table.destroy, h.rowSize_eq, h.numRows_eq, getRowPerPage_eq hpos,
      divUnsigned_eq hpos hle, modUnsigned_eq hpos hle, htotal, Nat.add_sub_cancel, hrun, ok_bind,
      hlast]
    rw [hsize] at hflush
    split_ifs at hflush ⊢ with hzero
    · rw [hflush, ok_bind]
    · rw [hflush, ok_bind]
  · have hmono := start_mono hpos hle hc.saved_le
    rw [DbFile.destroy, hflushed'.length_eq, hend]
    omega
  · intro i row hrow hi
    refine hflushed'.written i row hrow (Or.inr ?_)
    exact Nat.lt_succ_of_le (Nat.div_le_div_right (by omega))

end

end DbToy
