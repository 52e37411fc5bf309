import DbToy.Command
import DbToy.TableRows

/-!
# The page ids of a table

`get_row_slot` and the destructor compute page ids from the number of rows by unsigned divisions and
subtractions, and pass them through an `int` to the table's page cache.  `Insert::evaluate` takes a
row only while there is room, so the ids of its slots are below `TABLE_MAX_PAGES`.

The destructor flushes the last page whether or not there is one: of a table without rows it asks
for page `total_pages - 1`, which is `-1`.  `table_page_ids_in_range` says that this is the only way
out of the page array.

* `Table.passed`: the page ids of a run of inserts that ends in the destructor.
* `run_eq_ok_iff`: such a run gets to its end exactly if all of them are in range.
-/

namespace DbToy

open Bytes Records

/-- An index of the array `pages`. -/
def InRange (pageId : ℤ) : Prop := 0 ≤ pageId ∧ pageId < tableMaxPages

namespace Table

/-- The page id that `get_row_slot(rowid)` passes to `get_page`. -/
def slotPage (t : Table) (rowid : ℕ) : ℤ := toInt (rowid / (pageSize / t.rowSize))

/-- The page ids that the destructor passes to `flush_page`, in order. -/
def closingPages (t : Table) : List ℤ :=
  let totalPages := (t.numRows + pageSize / t.rowSize - 1) / (pageSize / t.rowSize)
  (List.range (totalPages - 1)).map (fun i => toInt i)
    ++ [toInt ((totalPages + 2 ^ 64 - 1) % 2 ^ 64)]

/-- `Insert::evaluate()`, where `row` is what `row_to_insert` serializes. -/
def evaluateInsert (row : Row) (t : Table) : Except Fault (ExecuteStatus × Table) := do
  let maxRows ← getMaxRows t.rowSize
  if t.numRows < maxRows then
    let t ← t.append row
    .ok (.executeSuccess, t)
  else .ok (.tableFull, t)

/-- Inserts, one after the other, and the destructor. -/
def run (rows : List Row) (t : Table) : Except Fault (List ExecuteStatus × List UInt8) := do
  let (statuses, t) ← Runs.runAll evaluateInsert rows t
  let file ← t.destroy
  .ok (statuses, file)

/-- The page ids that this run passes to the page cache. -/
def passed : List Row → Table → List ℤ
  | [], t => t.closingPages
  | row :: rows, t =>
    (if t.numRows < tableMaxPages * (pageSize / t.rowSize) then [t.slotPage t.numRows] else [])
      ++ match evaluateInsert row t with
        | .ok (_, t) => passed rows t
        | .error _ => []

end Table

/-! ## One call of the page cache -/

lemma toInt_bounds (x : ℕ) : -2 ^ 31 ≤ toInt x ∧ toInt x < 2 ^ 31 := by
  rw [toInt]
  split_ifs <;> omega

/-- A negative id is far out of range as a `size_t`. -/
lemma intToSize_lt_iff (x : ℕ) : intToSize (toInt x) < tableMaxPages ↔ InRange (toInt x) := by
  have hbounds := toInt_bounds x
  have hmax : tableMaxPages < 2 ^ 31 := by decide
  rw [intToSize, InRange]
  omega

namespace DbFile

variable {f : DbFile} {id : ℤ}

lemma getPage_eq_ok_iff : (∃ r, f.getPage id = .ok r) ↔ intToSize id < tableMaxPages := by
  rw [getPage]
  split_ifs with hid
  · exact iff_of_false (by simp) (not_lt.mpr hid)
  · refine iff_of_true ?_ (not_le.mp hid)
    cases f.pages (intToSize id) with
    | some page => exact ⟨_, rfl⟩
    | none => exact ⟨_, rfl⟩

lemma flushPage_eq_ok_iff {size : ℕ} (hsize : size ≤ pageSize) :
    (∃ f', f.flushPage id size = .ok f') ↔ intToSize id < tableMaxPages := by
  rw [flushPage]
  split_ifs with hid
  · refine iff_of_true ?_ hid
    cases f.pages (intToSize id) with
    | none => exact ⟨_, rfl⟩
    | some page =>
        simp only [Page.load_of_le (show 0 + size ≤ pageSize by omega), ok_bind]
        exact ⟨_, rfl⟩
  · exact iff_of_false (by simp) hid

end DbFile

/-! ## One insert -/

namespace Table

variable {t : Table} (hpos : 0 < t.rowSize) (hle : t.rowSize ≤ pageSize)

include hpos hle

lemma getRowSlot_eq (rowid : ℕ) : t.getRowSlot rowid
    = (t.dbfile.getPage (t.slotPage rowid)).map fun r =>
        ((t.slotPage rowid, rowid % (pageSize / t.rowSize) * t.rowSize),
          { t with dbfile := r.2 }) := by
  simp only [getRowSlot, getRowPerPage_eq hpos, divUnsigned_eq hpos hle, modUnsigned_eq hpos hle,
    ok_bind]
  show (t.dbfile.getPage (t.slotPage rowid) >>= _) = _
  cases t.dbfile.getPage (t.slotPage rowid) <;> rfl

/-- An insert counts one row more. -/
lemma append_eq_ok {row : Row} {t' : Table} (h : t.append row = .ok t') :
    t'.numRows = t.numRows + 1 ∧ t'.rowSize = t.rowSize := by
  obtain ⟨slot, hslot, hrest⟩ := bind_eq_ok h
  obtain ⟨f', -, hfinal⟩ := bind_eq_ok hrest
  obtain rfl := Except.ok.inj hfinal
  rw [getRowSlot_eq hpos hle] at hslot
  cases hget : t.dbfile.getPage (t.slotPage t.numRows) with
  | error e =>
      rw [hget, map_error] at hslot
      cases hslot
  | ok r =>
      rw [hget, map_ok] at hslot
      obtain rfl := Except.ok.inj hslot
      exact ⟨rfl, rfl⟩

/-- A row that fits its slot can be appended exactly if the page of the slot is in range. -/
lemma append_eq_ok_iff {row : Row} (hrow : row.length ≤ t.rowSize) :
    (∃ t', t.append row = .ok t') ↔ InRange (t.slotPage t.numRows) := by
  have hoff := offset_add_le hpos hle t.numRows
  rw [slotPage, ← intToSize_lt_iff, ← slotPage, append, exists_bind_eq_ok, getRowSlot_eq hpos hle]
  refine ⟨?_, ?_⟩
  · rintro ⟨slot, hslot, -⟩
    refine (DbFile.getPage_eq_ok_iff (f := t.dbfile)).mp ?_
    cases hget : t.dbfile.getPage (t.slotPage t.numRows) with
    | error e =>
        rw [hget, map_error] at hslot
        cases hslot
    | ok r => exact ⟨r, rfl⟩
  · intro hid
    obtain ⟨r, hget⟩ := (DbFile.getPage_eq_ok_iff (f := t.dbfile)).mpr hid
    obtain ⟨r', hget'⟩ := (DbFile.getPage_eq_ok_iff (f := r.2)).mpr hid
    refine ⟨_, by rw [hget, map_ok], ?_⟩
    have hstore : r'.1.store (t.numRows % (pageSize / t.rowSize) * t.rowSize) row = .ok _ :=
      Page.store_of_le (by omega)
    simp only [DbFile.write, hget', hstore, ok_bind]
    exact ⟨_, rfl⟩

omit hle in
lemma evaluateInsert_eq (row : Row) : evaluateInsert row t
    = if t.numRows < tableMaxPages * (pageSize / t.rowSize)
      then (t.append row).map fun t' => (.executeSuccess, t')
      else .ok (.tableFull, t) := by
  rw [evaluateInsert, getMaxRows_eq hpos, ok_bind]
  split_ifs
  · cases t.append row <;> rfl
  · rfl

/-! ## The destructor -/

omit hpos hle in
lemma flushAll_eq_ok_iff : ∀ (ids : List ℕ) (f : DbFile),
    (∃ f', ids.foldlM (fun f i => f.flushPage (toInt i) pageSize) f = .ok f') ↔
      ∀ i ∈ ids, InRange (toInt i) := by
  intro ids
  induction ids with
  | nil =>
      intro f
      exact iff_of_true ⟨f, rfl⟩ (by simp)
  | cons i ids ih =>
      intro f
      rw [List.foldlM_cons, exists_bind_eq_ok, List.forall_mem_cons, ← intToSize_lt_iff,
        ← DbFile.flushPage_eq_ok_iff (f := f) le_rfl]
      refine ⟨?_, ?_⟩
      · rintro ⟨f', hflush, hrest⟩
        exact ⟨⟨f', hflush⟩, (ih f').mp hrest⟩
      · rintro ⟨⟨f', hflush⟩, hrest⟩
        exact ⟨f', hflush, (ih f').mpr hrest⟩

/-- The destructor gets to its end exactly if all pages it flushes are in range. -/
lemma destroy_eq_ok_iff :
    (∃ file, t.destroy = .ok file) ↔ ∀ id ∈ t.closingPages, InRange id := by
  -- how much of the last page is flushed
  set size := if t.numRows % (pageSize / t.rowSize) = 0 then pageSize
    else t.numRows % (pageSize / t.rowSize) * t.rowSize with hsize
  have hsizeLe : size ≤ pageSize := by
    have hoff := offset_add_le hpos hle t.numRows
    rw [hsize]
    split_ifs <;> omega
  simp only [destroy, getRowPerPage_eq hpos, divUnsigned_eq hpos hle, modUnsigned_eq hpos hle,
    ok_bind]
  rw [exists_bind_eq_ok, closingPages]
  simp only [List.forall_mem_append, List.forall_mem_map, List.forall_mem_singleton]
  generalize (t.numRows + pageSize / t.rowSize - 1) / (pageSize / t.rowSize) = total
  set last := toInt ((total + 2 ^ 64 - 1) % 2 ^ 64) with hlast
  rw [← flushAll_eq_ok_iff _ t.dbfile, hlast, ← intToSize_lt_iff, ← hlast]
  have hflushLast : ∀ f : DbFile,
      (∃ file, (if t.numRows % (pageSize / t.rowSize) = 0
        then f.flushPage last pageSize >>= fun f' => .ok f'.destroy
        else f.flushPage last (t.numRows % (pageSize / t.rowSize) * t.rowSize) >>= fun f' =>
          .ok f'.destroy : Except Fault (List UInt8)) = .ok file) ↔
        intToSize last < tableMaxPages := by
    intro f
    rw [← DbFile.flushPage_eq_ok_iff (f := f) hsizeLe, hsize]
    split_ifs <;> simp [exists_bind_eq_ok]
  refine ⟨?_, ?_⟩
  · rintro ⟨f', hflush, hrest⟩
    exact ⟨⟨f', hflush⟩, (hflushLast f').mp hrest⟩
  · rintro ⟨⟨f', hflush⟩, hrest⟩
    exact ⟨f', hflush, (hflushLast f').mpr hrest⟩

/-! ## A whole run -/

omit hpos hle in
lemma run_cons_eq_ok_iff (row : Row) (rows : List Row) : (∃ out, t.run (row :: rows) = .ok out) ↔
    ∃ r, evaluateInsert row t = .ok r ∧ ∃ out, r.2.run rows = .ok out := by
  cases hr : evaluateInsert row t with
  | error e =>
      rw [run, Runs.runAll_cons_of_error hr]
      simp
  | ok r =>
      rw [run, Runs.runAll_cons_of_ok hr]
      cases hrest : Runs.runAll evaluateInsert rows r.2 with
      | error e => simp [run, hrest]
      | ok out =>
          obtain ⟨statuses, t'⟩ := out
          simp [run, hrest, exists_bind_eq_ok]

omit hpos hle in
/-- **A run gets to its end exactly if all page ids it uses are in range**, given rows that fit
their slots. -/
theorem run_eq_ok_iff : ∀ (rows : List Row) {t : Table}, 0 < t.rowSize → t.rowSize ≤ pageSize →
    (∀ row ∈ rows, row.length ≤ t.rowSize) →
    ((∃ out, t.run rows = .ok out) ↔ ∀ id ∈ passed rows t, InRange id) := by
  intro rows
  induction rows with
  | nil =>
      intro t hpos hle _
      rw [passed, ← destroy_eq_ok_iff hpos hle, run]
      simp [Runs.runAll, exists_bind_eq_ok]
  | cons row rows ih =>
      intro t hpos hle hrows
      rw [run_cons_eq_ok_iff, passed, evaluateInsert_eq hpos]
      split_ifs with hroom
      · rw [List.singleton_append, List.forall_mem_cons,
          ← append_eq_ok_iff hpos hle (hrows row List.mem_cons_self)]
        cases happend : t.append row with
        | error e => simp
        | ok t' =>
            obtain ⟨-, hsize⟩ := append_eq_ok hpos hle happend
            have hrest := ih (t := t') (by rw [hsize]; exact hpos) (by rw [hsize]; exact hle)
              (by rw [hsize]; exact fun r hr => hrows r (List.mem_cons_of_mem _ hr))
            simpa using hrest
      · have hrest := ih hpos hle fun r hr => hrows r (List.mem_cons_of_mem _ hr)
        simpa using hrest

/-- With a row at least, the last page is a page. -/
lemma closingPages_inRange (hrows : 0 < t.numRows)
    (hmax : t.numRows ≤ tableMaxPages * (pageSize / t.rowSize)) :
    ∀ id ∈ t.closingPages, InRange id := by
  have hper := perBlock_pos hpos hle
  have htotal : 1 ≤ (t.numRows + pageSize / t.rowSize - 1) / (pageSize / t.rowSize) :=
    Nat.div_pos (by omega) hper
  have htotalMax : (t.numRows + pageSize / t.rowSize - 1) / (pageSize / t.rowSize)
      < tableMaxPages + 1 := by
    rw [Nat.div_lt_iff_lt_mul hper, Nat.add_mul, Nat.one_mul]
    omega
  have hin : ∀ i < tableMaxPages, InRange (toInt i) := by
    intro i hi
    rw [InRange, DbFile.toInt_of_lt_tableMaxPages hi]
    omega
  rw [closingPages]
  simp only [List.forall_mem_append, List.forall_mem_map, List.forall_mem_singleton, List.mem_range]
  generalize (t.numRows + pageSize / t.rowSize - 1) / (pageSize / t.rowSize) = total
    at htotal htotalMax ⊢
  have hwrap : (total + 2 ^ 64 - 1) % 2 ^ 64 = total - 1 := by
    have hmaxPages : tableMaxPages < 2 ^ 64 := by decide
    omega
  rw [hwrap]
  exact ⟨fun i hi => hin i (by omega), hin (total - 1) (by omega)⟩

omit hpos hle in
/-- Every id of a run that stores a row, or has one from the start, is in range. -/
lemma passed_inRange : ∀ (rows : List Row) {t : Table}, 0 < t.rowSize → t.rowSize ≤ pageSize →
    t.numRows ≤ tableMaxPages * (pageSize / t.rowSize) → 0 < t.numRows ∨ rows ≠ [] →
    ∀ id ∈ passed rows t, InRange id := by
  intro rows
  induction rows with
  | nil =>
      intro t hpos hle hmax hsome
      exact closingPages_inRange hpos hle (hsome.resolve_right (by simp)) hmax
  | cons row rows ih =>
      intro t hpos hle hmax _
      rw [passed, evaluateInsert_eq hpos]
      split_ifs with hroom
      · have hpage := page_lt hroom
        rw [List.singleton_append, List.forall_mem_cons]
        refine ⟨?_, ?_⟩
        · rw [slotPage, InRange, DbFile.toInt_of_lt_tableMaxPages hpage]
          exact ⟨Int.natCast_nonneg _, Int.ofNat_lt.mpr hpage⟩
        · cases happend : t.append row with
          | error e => simp
          | ok t' =>
              obtain ⟨hnum, hsize⟩ := append_eq_ok hpos hle happend
              exact ih (by rw [hsize]; exact hpos) (by rw [hsize]; exact hle)
                (by rw [hnum, hsize]; exact hroom) (Or.inl (by omega))
      · -- a full table has rows
        have hper := perBlock_pos hpos hle
        have hfull : 0 < tableMaxPages * (pageSize / t.rowSize) := Nat.mul_pos (by decide) hper
        rw [List.nil_append]
        exact ih hpos hle hmax (Or.inl (by omega))

end Table

/-! ## Files -/

/-- What the constructor makes of a file that fits the page array. -/
lemma new_numRows {rowSize : ℕ} (hpos : 0 < rowSize) (hle : rowSize ≤ pageSize)
    {file : List UInt8} (hfile : file.length ≤ tableMaxPages * pageSize) {counts : ℕ → ℕ}
    {blocks : ℕ → Page} {t : Table} (h : Table.new rowSize (some file) counts blocks = .ok t) :
    t.rowSize = rowSize ∧ t.numRows ≤ tableMaxPages * (pageSize / rowSize) ∧
      (0 < t.numRows ↔ file ≠ []) := by
  have hper := perBlock_pos hpos hle
  have hlen : file.length ≤ 1000 * 4096 := hfile
  obtain ⟨pages, hpages⟩ : ∃ pages, pages = (file.length + 4095) / 4096 := ⟨_, rfl⟩
  have hmax : pages ≤ tableMaxPages := by
    show pages ≤ 1000
    omega
  have hlength : (DbFile.new (some file) counts blocks).length = file.length :=
    Nat.mod_eq_of_lt (show file.length < 2 ^ 32 by omega)
  have hnum : (DbFile.new (some file) counts blocks).numPages = pages := by
    show (file.length % 2 ^ 32 + 4095) / 4096 % 2 ^ 32 = pages
    omega
  have hsome : 0 < file.length ↔ file ≠ [] := List.length_pos_iff
  rw [Table.new, hlength, hnum] at h
  simp only [getRowPerPage_eq hpos, ok_bind] at h
  split_ifs at h with hremain
  · -- the last page is full
    obtain rfl := Except.ok.inj h
    have hremain' : file.length % 4096 = 0 := hremain
    refine ⟨rfl, Nat.mul_le_mul_right _ hmax, ?_⟩
    show 0 < pages * (pageSize / rowSize) ↔ _
    rw [Nat.mul_pos_iff_of_pos_right hper, ← hsome]
    omega
  · have hremain' : ¬file.length % 4096 = 0 := hremain
    have hlt : file.length % pageSize < pageSize := Nat.mod_lt _ (by decide)
    rw [modUnsigned, if_neg hpos.ne', ok_bind] at h
    by_cases hrest : file.length % pageSize % rowSize = 0
    · rw [assertThat_of hrest, ok_bind, divUnsigned, if_neg hpos.ne', ok_bind] at h
      obtain rfl := Except.ok.inj h
      -- the rows of the last page: at least one, and no more than fit
      have hrows : 0 < file.length % pageSize / rowSize :=
        Nat.div_pos (Nat.le_of_dvd (Nat.pos_of_ne_zero hremain) (Nat.dvd_of_mod_eq_zero hrest)) hpos
      have hrowsLe : file.length % pageSize / rowSize ≤ pageSize / rowSize :=
        Nat.div_le_div_right hlt.le
      have hmul : (pages - 1) * (pageSize / rowSize) + pageSize / rowSize
          ≤ tableMaxPages * (pageSize / rowSize) := by
        rw [← Nat.succ_mul]
        exact Nat.mul_le_mul_right _ (show pages - 1 + 1 ≤ tableMaxPages by omega)
      refine ⟨rfl, ?_, ?_⟩
      · show (pages - 1) * (pageSize / rowSize) + file.length % pageSize / rowSize ≤ _
        omega
      · rw [← hsome]
        refine iff_of_true ?_ (by omega)
        show 0 < (pages - 1) * (pageSize / rowSize) + file.length % pageSize / rowSize
        omega
    · rw [assertThat_of_not hrest, error_bind] at h
      cases h

/-- **The page ids of a table are in range exactly if it has a row in the end**: those that
`get_row_slot` and the destructor pass, so that with rows of the size the inserts and the destructor
get to their end exactly then.  An empty file that is closed without an insert is the only one whose
destructor leaves the page array. -/
theorem table_page_ids_in_range {rowSize : ℕ} (hpos : 0 < rowSize) (hle : rowSize ≤ pageSize)
    {file : List UInt8} (hfile : file.length ≤ tableMaxPages * pageSize) {counts : ℕ → ℕ}
    {blocks : ℕ → Page} {t : Table} (hnew : Table.new rowSize (some file) counts blocks = .ok t)
    (rows : List Row) : ((∀ id ∈ t.passed rows, InRange id) ↔ file ≠ [] ∨ rows ≠ []) ∧
      ((∀ row ∈ rows, row.length ≤ rowSize) →
        ((∃ out, t.run rows = .ok out) ↔ file ≠ [] ∨ rows ≠ [])) := by
  obtain ⟨hsize, hmax, hsome⟩ := new_numRows hpos hle hfile hnew
  rw [← hsome]
  suffices hin : (∀ id ∈ t.passed rows, InRange id) ↔ 0 < t.numRows ∨ rows ≠ [] from
    ⟨hin, fun hrows => (Table.run_eq_ok_iff rows (by rw [hsize]; exact hpos)
      (by rw [hsize]; exact hle) (by rw [hsize]; exact hrows)).trans hin⟩
  constructor
  · intro hin
    by_contra hnone
    rw [not_or, not_lt, Nat.le_zero, not_not] at hnone
    obtain ⟨hzero, rfl⟩ := hnone
    -- `total_pages - 1` wraps
    have hper := perBlock_pos hpos hle
    have htotal : (t.numRows + pageSize / t.rowSize - 1) / (pageSize / t.rowSize) = 0 := by
      rw [hzero, hsize, Nat.zero_add]
      exact Nat.div_eq_of_lt (by omega)
    have hlast : InRange (-1) := by
      refine hin (-1) ?_
      rw [Table.passed, Table.closingPages, htotal]
      decide
    exact absurd hlast.1 (by decide)
  · intro hsome'
    exact Table.passed_inRange rows (by rw [hsize]; exact hpos) (by rw [hsize]; exact hle)
      (by rw [hsize]; exact hmax) hsome'

/-- The first row of an empty file. -/
theorem table_page_ids_in_range_first : ∃ t,
    Table.new 68 (some []) (fun _ => 0) (fun _ => Page.filled 9) = .ok t ∧
      t.passed [List.replicate 68 1] = [0, 0] ∧
      (∀ id ∈ t.passed [List.replicate 68 1], InRange id) ∧
      ∃ out, t.run [List.replicate 68 1] = .ok out := by
  obtain ⟨t, hnew, hpassed⟩ : ∃ t,
      Table.new 68 (some []) (fun _ => 0) (fun _ => Page.filled 9) = .ok t ∧
        t.passed [List.replicate 68 1] = [0, 0] := ⟨_, rfl, by decide +kernel⟩
  obtain ⟨hin, hrun⟩ := table_page_ids_in_range (by decide) (by decide) (by decide) hnew
    [List.replicate 68 1]
  exact ⟨t, hnew, hpassed, hin.mpr (Or.inr (by simp)), (hrun (by simp)).mpr (Or.inr (by simp))⟩

/-- An empty file that is opened and closed: the destructor asks for page `-1`. -/
theorem empty_table_leaves_page_array : ∃ t,
    Table.new 68 (some []) (fun _ => 0) (fun _ => Page.filled 9) = .ok t ∧
      t.passed [] = [-1] ∧ ¬(∀ id ∈ t.passed [], InRange id) ∧ ¬∃ out, t.run [] = .ok out := by
  obtain ⟨t, hnew, hpassed, hsize⟩ : ∃ t,
      Table.new 68 (some []) (fun _ => 0) (fun _ => Page.filled 9) = .ok t ∧
        t.passed [] = [-1] ∧ t.rowSize = 68 := ⟨_, rfl, by decide, rfl⟩
  have hout : ¬∀ id ∈ t.passed [], InRange id := by
    rw [hpassed]
    intro hin
    exact absurd (hin (-1) (by simp)).1 (by decide)
  refine ⟨t, hnew, hpassed, hout, ?_⟩
  rw [Table.run_eq_ok_iff [] (by rw [hsize]; decide) (by rw [hsize]; decide) (by simp)]
  exact hout

end DbToy
