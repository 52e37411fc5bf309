import DbToy.LeafNode
import DbToy.Lib.Slots

/-!
# What the leaf operations do to the cells

A leaf's cells are a list (`LeafNode.cells`).  Insertion cuts that list at the key and puts the new
cell at the cut (`insert_spec`); a split does the same and then cuts the result in two
(`insertAndSplit_spec`).  Neither changes anything else of the page's header (`SameHeader`), and
none of the assertions on the way fails.

The loops are described cell by cell: after `insertLoop` and `moveLoop`, where each cell of the
page comes from (`insertLoop_spec`, `moveLoop_spec`).
-/

namespace DbToy

open Bytes Slots

namespace LeafNode

/-! ## Geometry -/

/-- The number of cells that a leaf page has room for. -/
def pageMax (rowSize : ℕ) : ℕ := capacity (4 + rowSize)

lemma capacity_le (cellSize : ℕ) : capacity cellSize ≤ leafNodeSpaceForCells / cellSize := by
  simp only [capacity]
  generalize leafNodeSpaceForCells / cellSize = q
  split_ifs <;> omega

lemma capacity_even (cellSize : ℕ) : capacity cellSize % 2 = 0 := by
  simp only [capacity]
  generalize leafNodeSpaceForCells / cellSize = q
  split_ifs <;> omega

lemma pageMax_even (rowSize : ℕ) : pageMax rowSize % 2 = 0 := capacity_even _

/-- The cells that a page has room for end inside it. -/
lemma pageMax_fits (rowSize : ℕ) :
    leafNodeHeaderSize + pageMax rowSize * (4 + rowSize) ≤ pageSize := by
  have h₁ := Nat.mul_le_mul_right (4 + rowSize) (capacity_le (4 + rowSize))
  have h₂ := Nat.div_mul_le_self leafNodeSpaceForCells (4 + rowSize)
  have h₃ : leafNodeHeaderSize + leafNodeSpaceForCells = pageSize := rfl
  simp only [pageMax]
  omega

/-- A row that fits a page at all is far from the limit of `uint32_t`. -/
lemma rowSize_lt {rowSize : ℕ} (h : 0 < pageMax rowSize) : 4 + rowSize < 2 ^ 31 := by
  have hfit := pageMax_fits rowSize
  have hle : 4 + rowSize ≤ pageMax rowSize * (4 + rowSize) := Nat.le_mul_of_pos_left _ h
  have hp : pageSize < 2 ^ 31 := by decide
  omega

/-- The node's fields agree with its page and do not claim more room than there is. -/
structure WF (n : LeafNode) : Prop where
  cellSize_eq : n.cellSize = 4 + n.rowSize
  numMaxCell_le : n.numMaxCell ≤ pageMax n.rowSize

/-- Where cell `i` starts. -/
def cellStart (n : LeafNode) (i : ℕ) : ℕ := leafNodeHeaderSize + i * n.cellSize

def cellBytes (n : LeafNode) (i : ℕ) : List UInt8 := n.data.get (n.cellStart i) n.cellSize

/-- Key and value of a cell's bytes. -/
def cellOf (bs : List UInt8) : UInt32 × Row := (UInt32.ofNat (decodeLE (bs.take 4)), bs.drop 4)

def cellAt (n : LeafNode) (i : ℕ) : UInt32 × Row := cellOf (n.cellBytes i)

/-- The cells in the order of the page. -/
def cells (n : LeafNode) : List (UInt32 × Row) := slots n.numCells n.cellAt

@[simp] lemma length_cells (n : LeafNode) : n.cells.length = n.numCells := length_slots _ _

/-- What no operation on cells changes. -/
structure SameHeader (n n' : LeafNode) : Prop where
  rowSize : n'.rowSize = n.rowSize
  cellSize : n'.cellSize = n.cellSize
  numMaxCell : n'.numMaxCell = n.numMaxCell
  nodeType : n'.data.nodeType = n.data.nodeType
  isRoot : n'.data.isRoot = n.data.isRoot
  parent : n'.data.parent = n.data.parent
  rowSizeField : n'.data.u32 leafNodeRowsizeOffset = n.data.u32 leafNodeRowsizeOffset

lemma SameHeader.refl (n : LeafNode) : SameHeader n n := ⟨rfl, rfl, rfl, rfl, rfl, rfl, rfl⟩

lemma SameHeader.trans {a b c : LeafNode} (h₁ : SameHeader a b) (h₂ : SameHeader b c) :
    SameHeader a c :=
  ⟨h₂.1.trans h₁.1, h₂.2.trans h₁.2, h₂.3.trans h₁.3, h₂.4.trans h₁.4, h₂.5.trans h₁.5,
    h₂.6.trans h₁.6, h₂.7.trans h₁.7⟩

lemma SameHeader.wf {n n' : LeafNode} (h : SameHeader n n') (hn : n.WF) : n'.WF :=
  ⟨by rw [h.cellSize, h.rowSize]; exact hn.1, by rw [h.numMaxCell, h.rowSize]; exact hn.2⟩

/-- A write behind the header leaves the header and the number of cells alone. -/
lemma sameHeader_set (n : LeafNode) {off : ℕ} (bs : List UInt8) (h : leafNodeHeaderSize ≤ off) :
    SameHeader n { n with data := n.data.set off bs } ∧
      ({ n with data := n.data.set off bs } : LeafNode).numCells = n.numCells := by
  obtain ⟨h₁, h₂, h₃⟩ := n.data.header_set bs (le_trans (by decide) h)
  have hd : ∀ a, a + 4 ≤ leafNodeHeaderSize → (n.data.set off bs).u32 a = n.data.u32 a :=
    fun a ha => by
      rw [Page.u32, Page.u32, Page.get_set_of_disjoint rfl (Or.inl (le_trans ha h))
        (le_trans ha (by decide))]
  exact ⟨⟨rfl, rfl, rfl, h₁, h₂, h₃, hd _ (by decide)⟩, hd _ (by decide)⟩

/-- Cells of different indices do not overlap. -/
lemma cellStart_disjoint (n : LeafNode) {i j : ℕ} (h : i ≠ j) :
    n.cellStart i + n.cellSize ≤ n.cellStart j ∨ n.cellStart j + n.cellSize ≤ n.cellStart i := by
  have hstep : ∀ a b, a < b → n.cellStart a + n.cellSize ≤ n.cellStart b := by
    intro a b hab
    have := Nat.mul_le_mul_right n.cellSize (Nat.succ_le_of_lt hab)
    rw [Nat.succ_mul] at this
    rw [cellStart, cellStart]; omega
  rcases Nat.lt_or_gt_of_ne h with h | h
  · exact Or.inl (hstep _ _ h)
  · exact Or.inr (hstep _ _ h)

section Access

variable {n : LeafNode} (hn : n.WF) {i : ℕ} (hi : i < pageMax n.rowSize)

include hn hi

lemma cell_fits : n.cellStart i + n.cellSize ≤ pageSize := by
  have h := pageMax_fits n.rowSize
  have hm : (i + 1) * (4 + n.rowSize) ≤ pageMax n.rowSize * (4 + n.rowSize) :=
    Nat.mul_le_mul_right _ hi
  rw [Nat.add_mul, Nat.one_mul] at hm
  rw [cellStart, hn.cellSize_eq]
  omega

lemma length_cellBytes : (n.cellBytes i).length = n.cellSize :=
  Page.length_get (cell_fits hn hi)

lemma getCell_of_lt (hc : i < n.numCells) : n.getCell i = .ok (n.cellStart i) := by
  have h := cell_fits hn hi
  have hp : pageSize < 2 ^ 32 := by decide
  rw [getCell, assertThat_of hc, ok_bind, Nat.mod_eq_of_lt (by rw [cellStart] at h; omega)]
  rfl

lemma getKey_of_lt (hc : i < n.numCells) : n.getKey i = .ok (n.cellAt i).1 := by
  have h := cell_fits hn hi
  have hs := hn.cellSize_eq
  have htake : (n.cellBytes i).take 4 = n.data.get (n.cellStart i) 4 := by
    have h4 : slice (n.data.get (n.cellStart i) n.cellSize) 0 4
        = n.data.get (n.cellStart i + 0) 4 := Page.get_get (by omega)
    rw [cellBytes]
    simpa only [slice, List.drop_zero, Nat.add_zero] using h4
  rw [getKey, getCell_of_lt hn hi hc, ok_bind, Page.load_of_le (by omega), ok_bind, cellAt, cellOf,
    htake]

end Access

lemma getKey_cells {n : LeafNode} (hn : n.WF) (hle : n.numCells ≤ pageMax n.rowSize) :
    ∀ i (h : i < (n.cells.map Prod.fst).length),
      n.getKey i = .ok (n.cells.map Prod.fst)[i] := by
  intro i h
  have hi : i < n.numCells := by rw [List.length_map, length_cells] at h; exact h
  have hkey : (n.cells.map Prod.fst)[i] = (n.cellAt i).1 := by
    rw [List.getElem_map]
    exact congrArg Prod.fst (getElem_slots _)
  rw [hkey, getKey_of_lt hn (by omega) hi]

/-! ## Loading -/

/-- The page of a leaf with rows of this size, as the constructor sees it. -/
def view (page : Page) (rowSize : ℕ) : LeafNode :=
  { data := page, rowSize := rowSize, cellSize := 4 + rowSize, numMaxCell := pageMax rowSize }

lemma view_wf (page : Page) (rowSize : ℕ) : (view page rowSize).WF := ⟨rfl, le_rfl⟩

/-- The constructor reads the row size back from the page. -/
lemma load_spec {page : Page} {rowSize : ℕ} (hrow : page.u32 leafNodeRowsizeOffset = rowSize)
    (h : 0 < pageMax rowSize) : load page = .ok (view page rowSize) := by
  have hlt := rowSize_lt h
  have hmod : (4 + rowSize) % 2 ^ 32 = 4 + rowSize := Nat.mod_eq_of_lt (by omega)
  have hcap : 0 < capacity (4 + rowSize) := h
  rw [load]
  simp only [hrow, hmod]
  rw [if_neg (by omega), assertThat_of hcap, ok_bind]
  rfl

/-- Two pages with the same body hold the same cells. -/
lemma cells_congr {p q : Page} (h : p.body = q.body) (rowSize : ℕ) :
    (view p rowSize).cells = (view q rowSize).cells := by
  have hnum : (view p rowSize).numCells = (view q rowSize).numCells :=
    Page.u32_congr h (by decide)
  rw [cells, cells, hnum]
  refine slots_congr ?_
  intro i _
  rw [cellAt, cellAt, cellBytes, cellBytes]
  exact congrArg cellOf (Page.get_congr h (Nat.le_add_right_of_le (by decide)) _)

/-! ## Writing one cell -/

/-- The node with the bytes of cell `i` replaced. -/
def setCell (n : LeafNode) (i : ℕ) (bs : List UInt8) : LeafNode :=
  { n with data := n.data.set (n.cellStart i) bs }

section SetCell

variable {n : LeafNode} (i : ℕ) (bs : List UInt8)

lemma sameHeader_setCell : SameHeader n (n.setCell i bs) :=
  (sameHeader_set n bs (Nat.le_add_right _ _)).1

@[simp] lemma numCells_setCell : (n.setCell i bs).numCells = n.numCells :=
  (sameHeader_set n bs (Nat.le_add_right _ _)).2

@[simp] lemma rowSize_setCell : (n.setCell i bs).rowSize = n.rowSize := rfl

variable {i bs}

lemma cellBytes_setCell (hn : n.WF) (hi : i < pageMax n.rowSize) (hbs : bs.length = n.cellSize)
    {j : ℕ} (hj : j < pageMax n.rowSize) :
    (n.setCell i bs).cellBytes j = if j = i then bs else n.cellBytes j := by
  have hstart : (n.setCell i bs).cellStart j = n.cellStart j := rfl
  rw [cellBytes, hstart]
  split_ifs with h
  · subst h
    exact Page.get_set_same hbs (cell_fits hn hj)
  · exact Page.get_set_of_disjoint hbs (cellStart_disjoint n h) (cell_fits hn hj)

end SetCell

/-- `memcpy` from cell to cell. -/
lemma copyCell_of_lt {dst src : LeafNode} {i j : ℕ} (hd : dst.WF) (hs : src.WF)
    (hsize : dst.rowSize = src.rowSize) (hi : i < src.numCells) (hi' : i < pageMax src.rowSize)
    (hj : j < dst.numCells) (hj' : j < pageMax dst.rowSize) :
    dst.copyCell j src i = .ok (dst.setCell j (src.cellBytes i)) := by
  have hcs : src.cellSize = dst.cellSize := by rw [hd.1, hs.1, hsize]
  have hlen := length_cellBytes hs hi'
  rw [copyCell, getCell_of_lt hd hj' hj, ok_bind, getCell_of_lt hs hi' hi, ok_bind,
    Page.load_of_le (cell_fits hs hi'), ok_bind]
  change (do let data ← dst.data.store (dst.cellStart j) (src.cellBytes i)
             Except.ok { dst with data := data }) = _
  rw [Page.store_of_le (by rw [hlen, hcs]; exact cell_fits hd hj'), ok_bind]
  rfl

lemma cellOf_append (key : UInt32) (value : Row) :
    cellOf (encodeLE 4 key.toNat ++ value) = (key, value) := by
  have hk : decodeLE (encodeLE 4 key.toNat) = key.toNat :=
    decodeLE_encodeLE_of_lt (by simpa using key.toNat_lt)
  rw [cellOf, List.take_left' (length_encodeLE _ _), List.drop_left' (length_encodeLE _ _), hk,
    UInt32.ofNat_toNat]

/-- The two writes that fill a cell: its key, and the serialized row behind it. -/
lemma setKey_serialize {n : LeafNode} (hn : n.WF) {i : ℕ} (hi : i < n.numCells)
    (hi' : i < pageMax n.rowSize) (key : UInt32) {value : Row} (hv : value.length = n.rowSize) :
    ∃ n₁ n', n.setKey i key = .ok n₁ ∧ n₁.serialize i value = .ok n' ∧ SameHeader n n' ∧
      n'.numCells = n.numCells ∧
      ∀ j < pageMax n.rowSize, n'.cellAt j = if j = i then (key, value) else n.cellAt j := by
  have hfit := cell_fits hn hi'
  have hcs := hn.cellSize_eq
  set n₁ : LeafNode := { n with data := n.data.set (n.cellStart i) (encodeLE 4 key.toNat) }
    with hn₁
  have hle : leafNodeHeaderSize ≤ n.cellStart i := Nat.le_add_right _ _
  obtain ⟨hh₁, hc₁⟩ := sameHeader_set n (encodeLE 4 key.toNat) hle
  have hwf₁ : n₁.WF := hh₁.wf hn
  set n' : LeafNode := { n₁ with data := n₁.data.set (n.cellStart i + 4) value } with hn'
  obtain ⟨hh₂, hc₂⟩ := sameHeader_set n₁ value (le_trans hle (Nat.le_add_right _ 4))
  have hdata : n'.data = (n.data.set (n.cellStart i) (encodeLE 4 key.toNat)).set
    (n.cellStart i + 4) value := rfl
  refine ⟨n₁, n', ?_, ?_, hh₁.trans hh₂, hc₂.trans hc₁, ?_⟩
  · rw [setKey, getCell_of_lt hn hi' hi, ok_bind, Page.store_of_le, ok_bind]
    rw [length_encodeLE]; omega
  · have hstart : n₁.cellStart i = n.cellStart i := rfl
    have hi₁ : i < n₁.numCells := lt_of_lt_of_eq hi hc₁.symm
    rw [serialize, getCell_of_lt hwf₁ hi' hi₁, ok_bind, hstart, Page.store_of_le, ok_bind]
    · rfl
    · rw [hv, leafNodeValueOffset]; omega
  · intro j hj
    have hstart : n'.cellStart j = n.cellStart j := rfl
    have hsize : n'.cellSize = n.cellSize := rfl
    rw [cellAt, cellBytes, hstart, hsize, hdata]
    split_ifs with hij
    · subst hij
      rw [hcs, Page.get_add, Page.get_set_same hv (by omega),
        Page.get_set_of_disjoint rfl (Or.inl le_rfl) (by omega),
        Page.get_set_same (length_encodeLE _ _) (by omega), cellOf_append]
    · have hdis := cellStart_disjoint n hij
      have hfj := cell_fits hn hj
      rw [Page.get_set_of_disjoint hv (by omega) hfj,
        Page.get_set_of_disjoint (length_encodeLE _ _) (by omega) hfj]
      rfl

/-- Raising or lowering the number of cells moves no cell. -/
lemma setNumCells_spec {n : LeafNode} (hn : n.WF) {v : ℕ} (hv : v < 2 ^ 32) :
    SameHeader n (n.setNumCells v) ∧ (n.setNumCells v).numCells = v ∧
      ∀ j < pageMax n.rowSize, (n.setNumCells v).cellBytes j = n.cellBytes j := by
  have hoff : commonNodeHeaderSize ≤ leafNodeNumCellsOffset := le_rfl
  obtain ⟨h₁, h₂, h₃⟩ := n.data.header_set (encodeLE 4 v) hoff
  refine ⟨⟨rfl, rfl, rfl, h₁, h₂, h₃, ?_⟩, Page.u32_setU32 (by decide) hv, ?_⟩
  · rw [Page.u32, Page.u32, setNumCells, Page.setU32,
      Page.get_set_of_disjoint (length_encodeLE _ _) (Or.inr (by decide)) (by decide)]
  · intro j hj
    refine Page.get_set_of_disjoint (length_encodeLE _ _) (Or.inr ?_) (cell_fits hn hj)
    rw [LeafNode.cellStart]
    exact Nat.le_add_right_of_le (by decide)

/-- `allocate_cell` on a node that is not full. -/
lemma allocateCell_spec {n : LeafNode} (hn : n.WF) (h : n.numCells < n.numMaxCell) :
    SameHeader n n.allocateCell.2 ∧ n.allocateCell.2.numCells = n.numCells + 1 ∧
      ∀ j < pageMax n.rowSize, n.allocateCell.2.cellBytes j = n.cellBytes j := by
  have hv : n.numCells + 1 < 2 ^ 32 := by
    have h₁ := hn.numMaxCell_le
    have h₂ := capacity_le (4 + n.rowSize)
    have h₃ := Nat.div_le_self leafNodeSpaceForCells (4 + n.rowSize)
    simp only [pageMax] at h₁
    simp only [leafNodeSpaceForCells, pageSize, leafNodeHeaderSize, commonNodeHeaderSize] at h₂ h₃
    omega
  rw [allocateCell, if_neg (by omega)]
  exact setNumCells_spec hn hv

/-! ## Insertion -/

lemma cellAt_of_cellBytes {n n' : LeafNode} {i j : ℕ} (h : n'.cellBytes i = n.cellBytes j) :
    n'.cellAt i = n.cellAt j := by
  rw [cellAt, cellAt, h]

/-- The loop stops at the cut `p`, and the cells from there on have moved up by one. -/
lemma insertLoop_spec (key : UInt32) (p : ℕ) : ∀ (i : ℕ) {n : LeafNode}, n.WF → p ≤ i →
    i < n.numCells → i < pageMax n.rowSize →
    (∀ j, p ≤ j → j < i → key < (n.cellAt j).1) →
    (0 < p → (n.cellAt (p - 1)).1 < key) →
    ∃ n', insertLoop key i n = .ok (p, n') ∧ SameHeader n n' ∧ n'.numCells = n.numCells ∧
      ∀ j < pageMax n.rowSize,
        n'.cellBytes j = if p < j ∧ j ≤ i then n.cellBytes (j - 1) else n.cellBytes j := by
  intro i
  induction i with
  | zero =>
      intro n hn hp hi hi' hgt hlt
      obtain rfl : p = 0 := by omega
      exact ⟨n, rfl, .refl n, rfl, fun j _ => by rw [if_neg (by omega)]⟩
  | succ i ih =>
      intro n hn hp hi hi' hgt hlt
      rw [insertLoop, getKey_of_lt hn (by omega) (by omega), ok_bind]
      rcases Nat.lt_or_ge i p with hpi | hpi
      · -- the cell below is the last one of the front
        obtain rfl : p = i + 1 := by omega
        have hk := hlt (by omega)
        rw [Nat.add_sub_cancel] at hk
        rw [if_neg (not_lt_of_gt hk)]
        exact ⟨n, rfl, .refl n, rfl, fun j _ => by rw [if_neg (by omega)]⟩
      · rw [if_pos (hgt i hpi (by omega)),
          copyCell_of_lt hn hn rfl (by omega) (by omega) hi hi', ok_bind]
        have hcell : ∀ j < pageMax n.rowSize, (n.setCell (i + 1) (n.cellBytes i)).cellBytes j
            = if j = i + 1 then n.cellBytes i else n.cellBytes j := fun j hj =>
          cellBytes_setCell hn hi' (length_cellBytes hn (by omega)) hj
        have hat : ∀ j < i + 1, (n.setCell (i + 1) (n.cellBytes i)).cellAt j = n.cellAt j :=
          fun j hj => cellAt_of_cellBytes (by rw [hcell j (by omega), if_neg (by omega)])
        have hh := sameHeader_setCell (n := n) (i + 1) (n.cellBytes i)
        obtain ⟨n', e, hh', hc', hb'⟩ := ih (n := n.setCell (i + 1) (n.cellBytes i)) (hh.wf hn) hpi
          (by rw [numCells_setCell]; omega) (by rw [rowSize_setCell]; omega)
          (fun j hpj hj => by rw [hat j (by omega)]; exact hgt j hpj (by omega))
          (fun h0 => by rw [hat _ (by omega)]; exact hlt h0)
        refine ⟨n', e, hh.trans hh', by rw [hc', numCells_setCell], ?_⟩
        intro j hj
        rw [hb' j hj]
        split_ifs with h1 h2 h2
        · rw [hcell _ (by omega), if_neg (by omega)]
        · omega
        · rw [hcell j hj, if_pos (by omega), show j - 1 = i by omega]
        · rw [hcell j hj, if_neg (by omega)]

/-- What the cut of the cells at a key says about the cell at each index. -/
lemma cut_spec {n : LeafNode} {key : UInt32} {A B : List (UInt32 × Row)}
    (hcells : n.cells = A ++ B) (hA : ∀ c ∈ A, c.1 < key) (hB : ∀ c ∈ B, key < c.1) :
    A.length + B.length = n.numCells ∧ (∀ j < A.length, (n.cellAt j).1 < key) ∧
      ∀ j, A.length ≤ j → j < n.numCells → key < (n.cellAt j).1 := by
  have hlen : A.length + B.length = n.numCells := by
    rw [← List.length_append, ← hcells, length_cells]
  have hget : ∀ j < n.numCells, (A ++ B)[j]? = some (n.cellAt j) := by
    intro j hj
    rw [← hcells, cells, getElem?_slots, if_pos hj]
  refine ⟨hlen, fun j hj => hA _ ?_, fun j hj hj' => hB _ ?_⟩
  · have h := hget j (by omega)
    rw [List.getElem?_append_left hj] at h
    exact List.mem_of_getElem? h
  · have h := hget j hj'
    rw [List.getElem?_append_right hj] at h
    exact List.mem_of_getElem? h

/-- A leaf's number of cells is far from the limits of its integer types. -/
lemma pageMax_lt (rowSize : ℕ) : pageMax rowSize < 2 ^ 31 := by
  have h₁ := capacity_le (4 + rowSize)
  have h₂ := Nat.div_le_self leafNodeSpaceForCells (4 + rowSize)
  have h₃ : leafNodeSpaceForCells < 2 ^ 31 := by decide
  simp only [pageMax]
  omega

/-- **Insertion is sorted insertion**: the new cell goes where the key cuts the cells. -/
theorem insert_spec {n : LeafNode} (hn : n.WF) {key : UInt32} {value : Row}
    {A B : List (UInt32 × Row)} (hcells : n.cells = A ++ B) (hA : ∀ c ∈ A, c.1 < key)
    (hB : ∀ c ∈ B, key < c.1) (hroom : n.numCells < n.numMaxCell)
    (hv : value.length = n.rowSize) :
    ∃ n', n.insert key value = .ok n' ∧ n'.cells = A ++ (key, value) :: B ∧ SameHeader n n' := by
  obtain ⟨hlen, hlt, hgt⟩ := cut_spec hcells hA hB
  have hmax := hn.numMaxCell_le
  obtain ⟨hh₁, hc₁, hb₁⟩ := allocateCell_spec hn hroom
  have hat₁ : ∀ j < pageMax n.rowSize, n.allocateCell.2.cellAt j = n.cellAt j :=
    fun j hj => cellAt_of_cellBytes (hb₁ j hj)
  obtain ⟨n₂, e₂, hh₂, hc₂, hb₂⟩ := insertLoop_spec key A.length n.numCells (hh₁.wf hn)
    (by omega) (by rw [hc₁]; omega) (by rw [hh₁.rowSize]; omega)
    (fun j hj hj' => by rw [hat₁ j (by omega)]; exact hgt j hj hj')
    (fun h0 => by rw [hat₁ _ (by omega)]; exact hlt _ (by omega))
  have hh := hh₁.trans hh₂
  obtain ⟨n₃, n', e₃, e', hh', hc', hat'⟩ := setKey_serialize (n := n₂) (hh.wf hn) (i := A.length)
    (by rw [hc₂, hc₁]; omega) (by rw [hh.rowSize]; omega) key (by rw [hh.rowSize]; exact hv)
  refine ⟨n', ?_, ?_, hh.trans hh'⟩
  · simp only [LeafNode.insert, assertThat_of hroom, ok_bind, e₂, e₃, e']
  · rw [hh₁.rowSize] at hb₂
    rw [hh.rowSize] at hat'
    -- where the cells of the result come from
    have hcell : ∀ j < pageMax n.rowSize, n'.cellAt j =
        if j = A.length then (key, value)
        else if A.length < j ∧ j ≤ n.numCells then n.cellAt (j - 1) else n.cellAt j := by
      intro j hj
      rw [hat' j hj]
      split_ifs with h1 h2
      · rfl
      · exact cellAt_of_cellBytes (by rw [hb₂ j hj, if_pos h2, hb₁ _ (by omega)])
      · exact cellAt_of_cellBytes (by rw [hb₂ j hj, if_neg h2, hb₁ j hj])
    rw [cells, hc', hc₂, hc₁]
    refine slots_put hcells ?_ ?_ ?_
    · intro j hj
      rw [hcell j (by omega), if_neg (by omega), if_neg (by omega)]
    · rw [hcell _ (by omega), if_pos rfl]
    · intro j hj hj'
      rw [hcell j (by omega), if_neg (by omega), if_pos ⟨hj, hj'⟩]

/-! ## Split -/

lemma keyPosLoop_spec {n : LeafNode} (hn : n.WF) (key : UInt32) {p : ℕ} : ∀ i, p ≤ i →
    i ≤ n.numCells → i ≤ pageMax n.rowSize → (∀ j, p ≤ j → j < i → key < (n.cellAt j).1) →
    (0 < p → (n.cellAt (p - 1)).1 < key) → keyPosLoop n key i = .ok p := by
  intro i
  induction i with
  | zero => intro hp _ _ _ _; rw [keyPosLoop, Nat.le_zero.mp hp]
  | succ i ih =>
      intro hp hi hi' hgt hlt
      rw [keyPosLoop, getKey_of_lt hn (by omega) (by omega), ok_bind]
      rcases Nat.lt_or_ge i p with hpi | hpi
      · obtain rfl : p = i + 1 := by omega
        have hk := hlt (by omega)
        rw [Nat.add_sub_cancel] at hk
        rw [if_neg (not_lt_of_gt hk)]
      · rw [if_pos (hgt i hpi (by omega))]
        exact ih hpi (by omega) (by omega) (fun j h1 h2 => hgt j h1 (by omega)) hlt

lemma keyPosCheck_spec {n : LeafNode} (hn : n.WF) {key : UInt32} {p : ℕ} (hp : p ≤ n.numCells)
    (h0 : 0 < n.numCells) (hm : n.numCells ≤ pageMax n.rowSize)
    (hgt : ∀ j, p ≤ j → j < n.numCells → key < (n.cellAt j).1)
    (hlt : ∀ j < p, (n.cellAt j).1 < key) : keyPosCheck n key p = .ok () := by
  rw [keyPosCheck]
  split_ifs with hz
  · rw [getKey_of_lt hn (by omega) (by omega), ok_bind, assertThat_of (hgt p le_rfl (by omega))]
  · rw [getKey_of_lt hn (by omega) (by omega), ok_bind, assertThat_of (hlt _ (by omega))]

lemma allocateCells_spec : ∀ (count : ℕ) {n : LeafNode}, n.WF →
    n.numCells + count ≤ n.numMaxCell →
    SameHeader n (allocateCells count n) ∧ (allocateCells count n).numCells = n.numCells + count
  | 0, n, _, _ => ⟨.refl n, rfl⟩
  | count + 1, n, hn, h => by
      obtain ⟨h₁, hc₁, -⟩ := allocateCell_spec hn (by omega)
      obtain ⟨h₂, hc₂⟩ := allocateCells_spec count (h₁.wf hn) (by
        rw [hc₁, h₁.numMaxCell]; omega)
      exact ⟨h₁.trans h₂, by rw [allocateCells, hc₂, hc₁]; omega⟩

/-- A leaf that the constructor makes of any page: empty, with the root flag and the parent that
the page had. -/
lemma create_spec (page : Page) {rowSize : ℕ} (h : 0 < pageMax rowSize) :
    ∃ n, create page rowSize = .ok n ∧ n.WF ∧ n.rowSize = rowSize ∧
      n.numMaxCell = pageMax rowSize ∧ n.numCells = 0 ∧ n.data.nodeType = nodeTypeLeaf ∧
      n.data.isRoot = page.isRoot ∧ n.data.parent = page.parent ∧
      n.data.u32 leafNodeRowsizeOffset = rowSize := by
  have hlt := rowSize_lt h
  have hmod : (4 + rowSize) % 2 ^ 32 = 4 + rowSize := Nat.mod_eq_of_lt (by omega)
  have hcap : 0 < capacity (4 + rowSize) := h
  let p₁ := page.setU32 leafNodeNumCellsOffset 0
  let p₂ := p₁.setNodeType nodeTypeLeaf
  obtain ⟨-, hroot₁, hpar₁⟩ := page.header_set (encodeLE 4 0)
    (show commonNodeHeaderSize ≤ leafNodeNumCellsOffset by decide)
  obtain ⟨htype₃, hroot₃, hpar₃⟩ := p₂.header_set (encodeLE 4 rowSize)
    (show commonNodeHeaderSize ≤ leafNodeRowsizeOffset by decide)
  refine ⟨{ data := p₂.setU32 leafNodeRowsizeOffset rowSize, rowSize := rowSize,
            cellSize := 4 + rowSize, numMaxCell := capacity (4 + rowSize) }, ?_, ⟨rfl, le_rfl⟩,
    rfl, rfl, ?_, ?_, ?_, ?_, Page.u32_setU32 (by decide) (by omega)⟩
  · rw [create]
    simp only [hmod]
    rw [if_neg (by omega), assertThat_of hcap, ok_bind]
  · show Page.u32 _ _ = 0
    rw [Page.u32, Page.setU32, Page.get_set_of_disjoint (length_encodeLE _ _) (Or.inl (by decide))
      (by decide), Page.get_setNodeType _ _ (by decide) (by decide)]
    exact Page.u32_setU32 (by decide) (by decide)
  · exact htype₃.trans (Page.nodeType_setNodeType _ (by decide))
  · exact hroot₃.trans ((Page.isRoot_setNodeType _ _).trans hroot₁)
  · exact hpar₃.trans ((Page.parent_setNodeType _ _).trans hpar₁)

/-- What one turn of the loop of a split moves: cell `i` goes to the place with the next index where
the cut is not above it, and to the right node where that place is not below `leftLoad`. -/
lemma moveLoop_step (keyPos leftLoad i : ℕ) {left right : LeafNode} (hl : left.WF) (hr : right.WF)
    (hrs : right.rowSize = left.rowSize) (hi : i < left.numCells)
    (hmax : left.numCells ≤ pageMax left.rowSize) (hll : leftLoad ≤ left.numCells)
    (hroom : left.numCells + 1 ≤ leftLoad + right.numCells)
    (hrmax : right.numCells ≤ pageMax left.rowSize) :
    ∃ left' right', moveLoop keyPos leftLoad (i + 1) (left, right)
        = moveLoop keyPos leftLoad i (left', right') ∧
      SameHeader left left' ∧ left'.numCells = left.numCells ∧
      SameHeader right right' ∧ right'.numCells = right.numCells ∧
      (∀ j < pageMax left.rowSize, left'.cellBytes j
        = if keyPos ≤ i ∧ j = i + 1 ∧ j < leftLoad then left.cellBytes i else left.cellBytes j) ∧
      (∀ j < pageMax left.rowSize, right'.cellBytes j
        = if keyPos ≤ i ∧ leftLoad + j = i + 1 ∨ i < keyPos ∧ leftLoad + j = i
          then left.cellBytes i else right.cellBytes j) := by
  rw [moveLoop]
  generalize hidx : i + (if keyPos ≤ i then 1 else 0) = idx
  have hplace : keyPos ≤ i ∧ idx = i + 1 ∨ i < keyPos ∧ idx = i := by
    rw [← hidx]
    split_ifs with hpos
    · exact .inl ⟨hpos, rfl⟩
    · exact .inr ⟨Nat.lt_of_not_le hpos, rfl⟩
  by_cases hlt : idx < leftLoad
  · -- a place in the left node
    rw [if_pos hlt]
    by_cases hstays : i = idx
    · rw [if_pos hstays]
      refine ⟨left, right, rfl, .refl _, rfl, .refl _, rfl, fun j hj => ?_, fun j hj => ?_⟩ <;>
        rw [if_neg (by omega)]
    · rw [if_neg hstays, copyCell_of_lt hl hl rfl (by omega) (by omega) (by omega) (by omega),
        ok_bind]
      refine ⟨_, right, rfl, sameHeader_setCell _ _, numCells_setCell .., .refl _, rfl, ?_, ?_⟩
      · intro j hj
        rw [cellBytes_setCell hl (by omega) (length_cellBytes hl (by omega)) hj]
        split_ifs <;> first | rfl | omega
      · intro j hj
        rw [if_neg (by omega)]
  · -- a place in the right node
    rw [if_neg hlt, copyCell_of_lt hr hl hrs (by omega) (by omega) (by omega)
      (by rw [hrs]; omega), ok_bind]
    refine ⟨left, _, rfl, .refl _, rfl, sameHeader_setCell _ _, numCells_setCell .., ?_, ?_⟩
    · intro j hj
      rw [if_neg (by omega)]
    · intro j hj
      rw [cellBytes_setCell hr (by rw [hrs]; omega)
        (by rw [length_cellBytes hl (by omega), hl.1, hr.1, hrs]) (by rw [hrs]; exact hj)]
      split_ifs <;> first | rfl | omega

/-- Where the loop of a split takes the cells: those below the cut keep their index, the others
move up by one, and an index of `leftLoad` or more is a place in the right node. -/
lemma moveLoop_spec (keyPos leftLoad : ℕ) : ∀ (i : ℕ) {left right : LeafNode}, left.WF →
    right.WF → right.rowSize = left.rowSize → i ≤ left.numCells →
    left.numCells ≤ pageMax left.rowSize → leftLoad ≤ left.numCells →
    left.numCells + 1 ≤ leftLoad + right.numCells → right.numCells ≤ pageMax left.rowSize →
    ∃ left' right', moveLoop keyPos leftLoad i (left, right) = .ok (left', right') ∧
      SameHeader left left' ∧ left'.numCells = left.numCells ∧
      SameHeader right right' ∧ right'.numCells = right.numCells ∧
      (∀ j < pageMax left.rowSize, left'.cellBytes j =
        if keyPos < j ∧ j ≤ i ∧ j < leftLoad then left.cellBytes (j - 1) else left.cellBytes j) ∧
      (∀ j < pageMax left.rowSize, right'.cellBytes j =
        if leftLoad + j < keyPos ∧ leftLoad + j < i then left.cellBytes (leftLoad + j)
        else if keyPos < leftLoad + j ∧ leftLoad + j ≤ i then left.cellBytes (leftLoad + j - 1)
        else right.cellBytes j) := by
  intro i
  induction i with
  | zero =>
      intro left right _ _ _ _ _ _ _ _
      refine ⟨left, right, rfl, .refl _, rfl, .refl _, rfl, ?_, ?_⟩
      · intro j _
        rw [if_neg (by omega)]
      · intro j _
        rw [if_neg (by omega), if_neg (by omega)]
  | succ i ih =>
      intro left right hl hr hrs hi hmax hll hroom hrmax
      obtain ⟨l₁, r₁, e₁, hhl, hnl, hhr, hnr, hlb, hrb⟩ :=
        moveLoop_step keyPos leftLoad i hl hr hrs (by omega) hmax hll hroom hrmax
      obtain ⟨l₂, r₂, e₂, hhl', hnl', hhr', hnr', hlb', hrb'⟩ :=
        ih (hhl.wf hl) (hhr.wf hr) (by rw [hhr.rowSize, hhl.rowSize, hrs])
          (by rw [hnl]; omega) (by rw [hnl, hhl.rowSize]; exact hmax) (by rw [hnl]; exact hll)
          (by rw [hnl, hnr]; exact hroom) (by rw [hnr, hhl.rowSize]; exact hrmax)
      rw [hhl.rowSize] at hlb' hrb'
      -- what is still to be moved has not been written over
      have hkept : ∀ j ≤ i, l₁.cellBytes j = left.cellBytes j := by
        intro j hj
        rw [hlb j (by omega), if_neg (by omega)]
      refine ⟨l₂, r₂, e₁.trans e₂, hhl.trans hhl', hnl'.trans hnl, hhr.trans hhr', hnr'.trans hnr,
        ?_, ?_⟩
      · intro j hj
        rw [hlb' j hj, hlb j hj]
        split_ifs <;>
          first | omega | with_reducible rfl | (congr 1; omega) | exact hkept _ (by omega)
      · intro j hj
        rw [hrb' j hj, hrb j hj]
        split_ifs <;>
          first | omega | with_reducible rfl | (congr 1; omega) | exact hkept _ (by omega)

/-- The cells with one more put in at a cut, index by index. -/
lemma getElem?_put_cells {n : LeafNode} {A B : List (UInt32 × Row)} (hcells : n.cells = A ++ B)
    (c : UInt32 × Row) {i : ℕ} (hi : i ≤ n.numCells) :
    (A ++ c :: B)[i]? = some (if i < A.length then n.cellAt i
      else if i = A.length then c else n.cellAt (i - 1)) := by
  have hlen : A.length + B.length = n.numCells := by
    rw [← List.length_append, ← hcells, length_cells]
  rw [getElem?_put, ← hcells, cells, getElem?_slots, getElem?_slots]
  split_ifs <;> first | rfl | omega

/-- The end of a split: the left node keeps the cells below its new load. -/
lemma setNumCells_take {n : LeafNode} (hn : n.WF) {W : List (UInt32 × Row)} {half : ℕ}
    (hload : half + 1 ≤ W.length) (hmax : half + 1 ≤ pageMax n.rowSize)
    (hcell : ∀ j < half + 1, W[j]? = some (n.cellAt j)) :
    ∃ pivot, (n.setNumCells (half + 1)).getKey half = .ok pivot ∧
      W[half]?.map Prod.fst = some pivot ∧ (n.setNumCells (half + 1)).cells = W.take (half + 1) ∧
      SameHeader n (n.setNumCells (half + 1)) := by
  have hlt := pageMax_lt n.rowSize
  obtain ⟨hh, hc, hb⟩ := setNumCells_spec hn (show half + 1 < 2 ^ 32 by omega)
  have hat : ∀ j < half + 1, (n.setNumCells (half + 1)).cellAt j = n.cellAt j := fun j hj =>
    cellAt_of_cellBytes (hb j (by omega))
  refine ⟨(n.cellAt half).1, ?_, ?_, ?_, hh⟩
  · rw [getKey_of_lt (hh.wf hn) (by rw [hh.rowSize]; omega) (by rw [hc]; omega),
      hat _ (by omega)]
  · rw [hcell _ (by omega)]; rfl
  · rw [cells, hc]
    exact slots_eq_take hload fun j hj => by rw [hat j hj]; exact hcell j hj

/-- **A split is a sorted insertion followed by a cut**: the node keeps one cell more than half of
the old ones, the new node gets the rest, and the pivot is the last key that the node keeps. -/
theorem insertAndSplit_spec {n : LeafNode} (hn : n.WF) {key : UInt32} {value : Row}
    {A B : List (UInt32 × Row)} (hcells : n.cells = A ++ B) (hA : ∀ c ∈ A, c.1 < key)
    (hB : ∀ c ∈ B, key < c.1) (hfull : n.numCells = n.numMaxCell) (h0 : 0 < n.numCells)
    (heven : n.numCells % 2 = 0) (hv : value.length = n.rowSize) (newPage : Page) :
    ∃ pivot left right, n.insertAndSplit key value newPage = .ok (pivot, left, right) ∧
      (A ++ (key, value) :: B)[n.numCells / 2]?.map Prod.fst = some pivot ∧
      left.cells = (A ++ (key, value) :: B).take (n.numCells / 2 + 1) ∧
      right.cells = (A ++ (key, value) :: B).drop (n.numCells / 2 + 1) ∧
      SameHeader n left ∧ right.data.nodeType = nodeTypeLeaf ∧
      right.data.isRoot = newPage.isRoot ∧ right.data.parent = newPage.parent ∧
      right.data.u32 leafNodeRowsizeOffset = n.rowSize ∧ right.cellSize = n.cellSize := by
  obtain ⟨hlen, hlt, hgt⟩ := cut_spec hcells hA hB
  have hmax := hn.numMaxCell_le
  have hW : (A ++ (key, value) :: B).length = n.numCells + 1 := by
    simp only [List.length_append, List.length_cons]; omega
  obtain ⟨r₀, er, hr₀, hrs, hrmax, hrc, htype, hroot, hpar, hfield⟩ :=
    create_spec newPage (show 0 < pageMax n.rowSize by omega)
  obtain ⟨hh₁, hc₁⟩ := allocateCells_spec (n.numCells / 2) hr₀ (by rw [hrmax]; omega)
  have hkey := keyPosLoop_spec hn key n.numCells (show A.length ≤ n.numCells by omega) le_rfl
    (by omega) hgt (fun _ => hlt _ (by omega))
  have hcheck := keyPosCheck_spec hn (show A.length ≤ n.numCells by omega) h0 (by omega) hgt hlt
  obtain ⟨left, right, em, hl, hlc, hr, hrc', hlb, hrb⟩ :=
    moveLoop_spec A.length (n.numCells / 2 + 1) n.numCells hn (hh₁.wf hr₀)
      (by rw [hh₁.rowSize, hrs]) le_rfl (by omega) (by omega) (by rw [hc₁]; omega)
      (by rw [hc₁]; omega)
  have hr' := hh₁.trans hr
  have hright : right.rowSize = n.rowSize := by rw [hr'.rowSize, hrs]
  have hsize : right.cellSize = n.cellSize := by
    rw [(hr'.wf hr₀).cellSize_eq, hright, hn.cellSize_eq]
  rw [hrc, Nat.zero_add] at hc₁
  rw [hc₁] at hrc'
  -- where the cells of the two nodes come from
  have hlcell : ∀ j < n.numCells / 2 + 1, j ≠ A.length →
      (A ++ (key, value) :: B)[j]? = some (left.cellAt j) := by
    intro j hj hne
    rw [getElem?_put_cells hcells _ (by omega)]
    simp only [cellAt, hlb j (by omega)]
    split_ifs <;> first | rfl | omega
  have hrcell : ∀ j < n.numCells / 2, n.numCells / 2 + 1 + j ≠ A.length →
      (A ++ (key, value) :: B)[n.numCells / 2 + 1 + j]? = some (right.cellAt j) := by
    intro j hj hne
    rw [getElem?_put_cells hcells _ (by omega)]
    simp only [cellAt, hrb j (by omega)]
    split_ifs <;> first | rfl | omega
  have hcut : (A ++ (key, value) :: B)[A.length]? = some (key, value) := by
    rw [getElem?_put, if_neg (lt_irrefl _), if_pos rfl]
  rw [insertAndSplit]
  simp only [isFull, hfull, beq_self_eq_true, assertThat_of, ok_bind, er]
  rw [← hfull, hkey, ok_bind, hcheck, ok_bind, em, ok_bind]
  dsimp only
  rcases Nat.lt_or_ge A.length (n.numCells / 2 + 1) with hpos | hpos
  · -- the new cell is one of the left node's
    obtain ⟨l₁, l₂, e₁, e₂, hh, hc, hat⟩ := setKey_serialize (hl.wf hn)
      (show A.length < left.numCells by omega) (by rw [hl.rowSize]; omega) key
      (by rw [hl.rowSize]; exact hv)
    rw [hl.rowSize] at hat
    obtain ⟨pivot, ep, hp, htake, hh'⟩ := setNumCells_take ((hl.trans hh).wf hn)
      (show n.numCells / 2 + 1 ≤ (A ++ (key, value) :: B).length by omega)
      (by rw [(hl.trans hh).rowSize]; omega) (fun j hj => by
        rw [hat j (by omega)]
        split_ifs with h
        · rw [h, hcut]
        · exact hlcell j hj h)
    rw [if_pos hpos, e₁, ok_bind, e₂, ok_bind, Nat.add_sub_cancel, ep, ok_bind]
    refine ⟨pivot, _, right, rfl, hp, htake, ?_, (hl.trans hh).trans hh', ?_, ?_, ?_, ?_, hsize⟩
    · rw [cells, hrc']
      exact slots_eq_drop (by omega) fun j hj => hrcell j hj (by omega)
    · rw [hr'.nodeType, htype]
    · rw [hr'.isRoot, hroot]
    · rw [hr'.parent, hpar]
    · rw [hr'.rowSizeField, hfield]
  · -- the new cell is one of the right node's
    obtain ⟨r₁, r₂, e₁, e₂, hh, hc, hat⟩ := setKey_serialize (hr'.wf hr₀)
      (show A.length - (n.numCells / 2 + 1) < right.numCells by omega) (by rw [hright]; omega) key
      (by rw [hright]; exact hv)
    rw [hright] at hat
    obtain ⟨pivot, ep, hp, htake, hh'⟩ := setNumCells_take (hl.wf hn)
      (show n.numCells / 2 + 1 ≤ (A ++ (key, value) :: B).length by omega)
      (by rw [hl.rowSize]; omega) (fun j hj => hlcell j hj (by omega))
    have hr'' := hr'.trans hh
    rw [if_neg (by omega), e₁, ok_bind, e₂, ok_bind, Nat.add_sub_cancel, ep, ok_bind]
    refine ⟨pivot, _, r₂, rfl, hp, htake, ?_, hl.trans hh', ?_, ?_, ?_, ?_,
      hh.cellSize.trans hsize⟩
    · rw [cells, hc, hrc']
      refine slots_eq_drop (by omega) ?_
      intro j hj
      rw [hat j (by omega)]
      split_ifs with h
      · rw [show n.numCells / 2 + 1 + j = A.length by omega, hcut]
      · exact hrcell j hj (by omega)
    · rw [hr''.nodeType, htype]
    · rw [hr''.isRoot, hroot]
    · rw [hr''.parent, hpar]
    · rw [hr''.rowSizeField, hfield]

end LeafNode

end DbToy
