import DbToy.BPlusTree
import DbToy.InternalSpec
import DbToy.LeafSpec
import DbToy.Lib.Layout

/-!
# The bytes of a page as the fields of a node

The offsets of `btree.h` are computed by hand, and the capacity of a node is rounded down from what
is left of the page.  Here they are two layouts, `LeafNode.layout` and `InternalNode.layout`, so the
fields of a node lie inside its page and do not meet, for every row size.

* `LeafNode.reads_fields`, `InternalNode.reads_fields`: what the accessors read and write are these
  fields.
* `pages_represent_nodes`: every field reads back as written and disturbs no other, and
  `LoadNodeFrom` builds from a page the node that wrote it.
-/

namespace DbToy

open Bytes

namespace Page

variable {φ : Type} (L : Layout φ pageSize)

def loadField (page : Page) (f : φ) : Except Fault (List UInt8) := page.load (L.start f) (L.width f)

def storeField (page : Page) (w : φ × List UInt8) : Except Fault Page :=
  page.store (L.start w.1) w.2

/-- Writes to fields, one after another. -/
def storeFields : List (φ × List UInt8) → Page → Except Fault Page
  | [], page => .ok page
  | w :: ws, page => do
      let page ← page.storeField L w
      storeFields ws page

/-- Every field of the page can be written, reads back as written, and disturbs no other. -/
def KeepsFields (page : Page) : Prop :=
  ∀ f bs, L.valid f → bs.length = L.width f →
    ∃ page', page.storeField L (f, bs) = .ok page' ∧ page'.loadField L f = .ok bs ∧
      ∀ g, L.valid g → g ≠ f →
        ∃ v, page.loadField L g = .ok v ∧ page'.loadField L g = .ok v

variable {L} {f : φ} {w : φ × List UInt8}

lemma loadField_of_valid (page : Page) (hf : L.valid f) :
    page.loadField L f = .ok (L.read page.bytes f) :=
  load_of_le (L.fits hf)

lemma storeField_of_admits (page : Page) (hw : L.Admits w) :
    ∃ page', page.storeField L w = .ok page' ∧ page'.bytes = L.write 0 page.bytes w := by
  have hfit : L.start w.1 + w.2.length ≤ pageSize := by
    rw [hw.2]
    exact L.fits hw.1
  refine ⟨page.set (L.start w.1) w.2, store_of_le hfit, ?_⟩
  rw [set, dif_pos hfit]
  rfl

theorem keepsFields (page : Page) : page.KeepsFields L := by
  intro f bs hf hbs
  have hw : L.Admits (f, bs) := ⟨hf, hbs⟩
  obtain ⟨page', e, hbytes⟩ := page.storeField_of_admits hw
  refine ⟨page', e, ?_, ?_⟩
  · rw [loadField_of_valid _ hf, hbytes, Layout.read_write_same hw]
  · intro g hg hne
    refine ⟨_, page.loadField_of_valid hg, ?_⟩
    rw [loadField_of_valid _ hg, hbytes, Layout.read_write_of_ne page.length_bytes hw hg hne]

lemma storeFields_of_admits : ∀ (ws : List (φ × List UInt8)) (page : Page),
    (∀ w ∈ ws, L.Admits w) →
    ∃ page', page.storeFields L ws = .ok page' ∧ page'.bytes = ws.foldl (L.write 0) page.bytes := by
  intro ws
  induction ws with
  | nil =>
      intro page _
      exact ⟨page, rfl, rfl⟩
  | cons w ws ih =>
      intro page hall
      obtain ⟨page₁, e₁, hbytes₁⟩ := page.storeField_of_admits (hall w List.mem_cons_self)
      obtain ⟨page', e', hbytes'⟩ := ih page₁ fun w' hw' => hall w' (List.mem_cons_of_mem _ hw')
      refine ⟨page', ?_, ?_⟩
      · rw [storeFields, e₁, ok_bind, e']
      · rw [hbytes', hbytes₁, List.foldl_cons]

/-- A field keeps what every write to it puts there. -/
lemma get_storeFields {page page' : Page} {ws : List (φ × List UInt8)} {v : List UInt8}
    (hf : L.valid f) (hws : ∀ w ∈ ws, L.Admits w) (hv : ∀ w ∈ ws, w.1 = f → w.2 = v)
    (h : page.get (L.start f) (L.width f) = v) (e : page.storeFields L ws = .ok page') :
    page'.get (L.start f) (L.width f) = v := by
  obtain ⟨page'', e'', hbytes⟩ := page.storeFields_of_admits ws hws
  rw [e] at e''
  obtain rfl := Except.ok.inj e''
  have hread : L.read (ws.foldl (L.write 0) page.bytes) f = v :=
    Layout.read_writes (P := (· = v)) hf ws page.bytes page.length_bytes hws hv h
  rw [← hbytes] at hread
  exact hread

variable (L) in
/-- The accessors of `BtreeNode` read and write these three fields. -/
structure HeaderFields (nodeType isRoot parent : φ) (page : Page) : Prop where
  getNodeType : (page.loadField L nodeType).map decodeLE = .ok page.nodeType
  setNodeType : ∀ v, page.storeField L (nodeType, encodeLE 1 v) = .ok (page.setNodeType v)
  getRoot : (page.loadField L isRoot).map (fun bs => decodeLE bs != 0) = .ok page.isRoot
  setRoot : ∀ b : Bool, page.storeField L (isRoot, encodeLE 1 b.toNat) = .ok (page.setRoot b)
  getParent : (page.loadField L parent).map decodeLE = .ok page.parent
  setParent : ∀ v, page.storeField L (parent, encodeLE 8 v) = .ok (page.setParent v)

lemma storeField_eq (page : Page) (off : ℕ) (hstart : L.start w.1 = off)
    (h : off + w.2.length ≤ pageSize) : page.storeField L w = .ok (page.set off w.2) := by
  subst hstart
  exact store_of_le h

lemma loadField_eq (page : Page) (off len : ℕ) (hstart : L.start f = off) (hwidth : L.width f = len)
    (h : off + len ≤ pageSize) : page.loadField L f = .ok (page.get off len) := by
  subst hstart hwidth
  exact load_of_le h

lemma headerFields_of {nodeType isRoot parent : φ} (page : Page)
    (ht : L.start nodeType = nodeTypeOffset ∧ L.width nodeType = 1)
    (hr : L.start isRoot = isRootOffset ∧ L.width isRoot = 1)
    (hp : L.start parent = parentPointerOffset ∧ L.width parent = 8) :
    page.HeaderFields L nodeType isRoot parent where
  getNodeType := by rw [page.loadField_eq _ _ ht.1 ht.2 (by decide)]; rfl
  setNodeType v := page.storeField_eq _ ht.1 (by rw [length_encodeLE]; decide)
  getRoot := by rw [page.loadField_eq _ _ hr.1 hr.2 (by decide)]; rfl
  setRoot b := page.storeField_eq _ hr.1 (by rw [length_encodeLE]; decide)
  getParent := by rw [page.loadField_eq _ _ hp.1 hp.2 (by decide)]; rfl
  setParent v := page.storeField_eq _ hp.1 (by rw [length_encodeLE]; decide)

/-- A number that is kept in a field, as its bytes. -/
lemma get_eq_encodeLE {page : Page} (off len : ℕ) {v : ℕ} (h : off + len ≤ pageSize)
    (hv : decodeLE (page.get off len) = v) : page.get off len = encodeLE len v := by
  have henc := encodeLE_decodeLE (page.get off len)
  rw [length_get h, hv] at henc
  exact henc.symm

end Page

/-! ## Leaves -/

namespace LeafNode

inductive Field where
  | nodeType
  | isRoot
  | parent
  | numCells
  | rowSize
  | key (i : ℕ)
  | value (i : ℕ)

namespace Field

/-- Where a field starts, in the 32 bit arithmetic of `get_cell` and `get_value`. -/
def start (rowSize : ℕ) : Field → ℕ
  | nodeType => nodeTypeOffset
  | isRoot => isRootOffset
  | parent => parentPointerOffset
  | numCells => leafNodeNumCellsOffset
  | Field.rowSize => leafNodeRowsizeOffset
  | key i => leafNodeHeaderSize + i * (4 + rowSize) % 2 ^ 32
  | value i => leafNodeHeaderSize + i * (4 + rowSize) % 2 ^ 32 + leafNodeValueOffset

def width (rowSize : ℕ) : Field → ℕ
  | nodeType => 1
  | isRoot => 1
  | parent => 8
  | numCells => 4
  | Field.rowSize => 4
  | key _ => 4
  | value _ => rowSize

/-- The fields that a page of this row size has: every header field, and the cells up to
`num_max_cell`. -/
def Valid (rowSize : ℕ) : Field → Prop
  | key i => i < capacity (4 + rowSize)
  | value i => i < capacity (4 + rowSize)
  | _ => True

/-- The cell that a field belongs to. -/
def cell : Field → Option ℕ
  | key i => some i
  | value i => some i
  | _ => none

end Field

namespace Field

variable {rowSize : ℕ} {f g : Field}

lemma in_header (h : f.cell = none) : f.start rowSize + f.width rowSize ≤ leafNodeHeaderSize := by
  cases f with
  | key i => simp [cell] at h
  | value i => simp [cell] at h
  | _ => simp only [start, width]; decide

/-- The cells fit in the page, so their offsets do not wrap. -/
lemma mod_offset {i : ℕ} (hi : i < capacity (4 + rowSize)) :
    i * (4 + rowSize) % 2 ^ 32 = i * (4 + rowSize) := by
  have hfit := pageMax_fits rowSize
  have hle : i * (4 + rowSize) ≤ pageMax rowSize * (4 + rowSize) :=
    Nat.mul_le_mul_right _ (le_of_lt hi)
  have hp : pageSize < 2 ^ 32 := by decide
  exact Nat.mod_eq_of_lt (by omega)

lemma in_cell {i : ℕ} (hf : f.Valid rowSize) (h : f.cell = some i) :
    i < capacity (4 + rowSize) ∧ leafNodeHeaderSize + i * (4 + rowSize) ≤ f.start rowSize ∧
      f.start rowSize + f.width rowSize ≤ leafNodeHeaderSize + (i + 1) * (4 + rowSize) := by
  have hnext : (i + 1) * (4 + rowSize) = i * (4 + rowSize) + (4 + rowSize) := Nat.succ_mul _ _
  cases f with
  | key j =>
      obtain rfl : j = i := Option.some.inj h
      simp only [start, width, mod_offset hf, hnext]
      exact ⟨hf, le_rfl, by omega⟩
  | value j =>
      obtain rfl : j = i := Option.some.inj h
      simp only [start, width, mod_offset hf, hnext, leafNodeValueOffset]
      exact ⟨hf, by omega, by omega⟩
  | _ => simp [cell] at h

/-- The header fields follow each other, and in a cell the value is behind the key. -/
lemma disjoint_of_cell_eq (hne : f ≠ g) (h : f.cell = g.cell) :
    f.start rowSize + f.width rowSize ≤ g.start rowSize ∨
      g.start rowSize + g.width rowSize ≤ f.start rowSize := by
  cases f <;> cases g <;>
    simp only [cell, Option.some.injEq, reduceCtorEq] at h <;>
    first
    | exact absurd rfl hne
    | (simp only [start, width]; decide)
    | (subst h
       first
       | exact absurd rfl hne
       | (simp only [start, width, leafNodeValueOffset]; omega))

end Field

/-- The layout of a leaf with rows of this size. -/
def layout (rowSize : ℕ) : Layout Field pageSize :=
  Layout.ofCells (Field.Valid rowSize) (Field.start rowSize) (Field.width rowSize) Field.cell
    leafNodeHeaderSize (4 + rowSize) (capacity (4 + rowSize)) (pageMax_fits rowSize)
    (fun _ _ h => Field.in_header h) (fun _ _ hf h => Field.in_cell hf h)
    (fun _ _ _ _ hne h => Field.disjoint_of_cell_eq hne h)

/-- The accessors of a leaf read and write the fields of its layout. -/
structure ReadsFields (n : LeafNode) : Prop where
  header : n.data.HeaderFields (layout n.rowSize) .nodeType .isRoot .parent
  numCells : (n.data.loadField (layout n.rowSize) .numCells).map decodeLE = .ok n.numCells
  setNumCells : ∀ v, n.data.storeField (layout n.rowSize) (.numCells, encodeLE 4 v)
    = .ok (n.setNumCells v).data
  rowSize : (n.data.loadField (layout n.rowSize) .rowSize).map decodeLE
    = .ok (n.data.u32 leafNodeRowsizeOffset)
  setRowSize : ∀ v, n.data.storeField (layout n.rowSize) (.rowSize, encodeLE 4 v)
    = .ok (n.data.setU32 leafNodeRowsizeOffset v)
  getKey : ∀ i < n.numCells, n.getKey i
    = (n.data.loadField (layout n.rowSize) (.key i)).map fun bs => UInt32.ofNat (decodeLE bs)
  setKey : ∀ i < n.numCells, ∀ key, n.setKey i key
    = (n.data.storeField (layout n.rowSize) (.key i, encodeLE 4 key.toNat)).map
        fun page => { n with data := page }
  serialize : ∀ i < n.numCells, ∀ value, n.serialize i value
    = (n.data.storeField (layout n.rowSize) (.value i, value)).map
        fun page => { n with data := page }
  cellAt : ∀ i < n.numMaxCell, ∃ key,
    n.data.loadField (layout n.rowSize) (.key i) = .ok key ∧
      n.data.loadField (layout n.rowSize) (.value i) = .ok (n.cellAt i).2 ∧
      (n.cellAt i).1 = UInt32.ofNat (decodeLE key)

theorem reads_fields (page : Page) (rowSize : ℕ) : (view page rowSize).ReadsFields where
  header := page.headerFields_of ⟨rfl, rfl⟩ ⟨rfl, rfl⟩ ⟨rfl, rfl⟩
  numCells := by
    rw [Page.loadField_eq _ leafNodeNumCellsOffset 4 rfl rfl (by decide)]
    rfl
  setNumCells v := Page.storeField_eq _ leafNodeNumCellsOffset rfl
    (by rw [length_encodeLE]; decide)
  rowSize := by
    rw [Page.loadField_eq _ leafNodeRowsizeOffset 4 rfl rfl (by decide)]
    rfl
  setRowSize v := Page.storeField_eq _ leafNodeRowsizeOffset rfl
    (by rw [length_encodeLE]; decide)
  getKey i hi := by
    rw [getKey, getCell, assertThat_of hi, ok_bind]
    rfl
  setKey i hi key := by
    rw [setKey, getCell, assertThat_of hi, ok_bind]
    rfl
  serialize i hi value := by
    rw [serialize, getCell, assertThat_of hi, ok_bind]
    rfl
  cellAt i hi := by
    have hfit := cell_fits (view_wf page rowSize) (i := i) hi
    have hstart : leafNodeHeaderSize + i * (4 + rowSize) % 2 ^ 32
        = (view page rowSize).cellStart i := by
      rw [Field.mod_offset hi]
      rfl
    have hkey : (page.get ((view page rowSize).cellStart i) 4).length = 4 :=
      Page.length_get (le_trans (Nat.add_le_add_left (Nat.le_add_right 4 rowSize) _) hfit)
    have hbytes : (view page rowSize).cellBytes i
        = page.get ((view page rowSize).cellStart i) 4
          ++ page.get ((view page rowSize).cellStart i + 4) rowSize := Page.get_add _ _ _ _
    rw [cellAt, cellOf, hbytes, List.take_left' hkey, List.drop_left' hkey, ← hstart]
    exact ⟨_, page.loadField_of_valid (L := layout rowSize) (f := .key i) hi,
      page.loadField_of_valid (L := layout rowSize) (f := .value i) hi, rfl⟩

end LeafNode

/-! ## Internal nodes -/

namespace InternalNode

inductive Field where
  | nodeType
  | isRoot
  | parent
  | numKeys
  | key (i : ℕ)
  | child (i : ℕ)

namespace Field

/-- Where a field starts, in the 32 bit arithmetic of `get_key` and `get_child`. -/
def start : Field → ℕ
  | nodeType => nodeTypeOffset
  | isRoot => isRootOffset
  | parent => parentPointerOffset
  | numKeys => internalNodeNumKeysOffset
  | key i => keyPos i
  | child i => childPos i

def width : Field → ℕ
  | nodeType => 1
  | isRoot => 1
  | parent => 8
  | numKeys => 4
  | key _ => internalNodeKeySize
  | child _ => internalNodeChildSize

/-- The fields that a page has: every header field, and one child more than there are keys. -/
def Valid : Field → Prop
  | key i => i < pageMax
  | child i => i ≤ pageMax
  | _ => True

/-- The pair of a child and the key behind it that a field belongs to. -/
def cell : Field → Option ℕ
  | key i => some i
  | child i => some i
  | _ => none

variable {f g : Field}

lemma in_header (h : f.cell = none) : f.start + f.width ≤ internalNodeHeaderSize := by
  cases f with
  | key i => simp [cell] at h
  | child i => simp [cell] at h
  | _ => decide

lemma in_cell {i : ℕ} (hf : f.Valid) (h : f.cell = some i) :
    i < pageMax + 1 ∧ internalNodeHeaderSize + i * 12 ≤ f.start ∧
      f.start + f.width ≤ internalNodeHeaderSize + (i + 1) * 12 := by
  have hheader : internalNodeHeaderSize = 14 := rfl
  cases f with
  | key j =>
      obtain rfl : j = i := Option.some.inj h
      have hj : j < pageMax := hf
      simp only [start, width, keyPos_eq (le_of_lt hj), internalNodeKeySize, hheader]
      omega
  | child j =>
      obtain rfl : j = i := Option.some.inj h
      have hj : j ≤ pageMax := hf
      simp only [start, width, childPos_eq hj, internalNodeChildSize, hheader]
      omega
  | _ => simp [cell] at h

/-- The header fields follow each other, and in a pair the key is behind the child. -/
lemma disjoint_of_cell_eq (hne : f ≠ g) (h : f.cell = g.cell) :
    f.start + f.width ≤ g.start ∨ g.start + g.width ≤ f.start := by
  cases f <;> cases g <;>
    simp only [cell, Option.some.injEq, reduceCtorEq] at h <;>
    first
    | exact absurd rfl hne
    | decide
    | (subst h
       first
       | exact absurd rfl hne
       | (simp only [start, width, keyPos, childPos]; omega))

end Field

def layout : Layout Field pageSize :=
  Layout.ofCells Field.Valid Field.start Field.width Field.cell internalNodeHeaderSize 12
    (pageMax + 1) (by decide) (fun _ _ h => Field.in_header h)
    (fun _ _ hf h => Field.in_cell hf h) (fun _ _ _ _ hne h => Field.disjoint_of_cell_eq hne h)

/-- The accessors of an internal node read and write the fields of its layout. -/
structure ReadsFields (n : InternalNode) : Prop where
  header : n.data.HeaderFields layout .nodeType .isRoot .parent
  numKeys : (n.data.loadField layout .numKeys).map decodeLE = .ok n.numKeys
  setNumKeys : ∀ v, n.data.storeField layout (.numKeys, encodeLE 4 v) = .ok (n.setNumKeys v).data
  getKey : ∀ i < n.numMaxKeys, n.getKey i
    = (n.data.loadField layout (.key i)).map fun bs => UInt32.ofNat (decodeLE bs)
  setKey : ∀ i < n.numMaxKeys, ∀ key, n.setKey i key
    = (n.data.storeField layout (.key i, encodeLE 4 key.toNat)).map
        fun page => { n with data := page }
  getChild : ∀ i ≤ n.numMaxKeys, n.getChild i = (n.data.loadField layout (.child i)).map decodeLE
  setChild : ∀ i ≤ n.numMaxKeys, ∀ child, n.setChild i child
    = (n.data.storeField layout (.child i, encodeLE 8 child)).map
        fun page => { n with data := page }

theorem reads_fields (n : InternalNode) : n.ReadsFields where
  header := n.data.headerFields_of ⟨rfl, rfl⟩ ⟨rfl, rfl⟩ ⟨rfl, rfl⟩
  numKeys := by
    rw [Page.loadField_eq _ internalNodeNumKeysOffset 4 rfl rfl (by decide)]
    rfl
  setNumKeys v := Page.storeField_eq _ internalNodeNumKeysOffset rfl
    (by rw [length_encodeLE]; decide)
  getKey i hi := by
    rw [getKey, assertThat_of hi, ok_bind]
    rfl
  setKey i hi key := by
    rw [setKey, assertThat_of hi, ok_bind]
    rfl
  getChild i hi := by
    rw [getChild, assertThat_of hi, ok_bind]
    rfl
  setChild i hi child := by
    rw [setChild, assertThat_of hi, ok_bind]
    rfl

end InternalNode

/-! ## Rebuilding -/

/-- Writes that leave type and row size what they are. -/
def LeafNode.KeepsKind (rowSize : ℕ) (w : LeafNode.Field × List UInt8) : Prop :=
  (w.1 = .nodeType → w.2 = encodeLE 1 nodeTypeLeaf) ∧ (w.1 = .rowSize → w.2 = encodeLE 4 rowSize)

def InternalNode.KeepsKind (w : InternalNode.Field × List UInt8) : Prop :=
  w.1 = .nodeType → w.2 = encodeLE 1 nodeTypeInner

/-- `LoadNodeFrom` gives back a new leaf on whose page any fields were written. -/
theorem LeafNode.rebuilt {page : Page} {rowSize : ℕ} {n : LeafNode}
    (hcap : 0 < capacity (4 + rowSize)) (e : create page rowSize = .ok n)
    (ws : List (Field × List UInt8))
    (hws : ∀ w ∈ ws, (layout rowSize).Admits w ∧ KeepsKind rowSize w) :
    ∃ page', n.data.storeFields (layout rowSize) ws = .ok page' ∧
      BtreeNode.loadNodeFrom page' = .ok (.leaf { n with data := page' }) := by
  obtain ⟨n₀, e₀, hwf, hrow, hmax, -, htype, -, -, hrowField⟩ := create_spec page hcap
  rw [e] at e₀
  obtain rfl := Except.ok.inj e₀
  have hview : ∀ p, ({ n with data := p } : LeafNode) = view p rowSize := by
    intro p
    rw [view, hrow, hmax, hwf.cellSize_eq, hrow]
  have hadmits : ∀ w ∈ ws, (layout rowSize).Admits w := fun w hw => (hws w hw).1
  obtain ⟨page', e', -⟩ := n.data.storeFields_of_admits ws hadmits
  refine ⟨page', e', ?_⟩
  have htype' : page'.get nodeTypeOffset 1 = encodeLE 1 nodeTypeLeaf :=
    Page.get_storeFields (L := layout rowSize) (f := .nodeType) trivial hadmits
      (fun w hw => (hws w hw).2.1)
      (Page.get_eq_encodeLE nodeTypeOffset 1 (by decide) htype) e'
  have hrow' : page'.get leafNodeRowsizeOffset 4 = encodeLE 4 rowSize :=
    Page.get_storeFields (L := layout rowSize) (f := .rowSize) trivial hadmits
      (fun w hw => (hws w hw).2.2)
      (Page.get_eq_encodeLE leafNodeRowsizeOffset 4 (by decide) hrowField) e'
  have hlt := rowSize_lt hcap
  have hload : load page' = .ok (view page' rowSize) := by
    refine load_spec ?_ hcap
    rw [Page.u32, hrow', decodeLE_encodeLE_of_lt (by omega)]
  have hkind : page'.nodeType = nodeTypeLeaf := by
    rw [Page.nodeType, htype', decodeLE_encodeLE_of_lt (by decide)]
  rw [hview, BtreeNode.loadNodeFrom, hkind, if_neg (by decide), if_pos rfl, hload, ok_bind]

theorem InternalNode.rebuilt (page : Page) (ws : List (Field × List UInt8))
    (hws : ∀ w ∈ ws, layout.Admits w ∧ KeepsKind w) :
    ∃ page', (create page).data.storeFields layout ws = .ok page' ∧
      BtreeNode.loadNodeFrom page' = .ok (.inner { create page with data := page' }) := by
  obtain ⟨-, -, -, htype, -, -⟩ := create_spec page
  have hadmits : ∀ w ∈ ws, layout.Admits w := fun w hw => (hws w hw).1
  obtain ⟨page', e', -⟩ := (create page).data.storeFields_of_admits ws hadmits
  refine ⟨page', e', ?_⟩
  have htype' : page'.get nodeTypeOffset 1 = encodeLE 1 nodeTypeInner :=
    Page.get_storeFields (L := layout) (f := .nodeType) trivial hadmits
      (fun w hw => (hws w hw).2) (Page.get_eq_encodeLE _ _ (by decide) htype) e'
  have hkind : page'.nodeType = nodeTypeInner := by
    rw [Page.nodeType, htype', decodeLE_encodeLE_of_lt (by decide)]
  rw [BtreeNode.loadNodeFrom, hkind, if_pos rfl]
  rfl

/-- **The bytes of a page represent a node.**  For every row size that the constructor of a leaf
accepts, and for internal nodes, the accessors work on the fields of one layout, in which every
field can be written inside the page, reads back as written and leaves the other fields as they
were.  Whatever was written into the fields of a new node, `LoadNodeFrom` builds the same node from
the page. -/
theorem pages_represent_nodes :
    (∀ rowSize, rowSize + 4 < 2 ^ 32 → 0 < LeafNode.capacity ((4 + rowSize) % 2 ^ 32) →
      ∀ page : Page,
      page.KeepsFields (LeafNode.layout rowSize) ∧
      (LeafNode.view page rowSize).ReadsFields ∧
      ∃ n, LeafNode.create page rowSize = .ok n ∧ n = LeafNode.view n.data rowSize ∧
        ∀ ws, (∀ w ∈ ws, (LeafNode.layout rowSize).Admits w ∧ LeafNode.KeepsKind rowSize w) →
          ∃ page', n.data.storeFields (LeafNode.layout rowSize) ws = .ok page' ∧
            BtreeNode.loadNodeFrom page' = .ok (.leaf { n with data := page' })) ∧
    ∀ page : Page,
      page.KeepsFields InternalNode.layout ∧
      (InternalNode.load page).ReadsFields ∧
      ∀ ws, (∀ w ∈ ws, InternalNode.layout.Admits w ∧ InternalNode.KeepsKind w) →
        ∃ page', (InternalNode.create page).data.storeFields InternalNode.layout ws = .ok page' ∧
          BtreeNode.loadNodeFrom page'
            = .ok (.inner { InternalNode.create page with data := page' }) := by
  refine ⟨?_, ?_⟩
  · intro rowSize hsize hcap page
    rw [Nat.mod_eq_of_lt (by omega)] at hcap
    obtain ⟨n, e, hwf, hrow, hmax, -⟩ := LeafNode.create_spec page hcap
    refine ⟨page.keepsFields, LeafNode.reads_fields page rowSize, n, e, ?_, ?_⟩
    · cases n
      simp only at hrow hmax
      subst hrow hmax
      rw [LeafNode.view, LeafNode.mk.injEq]
      exact ⟨rfl, rfl, hwf.cellSize_eq, rfl⟩
    · intro ws hws
      exact LeafNode.rebuilt hcap e ws hws
  · intro page
    exact ⟨page.keepsFields, InternalNode.reads_fields _, InternalNode.rebuilt page⟩

/-- The value of the last cell for rows of 68 bytes, on a page with other bytes all over, and a new
leaf with its first cell allocated. -/
theorem pages_represent_nodes_rows :
    (∃ page', (Page.filled 7).storeField (LeafNode.layout 68) (.value 55, List.replicate 68 1)
        = .ok page' ∧
      page'.loadField (LeafNode.layout 68) (.value 55) = .ok (List.replicate 68 1) ∧
      ∃ key, (Page.filled 7).loadField (LeafNode.layout 68) (.key 55) = .ok key ∧
        page'.loadField (LeafNode.layout 68) (.key 55) = .ok key) ∧
    ∃ n page', LeafNode.create (Page.filled 7) 68 = .ok n ∧
      n.data.storeFields (LeafNode.layout 68) [(.numCells, encodeLE 4 1)] = .ok page' ∧
      BtreeNode.loadNodeFrom page' = .ok (.leaf { n with data := page' }) := by
  obtain ⟨hkeeps, -, n, e, -, hrebuilt⟩ :=
    pages_represent_nodes.1 68 (by decide) (by decide) (Page.filled 7)
  have hlast : 55 < LeafNode.capacity (4 + 68) := by decide
  refine ⟨?_, ?_⟩
  · obtain ⟨page', e', hread, hother⟩ :=
      hkeeps (.value 55) (List.replicate 68 1) hlast List.length_replicate
    exact ⟨page', e', hread, hother (.key 55) hlast (by simp)⟩
  · obtain ⟨page', e', hload⟩ := hrebuilt [(.numCells, encodeLE 4 1)] (by
      intro w hw
      obtain rfl := List.mem_singleton.mp hw
      exact ⟨⟨trivial, length_encodeLE 4 1⟩, by simp, by simp⟩)
    exact ⟨n, page', e, e', hload⟩

end DbToy
