import DbToy.ShellRuns

/-!
# The cells in a file

What a file holds, read from its bytes alone: `filePages` is the number of pages that its front
says, `pageOf` a page of it, and `leafCells` the live cells of a page that is a leaf, each with its
key and all the bytes of its row.

* `Saved.mem_cells`: the live cells of the leaves of a saved file are those of its dictionary.
* `SameCells.of_saved`: files that hold the same dictionary have the same live cells, whatever else
  is in their pages.
-/

namespace DbToy

open Bytes SearchTree

/-- The number of pages in the metadata. -/
def filePages (file : List UInt8) : ℕ := decodeLE (slice file 8 8)

/-- The page with this id, if the file has it in full. -/
def pageOf (file : List UInt8) (id : ℕ) : Option Page :=
  if h : (slice file (pageStart id) pageSize).length = pageSize then
    some ⟨slice file (pageStart id) pageSize, h⟩
  else none

/-- The live cells of a leaf: those that its number of cells counts. -/
def leafCells (file : List UInt8) (id : ℕ) : Option (List (UInt32 × Row)) :=
  match (pageOf file id).map BtreeNode.loadNodeFrom with
  | some (.ok (.leaf n)) => some n.cells
  | _ => none

/-- The same pages of the two files are leaves, with the same keys and rows in their live cells. -/
def SameCells (file file' : List UInt8) : Prop :=
  filePages file = filePages file' ∧
    ∀ id < filePages file, leafCells file id = leafCells file' id

lemma OnDisk.pageOf {file : List UInt8} {id : ℕ} {page : Page} (h : OnDisk file id page) :
    pageOf file id = some page := by
  have hlen : (slice file (pageStart id) pageSize).length = pageSize := by
    rw [show slice file (pageStart id) pageSize = page.bytes from h, page.length_bytes]
  rw [DbToy.pageOf, dif_pos hlen]
  exact congrArg some (Page.ext h)

/-- The number of pages that the front of a file says. -/
lemma filePages_of_meta {file : List UInt8} {m : BtreeMetaData} (hnum : m.numPages < 2 ^ 64)
    (hfile : slice file 0 16 = metaBytes m) : filePages file = m.numPages := by
  rw [filePages, (slices_of_meta hfile).2,
    decodeLE_encodeLE_of_lt (by simpa using hnum)]

/-- The cells of a tree that is a leaf. -/
def ownCells : Rooted UInt32 Row → Option (List (UInt32 × Row))
  | ⟨0, t⟩ => some (Leaf.cells t)
  | ⟨_ + 1, _⟩ => none

namespace Saved

variable {file file' : List UInt8} {D : Dictionary} (h : Saved file D)

include h

/-- A saved file has the nodes of the dictionary's tree in its pages. -/
lemma leafCells_pid : filePages file = D.numPages ∧
    ∀ r, Subtree r D.tree → leafCells file r.pid = ownCells r := by
  obtain ⟨S, ⟨s, hs⟩, hdestroy⟩ := h
  obtain ⟨file', hdestroy', hmeta, hpages⟩ := BTreePager.destroy_spec hs.represents.pager
  cases hdestroy.symm.trans hdestroy'
  have hle := hs.stores.numPages_le
  have hmax : tableMaxPages < 2 ^ 64 := by decide
  refine ⟨(filePages_of_meta (by simp only; omega) hmeta).trans hs.numPages, ?_⟩
  intro r hr
  have hid : r.pid < s.map.numPages := hs.stores.lt_numPages _ hr.pid_mem
  have hholds := hs.stores.holds.subtree hr
  have hload : BtreeNode.loadNodeFrom (s.map.content r.pid)
      = .ok (nodeOf D.params.rowSize s.map.content r.height r.tree) :=
    hholds.loadNodeFrom hs.valid.room
  rw [leafCells, (hpages _ hid).pageOf, Option.map_some, hload]
  obtain ⟨height, t⟩ := r
  cases height with
  | zero => exact congrArg some (IsLeaf.cells_eq hholds)
  | succ height => rfl

lemma wf : D.WF := by
  obtain ⟨S, ⟨s, hs⟩, -⟩ := h
  exact ⟨hs.valid, hs.numPages ▸ hs.stores.sound⟩

lemma numPages_le : D.numPages ≤ tableMaxPages := by
  obtain ⟨S, ⟨s, hs⟩, -⟩ := h
  exact hs.numPages ▸ hs.stores.numPages_le

/-- Every page is a node. -/
lemma exists_subtree {id : ℕ} (hid : id < D.numPages) : ∃ r, Subtree r D.tree ∧ r.pid = id :=
  Subtree.exists_of_mem_pids (h.wf.sound.pids.mem_iff.mpr (List.mem_range.mpr hid))

/-- **The live cells of the leaves** are the cells of the dictionary. -/
theorem mem_cells (c : UInt32 × Row) : c ∈ D.cells ↔
    ∃ id < filePages file, ∃ cells, leafCells file id = some cells ∧ c ∈ cells := by
  obtain ⟨hpages, hleaf⟩ := h.leafCells_pid
  have hsound := h.wf.sound
  constructor
  · intro hc
    have hr := leafFor_subtree c.1 D.tree.height D.tree.tree
    refine ⟨_, hpages.symm ▸ hsound.lt_of_mem _ hr.pid_mem, _, hleaf _ hr, ?_⟩
    exact mem_leafFor hsound.ordered c hc rfl
  · rintro ⟨id, hid, cells, hcells, hc⟩
    obtain ⟨⟨height, t⟩, hr, rfl⟩ := h.exists_subtree (hpages ▸ hid)
    rw [hleaf _ hr] at hcells
    cases height with
    | zero =>
        cases hcells
        exact hr.cells_subset hc
    | succ height => cases hcells

end Saved

/-- **Files that hold the same dictionary** have the same live cells. -/
theorem SameCells.of_saved {file file' : List UInt8} {D : Dictionary} (h : Saved file D)
    (h' : Saved file' D) : SameCells file file' := by
  obtain ⟨hpages, hleaf⟩ := h.leafCells_pid
  obtain ⟨hpages', hleaf'⟩ := h'.leafCells_pid
  refine ⟨hpages.trans hpages'.symm, ?_⟩
  intro id hid
  obtain ⟨r, hr, rfl⟩ := h.exists_subtree (hpages ▸ hid)
  rw [hleaf r hr, hleaf' r hr]

/-- Files with the same live cells hold dictionaries with the same cells. -/
lemma SameCells.mem_cells {file file' : List UInt8} {D D' : Dictionary}
    (hsame : SameCells file file') (h : Saved file D) (h' : Saved file' D') {c : UInt32 × Row}
    (hc : c ∈ D.cells) : c ∈ D'.cells := by
  obtain ⟨id, hid, cells, hcells, hmem⟩ := (h.mem_cells c).mp hc
  exact (h'.mem_cells c).mpr ⟨id, hsame.1 ▸ hid, cells, (hsame.2 id hid).symm.trans hcells, hmem⟩

end DbToy
