import DbToy.Pager

/-!
# The pager is a persistent page map

What `BTreePager` is for, without cache and file: `PageMap` is the number of pages, the root id and
one page for each id.  `BTreePager.Represents` says which of the copies a pager may hold of a page
is the current one: the block in memory where there is one, and the file's run otherwise.

Every operation keeps the relation (`getPage_represents`, `writePage_represents`,
`allocatePage_represents`, `flushPage_represents`), and so does closing the file and opening it
again (`reopen_represents`), which is where the metadata written at the front of the file is read
back.
-/

namespace DbToy

open Bytes

/-- A map from page ids to pages, with the two numbers that the pager's metadata holds. -/
structure PageMap where
  numPages : ℕ
  rootPid : ℕ
  content : ℕ → Page

namespace PageMap

def write (m : PageMap) (id : ℕ) (page : Page) : PageMap :=
  { m with content := Function.update m.content id page }

def allocate (m : PageMap) (page : Page) : PageMap :=
  { m with numPages := m.numPages + 1, content := Function.update m.content m.numPages page }

def setRootPage (m : PageMap) (id : ℕ) : PageMap := { m with rootPid := id }

@[simp] lemma write_content_self (m : PageMap) (id : ℕ) (page : Page) :
    (m.write id page).content id = page := Function.update_self ..

lemma write_content_of_ne (m : PageMap) {id i : ℕ} (page : Page) (h : i ≠ id) :
    (m.write id page).content i = m.content i := Function.update_of_ne h ..

lemma write_content (m : PageMap) (id i : ℕ) (page : Page) :
    (m.write id page).content i = if i = id then page else m.content i :=
  Function.update_apply ..

@[simp] lemma allocate_numPages (m : PageMap) (page : Page) :
    (m.allocate page).numPages = m.numPages + 1 := rfl

lemma allocate_content (m : PageMap) (i : ℕ) (page : Page) :
    (m.allocate page).content i = if i = m.numPages then page else m.content i :=
  Function.update_apply ..

end PageMap

/-! ## What the file holds -/

/-- The file holds `page` as the page with this id, in full. -/
def OnDisk (file : List UInt8) (id : ℕ) (page : Page) : Prop :=
  slice file (pageStart id) pageSize = page.bytes

lemma OnDisk.length_le {file : List UInt8} {id : ℕ} {page : Page} (h : OnDisk file id page) :
    pageStart id + pageSize ≤ file.length := by
  have hl := congrArg List.length h
  rw [length_slice, page.length_bytes] at hl
  have hp : 0 < pageSize := by decide
  omega

/-- A patch that does not meet the page's run leaves it on disk. -/
lemma OnDisk.patch {file new : List UInt8} {id off : ℕ} {page : Page} (h : OnDisk file id page)
    (hd : pageStart id + pageSize ≤ off ∨ off + new.length ≤ pageStart id) :
    OnDisk (patch 0 file off new) id page := by
  rw [OnDisk, slice_patch_of_disjoint 0 rfl hd h.length_le]
  exact h

/-- Two different pages occupy disjoint runs, and neither meets the metadata. -/
lemma pageStart_disjoint {i j : ℕ} (h : i ≠ j) :
    pageStart i + pageSize ≤ pageStart j ∨ pageStart j + pageSize ≤ pageStart i := by
  simp only [pageStart, BtreeMetaData.getDataSize, pageSize]
  omega

/-- The 16 bytes of metadata. -/
def metaBytes (m : BtreeMetaData) : List UInt8 := encodeLE 8 m.rootPid ++ encodeLE 8 m.numPages

lemma length_metaBytes (m : BtreeMetaData) : (metaBytes m).length = 16 := by
  simp [metaBytes]

lemma writeToDisk_bytes (m : BtreeMetaData) (fd : FileDesc) :
    (m.writeToDisk fd).bytes = patch 0 fd.bytes 0 (metaBytes m) := by
  have hne : ∀ v, encodeLE 8 v ≠ [] := fun v h => by simpa using congrArg List.length h
  obtain ⟨c₁, h₁⟩ := writeBuffer_spec (fd.lseek 0) (encodeLE 8 m.rootPid) (hne _)
  simp only [BtreeMetaData.writeToDisk, h₁]
  obtain ⟨c₂, h₂⟩ := writeBuffer_spec
    { bytes := patch 0 (fd.lseek 0).bytes (fd.lseek 0).pos (encodeLE 8 m.rootPid),
      pos := (fd.lseek 0).pos + (encodeLE 8 m.rootPid).length, counts := c₁ }
    (encodeLE 8 m.numPages) (hne _)
  rw [h₂]
  exact patch_patch_append 0 fd.bytes 0 _ _

lemma OnDisk.writeToDisk {fd : FileDesc} {id : ℕ} {page : Page} (h : OnDisk fd.bytes id page)
    (m : BtreeMetaData) : OnDisk (m.writeToDisk fd).bytes id page := by
  rw [writeToDisk_bytes]
  refine h.patch (Or.inr ?_)
  rw [length_metaBytes]
  simp only [pageStart, BtreeMetaData.getDataSize]
  omega

/-- The two numbers at the front of a file. -/
lemma slices_of_meta {file : List UInt8} {m : BtreeMetaData}
    (hfile : slice file 0 16 = metaBytes m) :
    slice file 0 8 = encodeLE 8 m.rootPid ∧ slice file 8 8 = encodeLE 8 m.numPages := by
  have hpart : ∀ i, i + 8 ≤ 16 → slice file i 8 = slice (metaBytes m) i 8 := by
    intro i hi
    rw [← hfile, slice_slice file 0 16 i 8 hi, Nat.zero_add]
  refine ⟨?_, ?_⟩
  · rw [hpart 0 (by decide), metaBytes, slice, List.drop_zero]
    exact List.take_left' (length_encodeLE _ _)
  · rw [hpart 8 (by decide), metaBytes, slice, List.drop_left' (length_encodeLE _ _)]
    exact List.take_of_length_le (by simp)

/-- What was written at the front of the file is loaded from there. -/
lemma loadFromDisk_eq (m m₀ : BtreeMetaData) (file : List UInt8) (counts : ℕ → ℕ)
    (hroot : m.rootPid < 2 ^ 64) (hnum : m.numPages < 2 ^ 64)
    (hfile : slice file 0 16 = metaBytes m) :
    ∃ pos counts', m₀.loadFromDisk ⟨file, 0, counts⟩ = (m, ⟨file, pos, counts'⟩) := by
  obtain ⟨h₁, h₂⟩ := slices_of_meta hfile
  obtain ⟨c₁, e₁⟩ := readBuffer_spec ⟨file, 0, counts⟩ (encodeLE 8 m₀.rootPid)
  obtain ⟨c₂, e₂⟩ := readBuffer_spec ⟨file, 8, c₁⟩ (encodeLE 8 m₀.numPages)
  simp only [length_encodeLE, h₁, h₂] at e₁ e₂
  refine ⟨16, c₂, ?_⟩
  simp only [BtreeMetaData.loadFromDisk, FileDesc.lseek, e₁, e₂]
  have hd₁ : decodeLE (encodeLE 8 m.rootPid) = m.rootPid :=
    decodeLE_encodeLE_of_lt (by simpa using hroot)
  have hd₂ : decodeLE (encodeLE 8 m.numPages) = m.numPages :=
    decodeLE_encodeLE_of_lt (by simpa using hnum)
  rw [List.drop_of_length_le (by simp), List.drop_of_length_le (by simp), List.append_nil,
    List.append_nil, hd₁, hd₂]

/-! ## The relation -/

namespace BTreePager

/-- The copy of page `id` that counts: the block in memory, else the one in the file. -/
def Current (p : BTreePager) (id : ℕ) (page : Page) : Prop :=
  p.pages id = some page ∨ p.pages id = none ∧ OnDisk p.fd.bytes id page

lemma Current.unique {p : BTreePager} {id : ℕ} {page page' : Page} (h : p.Current id page)
    (h' : p.Current id page') : page = page' := by
  rcases h with h | ⟨h, hdisk⟩
  · rcases h' with h' | ⟨h', -⟩
    · exact Option.some.inj (h.symm.trans h')
    · exact absurd (h.symm.trans h') (by simp)
  · rcases h' with h' | ⟨-, hdisk'⟩
    · exact absurd (h.symm.trans h') (by simp)
    · exact Page.ext (hdisk.symm.trans hdisk')

/-- The pager is in a state that stands for the page map. -/
structure Represents (p : BTreePager) (m : PageMap) : Prop where
  metaData : p.metaData = ⟨m.rootPid, m.numPages⟩
  numPages_le : m.numPages ≤ tableMaxPages
  rootPid_lt : m.rootPid < 2 ^ 64
  current : ∀ id < m.numPages, p.Current id (m.content id)

lemma entry_of_lt (p : BTreePager) {id : ℕ} (h : id < tableMaxPages) :
    p.entry id = .ok (p.pages id) := if_pos h

lemma entry_of_ge (p : BTreePager) {id : ℕ} (h : tableMaxPages ≤ id) :
    p.entry id = .error (.pageIndex id) := if_neg (by omega)

@[simp] lemma setEntry_fd (p : BTreePager) (id : ℕ) (page : Option Page) :
    (p.setEntry id page).fd = p.fd := rfl

lemma setEntry_pages (p : BTreePager) (id i : ℕ) (page : Option Page) :
    (p.setEntry id page).pages i = if i = id then page else p.pages i :=
  Function.update_apply ..

/-- The copy of another page is not affected by the entry of this one. -/
lemma Current.setEntry_of_ne {p : BTreePager} {id i : ℕ} {page : Page} (h : p.Current i page)
    (hne : i ≠ id) (e : Option Page) : (p.setEntry id e).Current i page := by
  simpa only [Current, setEntry_pages, if_neg hne, setEntry_fd] using h

section

variable {malloc : ℕ → Page} {p : BTreePager} {m : PageMap}

lemma Represents.numPages_eq (h : p.Represents m) : p.numPages = m.numPages := by
  rw [BTreePager.numPages, h.metaData]

lemma Represents.getRootPage_eq (h : p.Represents m) : p.getRootPage = m.rootPid := by
  rw [BTreePager.getRootPage, h.metaData]

/-- `get_page` gives the page's content, and afterwards the page is in memory. -/
theorem getPage_represents (h : p.Represents m) {id : ℕ} (hid : pageId id < m.numPages) :
    ∃ p', getPage malloc p id = .ok (m.content (pageId id), p') ∧ p'.Represents m ∧
      p'.pages (pageId id) = some (m.content (pageId id)) := by
  have hlt : pageId id < tableMaxPages := lt_of_lt_of_le hid h.numPages_le
  rw [getPage]
  simp only [h.numPages_eq, if_neg (not_le.mpr hid), p.entry_of_lt hlt, ok_bind]
  rcases h.current _ hid with hc | ⟨hc, hdisk⟩
  · rw [hc]
    exact ⟨p, rfl, h, hc⟩
  · rw [hc]
    obtain ⟨counts, e⟩ := readBuffer_spec (p.fd.lseek (pageStart (pageId id)))
      (malloc (pageId id)).bytes
    have hs : slice (p.fd.lseek (pageStart (pageId id))).bytes
        (p.fd.lseek (pageStart (pageId id))).pos (malloc (pageId id)).bytes.length
        = (m.content (pageId id)).bytes := by
      rw [(malloc _).length_bytes]; exact hdisk
    rw [hs, (m.content _).length_bytes,
      List.drop_of_length_le (by rw [(malloc _).length_bytes]), List.append_nil] at e
    simp only [e, assertThat_of, ok_bind]
    refine ⟨_, rfl, ⟨h.metaData, h.numPages_le, h.rootPid_lt, ?_⟩, ?_⟩
    · intro i hi
      by_cases hne : i = pageId id
      · subst hne
        exact Or.inl (by rw [setEntry_pages, if_pos rfl])
      · exact (h.current i hi).setEntry_of_ne hne _
    · rw [setEntry_pages, if_pos rfl]

/-- An id that no page has is refused. -/
lemma getPage_of_ge (h : p.Represents m) {id : ℕ} (hid : m.numPages ≤ pageId id) :
    getPage malloc p id = .error (.exitFailure "page_id greater than capacity") := by
  rw [getPage]
  simp only [h.numPages_eq, if_pos hid]

theorem writePage_represents (h : p.Represents m) {id : ℕ} (hid : pageId id < m.numPages)
    (page : Page) :
    ∃ p', writePage malloc p id page = .ok p' ∧ p'.Represents (m.write (pageId id) page) := by
  obtain ⟨p₁, e, h₁, -⟩ := @getPage_represents malloc p m h id hid
  refine ⟨p₁.setEntry (pageId id) (some page), by rw [writePage, e]; rfl, h₁.metaData,
    h₁.numPages_le, h₁.rootPid_lt, ?_⟩
  intro i hi
  by_cases hne : i = pageId id
  · subst hne
    exact Or.inl (by rw [setEntry_pages, if_pos rfl, PageMap.write_content_self])
  · rw [PageMap.write_content_of_ne _ _ hne]
    exact (h₁.current i hi).setEntry_of_ne hne _

lemma writePage_of_ge (h : p.Represents m) {id : ℕ} (hid : m.numPages ≤ pageId id)
    (page : Page) :
    writePage malloc p id page = .error (.exitFailure "page_id greater than capacity") := by
  rw [writePage, getPage_of_ge h hid]; rfl

theorem allocatePage_represents (h : p.Represents m) (hroom : m.numPages < tableMaxPages) :
    ∃ p', allocatePage malloc p = .ok ((m.numPages, malloc m.numPages), p') ∧
      p'.Represents (m.allocate (malloc m.numPages)) := by
  have hn : p.metaData.numPages = m.numPages := h.numPages_eq
  simp only [allocatePage, hn, Nat.add_sub_cancel, p.entry_of_lt hroom, ok_bind]
  refine ⟨_, rfl, ?_, hroom, h.rootPid_lt, ?_⟩
  · show (⟨p.metaData.rootPid, m.numPages + 1⟩ : BtreeMetaData) = _
    rw [h.metaData]; rfl
  · intro i hi
    rw [PageMap.allocate_content]
    split_ifs with hne
    · subst hne
      exact Or.inl (Function.update_self ..)
    · have hi' : i < m.numPages := by rw [PageMap.allocate_numPages] at hi; omega
      rcases h.current i hi' with hc | ⟨hc, hdisk⟩
      · exact Or.inl ((Function.update_of_ne hne ..).trans hc)
      · exact Or.inr ⟨(Function.update_of_ne hne ..).trans hc, hdisk.writeToDisk _⟩

/-- With the table full, `allocate_page` writes past its end. -/
lemma allocatePage_of_full (h : p.Represents m) (hfull : m.numPages = tableMaxPages) :
    allocatePage malloc p = .error (.pageIndex tableMaxPages) := by
  have hn : p.metaData.numPages = m.numPages := h.numPages_eq
  simp only [allocatePage, hn, hfull, Nat.add_sub_cancel, p.entry_of_ge le_rfl, error_bind]

lemma setRootPage_represents (h : p.Represents m) {id : ℕ} (hid : id < 2 ^ 64) :
    (p.setRootPage id).Represents (m.setRootPage id) where
  metaData := by simp only [BTreePager.setRootPage, h.metaData, PageMap.setRootPage]
  numPages_le := h.numPages_le
  rootPid_lt := hid
  current := h.current

/-- What one flush does: the page is on disk in its current copy, the other pages are where they
were, and the front of the file is left alone. -/
lemma flushPage_spec (h : p.Represents m) {id : ℕ} (hid : id < m.numPages) :
    ∃ p', flushPage p id = .ok p' ∧ p'.Represents m ∧ p'.pages id = none ∧
      (∀ i, p.pages i = none → p'.pages i = none) ∧
      (16 ≤ p.fd.bytes.length → 16 ≤ p'.fd.bytes.length ∧
        slice p'.fd.bytes 0 16 = slice p.fd.bytes 0 16) := by
  have hlt : id < tableMaxPages := lt_of_lt_of_le hid h.numPages_le
  rcases h.current id hid with hc | ⟨hc, hdisk⟩
  · obtain ⟨counts, e⟩ := writeBuffer_spec (p.fd.lseek (pageStart id)) (m.content id).bytes
      (fun hnil => by simpa [hnil, pageSize] using (m.content id).length_bytes)
    simp only [(m.content id).length_bytes] at e
    simp only [flushPage, sync, p.entry_of_lt hlt, hc, ok_bind, e, assertThat_of]
    refine ⟨_, rfl, ⟨h.metaData, h.numPages_le, h.rootPid_lt, ?_⟩, Function.update_self .., ?_, ?_⟩
    · intro i hi
      by_cases hne : i = id
      · subst hne
        refine Or.inr ⟨Function.update_self .., ?_⟩
        have hsame := slice_patch_same 0 p.fd.bytes (pageStart i) (m.content i).bytes
        rw [(m.content i).length_bytes] at hsame
        exact hsame
      · rcases h.current i hi with hci | ⟨hci, hdi⟩
        · exact Or.inl ((Function.update_of_ne hne ..).trans hci)
        · refine Or.inr ⟨(Function.update_of_ne hne ..).trans hci, hdi.patch ?_⟩
          rw [(m.content id).length_bytes]
          exact pageStart_disjoint hne
    · intro i hi
      rw [setEntry_pages]
      split_ifs
      · rfl
      · exact hi
    · intro hl
      have hps : 16 ≤ pageStart id := by
        simp only [pageStart, BtreeMetaData.getDataSize]; omega
      have hd : 0 + 16 ≤ pageStart id ∨ pageStart id + (m.content id).bytes.length ≤ 0 :=
        Or.inl (by omega)
      refine ⟨?_, slice_patch_of_disjoint 0 rfl hd hl⟩
      show 16 ≤ (patch 0 p.fd.bytes (pageStart id) (m.content id).bytes).length
      rw [length_patch]; omega
  · refine ⟨p, ?_, h, hc, fun _ h => h, fun hl => ⟨hl, rfl⟩⟩
    simp only [flushPage, p.entry_of_lt hlt, hc, ok_bind]

theorem flushPage_represents (h : p.Represents m) {id : ℕ} (hid : id < m.numPages) :
    ∃ p', flushPage p id = .ok p' ∧ p'.Represents m := by
  obtain ⟨p', e, h', -⟩ := flushPage_spec h hid
  exact ⟨p', e, h'⟩

/-- Flushing the ids of a list, one after the other. -/
lemma flushAll_spec : ∀ (ids : List ℕ) {p : BTreePager}, p.Represents m →
    (∀ id ∈ ids, id < m.numPages) → 16 ≤ p.fd.bytes.length →
    ∃ p', ids.foldlM flushPage p = .ok p' ∧ p'.Represents m ∧
      (∀ id, p.pages id = none ∨ id ∈ ids → p'.pages id = none) ∧
      16 ≤ p'.fd.bytes.length ∧ slice p'.fd.bytes 0 16 = slice p.fd.bytes 0 16
  | [], p, h, _, hl => ⟨p, rfl, h, fun _ hi => hi.resolve_right (by simp), hl, rfl⟩
  | id :: ids, p, h, hids, hl => by
      obtain ⟨p₁, e₁, h₁, hn₁, hk₁, hm₁⟩ := flushPage_spec h (hids id (by simp))
      obtain ⟨hl₁, hs₁⟩ := hm₁ hl
      obtain ⟨p₂, e₂, h₂, hn₂, hl₂, hs₂⟩ := flushAll_spec ids h₁
        (fun i hi => hids i (List.mem_cons_of_mem _ hi)) hl₁
      refine ⟨p₂, by rw [List.foldlM_cons, e₁]; exact e₂, h₂, ?_, hl₂, hs₂.trans hs₁⟩
      rintro i (hi | hi)
      · exact hn₂ i (Or.inl (hk₁ i hi))
      · rcases List.mem_cons.mp hi with rfl | hi
        · exact hn₂ i (Or.inl hn₁)
        · exact hn₂ i (Or.inr hi)

/-- **Closing a pager saves the page map**: the file has the metadata at its front and every page
in its run. -/
theorem destroy_spec (h : p.Represents m) :
    ∃ file, destroy p = .ok file ∧ slice file 0 16 = metaBytes ⟨m.rootPid, m.numPages⟩ ∧
      ∀ id < m.numPages, OnDisk file id (m.content id) := by
  set p₀ : BTreePager := { p with fd := p.metaData.writeToDisk p.fd } with hp₀
  have hbytes : p₀.fd.bytes = patch 0 p.fd.bytes 0 (metaBytes ⟨m.rootPid, m.numPages⟩) := by
    rw [hp₀]
    show (p.metaData.writeToDisk p.fd).bytes = _
    rw [writeToDisk_bytes, h.metaData]
  have h₀ : p₀.Represents m := by
    refine ⟨h.metaData, h.numPages_le, h.rootPid_lt, ?_⟩
    intro i hi
    rcases h.current i hi with hc | ⟨hc, hdisk⟩
    · exact Or.inl hc
    · exact Or.inr ⟨hc, hdisk.writeToDisk _⟩
  have hmeta : slice p₀.fd.bytes 0 16 = metaBytes ⟨m.rootPid, m.numPages⟩ := by
    have hsame := slice_patch_same 0 p.fd.bytes 0 (metaBytes ⟨m.rootPid, m.numPages⟩)
    rw [length_metaBytes] at hsame
    rw [hbytes]; exact hsame
  have hlen : 16 ≤ p₀.fd.bytes.length := by
    rw [hbytes, length_patch, length_metaBytes]; omega
  obtain ⟨p', e, h', hnone, -, hs⟩ := flushAll_spec (List.range m.numPages) h₀
    (fun id hid => List.mem_range.mp hid) hlen
  refine ⟨p'.fd.bytes, ?_, hs.trans hmeta, ?_⟩
  · rw [destroy]
    simp only [← hp₀, h₀.numPages_eq, e, ok_bind]
  · intro id hid
    have hn := hnone id (Or.inr (List.mem_range.mpr hid))
    exact ((h'.current id hid).resolve_left (by rw [hn]; simp)).2

/-- A file that holds a saved page map opens to it, however the kernel splits the transfers. -/
theorem new_represents {file : List UInt8} (hle : m.numPages ≤ tableMaxPages)
    (hroot : m.rootPid < 2 ^ 64) (hmeta : slice file 0 16 = metaBytes ⟨m.rootPid, m.numPages⟩)
    (hpages : ∀ id < m.numPages, OnDisk file id (m.content id)) (counts : ℕ → ℕ) :
    ∃ p', new (some file) 'o' counts = .ok p' ∧ p'.Represents m := by
  have htm : tableMaxPages < 2 ^ 64 := by decide
  obtain ⟨pos, counts', e⟩ := loadFromDisk_eq ⟨m.rootPid, m.numPages⟩ ⟨0, 0⟩ file counts hroot
    (lt_of_le_of_lt hle htm) hmeta
  refine ⟨⟨⟨file, pos, counts'⟩, ⟨m.rootPid, m.numPages⟩, fun _ => none⟩, ?_, rfl, hle, hroot,
    fun id hid => Or.inr ⟨rfl, hpages id hid⟩⟩
  rw [new, if_neg (by decide), if_pos rfl]
  simp only [e]

/-- **Closing and opening again is invisible.** -/
theorem reopen_represents (h : p.Represents m) (counts : ℕ → ℕ) :
    ∃ file p', destroy p = .ok file ∧ new (some file) 'o' counts = .ok p' ∧ p'.Represents m := by
  obtain ⟨file, e, hmeta, hpages⟩ := destroy_spec h
  obtain ⟨p', e', h'⟩ := new_represents h.numPages_le h.rootPid_lt hmeta hpages counts
  exact ⟨file, p', e, e', h'⟩

end

end BTreePager

end DbToy
