import DbToy.PagerRuns

/-!
# The file of a pager

What a pager does to its file.  While it is open only two things reach the file: the metadata, each
time a page is allocated, and a page that is flushed.  Closing it writes the rest.

* `PageMap.bytes`: the file of a page map, metadata and pages one behind the other.
* `pager_file_is_pages`: the file that a pager leaves is that of its page map, so it depends on
  what was allocated and written, and not on what was flushed, read or reopened on the way.
* `destroy_clean`: a pager whose pages are as the file has them leaves the file as it is.
-/

namespace DbToy

open Bytes

namespace PageMap

/-- The file of a page map. -/
def bytes (m : PageMap) : List UInt8 :=
  metaBytes ⟨m.rootPid, m.numPages⟩ ++
    (List.range m.numPages).flatMap fun id => (m.content id).bytes

variable {m : PageMap} {file : List UInt8}

/-- The run of the first pages of a file. -/
lemma slice_pages (hpages : ∀ id < m.numPages, OnDisk file id (m.content id)) : ∀ n ≤ m.numPages,
    slice file 16 (n * pageSize) = (List.range n).flatMap fun id => (m.content id).bytes
  | 0, _ => by simp [slice]
  | n + 1, hn => by
      have hrun : slice file (16 + n * pageSize) pageSize = (m.content n).bytes := hpages n hn
      rw [Nat.add_mul, Nat.one_mul, slice_add, slice_pages hpages n (by omega), hrun,
        List.range_succ, List.flatMap_append, List.flatMap_singleton]

/-- A file that has metadata and pages in their places, and nothing behind them. -/
lemma eq_bytes (hmeta : slice file 0 16 = metaBytes ⟨m.rootPid, m.numPages⟩)
    (hpages : ∀ id < m.numPages, OnDisk file id (m.content id))
    (hlen : file.length ≤ pageStart m.numPages) : file = m.bytes := by
  have hall : slice file 0 (16 + m.numPages * pageSize) = file := by
    rw [slice, List.drop_zero]
    exact List.take_of_length_le hlen
  rw [← hall, slice_add, hmeta, Nat.zero_add, slice_pages hpages _ le_rfl, bytes]

end PageMap

/-! ## One operation -/

namespace BTreePager

variable {malloc : ℕ → Page} {p p' : BTreePager} {id : ℕ} {page : Page}

lemma entry_eq_ok {entry : Option Page} (h : p.entry id = .ok entry) : p.pages id = entry := by
  rw [BTreePager.entry] at h
  split_ifs at h
  exact Except.ok.inj h

/-- Reading a page leaves the file alone. -/
lemma getPage_file (h : getPage malloc p id = .ok (page, p')) :
    p'.fd.bytes = p.fd.bytes ∧ p'.metaData = p.metaData := by
  simp only [getPage] at h
  split_ifs at h
  obtain ⟨entry, -, h⟩ := bind_eq_ok h
  cases entry with
  | some block =>
      cases h
      exact ⟨rfl, rfl⟩
  | none =>
      obtain ⟨-, -, h⟩ := bind_eq_ok h
      cases h
      exact ⟨readBuffer_bytes _ _, rfl⟩

/-- So does writing into its block. -/
lemma writePage_file (h : writePage malloc p id page = .ok p') :
    p'.fd.bytes = p.fd.bytes ∧ p'.metaData = p.metaData := by
  obtain ⟨⟨page', q⟩, hq, h⟩ := bind_eq_ok h
  cases h
  show q.fd.bytes = _ ∧ q.metaData = _
  exact getPage_file hq

/-- A new page is counted at the front of the file; the page itself is not there yet. -/
lemma allocatePage_file {new : ℕ × Page} (h : allocatePage malloc p = .ok (new, p')) :
    new.1 = p.numPages ∧ p'.metaData = ⟨p.getRootPage, p.numPages + 1⟩ ∧
      p'.fd.bytes = patch 0 p.fd.bytes 0 (metaBytes ⟨p.getRootPage, p.numPages + 1⟩) := by
  obtain ⟨-, -, h⟩ := bind_eq_ok h
  cases h
  exact ⟨rfl, rfl, writeToDisk_bytes _ _⟩

/-- There was an entry for it. -/
lemma allocatePage_lt {new : ℕ × Page} (h : allocatePage malloc p = .ok (new, p')) :
    p.numPages < tableMaxPages := by
  obtain ⟨entry, hentry, -⟩ := bind_eq_ok h
  rw [BTreePager.entry] at hentry
  split_ifs at hentry with hlt
  exact hlt

/-- A page that is flushed goes to its place. -/
lemma flushPage_file (h : flushPage p id = .ok p') : p'.metaData = p.metaData ∧
    (p' = p ∨ ∃ page, p.pages id = some page ∧ p'.pages = Function.update p.pages id none ∧
      p'.fd.bytes = patch 0 p.fd.bytes (pageStart id) page.bytes) := by
  obtain ⟨entry, hentry, h⟩ := bind_eq_ok h
  have hpage := entry_eq_ok hentry
  cases entry with
  | none =>
      cases h
      exact ⟨rfl, Or.inl rfl⟩
  | some page =>
      obtain ⟨q, hq, h⟩ := bind_eq_ok h
      rw [sync, hentry, ok_bind] at hq
      obtain ⟨-, -, hq⟩ := bind_eq_ok hq
      cases hq
      cases h
      obtain ⟨counts, hwrite⟩ := writeBuffer_spec (p.fd.lseek (pageStart id)) page.bytes
        (fun hnil => by simpa [hnil, pageSize] using page.length_bytes)
      refine ⟨rfl, Or.inr ⟨page, hpage, rfl, ?_⟩⟩
      exact congrArg (fun r => r.2.bytes) hwrite

/-- A file that is opened is read and not written. -/
lemma new_open_file {file : List UInt8} {counts : ℕ → ℕ}
    (h : new (some file) 'o' counts = .ok p) : p.fd.bytes = file := by
  rw [new, if_neg (by decide), if_pos rfl] at h
  cases h
  exact (readBuffer_bytes _ _).trans (readBuffer_bytes _ _)

/-! ## Closing -/

variable {m : PageMap}

lemma pageStart_add_le {id n : ℕ} (h : id < n) : pageStart id + pageSize ≤ pageStart n := by
  simp only [pageStart, BtreeMetaData.getDataSize, pageSize]
  omega

/-- Flushing pages does not make the file longer than they need. -/
lemma flushAll_length {n : ℕ} : ∀ (ids : List ℕ) {p p' : BTreePager},
    ids.foldlM flushPage p = .ok p' → (∀ id ∈ ids, id < n) → p.fd.bytes.length ≤ pageStart n →
      p'.fd.bytes.length ≤ pageStart n
  | [], p, p', h, _, hlen => by
      cases h
      exact hlen
  | id :: ids, p, p', h, hids, hlen => by
      rw [List.foldlM_cons] at h
      obtain ⟨q, hq, h⟩ := bind_eq_ok h
      refine flushAll_length ids h (fun i hi => hids i (List.mem_cons_of_mem _ hi)) ?_
      rcases (flushPage_file hq).2 with rfl | ⟨page, -, -, hbytes⟩
      · exact hlen
      · have hid := pageStart_add_le (hids id List.mem_cons_self)
        rw [hbytes, length_patch, page.length_bytes]
        omega

lemma destroy_length {file : List UInt8} (h : p.Represents m)
    (hlen : p.fd.bytes.length ≤ pageStart m.numPages) (hdestroy : destroy p = .ok file) :
    file.length ≤ pageStart m.numPages := by
  obtain ⟨q, hq, hfile⟩ := bind_eq_ok hdestroy
  cases hfile
  refine flushAll_length _ hq (fun id hid => ?_) ?_
  · rw [← h.numPages_eq]
    exact List.mem_range.mp hid
  · show (p.metaData.writeToDisk p.fd).bytes.length ≤ _
    have hstart : 16 ≤ pageStart m.numPages := by
      simp only [pageStart, BtreeMetaData.getDataSize]
      omega
    rw [writeToDisk_bytes, length_patch, length_metaBytes]
    omega

/-- **The file that a pager leaves**, if it has not been longer before. -/
theorem destroy_bytes (h : p.Represents m) (hlen : p.fd.bytes.length ≤ pageStart m.numPages) :
    destroy p = .ok m.bytes := by
  obtain ⟨file, hdestroy, hmeta, hpages⟩ := destroy_spec h
  rw [hdestroy, PageMap.eq_bytes hmeta hpages (destroy_length h hlen hdestroy)]

/-- Flushing pages that are in the file as they are in memory. -/
lemma flushAll_clean {file : List UInt8} : ∀ (ids : List ℕ) {p : BTreePager}, p.Represents m →
    (∀ id ∈ ids, id < m.numPages) → (∀ id < m.numPages, OnDisk file id (m.content id)) →
    p.fd.bytes = file → ∃ p', ids.foldlM flushPage p = .ok p' ∧ p'.fd.bytes = file
  | [], p, _, _, _, hbytes => ⟨p, rfl, hbytes⟩
  | id :: ids, p, h, hids, hdisk, hbytes => by
      have hid := hids id List.mem_cons_self
      obtain ⟨q, hq, hrep⟩ := flushPage_represents h hid
      rw [List.foldlM_cons, hq]
      refine flushAll_clean ids hrep (fun i hi => hids i (List.mem_cons_of_mem _ hi)) hdisk ?_
      rcases (flushPage_file hq).2 with rfl | ⟨page, hpage, -, hpatch⟩
      · exact hbytes
      · have heq : page = m.content id := (h.current id hid).unique (Or.inl hpage) |>.symm
        have hrun : slice file (pageStart id) pageSize = page.bytes := heq ▸ hdisk id hid
        rw [hpatch, hbytes, ← hrun]
        exact patch_slice 0 (hdisk id hid).length_le

/-- **A pager that has changed nothing** leaves the file as it is. -/
theorem destroy_clean {file : List UInt8} (h : p.Represents m) (hbytes : p.fd.bytes = file)
    (hmeta : slice file 0 16 = metaBytes ⟨m.rootPid, m.numPages⟩)
    (hdisk : ∀ id < m.numPages, OnDisk file id (m.content id)) : destroy p = .ok file := by
  have hlen : 0 + 16 ≤ file.length := by
    have hl := congrArg List.length hmeta
    rw [length_slice, length_metaBytes] at hl
    omega
  have hfront : (p.metaData.writeToDisk p.fd).bytes = file := by
    rw [writeToDisk_bytes, h.metaData, hbytes, ← hmeta]
    exact patch_slice 0 hlen
  obtain ⟨p', hflush, hfile⟩ := @flushAll_clean m file (List.range m.numPages)
    { p with fd := p.metaData.writeToDisk p.fd } ⟨h.metaData, h.numPages_le, h.rootPid_lt,
      fun id hid => (h.current id hid).imp_right fun hd => ⟨hd.1, hd.2.writeToDisk _⟩⟩
    (fun id hid => List.mem_range.mp hid) hdisk hfront
  rw [destroy]
  show ((List.range p.numPages).foldlM flushPage _ >>= _) = _
  rw [h.numPages_eq, hflush, ok_bind, hfile]

end BTreePager

/-! ## Runs -/

/-- The call can change the page map. -/
def PagerCall.changes : PagerCall → Bool
  | .allocatePage => true
  | .writePage _ _ => true
  | .setRootPage _ => true
  | .getPage _ => false
  | .flushPage _ => false
  | .reopen _ => false

namespace PageMap

variable {malloc : ℕ → Page} {m m' : PageMap}

lemma answer_of_not_changes {c : PagerCall} {r : PagerReply} (hc : c.changes = false)
    (h : answer malloc c m = some (r, m')) : m' = m := by
  cases c with
  | allocatePage => cases hc
  | writePage id page => cases hc
  | setRootPage id => cases hc
  | getPage id =>
      simp only [answer] at h
      split_ifs at h
      cases h
      rfl
  | flushPage id =>
      simp only [answer] at h
      split_ifs at h
      cases h
      rfl
  | reopen counts =>
      cases h
      rfl

/-- The other calls can be left out. -/
lemma runCalls_changes {calls : List PagerCall} {replies : List PagerReply}
    (h : runCalls malloc calls m = some (replies, m')) :
    ∃ replies', runCalls malloc (calls.filter PagerCall.changes) m = some (replies', m') := by
  induction calls generalizing m replies with
  | nil => exact ⟨replies, h⟩
  | cons c calls ih =>
      simp only [runCalls, Option.bind_eq_bind, Option.bind_eq_some_iff, Prod.exists,
        Option.some.injEq, Prod.mk.injEq] at h
      obtain ⟨r, m₁, hc, rs, m₂, hrest, rfl, rfl⟩ := h
      obtain ⟨replies', hrest'⟩ := ih hrest
      cases hchanges : c.changes with
      | false =>
          rw [List.filter_cons_of_neg (by simp [hchanges])]
          rw [answer_of_not_changes hchanges hc] at hrest'
          exact ⟨replies', hrest'⟩
      | true =>
          rw [List.filter_cons_of_pos hchanges]
          exact ⟨r :: replies', by simp [runCalls, hc, hrest']⟩

end PageMap

namespace BTreePager

variable {malloc : ℕ → Page} {p : BTreePager} {m m' : PageMap}

/-- The pager stands for the page map, and its file is no longer than the pages need. -/
structure Fits (p : BTreePager) (m : PageMap) : Prop where
  represents : p.Represents m
  length_le : p.fd.bytes.length ≤ pageStart m.numPages

lemma Fits.of_bytes_eq {p p' : BTreePager} {m m' : PageMap} (h : p.Fits m)
    (hrep : p'.Represents m') (hbytes : p'.fd.bytes = p.fd.bytes)
    (hnum : m'.numPages = m.numPages) : p'.Fits m' :=
  ⟨hrep, by rw [hbytes, hnum]; exact h.length_le⟩

/-- **One call.** -/
lemma Fits.answer (h : p.Fits m) {c : PagerCall} {r : PagerReply}
    (hc : PageMap.answer malloc c m = some (r, m')) :
    ∃ p', BTreePager.answer malloc c p = .ok (r, p') ∧ p'.Fits m' := by
  obtain ⟨p', hp', hrep⟩ := answer_represents h.represents hc
  refine ⟨p', hp', ?_⟩
  cases c with
  | allocatePage =>
      simp only [PageMap.answer] at hc
      split_ifs at hc
      cases hc
      obtain ⟨⟨new, q⟩, hq, heq⟩ := bind_eq_ok hp'
      obtain ⟨-, rfl⟩ := Prod.mk.inj (Except.ok.inj heq)
      have hlen := h.length_le
      refine ⟨hrep, ?_⟩
      rw [(allocatePage_file hq).2.2, length_patch, length_metaBytes]
      simp only [pageStart, BtreeMetaData.getDataSize, PageMap.allocate_numPages, pageSize]
        at hlen ⊢
      omega
  | getPage id =>
      have hm := PageMap.answer_of_not_changes rfl hc
      obtain ⟨⟨page, q⟩, hq, heq⟩ := bind_eq_ok hp'
      cases heq
      exact h.of_bytes_eq hrep (getPage_file hq).1 (congrArg _ hm)
  | writePage id page =>
      simp only [PageMap.answer] at hc
      split_ifs at hc
      cases hc
      obtain ⟨q, hq, heq⟩ := bind_eq_ok hp'
      cases heq
      exact h.of_bytes_eq hrep (writePage_file hq).1 rfl
  | flushPage id =>
      simp only [PageMap.answer] at hc
      split_ifs at hc with hid
      cases hc
      obtain ⟨q, hq, heq⟩ := bind_eq_ok hp'
      cases heq
      refine ⟨hrep, flushAll_length [id] (p := p) ?_ (fun i hi => ?_) h.length_le⟩
      · rw [List.foldlM_cons, hq]
        rfl
      · rwa [List.mem_singleton.mp hi]
  | setRootPage id =>
      simp only [PageMap.answer] at hc
      split_ifs at hc
      cases hc
      cases hp'
      exact h.of_bytes_eq hrep rfl rfl
  | reopen counts =>
      have hm := PageMap.answer_of_not_changes rfl hc
      subst hm
      obtain ⟨file, hfile, hnew⟩ := bind_eq_ok hp'
      obtain ⟨q, hq, heq⟩ := bind_eq_ok hnew
      cases heq
      exact ⟨hrep, by rw [new_open_file hq]; exact destroy_length h.represents h.length_le hfile⟩

/-- **A run.** -/
lemma Fits.runCalls {calls : List PagerCall} {replies : List PagerReply} (h : p.Fits m)
    (hrun : PageMap.runCalls malloc calls m = some (replies, m')) :
    ∃ p', BTreePager.runCalls malloc calls p = .ok (replies, p') ∧ p'.Fits m' :=
  runCalls_simulates (fun _ _ _ _ _ h hc => h.answer hc) calls h hrun

lemma new_create_fits (file : Option (List UInt8)) (counts : ℕ → ℕ) :
    ∃ p, new file 'c' counts = .ok p ∧ p.Fits PageMap.empty :=
  ⟨_, rfl, ⟨rfl, Nat.zero_le _, by decide, fun _ h => absurd h (Nat.not_lt_zero _)⟩,
    Nat.zero_le _⟩

end BTreePager

/-- **The file of a pager is its page map**, written out.  After any run from a new file the pager
leaves the metadata and the pages in the order of their ids, and nothing else; the file opens to
the same page map, and closed at once it is the same again.  A pager that is asked for the
allocations, the writes and the root changes only leaves the same bytes. -/
theorem pager_file_is_pages (malloc : ℕ → Page) (file : Option (List UInt8)) (counts : ℕ → ℕ)
    {calls : List PagerCall} {replies : List PagerReply} {m : PageMap}
    (h : PageMap.runCalls malloc calls PageMap.empty = some (replies, m)) :
    (∃ p₀ p, BTreePager.new file 'c' counts = .ok p₀ ∧
      BTreePager.runCalls malloc calls p₀ = .ok (replies, p) ∧ p.destroy = .ok m.bytes) ∧
    (∀ counts', ∃ p, BTreePager.new (some m.bytes) 'o' counts' = .ok p ∧ p.Represents m ∧
      p.destroy = .ok m.bytes) ∧
    ∀ file' counts', ∃ p₀ replies' p, BTreePager.new file' 'c' counts' = .ok p₀ ∧
      BTreePager.runCalls malloc (calls.filter PagerCall.changes) p₀ = .ok (replies', p) ∧
      p.destroy = .ok m.bytes := by
  have hrun : ∀ {calls : List PagerCall} {replies : List PagerReply},
      PageMap.runCalls malloc calls PageMap.empty = some (replies, m) → ∀ file counts, ∃ p₀ p,
        BTreePager.new file 'c' counts = .ok p₀ ∧
        BTreePager.runCalls malloc calls p₀ = .ok (replies, p) ∧ p.Fits m := by
    intro calls replies h file counts
    obtain ⟨p₀, hnew, hfits₀⟩ := BTreePager.new_create_fits file counts
    obtain ⟨p, hcalls, hfits⟩ := hfits₀.runCalls h
    exact ⟨p₀, p, hnew, hcalls, hfits⟩
  obtain ⟨p₀, p, hnew, hcalls, hfits⟩ := hrun h file counts
  have hdestroy := BTreePager.destroy_bytes hfits.represents hfits.length_le
  refine ⟨⟨p₀, p, hnew, hcalls, hdestroy⟩, ?_, ?_⟩
  · intro counts'
    obtain ⟨file', q, hfile, hopen, hrep⟩ := BTreePager.reopen_represents hfits.represents counts'
    cases hdestroy.symm.trans hfile
    refine ⟨q, hopen, hrep, BTreePager.destroy_bytes hrep ?_⟩
    rw [BTreePager.new_open_file hopen]
    exact BTreePager.destroy_length hfits.represents hfits.length_le hdestroy
  · intro file' counts'
    obtain ⟨replies', hchanges⟩ := PageMap.runCalls_changes h
    obtain ⟨q₀, q, hnew', hcalls', hfits'⟩ := hrun hchanges file' counts'
    exact ⟨q₀, replies', q, hnew', hcalls',
      BTreePager.destroy_bytes hfits'.represents hfits'.length_le⟩

/-- Three pages, one of them flushed, read and written again, the file reopened in between: it is
as long as its metadata and three pages. -/
theorem pager_file_is_pages_three : ∃ m, m.numPages = 3 ∧
    (∃ p₀ p, BTreePager.new none 'c' (fun _ => 1) = .ok p₀ ∧
      BTreePager.runCalls (fun _ => Page.filled 9)
        [.allocatePage, .allocatePage, .writePage 0 (Page.filled 7), .flushPage 0, .getPage 0,
          .reopen (fun _ => 1), .allocatePage, .setRootPage 1] p₀
        = .ok ([.newPage 0 (Page.filled 9), .newPage 1 (Page.filled 9), .done, .done,
            .page (Page.filled 7), .done, .newPage 2 (Page.filled 9), .done], p) ∧
      p.destroy = .ok m.bytes) ∧
    (∀ counts', ∃ p, BTreePager.new (some m.bytes) 'o' counts' = .ok p ∧ p.Represents m ∧
      p.destroy = .ok m.bytes) ∧
    ∀ file' counts', ∃ p₀ replies' p, BTreePager.new file' 'c' counts' = .ok p₀ ∧
      BTreePager.runCalls (fun _ => Page.filled 9)
        [.allocatePage, .allocatePage, .writePage 0 (Page.filled 7), .allocatePage,
          .setRootPage 1] p₀ = .ok (replies', p) ∧ p.destroy = .ok m.bytes :=
  ⟨_, rfl, pager_file_is_pages (fun _ => Page.filled 9) none (fun _ => 1) rfl⟩

end DbToy
