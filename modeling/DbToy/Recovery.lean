import DbToy.SavedFile

/-!
# Opening a file that was not closed

`allocate_page` counts a new page in the file at once, and nothing else is written before the file
is closed.  A process that ends without closing its file therefore leaves the pages of the last time
that it was closed, behind metadata that is newer.

* `Remains`: such a file, with the root id and the number of pages that it has at its front.
* `Remains.recovers`: if the root id is the old one, the file opens, and its old content is found.
* `Remains.lost`: if it is that of a page that was never written, no way of opening it succeeds.
-/

namespace DbToy

open Bytes SearchTree

/-- The file has the bytes of another one behind its front, and these numbers in front of them. -/
structure Remains (file : List UInt8) (root num : ℕ) (file' : List UInt8) : Prop where
  drop_eq : file'.drop 16 = file.drop 16
  front_eq : slice file' 0 16 = metaBytes ⟨root, num⟩

/-! ## A pager that counts too many pages -/

namespace BTreePager

variable {malloc : ℕ → Page} {p : BTreePager} {m : PageMap}

/-- Pages beyond those of the page map make no difference to a page of it. -/
lemma getPage_metaData (M : BtreeMetaData) {id : ℕ} (hp : pageId id < p.numPages)
    (hM : pageId id < M.numPages) : getPage malloc { p with metaData := M } id
      = (getPage malloc p id).map fun r => (r.1, { r.2 with metaData := M }) := by
  rw [getPage, getPage]
  simp only [if_neg (not_le.mpr hp)]
  rw [if_neg (show ¬(BTreePager.numPages { p with metaData := M } ≤ pageId id) from not_le.mpr hM)]
  have hentry : BTreePager.entry { p with metaData := M } (pageId id) = p.entry (pageId id) := rfl
  rw [hentry]
  cases hpage : p.entry (pageId id) with
  | error e => rfl
  | ok entry =>
      cases entry with
      | some page => rfl
      | none =>
          simp only [ok_bind]
          cases assertThat ((readBuffer (p.fd.lseek (pageStart (pageId id)))
            (malloc (pageId id)).bytes).1 = pageSize) "nbytes == PAGE_SIZE" with
          | error e => rfl
          | ok u => rfl

/-- The pager stands for the page map as far as that goes; it may count more pages. -/
structure Covers (p : BTreePager) (m : PageMap) : Prop where
  represents : BTreePager.Represents { p with metaData := ⟨m.rootPid, m.numPages⟩ } m
  rootPid : p.getRootPage = m.rootPid
  numPages_le : m.numPages ≤ p.numPages

lemma Covers.getPage (h : p.Covers m) {id : ℕ} (hid : pageId id < m.numPages) :
    ∃ p', BTreePager.getPage malloc p id = .ok (m.content (pageId id), p') ∧ p'.Covers m := by
  obtain ⟨q, hq, hrep, -⟩ := @getPage_represents malloc _ _ h.represents id hid
  have hp := @getPage_metaData malloc { p with metaData := ⟨m.rootPid, m.numPages⟩ } p.metaData id
    hid (hid.trans_le h.numPages_le)
  rw [hq] at hp
  have hq' := (getPage_file hq).2
  refine ⟨{ q with metaData := p.metaData }, hp, ?_, h.rootPid, h.numPages_le⟩
  have heq : { q with metaData := ⟨m.rootPid, m.numPages⟩ } = q := by
    rw [← hrep.metaData]
  exact heq ▸ hrep

/-- What is opened. -/
lemma new_covers {file : List UInt8} {num : ℕ} (hnum : num ≤ tableMaxPages)
    (hle : m.numPages ≤ num) (hroot : m.rootPid < 2 ^ 64)
    (hfront : slice file 0 16 = metaBytes ⟨m.rootPid, num⟩)
    (hpages : ∀ id < m.numPages, OnDisk file id (m.content id)) (counts : ℕ → ℕ) :
    ∃ p, new (some file) 'o' counts = .ok p ∧ p.Covers m := by
  have hmax : tableMaxPages < 2 ^ 64 := by decide
  obtain ⟨pos, counts', hload⟩ := loadFromDisk_eq ⟨m.rootPid, num⟩ ⟨0, 0⟩ file counts hroot
    (hnum.trans_lt hmax) hfront
  refine ⟨⟨⟨file, pos, counts'⟩, ⟨m.rootPid, num⟩, fun _ => none⟩, ?_,
    ⟨rfl, hle.trans hnum, hroot, fun id hid => Or.inr ⟨rfl, hpages id hid⟩⟩, rfl, hle⟩
  rw [new, if_neg (by decide), if_pos rfl]
  simp only [hload]

/-- A page that the file is too short for. -/
lemma getPage_short {id : ℕ} (hid : pageId id < p.numPages) (hmax : p.numPages ≤ tableMaxPages)
    (hpage : p.pages (pageId id) = none) (hlen : p.fd.bytes.length ≤ pageStart (pageId id)) :
    getPage malloc p id = .error (.assertFailed "nbytes == PAGE_SIZE") := by
  obtain ⟨counts, hread⟩ := readBuffer_spec (p.fd.lseek (pageStart (pageId id)))
    (malloc (pageId id)).bytes
  have hnil : slice (p.fd.lseek (pageStart (pageId id))).bytes
      (p.fd.lseek (pageStart (pageId id))).pos (malloc (pageId id)).bytes.length = [] :=
    slice_of_length_le hlen _
  rw [getPage]
  simp only [if_neg (not_le.mpr hid), p.entry_of_lt (hid.trans_le hmax), hpage, ok_bind, hread, hnil]
  rfl

end BTreePager

/-! ## A tree on it -/

namespace BPlusTree

structure Covers (t : BPlusTree) (s : TreeImage) : Prop where
  pager : t.pager.Covers s.map
  root : t.root = s.root
  malloc : t.malloc = s.malloc

/-- One request that reads. -/
lemma Covers.handler {t : BPlusTree} {s s' : TreeImage} {o : PageOp} {x : o.Ans} (h : t.Covers s)
    (ho : o.Reads) (hs : TreeImage.handler o s = .ok (x, s')) :
    ∃ t', BPlusTree.handler o t = .ok (x, t') ∧ t'.Covers s' := by
  cases o with
  | getPage id =>
      simp only [TreeImage.handler] at hs
      split_ifs at hs with hid
      cases hs
      obtain ⟨p, hp, hcovers⟩ := @BTreePager.Covers.getPage t.malloc _ _ h.pager id hid
      exact ⟨{ t with pager := p }, by rw [BPlusTree.handler, hp]; rfl, hcovers, h.root, h.malloc⟩
  | getRootPage =>
      cases hs
      exact ⟨t, by rw [← h.pager.rootPid]; rfl, h⟩
  | getRoot =>
      cases hs
      exact ⟨t, by rw [← h.root]; rfl, h⟩
  | setRoot id =>
      cases hs
      exact ⟨{ t with root := some id }, rfl, h.pager, rfl, h.malloc⟩
  | writePage id page => exact absurd ho not_false
  | allocatePage => exact absurd ho not_false
  | setRootPage id => exact absurd ho not_false
  | numPages => exact absurd ho not_false

/-- **A client that reads** is answered as from the image. -/
theorem Covers.run {α : Type} {p : PageM α} (hp : Prog.Only PageOp.Reads p) {t : BPlusTree}
    {s s' : TreeImage} {a : α} (h : t.Covers s) (hs : p.run TreeImage.handler s = .ok (a, s')) :
    ∃ t', p.run BPlusTree.handler t = .ok (a, t') ∧ t'.Covers s' :=
  hp.run_simulates (fun h ho hs => h.handler ho hs) h hs

end BPlusTree

/-- The call only looks. -/
def Dictionary.Looks (D : Dictionary) : TreeCall → Prop
  | .insert key _ => key ∈ D.cells.map Prod.fst
  | .find _ => True
  | .select _ _ => True
  | .getRootPage => True
  | .getTotalPage => False
  | .reopen _ _ _ _ => False

instance (D : Dictionary) : DecidablePred D.Looks
  | .insert _ _ => inferInstanceAs (Decidable (_ ∈ _))
  | .find _ => isTrue trivial
  | .select _ _ => isTrue trivial
  | .getRootPage => isTrue trivial
  | .getTotalPage => isFalse not_false
  | .reopen _ _ _ _ => isFalse not_false

namespace Session

/-- The pages of the dictionary are those of the session; it may count more. -/
structure Views (S : Session) (s : TreeImage) (D : Dictionary) : Prop where
  params : S.params = D.params
  valid : D.params.Valid
  covers : S.tree.Covers s
  stores : s.Stores D.params.rowSize D.tree.height D.tree.tree

variable {S : Session} {s : TreeImage} {D : Dictionary}

lemma Views.call (h : S.Views s D) {α : Type} {p : PageM α} {a : α} (reply : α → TreeReply)
    (hp : Prog.Only PageOp.Reads p) (hrun : p.run TreeImage.handler s = .ok (a, s)) :
    ∃ S', S.call p reply = .ok (reply a, S') ∧ S'.Views s D := by
  obtain ⟨t, ht, hcovers⟩ := h.covers.run hp hrun
  exact ⟨{ S with tree := t }, by rw [Session.call, ht, ok_bind], h.params, h.valid, hcovers,
    h.stores⟩

/-- **One call.** -/
theorem Views.answer (h : S.Views s D) {c : TreeCall} (hc : D.Looks c) :
    ∃ r S', S.answer c = .ok (r, S') ∧ D.answer c = .ok (r, D) ∧ S'.Views s D := by
  have hroom := h.valid.room
  cases c with
  | insert key row =>
      have hmem : key ∈ D.cells.map Prod.fst := hc
      have hfind := @BPlusTree.run_find _ s key _ _ (h.stores.wellFormed hroom)
      obtain ⟨t, ht, hcovers⟩ := h.covers.run (BPlusTree.only_find (fun _ ho => ho.reads) key) hfind
      have hrun : (BPlusTree.insert S.params key row).run BPlusTree.handler S.tree
          = .ok (.failDuplicateKey, t) := by
        rw [BPlusTree.insert, Prog.run_bind_of_ok _ ht,
          if_pos ((locate_isExist h.stores.ordered).mpr hmem), Prog.run_pure]
      refine ⟨.status .failDuplicateKey, { S with tree := t }, ?_, ?_, h.params, h.valid, hcovers,
        h.stores⟩
      · rw [Session.answer, Session.call, hrun, ok_bind]
      · rw [Dictionary.answer, if_pos hmem]
  | find key =>
      obtain ⟨S', hS', hviews⟩ := h.call (fun r => .location r.1 r.2)
        (BPlusTree.only_findRow (fun _ ho => ho.reads) D.params.rowSize key)
        (BPlusTree.run_findRow hroom h.stores key)
      exact ⟨_, S', by rw [Session.answer, h.params]; exact hS', rfl, hviews⟩
  | select minVal maxVal =>
      obtain ⟨S', hS', hviews⟩ := h.call .rows
        (BPlusTree.only_selectRows (fun _ ho => ho.reads) D.params.rowSize minVal maxVal)
        (BPlusTree.run_selectRows hroom h.stores)
      exact ⟨_, S', by rw [Session.answer, h.params]; exact hS', rfl, hviews⟩
  | getRootPage =>
      obtain ⟨S', hS', hviews⟩ := h.call .number
        (show Prog.Only PageOp.Reads BPlusTree.getRootPage from ⟨trivial, fun _ => trivial⟩)
        (BPlusTree.run_getRootPage s)
      exact ⟨_, S', hS', by rw [Dictionary.answer, h.stores.rootPid], hviews⟩
  | getTotalPage => exact absurd hc not_false
  | reopen leafLoad innerNodeLoad counts malloc => exact absurd hc not_false

/-- A run. -/
lemma Views.runCalls (h : S.Views s D) {calls : List TreeCall} (hcalls : ∀ c ∈ calls, D.Looks c) :
    ∃ replies S', S.runCalls calls = .ok (replies, S') ∧ D.runCalls calls = .ok (replies, D) := by
  induction calls generalizing S with
  | nil => exact ⟨[], S, rfl, rfl⟩
  | cons c calls ih =>
      obtain ⟨r, S₁, hS, hD, hviews⟩ := h.answer (hcalls c List.mem_cons_self)
      obtain ⟨replies, S', hrun, hrunD⟩ := ih hviews fun d hd => hcalls d (List.mem_cons_of_mem _ hd)
      refine ⟨r :: replies, S', ?_, ?_⟩
      · rw [Session.runCalls, Runs.runAll_cons_of_ok hS]
        exact congrArg (Except.map _) hrun
      · rw [Dictionary.runCalls, Runs.runAll_cons_of_ok hD]
        exact congrArg (Except.map _) hrunD

end Session

/-! ## What becomes of the file -/

/-- The file opens, with any loads, and everything that can be looked up in the dictionary is found
there. -/
def Recovers (file : List UInt8) (D : Dictionary) : Prop :=
  ∀ leafLoad innerNodeLoad, leafLoad % 2 = 0 ∧ 0 < leafLoad →
    innerNodeLoad % 2 = 0 ∧ 0 < innerNodeLoad → ∀ counts malloc, ∃ S,
      Session.load (D.withLoads leafLoad innerNodeLoad).params file counts malloc = .ok S ∧
      ∀ calls, (∀ c ∈ calls, D.Looks c) → ∃ replies S', S.runCalls calls = .ok (replies, S') ∧
        (D.withLoads leafLoad innerNodeLoad).runCalls calls
          = .ok (replies, D.withLoads leafLoad innerNodeLoad)

/-- The file does not open. -/
def Lost (file : List UInt8) : Prop :=
  ∀ P counts malloc, Session.load P file counts malloc
    = .error (.assertFailed "nbytes == PAGE_SIZE")

namespace Remains

variable {file file' : List UInt8} {root num : ℕ}

/-- The pages are where they were. -/
lemma onDisk (h : Remains file root num file') {id : ℕ} {page : Page}
    (hpage : OnDisk file id page) : OnDisk file' id page := by
  have hslice : ∀ f : List UInt8, slice f (pageStart id) pageSize
      = slice (f.drop 16) (id * pageSize) pageSize := by
    intro f
    rw [slice, slice, List.drop_drop]
    rfl
  rw [OnDisk, hslice, h.drop_eq, ← hslice]
  exact hpage

lemma length_le (h : Remains file root num file') {n : ℕ} (hlen : file.length ≤ pageStart n) :
    file'.length ≤ pageStart n := by
  have hdrop := congrArg List.length h.drop_eq
  rw [List.length_drop, List.length_drop] at hdrop
  have hstart : 16 ≤ pageStart n := by
    simp only [pageStart, BtreeMetaData.getDataSize]
    omega
  omega

/-- **The old root is still named**: nothing of the old content is lost. -/
theorem recovers {D : Dictionary} (hsaved : Saved file D)
    (h : Remains file (pid D.tree.height D.tree.tree) num file') (hle : D.numPages ≤ num)
    (hmax : num ≤ tableMaxPages) : Recovers file' D := by
  intro leafLoad innerNodeLoad hleaf hinner counts malloc
  obtain ⟨S₀, ⟨s, hs⟩, hdestroy⟩ := hsaved
  obtain ⟨file₀, hdestroy', -, hpages⟩ := BTreePager.destroy_spec hs.represents.pager
  cases hdestroy.symm.trans hdestroy'
  have hstores := hs.stores
  have hroot : s.map.rootPid < 2 ^ 64 := by
    rw [hstores.rootPid]
    exact ((hstores.lt_numPages _ (pid_mem_pids _ _)).trans_le hstores.numPages_le).trans
      (by decide)
  obtain ⟨p, hnew, hcovers⟩ := @BTreePager.new_covers s.map file' num hmax
    (by rw [hs.numPages]; exact hle) hroot (by rw [hstores.rootPid]; exact h.front_eq)
    (fun id hid => h.onDisk (hpages id hid)) counts
  set P := (D.withLoads leafLoad innerNodeLoad).params with hPdef
  have hP : P.Valid := ⟨hs.valid.two_cells, hleaf, hinner⟩
  have hcovers₀ : BPlusTree.Covers ⟨p, none, malloc⟩ ⟨s.map, none, malloc⟩ := ⟨hcovers, rfl, rfl⟩
  obtain ⟨t, ht, hcovers'⟩ := hcovers₀.run (BPlusTree.only_init_open (fun _ ho => ho) P)
    (@BPlusTree.run_init_open P s _ _ hP hstores malloc)
  have hviews : Session.Views ⟨P, t⟩ { s with malloc := malloc } (D.withLoads leafLoad innerNodeLoad) :=
    ⟨rfl, hP, hcovers', hstores.holds, hstores.linked, hstores.rootPid, hstores.root,
      hstores.isRoot, hstores.parent, hstores.numPages_le, hstores.sound⟩
  refine ⟨⟨P, t⟩, ?_, fun calls hcalls => hviews.runCalls fun c hc => ?_⟩
  · rw [Session.load, BPlusTree.new, hnew, ok_bind, ht]
    rfl
  · have hlooks := hcalls c hc
    cases c with
    | insert key row => exact hlooks
    | find key => trivial
    | select minVal maxVal => trivial
    | getRootPage => trivial
    | getTotalPage => exact hlooks
    | reopen leafLoad innerNodeLoad counts malloc => exact hlooks

/-- **A page is named that the file does not have**: it does not open. -/
theorem lost (h : Remains file root num file') (hroot : root < num) (hmax : num ≤ tableMaxPages)
    (hlen : file.length ≤ pageStart root) : Lost file' := by
  intro P counts malloc
  have htable : tableMaxPages < 2 ^ 31 := by decide
  have hid : pageId root = root := pageId_of_lt (by omega)
  obtain ⟨pos, counts', hload⟩ := loadFromDisk_eq ⟨root, num⟩ ⟨0, 0⟩ file' counts
    (by show root < 2 ^ 64; omega) (by show num < 2 ^ 64; omega) h.front_eq
  set p : BTreePager := ⟨⟨file', pos, counts'⟩, ⟨root, num⟩, fun _ => none⟩ with hp
  have hnew : BTreePager.new (some file') 'o' counts = .ok p := by
    rw [BTreePager.new, if_neg (by decide), if_pos rfl]
    simp only [hload]
    rfl
  have hshort : BTreePager.getPage malloc p root = .error (.assertFailed "nbytes == PAGE_SIZE") :=
    BTreePager.getPage_short (by rw [hid]; exact hroot) hmax rfl
      (by rw [hid]; exact h.length_le hlen)
  have hget : (BPlusTree.getPage root).run BPlusTree.handler ⟨p, none, malloc⟩
      = .error (.assertFailed "nbytes == PAGE_SIZE") := by
    refine (Prog.run_request BPlusTree.handler _ (PageOp.getPage root)).trans ?_
    rw [BPlusTree.handler, hshort, error_bind]
    rfl
  have hroot' : BPlusTree.getRootPage.run BPlusTree.handler ⟨p, none, malloc⟩
      = .ok (root, ⟨p, none, malloc⟩) := Prog.run_request _ _ _
  have hinit : (BPlusTree.init P 'o').run BPlusTree.handler ⟨p, none, malloc⟩
      = .error (.assertFailed "nbytes == PAGE_SIZE") := by
    rw [BPlusTree.init, if_neg (by decide)]
    refine Prog.run_bind_of_error _ ?_ _
    rw [BPlusTree.loadRoot, Prog.run_bind_of_ok _ hroot']
    exact Prog.run_bind_of_error _ hget _
  rw [Session.load, BPlusTree.new, hnew, ok_bind, hinit]
  rfl

end Remains

end DbToy
