import DbToy.CheckValid
import DbToy.PrintKeys
import DbToy.SavedCells

/-!
# Reading any file

Any file can be put in the place of a database, also one that was cut off or damaged.  The
constructor looks at the front of the file and at the page that the front names (`openCheck`).

Of a file that opens, a method that reads has the result or the fault that it has on the bytes alone
(`ReadCall.onFile`), whatever was read before.  Closed again it is the file that it was, unless its
front counts more pages than the page table has entries.

* `AsRead`: what is in memory is what is in the file.
* `handler_asRead`: a look at the pages or at the root is a look at the bytes.
* `reads_of_any_file`: all of it.
-/

namespace DbToy

open Bytes Istream

/-! ## The bytes -/

/-- The root id in the metadata. -/
def fileRoot (file : List UInt8) : ℕ := decodeLE (slice file 0 8)

/-- `get_page(page_id)` on a file that nothing was written to. -/
def filePage (file : List UInt8) (id : ℕ) : Except Fault Page :=
  if filePages file ≤ pageId id then .error (.exitFailure "page_id greater than capacity")
  else if tableMaxPages ≤ pageId id then .error (.pageIndex (pageId id))
  else
    match pageOf file (pageId id) with
    | some page => .ok page
    | none => .error (.assertFailed "nbytes == PAGE_SIZE")

/-- What the constructor checks of a file. -/
def openCheck (file : List UInt8) : Except Fault Unit := do
  let page ← filePage file (fileRoot file)
  let _ ← BtreeNode.loadNodeFrom page
  assertThat (page.isRoot = true) "root->is_root()"

lemma decodeLE_append_zeros (n : ℕ) : ∀ bs : List UInt8,
    decodeLE (bs ++ List.replicate n 0) = decodeLE bs
  | [] => by
      induction n with
      | zero => rfl
      | succ n ih =>
          show (0 : UInt8).toNat + 256 * decodeLE ([] ++ List.replicate n 0) = 0
          rw [ih]
          rfl
  | b :: bs => by rw [List.cons_append, decodeLE, decodeLE, decodeLE_append_zeros n bs]

/-- The metadata that a file has at its front; what it is too short for is zero. -/
lemma loadFromDisk_zero (file : List UInt8) (counts : ℕ → ℕ) :
    ∃ pos counts', (BtreeMetaData.mk 0 0).loadFromDisk ⟨file, 0, counts⟩
      = (⟨fileRoot file, filePages file⟩, ⟨file, pos, counts'⟩) := by
  have hzero : encodeLE 8 0 = List.replicate 8 0 := rfl
  obtain ⟨c₁, e₁⟩ := readBuffer_spec ⟨file, 0, counts⟩ (encodeLE 8 0)
  obtain ⟨c₂, e₂⟩ := readBuffer_spec ⟨file, 0 + (slice file 0 8).length, c₁⟩ (encodeLE 8 0)
  -- the second number is read where the first ends, at the end of a file that has not got it
  have hsecond : slice file (0 + (slice file 0 8).length) 8 = slice file 8 8 := by
    have hlen := length_slice file 0 8
    rcases Nat.lt_or_ge file.length 8 with hlt | hge
    · rw [slice_of_length_le (by omega), slice_of_length_le (by omega)]
    · rw [hlen]
      congr 1
      omega
  simp only [length_encodeLE] at e₁ e₂
  rw [hzero, List.drop_replicate] at e₁ e₂
  rw [hsecond] at e₂
  refine ⟨0 + (slice file 0 8).length + (slice file 8 8).length, c₂, ?_⟩
  simp only [BtreeMetaData.loadFromDisk, FileDesc.lseek, hzero, e₁, e₂, decodeLE_append_zeros]
  rfl

lemma pageOf_eq_some {file : List UInt8} {id : ℕ} {page : Page} (h : pageOf file id = some page) :
    slice file (pageStart id) pageSize = page.bytes := by
  rw [pageOf] at h
  split_ifs at h
  cases h
  rfl

lemma length_of_pageOf {file : List UInt8} {id : ℕ} {page : Page} (h : pageOf file id = some page) :
    pageStart id + pageSize ≤ file.length := OnDisk.length_le (pageOf_eq_some h)

/-- The metadata of a file that has them in full. -/
lemma metaBytes_of_file {file : List UInt8} (hlen : 16 ≤ file.length) :
    metaBytes ⟨fileRoot file, filePages file⟩ = slice file 0 16 := by
  have h₁ := encodeLE_decodeLE (slice file 0 8)
  have h₂ := encodeLE_decodeLE (slice file 8 8)
  rw [length_slice_of_le (by omega)] at h₁ h₂
  rw [metaBytes, fileRoot, filePages, h₁, h₂, ← slice_add file 0 8 8]

/-! ## The pager -/

namespace BTreePager

/-- Nothing was written: the metadata are those of the file, and so are the pages in memory. -/
structure AsRead (file : List UInt8) (p : BTreePager) : Prop where
  bytes : p.fd.bytes = file
  metaData : p.metaData = ⟨fileRoot file, filePages file⟩
  pages : ∀ id page, p.pages id = some page → pageOf file id = some page

variable {malloc : ℕ → Page} {p : BTreePager} {file : List UInt8}

lemma AsRead.numPages_eq (h : p.AsRead file) : p.numPages = filePages file := by
  rw [numPages, h.metaData]

lemma new_asRead (file : List UInt8) (counts : ℕ → ℕ) :
    ∃ p, new (some file) 'o' counts = .ok p ∧ p.AsRead file := by
  obtain ⟨pos, counts', e⟩ := loadFromDisk_zero file counts
  refine ⟨⟨⟨file, pos, counts'⟩, ⟨fileRoot file, filePages file⟩, fun _ => none⟩, ?_, rfl, rfl, ?_⟩
  · rw [new, if_neg (by decide), if_pos rfl]
    simp only [e]
  · rintro id page ⟨⟩

/-- **A page is asked for**, for the first time or again. -/
lemma getPage_asRead (h : p.AsRead file) (id : ℕ) :
    Prog.Gives (AsRead file) (filePage file id) (p.getPage malloc id) := by
  rw [filePage, getPage, h.numPages_eq]
  split_ifs with hnum hmax
  · rfl
  · show (p.entry (pageId id) >>= _) = _
    rw [p.entry_of_ge hmax]
    rfl
  · simp only [p.entry_of_lt (not_le.mp hmax), ok_bind]
    cases hentry : p.pages (pageId id) with
    | some page =>
        rw [h.pages _ _ hentry]
        exact ⟨p, rfl, h⟩
    | none =>
        obtain ⟨counts, e⟩ := readBuffer_spec (p.fd.lseek (pageStart (pageId id)))
          (malloc (pageId id)).bytes
        have hslice : slice (p.fd.lseek (pageStart (pageId id))).bytes
            (p.fd.lseek (pageStart (pageId id))).pos (malloc (pageId id)).bytes.length
            = slice file (pageStart (pageId id)) pageSize := by
          rw [(malloc _).length_bytes, ← h.bytes]
          rfl
        rw [hslice] at e
        cases hpage : pageOf file (pageId id) with
        | some page =>
            rw [pageOf_eq_some hpage, page.length_bytes,
              List.drop_of_length_le (by rw [(malloc _).length_bytes]), List.append_nil] at e
            simp only [e, assertThat_of, ok_bind]
            refine ⟨_, rfl, h.bytes, h.metaData, ?_⟩
            intro i q hq
            rw [setEntry_pages] at hq
            split_ifs at hq with hi
            · cases hq
              rw [hi, hpage]
            · exact h.pages i q hq
        | none =>
            have hshort : (slice file (pageStart (pageId id)) pageSize).length ≠ pageSize := by
              intro hfull
              rw [pageOf, dif_pos hfull] at hpage
              cases hpage
            simp only [e]
            rw [assertThat_of_not hshort]
            rfl

/-- A page is written back as it was read. -/
lemma flushPage_asRead (h : p.AsRead file) {id : ℕ} (hid : id < tableMaxPages) :
    ∃ q, p.flushPage id = .ok q ∧ q.AsRead file := by
  rw [flushPage, p.entry_of_lt hid, ok_bind]
  cases hentry : p.pages id with
  | none => exact ⟨p, rfl, h⟩
  | some page =>
      have hpage := h.pages id page hentry
      obtain ⟨counts, e⟩ := writeBuffer_spec (p.fd.lseek (pageStart id)) page.bytes
        (fun hnil => by simpa [hnil, pageSize] using page.length_bytes)
      have hsame : patch 0 (p.fd.lseek (pageStart id)).bytes (p.fd.lseek (pageStart id)).pos
          page.bytes = file := by
        show patch 0 p.fd.bytes (pageStart id) page.bytes = file
        rw [h.bytes, ← pageOf_eq_some hpage, patch_slice 0 (length_of_pageOf hpage)]
      rw [hsame, page.length_bytes] at e
      simp only [sync, p.entry_of_lt hid, hentry, ok_bind, e, assertThat_of]
      refine ⟨_, rfl, rfl, h.metaData, ?_⟩
      intro i q hq
      rw [setEntry_pages] at hq
      split_ifs at hq
      exact h.pages i q hq

lemma flushAll_asRead : ∀ (ids : List ℕ) {p : BTreePager}, p.AsRead file →
    (∀ id ∈ ids, id < tableMaxPages) → ∃ q, ids.foldlM flushPage p = .ok q ∧ q.AsRead file
  | [], p, h, _ => ⟨p, rfl, h⟩
  | id :: ids, p, h, hids => by
      obtain ⟨p₁, e₁, h₁⟩ := flushPage_asRead h (hids id List.mem_cons_self)
      obtain ⟨p₂, e₂, h₂⟩ := flushAll_asRead ids h₁ fun i hi => hids i (List.mem_cons_of_mem _ hi)
      exact ⟨p₂, by rw [List.foldlM_cons, e₁, ok_bind, e₂], h₂⟩

/-- **Closing** gives the file that was opened.  The loop of the destructor runs over as many
entries of the page table as the front of the file counts pages. -/
lemma AsRead.destroy (h : p.AsRead file) (hlen : 16 ≤ file.length) :
    p.destroy = if filePages file ≤ tableMaxPages then .ok file
      else .error (.pageIndex tableMaxPages) := by
  set p₀ : BTreePager := { p with fd := p.metaData.writeToDisk p.fd } with hp₀
  have h₀ : p₀.AsRead file := by
    refine ⟨?_, h.metaData, h.pages⟩
    show (p.metaData.writeToDisk p.fd).bytes = file
    rw [writeToDisk_bytes, h.bytes, h.metaData, metaBytes_of_file hlen,
      patch_slice 0 (by rw [Nat.zero_add]; exact hlen)]
  have hdestroy : p.destroy = (List.range (filePages file)).foldlM flushPage p₀ >>=
      fun q => .ok q.fd.bytes := by
    rw [← h₀.numPages_eq]
    rfl
  rw [hdestroy]
  split_ifs with hle
  · obtain ⟨q, e, hq⟩ := flushAll_asRead (List.range (filePages file)) h₀
      fun id hid => lt_of_lt_of_le (List.mem_range.mp hid) hle
    rw [e, ok_bind, hq.bytes]
  · -- the entries that the table has come first
    obtain ⟨n, hn⟩ : ∃ n, filePages file = tableMaxPages + (n + 1) :=
      ⟨filePages file - tableMaxPages - 1, by omega⟩
    obtain ⟨q, e, hq⟩ := flushAll_asRead (List.range tableMaxPages) h₀
      fun id hid => List.mem_range.mp hid
    rw [hn, List.range_add, List.foldlM_append, e, ok_bind, List.range_succ_eq_map, List.map_cons,
      List.foldlM_cons, flushPage, q.entry_of_ge (Nat.le_add_right _ _)]
    rfl

end BTreePager

/-! ## The tree -/

namespace BPlusTree

variable {file : List UInt8} {t : BPlusTree}

/-- Looks at the pages and at the root, answered from the bytes.  Other requests have no answer. -/
def fileHandler (file : List UInt8) : Handler PageOp PageOp.Ans Fault Unit
  | .getPage id, _ => (filePage file id).map (·, ())
  | .getRootPage, _ => .ok (fileRoot file, ())
  | .getRoot, _ => .ok (some (fileRoot file), ())
  | _, _ => .error .nullPointer

/-- A tree object that nothing was written through. -/
structure AsRead (file : List UInt8) (t : BPlusTree) : Prop where
  pager : t.pager.AsRead file
  root : t.root = some (fileRoot file)

lemma handler_getPage (h : t.pager.AsRead file) (id : ℕ) :
    Prog.Gives (fun t' => t'.pager.AsRead file ∧ t'.root = t.root) (filePage file id)
      (handler (.getPage id) t) := by
  have hpage := @BTreePager.getPage_asRead t.malloc t.pager file h id
  cases hfile : filePage file id with
  | error e =>
      rw [hfile] at hpage
      show handler (.getPage id) t = .error e
      rw [handler, show t.pager.getPage t.malloc id = .error e from hpage, error_bind]
  | ok page =>
      rw [hfile] at hpage
      obtain ⟨q, e, hq⟩ := hpage
      exact ⟨{ t with pager := q }, by rw [handler, e]; rfl, hq, rfl⟩

/-- **A look at the pages or at the root** is a look at the bytes. -/
lemma handler_asRead (o : PageOp) (t : BPlusTree) (u : Unit) (ho : o.Looks) (h : t.AsRead file) :
    Prog.Agree (fun t _ => t.AsRead file) (handler o t) (fileHandler file o u) := by
  cases o with
  | getPage id =>
      have hfst : ((filePage file id).map (·, ())).map Prod.fst = filePage file id := by
        cases filePage file id <;> rfl
      have hgives : Prog.Gives (AsRead file) (((filePage file id).map (·, ())).map Prod.fst)
          (handler (.getPage id) t) := by
        rw [hfst]
        exact (handler_getPage h.pager id).mono fun t' ht' => ⟨ht'.1, ht'.2.trans h.root⟩
      exact Prog.gives_iff.mp hgives
  | getRootPage => exact ⟨congrArg BtreeMetaData.rootPid h.pager.metaData, h⟩
  | getRoot => exact ⟨h.root, h⟩
  | writePage id page => exact ho.elim
  | allocatePage => exact ho.elim
  | setRootPage id => exact ho.elim
  | numPages => exact ho.elim
  | setRoot id => exact ho.elim

lemma looks_checkRoot : Prog.Only PageOp.Looks checkRoot :=
  .bind (only_rootBlock trivial fun _ => trivial) fun _ => .liftM _

/-- The root bit on the bytes. -/
lemma run_checkRoot_file {page : Page} (hfile : filePage file (fileRoot file) = .ok page) :
    checkRoot.run (fileHandler file) ()
      = (assertThat (page.isRoot = true) "root->is_root()").map (·, ()) := by
  have hblock : rootBlock.run (fileHandler file) () = .ok (page, ()) := by
    have hroot : getRoot.run (fileHandler file) () = .ok (some (fileRoot file), ()) := rfl
    rw [rootBlock, Prog.run_bind_of_ok _ hroot]
    refine (Prog.run_request _ _ (PageOp.getPage _)).trans ?_
    rw [fileHandler, hfile]
    rfl
  rw [checkRoot, Prog.run_bind_of_ok _ hblock, Prog.run_lift]

/-- **Opening a file.** -/
lemma new_open (P : TreeParams) (file : List UInt8) (counts : ℕ → ℕ) (malloc : ℕ → Page) :
    (∀ e, openCheck file = .error e → new P (some file) 'o' counts malloc = .error e) ∧
      (openCheck file = .ok () →
        ∃ t, new P (some file) 'o' counts malloc = .ok t ∧ t.AsRead file) := by
  obtain ⟨p, hp, hread⟩ := BTreePager.new_asRead file counts
  set t₀ : BPlusTree := ⟨p, none, malloc⟩
  have hpid : getRootPage.run handler t₀ = .ok (fileRoot file, t₀) :=
    (Prog.run_request handler t₀ PageOp.getRootPage).trans
      (congrArg (fun id => Except.ok (id, t₀)) (congrArg BtreeMetaData.rootPid hread.metaData))
  have hnew : new P (some file) 'o' counts malloc =
      loadRoot.run handler t₀ >>= fun r => checkRoot.run handler r.2 >>= fun r => .ok r.2 := by
    rw [new, hp, ok_bind, init, if_neg (by decide), Prog.run_bind, bind_assoc]
  have hget := handler_getPage (t := t₀) hread (fileRoot file)
  rw [hnew, loadRoot, Prog.run_bind_of_ok _ hpid, openCheck]
  cases hfile : filePage file (fileRoot file) with
  | error e =>
      rw [hfile] at hget
      have hrun : (getPage (fileRoot file)).run handler t₀ = .error e :=
        (Prog.run_request handler t₀ (PageOp.getPage _)).trans hget
      rw [Prog.run_bind_of_error _ hrun]
      exact ⟨by rintro _ ⟨⟩; rfl, by rintro ⟨⟩⟩
  | ok page =>
      rw [hfile] at hget
      obtain ⟨t, ht, hread₁, -⟩ := hget
      have hrun : (getPage (fileRoot file)).run handler t₀ = .ok (page, t) :=
        (Prog.run_request handler t₀ (PageOp.getPage _)).trans ht
      rw [Prog.run_bind_of_ok _ hrun, ok_bind]
      cases hload : BtreeNode.loadNodeFrom page with
      | error e => exact ⟨by rintro _ ⟨⟩; rfl, by rintro ⟨⟩⟩
      | ok node =>
          -- the root bit is checked on the page that is in memory now
          have hcheck := looks_checkRoot.run_related handler_asRead (t := ())
            (⟨hread₁, rfl⟩ : AsRead file { t with root := some (fileRoot file) })
          rw [run_checkRoot_file hfile] at hcheck
          show (∀ e, assertThat (page.isRoot = true) "root->is_root()" = .error e →
              (checkRoot.run handler { t with root := some (fileRoot file) } >>= fun r => .ok r.2)
                = .error e) ∧
            (assertThat (page.isRoot = true) "root->is_root()" = .ok () →
              ∃ t', (checkRoot.run handler { t with root := some (fileRoot file) } >>=
                fun r => .ok r.2) = .ok t' ∧ t'.AsRead file)
          constructor
          · intro e hbit
            rw [hbit] at hcheck
            rw [Prog.Agree.eq_error hcheck]
            rfl
          · intro hbit
            rw [hbit] at hcheck
            obtain ⟨t', ht', hread'⟩ := Prog.Agree.exists_ok hcheck
            exact ⟨t', by rw [ht']; rfl, hread'⟩

/-! ## The methods that read -/

section

variable {A : PageOp → Prop}

lemma only_pushChildren (hget : ∀ id, A (.getPage id)) (node : InternalNode) (level : ℤ) :
    ∀ (count i : ℕ) (que : List QueNodeInfo), Prog.Only A (pushChildren node level count i que)
  | 0, _, _ => .pure _
  | count + 1, i, _ => .bind (.liftM _) fun _ => .bind (only_getNodeBy hget _) fun _ =>
      only_pushChildren hget node level count (i + 1) _

lemma only_printLoop (hget : ∀ id, A (.getPage id)) : ∀ (fuel : ℕ) (que : List QueNodeInfo)
    (level : ℤ), Prog.Only A (printLoop fuel que level)
  | 0, [], _ => .pure _
  | 0, _ :: _, _ => .fail _
  | _ + 1, [], _ => .pure _
  | fuel + 1, curr :: que, level => by
      refine .bind (.liftM _) fun _ => .bind ?_ fun _ => .bind ?_ fun _ => .pure _
      · cases curr.node with
        | inner node => exact only_pushChildren hget node _ _ _ _
        | leaf node => exact .pure _
      · exact only_printLoop hget fuel _ _

lemma only_printKeys (hlooks : ∀ o : PageOp, o.Looks → A o) (fuel : ℕ) :
    Prog.Only A (printKeys fuel) := by
  have hget : ∀ id, A (.getPage id) := fun id => hlooks _ trivial
  exact .bind (only_rootBlock (hlooks _ trivial) hget) fun page => .bind (.liftM _) fun node =>
    .bind (.request (hlooks _ trivial)) fun pageId => only_printLoop hget fuel _ _

lemma only_checkChildren (hget : ∀ id, A (.getPage id)) (node : InternalNode) (pageId : ℕ) :
    ∀ count i : ℕ, Prog.Only A (checkChildren node pageId count i)
  | 0, _ => .pure _
  | count + 1, i => by
      refine .bind (.liftM _) fun key => .bind (.liftM _) fun left => ?_
      refine .bind (.request (hget _)) fun lpage => .bind (.liftM _) fun lchild => ?_
      refine .bind (.liftM _) fun right => .bind (.request (hget _)) fun rpage => ?_
      refine .bind (.liftM _) fun rchild => .bind (.liftM _) fun _ => ?_
      refine .bind (.liftM _) fun last => .bind (.liftM _) fun _ => ?_
      refine .bind (.liftM _) fun first => .bind (.liftM _) fun _ => ?_
      exact only_checkChildren hget node pageId count (i + 1)

lemma only_checkValid (hlooks : ∀ o : PageOp, o.Looks → A o) (P : TreeParams) :
    Prog.Only A (checkValid P) := by
  have hget : ∀ id, A (.getPage id) := fun id => hlooks _ trivial
  refine .bind (.request (hlooks _ trivial)) fun rootPid => ?_
  refine only_postOrderVisit hget ?_ nofun nofun _ _ _ _ _
  intro f hf pageId isValid
  cases hf
  rw [innerNodeChecker]
  split_ifs
  · exact .pure _
  · refine .bind (.request (hget _)) fun page => .bind (.liftM _) fun ptr => ?_
    refine .bind (.request (hlooks _ trivial)) fun rootPid => .bind (.liftM _) fun _ => ?_
    refine .bind (.liftM _) fun isIncreasing => .bind (.liftM _) fun _ => ?_
    cases ptr with
    | leaf node => exact .fail _
    | inner node => exact .bind (only_checkChildren hget node pageId _ _) fun _ => .pure _

end

end BPlusTree

/-- A method that reads.  `print_keys` is given the turns that its loop may make. -/
inductive ReadCall where
  | find (key : UInt32)
  | select (minVal maxVal : UInt32)
  | checkValid
  | printKeys (turns : ℕ)

inductive ReadReply where
  | location (loc : KeyLocation) (cell : Option (UInt32 × Row))
  | rows (cells : List (UInt32 × Row))
  | valid (isValid : Bool)
  | printed (out : List UInt8)
  deriving DecidableEq

namespace ReadCall

def run (P : TreeParams) : ReadCall → PageM ReadReply
  | find key => do
      let r ← BPlusTree.findRow P.rowSize key
      pure (.location r.1 r.2)
  | select minVal maxVal => do
      let cells ← BPlusTree.selectRows P.rowSize minVal maxVal
      pure (.rows cells)
  | checkValid => do
      let isValid ← BPlusTree.checkValid P
      pure (.valid isValid)
  | printKeys turns => do
      let out ← BPlusTree.printKeys turns
      pure (.printed out)

def answer (P : TreeParams) (c : ReadCall) (t : BPlusTree) : Except Fault (ReadReply × BPlusTree) :=
  (c.run P).run BPlusTree.handler t

/-- The reply that the bytes of a file give. -/
def onFile (P : TreeParams) (file : List UInt8) (c : ReadCall) : Except Fault ReadReply :=
  ((c.run P).run (BPlusTree.fileHandler file) ()).map Prod.fst

lemma looks (P : TreeParams) (c : ReadCall) : Prog.Only PageOp.Looks (c.run P) := by
  cases c with
  | find key => exact .bind (BPlusTree.only_findRow (fun _ ho => ho) _ _) fun _ => .pure _
  | select minVal maxVal =>
      exact .bind (BPlusTree.only_selectRows (fun _ ho => ho) _ _ _) fun _ => .pure _
  | checkValid => exact .bind (BPlusTree.only_checkValid (fun _ ho => ho) P) fun _ => .pure _
  | printKeys turns => exact .bind (BPlusTree.only_printKeys (fun _ ho => ho) _) fun _ => .pure _

/-- **A method that reads** has the result that it has on the bytes. -/
lemma answer_asRead (P : TreeParams) {file : List UInt8} (c : ReadCall) {t : BPlusTree}
    (h : t.AsRead file) :
    Prog.Gives (BPlusTree.AsRead file) (c.onFile P file) (c.answer P t) :=
  Prog.gives_iff.mpr ((c.looks P).run_related BPlusTree.handler_asRead (t := ()) h)

end ReadCall

/-- A file with a page in it has its metadata. -/
lemma length_of_openCheck {file : List UInt8} {u : Unit} (h : openCheck file = .ok u) :
    16 ≤ file.length := by
  obtain ⟨page, hpage, -⟩ := bind_eq_ok h
  rw [filePage] at hpage
  split_ifs at hpage
  split at hpage
  · next page' heq =>
      have hlen := length_of_pageOf heq
      rw [pageStart, BtreeMetaData.getDataSize] at hlen
      omega
  · cases hpage

/-- **Reading any file.**  Whether it opens is up to the front of the file and the page that the
front names; what is read of it is up to its bytes, call by call; and closed again it is what it
was, where the page table has entries for as many pages as the front counts. -/
theorem reads_of_any_file (P : TreeParams) (file : List UInt8) (counts : ℕ → ℕ)
    (malloc : ℕ → Page) :
    (∀ e, openCheck file = .error e → BPlusTree.new P (some file) 'o' counts malloc = .error e) ∧
      (openCheck file = .ok () → ∃ t, BPlusTree.new P (some file) 'o' counts malloc = .ok t ∧
        ∀ calls : List ReadCall, Prog.Gives
          (fun t' => t'.destroy = if filePages file ≤ tableMaxPages then .ok file
            else .error (.pageIndex tableMaxPages))
          (calls.mapM (ReadCall.onFile P file)) (Runs.runAll (ReadCall.answer P) calls t)) := by
  obtain ⟨herror, hok⟩ := BPlusTree.new_open P file counts malloc
  refine ⟨herror, fun hcheck => ?_⟩
  obtain ⟨t, hnew, hread⟩ := hok hcheck
  refine ⟨t, hnew, fun calls => ?_⟩
  have hrun := @Runs.runAll_stateless _ _ _ _ (BPlusTree.AsRead file) (ReadCall.answer P)
    (ReadCall.onFile P file) (fun c _ h => c.answer_asRead P h) calls t hread
  exact hrun.mono fun t' hread' => hread'.pager.destroy (length_of_openCheck hcheck)

/-- A file of one page: a leaf with one cell of one byte, and `count` as its number of cells. -/
def leafFile (count : ℕ) : List UInt8 :=
  encodeLE 8 0 ++ encodeLE 8 1 ++
    (((((((Page.filled 0).setNodeType nodeTypeLeaf).setRoot true).setParent nodeParentInvalid).setU32
      leafNodeNumCellsOffset count).setU32 leafNodeRowsizeOffset 1).set leafNodeHeaderSize
        [5, 0, 0, 0, 7]).bytes

/-- Every method reads the one cell, and the file stays. -/
theorem reads_of_any_file_leaf : ∃ t t',
    BPlusTree.new smallParams (some (leafFile 1)) 'o' (fun _ => 0) (fun _ => Page.filled 0) = .ok t ∧
    Runs.runAll (ReadCall.answer smallParams)
        [.find 5, .find 6, .select 0 9, .checkValid, .printKeys 1] t
      = .ok ([.location ⟨0, 0, true⟩ (some (5, [7])), .location ⟨0, 1, false⟩ none,
          .rows [(5, [7])], .valid true, .printed (bytesOf "level 0:\npage   0: 5 \n")], t') ∧
    t'.destroy = .ok (leafFile 1) := by
  obtain ⟨t, hnew, hreads⟩ := (reads_of_any_file smallParams (leafFile 1) (fun _ => 0)
    fun _ => Page.filled 0).2 (by decide +kernel)
  have hreplies : [ReadCall.find 5, .find 6, .select 0 9, .checkValid, .printKeys 1].mapM
        (ReadCall.onFile smallParams (leafFile 1))
      = .ok [.location ⟨0, 0, true⟩ (some (5, [7])), .location ⟨0, 1, false⟩ none,
          .rows [(5, [7])], .valid true, .printed (bytesOf "level 0:\npage   0: 5 \n")] := by
    decide +kernel
  obtain ⟨t', hrun, hdestroy⟩ := Prog.Gives.exists_ok (hreads _) hreplies
  have hpages : filePages (leafFile 1) ≤ tableMaxPages := by decide +kernel
  rw [if_pos hpages] at hdestroy
  exact ⟨t, t', hnew, hrun, hdestroy⟩

/-- As an `int` this number of cells is negative: the visit meets none of them. -/
example : [ReadCall.select 0 9, .checkValid].mapM (ReadCall.onFile smallParams (leafFile (2 ^ 31)))
    = .ok [.rows [], .valid true] := by
  decide +kernel

/-- An empty file has no pages. -/
example : openCheck [] = .error (.exitFailure "page_id greater than capacity") := by
  decide

end DbToy
