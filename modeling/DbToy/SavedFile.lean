import DbToy.PageRequests
import DbToy.PagerFile
import DbToy.ShellRuns

/-!
# Sessions that change nothing

A client may open a saved file and only look: find and select, ask for numbers, insert keys that
the tree has already, and open the file again in between, with other loads, as long as these are
even and positive.  Whatever it has read into memory, the file that it leaves is the one that it
found, byte for byte (`quiet_session_keeps_file`).

* `BPlusTree.Grows`: what any method of the tree can do to the file while it runs.
* `open_stores`: opening reads the file and does not write it.
* `Session.Untouched`: the session's pages are as the file has them.
-/

namespace DbToy

open Bytes SearchTree

namespace BPlusTree

/-- From one state of a tree object to a later one: pages are only added, and only a new page
changes the file, at its front. -/
structure Grows (t t' : BPlusTree) : Prop where
  numPages_le : t.pager.numPages ≤ t'.pager.numPages
  bytes_eq : t'.pager.numPages = t.pager.numPages → t'.pager.fd.bytes = t.pager.fd.bytes
  drop_eq : t'.pager.fd.bytes.drop 16 = t.pager.fd.bytes.drop 16

namespace Grows

variable {t t₁ t₂ : BPlusTree}

lemma refl (t : BPlusTree) : Grows t t := ⟨le_rfl, fun _ => rfl, rfl⟩

lemma trans (h₁ : Grows t t₁) (h₂ : Grows t₁ t₂) : Grows t t₂ where
  numPages_le := h₁.numPages_le.trans h₂.numPages_le
  bytes_eq h := by
    have hle₁ := h₁.numPages_le
    have hle₂ := h₂.numPages_le
    rw [h₂.bytes_eq (by omega), h₁.bytes_eq (by omega)]
  drop_eq := h₂.drop_eq.trans h₁.drop_eq

lemma of_file (h : t₁.pager.fd.bytes = t.pager.fd.bytes ∧ t₁.pager.metaData = t.pager.metaData) :
    Grows t t₁ where
  numPages_le := by rw [BTreePager.numPages, BTreePager.numPages, h.2]
  bytes_eq _ := h.1
  drop_eq := by rw [h.1]

end Grows

/-- A request that changes no number of the metadata leaves the file alone. -/
lemma handler_plain {o : PageOp} {t t' : BPlusTree} {x : o.Ans} (ho : o.Plain)
    (h : handler o t = .ok (x, t')) :
    t'.pager.fd.bytes = t.pager.fd.bytes ∧ t'.pager.metaData = t.pager.metaData := by
  cases o with
  | getPage id =>
      obtain ⟨⟨page, pager⟩, hget, h⟩ := bind_eq_ok h
      cases h
      exact BTreePager.getPage_file hget
  | writePage id page =>
      obtain ⟨pager, hwrite, h⟩ := bind_eq_ok h
      cases h
      exact BTreePager.writePage_file hwrite
  | getRootPage => cases h; exact ⟨rfl, rfl⟩
  | numPages => cases h; exact ⟨rfl, rfl⟩
  | getRoot => cases h; exact ⟨rfl, rfl⟩
  | setRoot id => cases h; exact ⟨rfl, rfl⟩
  | allocatePage => exact absurd ho not_false
  | setRootPage id => exact absurd ho not_false

/-- One request. -/
lemma handler_grows (o : PageOp) (t : BPlusTree) (x : PageOp.Ans o) (t' : BPlusTree)
    (h : handler o t = .ok (x, t')) : Grows t t' := by
  by_cases hplain : o.Plain
  · exact .of_file (handler_plain hplain h)
  · cases o with
    | allocatePage =>
        obtain ⟨⟨new, pager⟩, halloc, h⟩ := bind_eq_ok h
        cases h
        obtain ⟨-, hmeta, hbytes⟩ := BTreePager.allocatePage_file halloc
        have hnum : pager.numPages = t.pager.numPages + 1 := by rw [BTreePager.numPages, hmeta]
        refine ⟨by rw [hnum]; omega, fun heq => ?_, ?_⟩
        · have heq' : pager.numPages = t.pager.numPages := heq
          omega
        · show pager.fd.bytes.drop 16 = _
          rw [hbytes]
          exact drop_patch_zero 0 _ (length_metaBytes _)
    | setRootPage id => cases h; exact ⟨le_rfl, fun _ => rfl, rfl⟩
    | getPage id => exact absurd trivial hplain
    | writePage id page => exact absurd trivial hplain
    | getRootPage => exact absurd trivial hplain
    | numPages => exact absurd trivial hplain
    | getRoot => exact absurd trivial hplain
    | setRoot id => exact absurd trivial hplain

/-- **A method writes to the file only when it adds a page**, and then at the front. -/
theorem run_grows {α : Type} (p : PageM α) {t t' : BPlusTree} {a : α}
    (h : p.run handler t = .ok (a, t')) : Grows t t' :=
  Prog.run_preserves Grows.refl (fun h₁ h₂ => h₁.trans h₂) handler_grows p h

variable {P : TreeParams} {s : TreeImage} {h : ℕ} {tree : RowTree h}

/-- **Opening a file** that has the pages of a tree gives the tree, and leaves the file alone. -/
theorem open_stores (hP : P.Valid) (hs : s.Stores P.rowSize h tree) {file : List UInt8}
    (hmeta : slice file 0 16 = metaBytes ⟨s.map.rootPid, s.map.numPages⟩)
    (hpages : ∀ id < s.map.numPages, OnDisk file id (s.map.content id)) (counts : ℕ → ℕ)
    (malloc : ℕ → Page) :
    ∃ t, new P (some file) 'o' counts malloc = .ok t ∧
      t.Represents { s with malloc := malloc } ∧ t.pager.fd.bytes = file := by
  have hroot : s.map.rootPid < 2 ^ 64 := by
    have hlt := hs.lt_numPages _ (pid_mem_pids h tree)
    have hmax : tableMaxPages < 2 ^ 64 := by decide
    rw [hs.rootPid]
    exact hlt.trans_le (hs.numPages_le.trans hmax.le)
  obtain ⟨p, hnew, hrep⟩ := BTreePager.new_represents hs.numPages_le hroot hmeta hpages counts
  have hagree := run_agrees (init P 'o') (t := ⟨p, none, malloc⟩)
    (s := ⟨s.map, none, malloc⟩) ⟨hrep, rfl, rfl⟩
  rw [run_init_open hP hs malloc] at hagree
  obtain ⟨t, ht, hrep'⟩ := hagree.exists_ok
  refine ⟨t, by rw [new, hnew, ok_bind, ht]; rfl, hrep', ?_⟩
  rw [(run_grows _ ht).bytes_eq (hrep'.pager.numPages_eq.trans hrep.numPages_eq.symm)]
  exact BTreePager.new_open_file hnew

end BPlusTree

/-- The call changes nothing: it looks, it inserts a key that is there, or it closes the file and
opens it again. -/
def Dictionary.Quiet (D : Dictionary) : TreeCall → Prop
  | .insert key _ => key ∈ D.cells.map Prod.fst
  | .reopen leafLoad innerNodeLoad _ _ =>
      (leafLoad % 2 = 0 ∧ 0 < leafLoad) ∧ innerNodeLoad % 2 = 0 ∧ 0 < innerNodeLoad
  | _ => True

instance (D : Dictionary) : DecidablePred D.Quiet
  | .insert _ _ => inferInstanceAs (Decidable (_ ∈ _))
  | .reopen _ _ _ _ => inferInstanceAs (Decidable (_ ∧ _))
  | .find _ => isTrue trivial
  | .select _ _ => isTrue trivial
  | .getRootPage => isTrue trivial
  | .getTotalPage => isTrue trivial

namespace Session

/-- `BPlusTree(path, 'o', row_size, leaf_load, inner_node_load)`. -/
def load (P : TreeParams) (file : List UInt8) (counts : ℕ → ℕ) (malloc : ℕ → Page) :
    Except Fault Session := do
  let tree ← BPlusTree.new P (some file) 'o' counts malloc
  .ok ⟨P, tree⟩

/-- The pages of the session's tree are as the file has them. -/
structure UntouchedImage (file : List UInt8) (S : Session) (s : TreeImage) (D : Dictionary) :
    Prop where
  simulates : S.Simulates s D
  bytes_eq : S.tree.pager.fd.bytes = file
  front : slice file 0 16 = metaBytes ⟨s.map.rootPid, s.map.numPages⟩
  onDisk : ∀ id < s.map.numPages, OnDisk file id (s.map.content id)

def Untouched (file : List UInt8) (S : Session) (D : Dictionary) : Prop :=
  ∃ s, UntouchedImage file S s D

variable {file : List UInt8} {S S' : Session} {s : TreeImage} {D : Dictionary}

lemma call_grows {α : Type} (p : PageM α) (reply : α → TreeReply) {r : TreeReply}
    (h : S.call p reply = .ok (r, S')) : S.tree.Grows S'.tree := by
  obtain ⟨⟨a, t⟩, ht, h⟩ := bind_eq_ok h
  cases h
  exact BPlusTree.run_grows p ht

/-- A method changes the file only if it adds a page. -/
lemma answer_grows {c : TreeCall} {r : TreeReply} (hc : c.isReopen = false)
    (h : S.answer c = .ok (r, S')) : S.tree.Grows S'.tree := by
  cases c with
  | insert key row => exact call_grows (BPlusTree.insert S.params key row) .status h
  | find key =>
      exact call_grows (BPlusTree.findRow S.params.rowSize key) (fun r => .location r.1 r.2) h
  | select minVal maxVal =>
      exact call_grows (BPlusTree.selectRows S.params.rowSize minVal maxVal) .rows h
  | getRootPage => exact call_grows BPlusTree.getRootPage .number h
  | getTotalPage => exact call_grows BPlusTree.getTotalPage .number h
  | reopen leafLoad innerNodeLoad counts malloc => cases hc

/-- **Closing** writes what the file has. -/
lemma Untouched.destroy (h : Untouched file S D) : S.tree.destroy = .ok file := by
  obtain ⟨s, hs⟩ := h
  exact BTreePager.destroy_clean hs.simulates.represents.pager hs.bytes_eq hs.front hs.onDisk

lemma UntouchedImage.of_map_eq {s' : TreeImage} (h : UntouchedImage file S s D)
    (hsim : S'.Simulates s' D) (hmap : s'.map = s.map) (hgrows : S.tree.Grows S'.tree) :
    Untouched file S' D := by
  refine ⟨s', hsim, ?_, hmap.symm ▸ h.front, hmap.symm ▸ h.onDisk⟩
  rw [hgrows.bytes_eq, h.bytes_eq]
  rw [hsim.represents.pager.numPages_eq, h.simulates.represents.pager.numPages_eq, hmap]

/-- A file that a tree has left opens to what the tree was. -/
lemma load_untouched {P : TreeParams} {tree : Rooted UInt32 Row} {n : ℕ} (hP : P.Valid)
    (hs : s.Stores P.rowSize tree.height tree.tree) (hnum : s.map.numPages = n)
    (hmeta : slice file 0 16 = metaBytes ⟨s.map.rootPid, s.map.numPages⟩)
    (hpages : ∀ id < s.map.numPages, OnDisk file id (s.map.content id)) (counts : ℕ → ℕ)
    (malloc : ℕ → Page) :
    ∃ S, load P file counts malloc = .ok S ∧ Untouched file S ⟨P, tree, n⟩ := by
  obtain ⟨t, ht, hrep, hbytes⟩ := BPlusTree.open_stores hP hs hmeta hpages counts malloc
  refine ⟨⟨P, t⟩, by rw [load, ht, ok_bind], { s with malloc := malloc },
    ⟨rfl, hP, hrep, ?_, hnum⟩, hbytes, hmeta, hpages⟩
  exact ⟨hs.holds, hs.linked, hs.rootPid, hs.root, hs.isRoot, hs.parent, hs.numPages_le, hs.sound⟩

/-- **One call** that changes nothing. -/
lemma Untouched.answer (h : Untouched file S D) {c : TreeCall} (hc : D.Quiet c) :
    ∃ r S' D', S.answer c = .ok (r, S') ∧ Untouched file S' D' ∧ D'.cells = D.cells := by
  obtain ⟨s, hs⟩ := h
  have hread : ∀ {c : TreeCall}, c.isReopen = false → D.Admits c →
      (∀ key row, c ≠ .insert key row) →
      ∃ r S' D', S.answer c = .ok (r, S') ∧ Untouched file S' D' ∧ D'.cells = D.cells := by
    intro c hreopen hadmits hinsert
    rcases answer_simulates hs.simulates hadmits with
      ⟨r, S', s', D', hS, hD, hsim, hmoves⟩ | ⟨-, hD⟩
    · obtain rfl : D' = D := by
        rcases Dictionary.answer_cases hD with ⟨key, row, rfl, -⟩ | ⟨_, _, _, _, rfl, -⟩ | ⟨heq, -⟩
        · exact absurd rfl (hinsert key row)
        · cases hreopen
        · exact heq
      have hmap := hmoves.cases.resolve_left (by
        rintro ⟨key, row, heq, -⟩
        exact hinsert key row heq)
      exact ⟨r, S', D', hS, hs.of_map_eq hsim hmap (answer_grows hreopen hS), rfl⟩
    · cases c with
      | insert key row => exact absurd rfl (hinsert key row)
      | find key => cases hD
      | select minVal maxVal => cases hD
      | getRootPage => cases hD
      | getTotalPage => cases hD
      | reopen leafLoad innerNodeLoad counts malloc => cases hD
  cases c with
  | insert key row =>
      obtain ⟨hparams, hvalid, hrep, hstores, hnum⟩ := hs.simulates
      have hrun := BPlusTree.run_insert_of_mem hvalid hstores hc row
      obtain ⟨t, ht, hrep'⟩ := call_of_ok TreeReply.status hrep hrun
      have hanswer : S.answer (.insert key row)
          = .ok (.status .failDuplicateKey, { S with tree := t }) := by
        rw [← ht, ← hparams]
        rfl
      exact ⟨_, _, D, hanswer, hs.of_map_eq ⟨hparams, hvalid, hrep', hstores, hnum⟩ rfl
        (answer_grows rfl hanswer), rfl⟩
  | reopen leafLoad innerNodeLoad counts malloc =>
      have hvalid' : (D.withLoads leafLoad innerNodeLoad).params.Valid :=
        ⟨hs.simulates.valid.two_cells, hc.1, hc.2⟩
      obtain ⟨S', hload, huntouched⟩ := @load_untouched _ _ _ D.tree _ hvalid' hs.simulates.stores
        hs.simulates.numPages hs.front hs.onDisk counts malloc
      obtain ⟨t, ht, heq⟩ := bind_eq_ok hload
      cases heq
      refine ⟨.reopened, _, D.withLoads leafLoad innerNodeLoad, ?_, huntouched, rfl⟩
      have hdestroy := Untouched.destroy ⟨s, hs⟩
      rw [Session.answer, hdestroy, ok_bind, hs.simulates.params]
      show (BPlusTree.new (D.withLoads leafLoad innerNodeLoad).params (some file) 'o' counts malloc
        >>= _) = _
      rw [ht]
      rfl
  | find key => exact hread rfl trivial (by simp)
  | select minVal maxVal => exact hread rfl trivial (by simp)
  | getRootPage => exact hread rfl trivial (by simp)
  | getTotalPage => exact hread rfl trivial (by simp)

end Session

/-- A saved file opens, with any even positive loads, to a session that has its pages. -/
lemma Saved.load_untouched {file : List UInt8} {D : Dictionary} (h : Saved file D)
    {leafLoad innerNodeLoad : ℕ} (hleaf : leafLoad % 2 = 0 ∧ 0 < leafLoad)
    (hinner : innerNodeLoad % 2 = 0 ∧ 0 < innerNodeLoad) (counts : ℕ → ℕ) (malloc : ℕ → Page) :
    ∃ S, Session.load (D.withLoads leafLoad innerNodeLoad).params file counts malloc = .ok S ∧
      S.Untouched file (D.withLoads leafLoad innerNodeLoad) := by
  obtain ⟨S, ⟨s, hs⟩, hdestroy⟩ := h
  obtain ⟨file', hdestroy', hmeta, hpages⟩ := BTreePager.destroy_spec hs.represents.pager
  cases hdestroy.symm.trans hdestroy'
  have hvalid : (D.withLoads leafLoad innerNodeLoad).params.Valid :=
    ⟨hs.valid.two_cells, hleaf, hinner⟩
  exact @Session.load_untouched _ _ _ D.tree _ hvalid hs.stores hs.numPages hmeta hpages counts
    malloc

/-- **A session that changes nothing leaves the file as it was**, byte for byte: whatever pages it
has read, however often it has closed and opened the file, and with whatever even positive loads. -/
theorem quiet_session_keeps_file {file : List UInt8} {D : Dictionary} (h : Saved file D)
    {leafLoad innerNodeLoad : ℕ} (hleaf : leafLoad % 2 = 0 ∧ 0 < leafLoad)
    (hinner : innerNodeLoad % 2 = 0 ∧ 0 < innerNodeLoad) (counts : ℕ → ℕ) (malloc : ℕ → Page)
    {calls : List TreeCall} (hquiet : ∀ c ∈ calls, D.Quiet c) :
    ∃ S replies S',
      Session.load (D.withLoads leafLoad innerNodeLoad).params file counts malloc = .ok S ∧
      S.runCalls calls = .ok (replies, S') ∧ S'.tree.destroy = .ok file := by
  obtain ⟨S, hload, huntouched⟩ := h.load_untouched hleaf hinner counts malloc
  have hrun := @Runs.runAll_total _ _ _ _ Session.answer
    (fun S => ∃ D', S.Untouched file D' ∧ D'.cells = D.cells) D.Quiet ?_ calls S
    ⟨_, huntouched, rfl⟩ hquiet
  · obtain ⟨replies, S', hcalls, D', huntouched', -⟩ := hrun
    exact ⟨S, replies, S', hload, hcalls, huntouched'.destroy⟩
  · rintro c S ⟨D', huntouched, hcells⟩ hc
    have hc' : D'.Quiet c := by
      cases c with
      | insert key row =>
          show key ∈ D'.cells.map Prod.fst
          rw [hcells]
          exact hc
      | reopen leafLoad innerNodeLoad counts malloc => exact hc
      | find key => trivial
      | select minVal maxVal => trivial
      | getRootPage => trivial
      | getTotalPage => trivial
    obtain ⟨r, S', D'', hanswer, huntouched', hcells'⟩ := huntouched.answer hc'
    exact ⟨r, S', hanswer, D'', huntouched', hcells'.trans hcells⟩

/-- One row, in a file that is opened with other loads than it was written with. -/
def oneRow : Dictionary := (Dictionary.create smallParams).put (5, [1])

lemma exists_saved_oneRow : ∃ file, Saved file oneRow := by
  obtain ⟨S, -, hmirrors⟩ := Session.create_mirrors smallParams_valid none (fun _ => 0)
    fun _ => Page.filled 7
  have hagree := hmirrors.answer (c := .insert 5 [1]) ⟨rfl, fun _ => by decide⟩
  have hanswer : (Dictionary.create smallParams).answer (.insert 5 [1])
      = .ok (.status .success, oneRow) := rfl
  rw [hanswer] at hagree
  obtain ⟨S', -, hmirrors'⟩ := hagree.exists_ok
  obtain ⟨file, -, hsaved⟩ := hmirrors'.exists_saved
  exact ⟨file, hsaved⟩

theorem quiet_session_keeps_file_one : ∃ file S replies S', Saved file oneRow ∧
    Session.load (oneRow.withLoads 4 6).params file (fun _ => 1) (fun _ => Page.filled 9) = .ok S ∧
    S.runCalls [.insert 5 [2, 3], .find 4, .reopen 2 2 (fun _ => 0) fun _ => Page.filled 1,
      .select 0 9] = .ok (replies, S') ∧ S'.tree.destroy = .ok file := by
  obtain ⟨file, hsaved⟩ := exists_saved_oneRow
  obtain ⟨S, replies, S', hload, hrun, hdestroy⟩ :=
    quiet_session_keeps_file hsaved (show 4 % 2 = 0 ∧ 0 < 4 by decide)
      (show 6 % 2 = 0 ∧ 0 < 6 by decide)
      (fun _ => 1) (fun _ => Page.filled 9)
      (show ∀ c ∈ [TreeCall.insert 5 [2, 3], .find 4,
        .reopen 2 2 (fun _ => 0) fun _ => Page.filled 1, .select 0 9], oneRow.Quiet c by decide)
  exact ⟨file, S, replies, S', hsaved, hload, hrun, hdestroy⟩

end DbToy
