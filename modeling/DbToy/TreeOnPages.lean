import DbToy.InternalSpec
import DbToy.LeafSpec
import DbToy.Lib.Rooted
import DbToy.TreeImage

/-!
# Search trees stored in pages

`Holds` relates a search tree to the pages that store it: each leaf's page holds its cells, each
inner node's page holds its keys and the page ids of its children.  It looks only at the bodies of
the pages (`Holds.congr`).  `Linked` says that each child's page names its parent.

The requests of a tree program on an image whose pages are all there do not fail
(`run_getPage`, `run_writePage`, `run_allocatePage`).
-/

namespace DbToy

open SearchTree

/-- The trees that the program builds: keys of 32 bits, and the bytes of the rows. -/
abbrev RowTree : ℕ → Type := Tree UInt32 Row

/-- The page is a leaf with these cells. -/
structure IsLeaf (rowSize : ℕ) (page : Page) (cells : List (UInt32 × Row)) : Prop where
  nodeType : page.nodeType = nodeTypeLeaf
  rowSize_eq : page.u32 leafNodeRowsizeOffset = rowSize
  cells_eq : (LeafNode.view page rowSize).cells = cells
  length_le : cells.length ≤ LeafNode.pageMax rowSize

/-- The page is an inner node with these keys and children. -/
structure IsInner (page : Page) (keys : List UInt32) (children : List ℕ) : Prop where
  nodeType : page.nodeType = nodeTypeInner
  keys_eq : (InternalNode.load page).keys = keys
  children_eq : (InternalNode.load page).children = children
  length_le : keys.length ≤ InternalNode.pageMax

/-- The page is an inner node with this child. -/
def HasChild (page : Page) (id : ℕ) : Prop :=
  page.nodeType = nodeTypeInner ∧ id ∈ (InternalNode.load page).children

/-- The pages store the tree. -/
def Holds (rowSize : ℕ) (content : ℕ → Page) : (h : ℕ) → RowTree h → Prop
  | 0, t => IsLeaf rowSize (content (Leaf.pid t)) (Leaf.cells t)
  | h + 1, t => IsInner (content (Inner.pid t)) (Inner.slots t).keys
      ((Inner.slots t).children.map (pid h)) ∧
      ∀ c ∈ (Inner.slots t).children, Holds rowSize content h c

/-- Below the node, every child's page names its parent. -/
def Linked (content : ℕ → Page) : (h : ℕ) → RowTree h → Prop
  | 0, _ => True
  | h + 1, t => ∀ c ∈ (Inner.slots t).children,
      (content (pid h c)).parent = Inner.pid t ∧ Linked content h c

section Congr

variable {rowSize : ℕ} {p q : Page}

lemma IsLeaf.congr {cells : List (UInt32 × Row)} (h : IsLeaf rowSize p cells)
    (hb : p.body = q.body) : IsLeaf rowSize q cells where
  nodeType := (Page.nodeType_congr hb).symm.trans h.nodeType
  rowSize_eq := (Page.u32_congr hb (by decide)).symm.trans h.rowSize_eq
  cells_eq := (LeafNode.cells_congr hb rowSize).symm.trans h.cells_eq
  length_le := h.length_le

lemma IsInner.congr {keys : List UInt32} {children : List ℕ} (h : IsInner p keys children)
    (hb : p.body = q.body) : IsInner q keys children where
  nodeType := (Page.nodeType_congr hb).symm.trans h.nodeType
  keys_eq := (InternalNode.keys_congr hb).symm.trans h.keys_eq
  children_eq := (InternalNode.children_congr hb).symm.trans h.children_eq
  length_le := h.length_le

lemma HasChild.congr {id : ℕ} (h : HasChild p id) (hb : p.body = q.body) : HasChild q id :=
  ⟨(Page.nodeType_congr hb).symm.trans h.1, InternalNode.children_congr hb ▸ h.2⟩

variable {f g : ℕ → Page}

lemma Holds.congr : ∀ {h : ℕ} {t : RowTree h}, Holds rowSize f h t →
    (∀ id ∈ pids h t, (f id).body = (g id).body) → Holds rowSize g h t
  | 0, t, ht, hb => IsLeaf.congr ht (hb _ (List.mem_singleton_self _))
  | h + 1, t, ht, hb => by
      refine ⟨ht.1.congr (hb _ List.mem_cons_self), fun c hc => (ht.2 c hc).congr ?_⟩
      intro id hid
      exact hb id (List.mem_cons_of_mem _ (List.mem_flatMap.mpr ⟨c, hc, hid⟩))

/-- The parent of the node itself is not looked at. -/
lemma Linked.congr : ∀ {h : ℕ} {t : RowTree h}, Linked f h t →
    (∀ id ∈ (pids h t).tail, (f id).parent = (g id).parent) → Linked g h t
  | 0, _, _, _ => trivial
  | h + 1, t, ht, hp => by
      intro c hc
      have hmem : ∀ id ∈ pids h c, (f id).parent = (g id).parent := fun id hid =>
        hp id (List.mem_flatMap.mpr ⟨c, hc, hid⟩)
      obtain ⟨hparent, hc'⟩ := ht c hc
      exact ⟨(hmem _ (pid_mem_pids h c)).symm.trans hparent,
        hc'.congr fun id hid => hmem id (List.mem_of_mem_tail hid)⟩

end Congr

/-- The leaf where a key belongs is stored like every other. -/
lemma Holds.leafFor {rowSize : ℕ} {content : ℕ → Page} (key : UInt32) : ∀ {h : ℕ} {t : RowTree h},
    Holds rowSize content h t →
      IsLeaf rowSize (content (leafFor key h t).pid) (leafFor key h t).cells
  | 0, _, ht => ht
  | h + 1, t, ht =>
      @Holds.leafFor rowSize content key h _ (ht.2 _ ((Inner.slots t).childFor_mem key))

/-- A map that is injective on the members is injective on the lists. -/
lemma eq_of_map_eq {α β : Type} {f : α → β} : ∀ {l m : List α},
    (∀ c ∈ l, ∀ d ∈ m, f c = f d → c = d) → l.map f = m.map f → l = m
  | [], [], _, _ => rfl
  | c :: l, d :: m, hinj, heq => by
      obtain ⟨hcd, hrest⟩ := List.cons.inj heq
      rw [hinj c List.mem_cons_self d List.mem_cons_self hcd,
        eq_of_map_eq (fun e he e' he' => hinj e (List.mem_cons_of_mem _ he) e'
          (List.mem_cons_of_mem _ he')) hrest]

/-- **Pages store one tree only** under each page id. -/
theorem Holds.unique {rowSize : ℕ} {content : ℕ → Page} : ∀ {h h' : ℕ} {t : RowTree h}
    {t' : RowTree h'}, Holds rowSize content h t → Holds rowSize content h' t' →
    pid h t = pid h' t' → (⟨h, t⟩ : Rooted UInt32 Row) = ⟨h', t'⟩ := by
  have htypes : nodeTypeLeaf ≠ nodeTypeInner := by decide
  intro h
  induction h with
  | zero =>
      intro h' t t' ht ht' hpid
      have hl : IsLeaf rowSize (content (Leaf.pid t)) (Leaf.cells t) := ht
      have hpid' : Leaf.pid t = pid h' t' := hpid
      rw [hpid'] at hl
      cases h' with
      | zero =>
          have hl' : IsLeaf rowSize (content (Leaf.pid t')) (Leaf.cells t') := ht'
          have hcells : Leaf.cells t = Leaf.cells t' := hl.cells_eq.symm.trans hl'.cells_eq
          have heq : (Leaf.mk (Leaf.pid t) (Leaf.cells t) : RowTree 0)
              = Leaf.mk (Leaf.pid t') (Leaf.cells t') := by rw [hcells, hpid']; rfl
          exact congrArg (Rooted.mk 0) heq
      | succ h' => exact absurd (hl.nodeType.symm.trans ht'.1.nodeType) htypes
  | succ h ih =>
      intro h' t t' ht ht' hpid
      have hi := ht.1
      have hpid' : Inner.pid t = pid h' t' := hpid
      rw [hpid'] at hi
      cases h' with
      | zero =>
          have hl' : IsLeaf rowSize (content (Leaf.pid t')) (Leaf.cells t') := ht'
          exact absurd (hl'.nodeType.symm.trans hi.nodeType) htypes
      | succ h' =>
          have hkeys : (Inner.slots t).keys = (Inner.slots t').keys :=
            hi.keys_eq.symm.trans ht'.1.keys_eq
          have hpids : (Inner.slots t).children.map (pid h)
              = (Inner.slots t').children.map (pid h') :=
            hi.children_eq.symm.trans ht'.1.children_eq
          obtain ⟨c, cs, hc⟩ :=
            List.exists_cons_of_ne_nil (List.ne_nil_of_mem (Inner.slots t).head_mem)
          obtain ⟨d, ds, hd⟩ :=
            List.exists_cons_of_ne_nil (List.ne_nil_of_mem (Inner.slots t').head_mem)
          have hcd : pid h c = pid h' d := by
            rw [hc, hd] at hpids
            exact (List.cons.inj hpids).1
          have hheight : h = h' := congrArg Rooted.height (ih (ht.2 c (hc ▸ List.mem_cons_self))
            (ht'.2 d (hd ▸ List.mem_cons_self)) hcd)
          subst hheight
          have hchildren := eq_of_map_eq (fun c hc d hd hpid =>
            eq_of_heq (Rooted.mk.inj (ih (ht.2 c hc) (ht'.2 d hd) hpid)).2) hpids
          have hslots := Alt.eq_of_lists hkeys hchildren
          have heq : (SearchTree.Inner.mk (Inner.pid t) (Inner.slots t) : RowTree (h + 1))
              = SearchTree.Inner.mk (Inner.pid t') (Inner.slots t') := by rw [hslots, hpid']; rfl
          exact congrArg (Rooted.mk (h + 1)) heq

/-! ## Loading nodes -/

lemma IsLeaf.load {rowSize : ℕ} {page : Page} {cells : List (UInt32 × Row)}
    (h : IsLeaf rowSize page cells) (hrow : 0 < LeafNode.pageMax rowSize) :
    LeafNode.load page = .ok (LeafNode.view page rowSize) :=
  LeafNode.load_spec h.rowSize_eq hrow

lemma IsLeaf.loadNodeFrom {rowSize : ℕ} {page : Page} {cells : List (UInt32 × Row)}
    (h : IsLeaf rowSize page cells) (hrow : 0 < LeafNode.pageMax rowSize) :
    BtreeNode.loadNodeFrom page = .ok (.leaf (LeafNode.view page rowSize)) := by
  rw [BtreeNode.loadNodeFrom, h.nodeType, if_neg (by decide), if_pos rfl, h.load hrow, ok_bind]

lemma IsInner.loadNodeFrom {page : Page} {keys : List UInt32} {children : List ℕ}
    (h : IsInner page keys children) :
    BtreeNode.loadNodeFrom page = .ok (.inner (InternalNode.load page)) := by
  rw [BtreeNode.loadNodeFrom, h.nodeType, if_pos rfl]

lemma IsLeaf.numCells {rowSize : ℕ} {page : Page} {cells : List (UInt32 × Row)}
    (h : IsLeaf rowSize page cells) : (LeafNode.view page rowSize).numCells = cells.length := by
  rw [← h.cells_eq, LeafNode.length_cells]

lemma IsInner.numKeys {page : Page} {keys : List UInt32} {children : List ℕ}
    (h : IsInner page keys children) : (InternalNode.load page).numKeys = keys.length := by
  rw [← h.keys_eq, InternalNode.length_keys]

/-- As an `int` the number of keys is not negative. -/
lemma IsInner.numKeys_lt {page : Page} {keys : List UInt32} {children : List ℕ}
    (h : IsInner page keys children) : (InternalNode.load page).numKeys < 2 ^ 31 := by
  rw [h.numKeys]
  exact lt_of_le_of_lt h.length_le (by rw [InternalNode.pageMax_eq]; omega)

/-- The page of a node, as an object. -/
def nodeOf (rowSize : ℕ) (content : ℕ → Page) : (h : ℕ) → RowTree h → BtreeNode
  | 0, t => .leaf (LeafNode.view (content (Leaf.pid t)) rowSize)
  | _ + 1, t => .inner (InternalNode.load (content (Inner.pid t)))

lemma Holds.loadNodeFrom {rowSize : ℕ} {content : ℕ → Page} (hrow : 0 < LeafNode.pageMax rowSize) :
    ∀ {h : ℕ} {t : RowTree h}, Holds rowSize content h t →
      BtreeNode.loadNodeFrom (content (pid h t)) = .ok (nodeOf rowSize content h t)
  | 0, _, ht => IsLeaf.loadNodeFrom ht hrow
  | _ + 1, _, ht => ht.1.loadNodeFrom

/-! ## Requests -/

namespace BPlusTree

variable {s : TreeImage} {id : ℕ}

lemma pageId_of_lt_tableMaxPages (hid : id < s.map.numPages)
    (hle : s.map.numPages ≤ tableMaxPages) : pageId id = id := by
  simp only [tableMaxPages] at hle
  exact pageId_of_lt (by omega)

lemma run_getPage (hid : id < s.map.numPages) (hle : s.map.numPages ≤ tableMaxPages) :
    (getPage id).run TreeImage.handler s = .ok (s.map.content id, s) := by
  have hp := pageId_of_lt_tableMaxPages hid hle
  refine (Prog.run_request TreeImage.handler s (PageOp.getPage id)).trans ?_
  simp only [TreeImage.handler, hp, if_pos hid]
  rfl

/-- The image with one page replaced. -/
def store (s : TreeImage) (id : ℕ) (page : Page) : TreeImage :=
  { s with map := s.map.write id page }

lemma run_writePage (hid : id < s.map.numPages) (hle : s.map.numPages ≤ tableMaxPages)
    (page : Page) :
    (writePage id page).run TreeImage.handler s = .ok ((), store s id page) := by
  have hp := pageId_of_lt_tableMaxPages hid hle
  refine (Prog.run_request TreeImage.handler s (PageOp.writePage id page)).trans ?_
  simp only [TreeImage.handler, hp, if_pos hid, store]
  rfl

/-- The image with one page more. -/
def extend (s : TreeImage) : TreeImage :=
  { s with map := s.map.allocate (s.malloc s.map.numPages) }

lemma content_store (s : TreeImage) (id i : ℕ) (page : Page) :
    (store s id page).map.content i = if i = id then page else s.map.content i :=
  s.map.write_content id i page

lemma content_extend (s : TreeImage) (i : ℕ) : (extend s).map.content i
    = if i = s.map.numPages then s.malloc s.map.numPages else s.map.content i :=
  s.map.allocate_content i _

/-- The image after the contents of page `id` have been split between it and a new page. -/
def splitPage (s : TreeImage) (id : ℕ) (page newPage : Page) : TreeImage :=
  store (store (extend s) id page) s.map.numPages newPage

lemma content_splitPage (s : TreeImage) (id i : ℕ) (page newPage : Page) :
    (splitPage s id page newPage).map.content i
      = if i = s.map.numPages then newPage else if i = id then page else s.map.content i := by
  rw [splitPage, content_store, content_store, content_extend]
  split_ifs <;> rfl

lemma run_allocatePage (hroom : s.map.numPages < tableMaxPages) :
    allocatePage.run TreeImage.handler s
      = .ok ((s.map.numPages, s.malloc s.map.numPages), extend s) := by
  refine (Prog.run_request TreeImage.handler s PageOp.allocatePage).trans ?_
  simp only [TreeImage.handler, if_pos hroom, extend]
  rfl

/-- The second write of a split. -/
lemma run_writePage_new (hroom : s.map.numPages < tableMaxPages) (id : ℕ) (page newPage : Page) :
    (writePage s.map.numPages newPage).run TreeImage.handler (store (extend s) id page)
      = .ok ((), splitPage s id page newPage) :=
  run_writePage (s := store (extend s) id page) (Nat.lt_succ_self _) hroom newPage

lemma run_allocatePage_of_full (hfull : tableMaxPages ≤ s.map.numPages) :
    allocatePage.run TreeImage.handler s = .error (.pageIndex tableMaxPages) := by
  refine (Prog.run_request TreeImage.handler s PageOp.allocatePage).trans ?_
  simp only [TreeImage.handler, if_neg (not_lt.mpr hfull)]
  rfl

end BPlusTree

end DbToy
