import DbToy.TreeRoot

/-!
# Creating, closing and opening a tree

* `new_create`: a tree on a new file stores a root without cells.
* `reopen_stores`: destroying a tree and opening its file again gives a tree that stores the same,
  with whatever loads and whatever `malloc` hands out from then on.
-/

namespace DbToy

open SearchTree

/-- The tree of a new file. -/
def emptyTree : Rooted UInt32 Row := ⟨0, Leaf.mk 0 []⟩

namespace BPlusTree

variable {P : TreeParams}

lemma run_checkRoot {s : TreeImage} {id : ℕ} (hroot : s.root = some id)
    (hid : id < s.map.numPages) (hmax : s.map.numPages ≤ tableMaxPages)
    (hbit : (s.map.content id).isRoot = true) :
    checkRoot.run TreeImage.handler s = .ok ((), s) := by
  have hblock : rootBlock.run TreeImage.handler s = .ok (s.map.content id, s) := by
    rw [rootBlock, Prog.run_bind_of_ok _ (run_getRoot s), hroot]
    exact run_getPage hid hmax
  rw [checkRoot, Prog.run_bind_of_ok _ hblock, Prog.run_lift, assertThat_of hbit]
  rfl

/-- The constructor in mode 'c', on an image without pages. -/
lemma run_init_create (hP : P.Valid) (malloc : ℕ → Page) :
    ∃ s, (init P 'c').run TreeImage.handler ⟨PageMap.empty, none, malloc⟩ = .ok ((), s) ∧
      s.Stores P.rowSize emptyTree.height emptyTree.tree ∧ s.map.numPages = 1 ∧
      s.malloc = malloc := by
  have hroom : 0 < tableMaxPages := by decide
  obtain ⟨n, hcreate, hwf, hrowSize, -, hnum, htype, -, -, hfield⟩ :=
    LeafNode.create_spec (malloc 0) hP.room
  set s₀ : TreeImage := ⟨PageMap.empty, none, malloc⟩
  set page := n.data.setParent nodeParentInvalid with hpage
  set s₁ := store (extend s₀) 0 page with hs₁
  have hcontent : s₁.map.content 0 = page := by rw [hs₁, content_store, if_pos rfl]
  have hleaf : IsLeaf P.rowSize n.data [] := by
    refine IsLeaf.of_node htype hfield (by rw [hwf.cellSize_eq, hrowSize]) ?_ (Nat.zero_le _)
    exact List.eq_nil_of_length_eq_zero (by rw [LeafNode.length_cells, hnum])
  have hleaf' : IsLeaf P.rowSize page [] := hleaf.congr (by rw [hpage, Page.body_setParent])
  have hunmark : unmarkRoot.run TreeImage.handler s₁ = .ok ((), s₁) := by
    rw [unmarkRoot, Prog.run_bind_of_ok _ (run_getRoot s₁)]
    rfl
  have hload : BtreeNode.loadNodeFrom (s₁.map.content 0)
      = .ok (.leaf (LeafNode.view page P.rowSize)) := by
    rw [hcontent]
    exact hleaf'.loadNodeFrom hP.room
  have hupdate := @run_updateRoot s₁ s₁ 0 hroom hunmark Nat.zero_lt_one _ hload
  set s₂ := reroot s₁ 0 with hs₂
  have htop : s₂.map.content 0 = (page.setRoot true).setParent nodeParentInvalid := by
    rw [hs₂, content_reroot, if_pos rfl, hcontent]
  have hbit : (s₂.map.content 0).isRoot = true := by
    rw [htop, Page.isRoot_setParent, Page.isRoot_setRoot]
  refine ⟨s₂, ?_, ?_, rfl, rfl⟩
  · have halloc : allocatePage.run TreeImage.handler s₀ = .ok ((0, malloc 0), extend s₀) :=
      run_allocatePage hroom
    have hcreateRoot : (createRoot P).run TreeImage.handler s₀ = .ok ((), s₂) := by
      rw [createRoot, Prog.run_bind_of_ok _ halloc, Prog.run_liftM_bind _ _ hcreate,
        Prog.run_bind_of_ok _ (run_writePage (s := extend s₀) Nat.zero_lt_one hroom _)]
      exact hupdate
    rw [init, if_pos rfl, Prog.run_bind_of_ok _ hcreateRoot]
    exact run_checkRoot rfl Nat.zero_lt_one hroom hbit
  · exact
      { holds := by
          show IsLeaf P.rowSize (s₂.map.content 0) []
          rw [htop]
          exact hleaf'.congr (by rw [Page.body_setParent (page.setRoot true), Page.body_setRoot])
        linked := trivial
        rootPid := rfl
        root := rfl
        isRoot := hbit
        parent := by
          show (s₂.map.content 0).parent = _
          rw [htop, Page.parent_setParent _ (by decide)]
        numPages_le := hroom
        sound := ⟨List.Perm.refl _, trivial, fun h => absurd rfl h, List.Pairwise.nil⟩ }

/-- The constructor in mode 'o', on an image that stores a tree. -/
lemma run_init_open {s : TreeImage} {h : ℕ} {t : RowTree h} (hP : P.Valid)
    (hs : s.Stores P.rowSize h t) (malloc : ℕ → Page) :
    (init P 'o').run TreeImage.handler ⟨s.map, none, malloc⟩
      = .ok ((), { s with malloc := malloc }) := by
  have hid := hs.lt_numPages _ (pid_mem_pids h t)
  have hload := hs.holds.loadNodeFrom hP.room
  set s₀ : TreeImage := ⟨s.map, none, malloc⟩
  have hroot : ({ s₀ with root := some (pid h t) } : TreeImage) = { s with malloc := malloc } := by
    rw [← hs.root]
  have hloadRoot : loadRoot.run TreeImage.handler s₀ = .ok ((), { s with malloc := malloc }) := by
    rw [loadRoot, Prog.run_bind_of_ok _ (run_getRootPage s₀), hs.rootPid,
      Prog.run_bind_of_ok _ (run_getPage (s := s₀) hid hs.numPages_le),
      Prog.run_liftM_bind _ _ hload, run_setRoot, hroot]
  rw [init, if_neg (by decide), Prog.run_bind_of_ok _ hloadRoot]
  exact run_checkRoot hs.root hid hs.numPages_le hs.isRoot

/-! ## On a pager -/

/-- **A tree on a new file** stores a root without cells. -/
theorem new_create (hP : P.Valid) (file : Option (List UInt8)) (counts : ℕ → ℕ)
    (malloc : ℕ → Page) :
    ∃ t s, new P file 'c' counts malloc = .ok t ∧ t.Represents s ∧
      s.Stores P.rowSize emptyTree.height emptyTree.tree ∧ s.map.numPages = 1 ∧
      s.malloc = malloc := by
  obtain ⟨p, hp, hrep⟩ := new_create_represents file counts
  obtain ⟨s, hinit, hs, hnum, hmalloc⟩ := run_init_create hP malloc
  have hagree := run_agrees (init P 'c') (t := ⟨p, none, malloc⟩)
    (s := ⟨PageMap.empty, none, malloc⟩) ⟨hrep, rfl, rfl⟩
  rw [hinit] at hagree
  obtain ⟨t, ht, hrep'⟩ := hagree.exists_ok
  refine ⟨t, s, ?_, hrep', hs, hnum, hmalloc⟩
  rw [new, hp, ok_bind, ht]
  rfl

/-- The file of a closed tree opens to a tree that stores the same. -/
theorem reopen_stores {t : BPlusTree} {s : TreeImage} {h : ℕ} {tree : RowTree h} (hP : P.Valid)
    (ht : t.Represents s) (hs : s.Stores P.rowSize h tree) (counts : ℕ → ℕ) (malloc : ℕ → Page) :
    ∃ file t', t.destroy = .ok file ∧ new P (some file) 'o' counts malloc = .ok t' ∧
      t'.Represents { s with malloc := malloc } ∧
      TreeImage.Stores P.rowSize { s with malloc := malloc } h tree := by
  obtain ⟨file, p, hdestroy, hnew, hrep⟩ := BTreePager.reopen_represents ht.pager counts
  have hagree := run_agrees (init P 'o') (t := ⟨p, none, malloc⟩)
    (s := ⟨s.map, none, malloc⟩) ⟨hrep, rfl, rfl⟩
  rw [run_init_open hP hs malloc] at hagree
  obtain ⟨t', ht', hrep'⟩ := hagree.exists_ok
  refine ⟨file, t', hdestroy, ?_, hrep', ⟨hs.holds, hs.linked, hs.rootPid, hs.root, hs.isRoot,
    hs.parent, hs.numPages_le, hs.sound⟩⟩
  rw [new, hnew, ok_bind, ht']
  rfl

end BPlusTree

end DbToy
