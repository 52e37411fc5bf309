import DbToy.Lib.Subtrees
import DbToy.TreeOnPages

/-!
# Searching a stored tree

`find` on pages that store an ordered tree without empty nodes gives the leaf where the key belongs
and the rank of the key in it, and changes nothing (`run_find`).  The loop makes one turn for each
level (`run_findLoop`).

* `WellFormed`: what a search needs of the pages.
* `Stores`: what holds of the pages of every tree that insertion builds.
-/

namespace DbToy

open SearchTree

/-- Where the key is in the tree, or where it would go. -/
def locate (key : UInt32) (h : ℕ) (t : RowTree h) : KeyLocation :=
  ⟨(leafFor key h t).pid, rank key (leafFor key h t).cells,
    decide (key ∈ (leafFor key h t).cells.map Prod.fst)⟩

lemma mem_keys_iff {key : UInt32} {h : ℕ} {t : RowTree h} (ht : Ordered h t) :
    key ∈ (leafFor key h t).cells.map Prod.fst ↔ key ∈ (cells h t).map Prod.fst := by
  simp only [List.mem_map]
  constructor
  · rintro ⟨c, hc, hkey⟩
    exact ⟨c, leafFor_cells key h t c hc, hkey⟩
  · rintro ⟨c, hc, hkey⟩
    exact ⟨c, mem_leafFor ht c hc hkey, hkey⟩

/-- **The location of a key says whether the tree has it**, and where its cell is. -/
theorem locate_isExist {key : UInt32} {h : ℕ} {t : RowTree h} (ht : Ordered h t) :
    (locate key h t).isExist = true ↔ key ∈ (cells h t).map Prod.fst := by
  rw [← mem_keys_iff ht]
  exact decide_eq_true_iff

namespace BPlusTree

variable {rowSize : ℕ} {s : TreeImage} {key : UInt32}

lemma run_getNodeBy (hrow : 0 < LeafNode.pageMax rowSize)
    (hle : s.map.numPages ≤ tableMaxPages) {h : ℕ} {t : RowTree h}
    (ht : Holds rowSize s.map.content h t) (hid : pid h t < s.map.numPages) :
    (getNodeBy (pid h t)).run TreeImage.handler s
      = .ok (nodeOf rowSize s.map.content h t, s) := by
  rw [getNodeBy, Prog.run_bind_of_ok _ (run_getPage hid hle), Prog.run_lift, ht.loadNodeFrom hrow]
  rfl

/-- One turn of the descent: the search in an inner node finds the child where the key belongs. -/
lemma search_slot {page : Page} {keys A B : List UInt32} {children : List ℕ}
    (hp : IsInner page keys children) (hsorted : keys.Pairwise (· < ·)) (hne : keys ≠ [])
    (hkeys : keys = A ++ B) (hA : ∀ k ∈ A, k < key) (hB : ∀ k ∈ B, key ≤ k) :
    ∃ pos, BtreeNode.searchKeyPosition (.inner (InternalNode.load page)) key = .ok pos ∧
      (if 0 ≤ pos then do
          let k ← (InternalNode.load page).getKey pos.toNat
          .ok (if k = key then pos.toNat else pos.toNat + 1)
        else .ok (pos + 1).toNat : Except Fault ℕ) = .ok A.length := by
  have hlen := hp.length_le
  have hpm := InternalNode.pageMax_eq
  have hpos := List.length_pos_of_ne_nil hne
  have hget := InternalNode.getKey_keys (n := InternalNode.load page) (le_refl _)
    (by rw [hp.numKeys]; exact hlen)
  rw [hp.keys_eq] at hget
  obtain ⟨pos, e, hcut⟩ := searchKeyPosition_cut key hsorted hget hpos (by omega) hkeys hA hB
  refine ⟨pos, ?_, ?_⟩
  · rw [BtreeNode.searchKeyPosition]
    simp only [BtreeNode.getNumKeys, BtreeNode.getKey, hp.numKeys]
    exact e
  · rcases hcut with ⟨-, rfl, hk⟩ | ⟨-, hlast, hk⟩
    · rw [if_pos (by omega), Int.toNat_natCast, hk, ok_bind, if_pos rfl]
    · split_ifs with h0
      · obtain ⟨k, hk, hne'⟩ := hk h0
        rw [hk, ok_bind, if_neg hne', show pos.toNat + 1 = A.length by omega]
      · rw [hlast, Int.toNat_natCast]

/-- The descent reaches the leaf where the key belongs. -/
lemma run_findLoop (hrow : 0 < LeafNode.pageMax rowSize)
    (hle : s.map.numPages ≤ tableMaxPages) : ∀ {h : ℕ} {t : RowTree h},
    Holds rowSize s.map.content h t → Ordered h t → (h ≠ 0 → NonEmpty h t) →
    (∀ id ∈ pids h t, id < s.map.numPages) → ∀ fuel, h < fuel →
    (findLoop key fuel (pid h t) (nodeOf rowSize s.map.content h t)).run TreeImage.handler s
      = .ok (((leafFor key h t).pid, .leaf (LeafNode.view
          (s.map.content (leafFor key h t).pid) rowSize)), s) := by
  intro h
  induction h with
  | zero =>
      intro t _ _ _ _ fuel hfuel
      obtain ⟨fuel, rfl⟩ := Nat.exists_eq_succ_of_ne_zero (Nat.ne_of_gt hfuel)
      rfl
  | succ h ih =>
      intro t ht hord hne hids fuel hfuel
      obtain ⟨fuel, rfl⟩ := Nat.exists_eq_succ_of_ne_zero (Nat.ne_of_gt (Nat.zero_lt_of_lt hfuel))
      have hmem := (Inner.slots t).childFor_mem key
      obtain ⟨A, B, C, D, hkeys, hchildren, hlen, hA, hB, -⟩ := hord.cut key
      obtain ⟨pos, hpos, hslot⟩ := search_slot ht.1 hord.keys_sorted (hne (Nat.succ_ne_zero h)).1
        hkeys hA hB
      have hcut : (InternalNode.load (s.map.content (Inner.pid t))).children
          = C.map (pid h) ++ pid h ((Inner.slots t).childFor key) :: D.map (pid h) := by
        rw [ht.1.children_eq, hchildren, List.map_append, List.map_cons]
      have hchild := InternalNode.getChild_cut (n := InternalNode.load _) (le_refl _)
        (by rw [ht.1.numKeys]; exact ht.1.length_le) hcut
      rw [List.length_map, hlen] at hchild
      have hids' : ∀ id ∈ pids h ((Inner.slots t).childFor key), id < s.map.numPages :=
        fun id hid => hids id (List.mem_cons_of_mem _ (List.mem_flatMap.mpr ⟨_, hmem, hid⟩))
      have hnode := run_getNodeBy hrow hle (ht.2 _ hmem) (hids' _ (pid_mem_pids h _))
      show (findLoop key (fuel + 1) (Inner.pid t) (.inner _)).run TreeImage.handler s = _
      rw [findLoop, Prog.run_liftM_bind _ _ hpos, Prog.run_liftM_bind _ _ hslot,
        Prog.run_liftM_bind _ _ hchild, Prog.run_bind_of_ok _ hnode]
      exact ih (ht.2 _ hmem) (hord.1 _ hmem)
        (fun _ => (hne (Nat.succ_ne_zero h)).2 _ hmem) hids' fuel (by omega)

/-- The search in the leaf. -/
lemma run_findLeaf {page : Page} {cells : List (UInt32 × Row)} (hp : IsLeaf rowSize page cells)
    (hsorted : Sorted cells) (hne : cells ≠ []) (pageId : ℕ) :
    (do let pos ← (BtreeNode.searchKeyPosition (.leaf (LeafNode.view page rowSize)) key :
          Except Fault ℤ)
        if 0 ≤ pos then do
          let k ← ((BtreeNode.leaf (LeafNode.view page rowSize)).getKey pos.toNat :
            Except Fault UInt32)
          if k = key then pure ⟨pageId, pos.toNat, true⟩
          else pure ⟨pageId, (pos + 1).toNat, false⟩
        else pure ⟨pageId, (pos + 1).toNat, false⟩ : PageM KeyLocation).run TreeImage.handler s
      = .ok (⟨pageId, rank key cells, decide (key ∈ cells.map Prod.fst)⟩, s) := by
  have hlen := hp.length_le
  have hlt := LeafNode.pageMax_lt rowSize
  have hpos := List.length_pos_of_ne_nil hne
  have hget := LeafNode.getKey_cells (LeafNode.view_wf page rowSize)
    (show (LeafNode.view page rowSize).numCells ≤ _ by rw [hp.numCells]; exact hlen)
  rw [hp.cells_eq] at hget
  have hget' : ∀ i (hi : i < (cells.map Prod.fst).length),
      (BtreeNode.leaf (LeafNode.view page rowSize)).getKey i = .ok (cells.map Prod.fst)[i] := hget
  obtain ⟨A, B, hcells, hrank, hA, hB⟩ := exists_rank_cut key hsorted
  have hkeys : cells.map Prod.fst = A.map Prod.fst ++ B.map Prod.fst := by
    rw [hcells, List.map_append]
  have hA' : ∀ k ∈ A.map Prod.fst, k < key := by
    intro k hk
    obtain ⟨a, ha, rfl⟩ := List.mem_map.mp hk
    exact hA a ha
  have hB' : ∀ k ∈ B.map Prod.fst, key ≤ k := by
    intro k hk
    obtain ⟨b, hb, rfl⟩ := List.mem_map.mp hk
    exact hB b hb
  have hmem : key ∈ cells.map Prod.fst ↔ key ∈ B.map Prod.fst := by
    rw [hkeys, List.mem_append]
    exact or_iff_right fun h => lt_irrefl _ (hA' _ h)
  obtain ⟨pos, e, hcut⟩ := searchKeyPosition_cut key (List.pairwise_map.mpr hsorted) hget'
    (by rw [List.length_map]; exact hpos) (by rw [List.length_map]; omega) hkeys hA' hB'
  rw [List.length_map, ← hp.numCells] at e
  have e' : (BtreeNode.leaf (LeafNode.view page rowSize)).searchKeyPosition key = .ok pos := e
  rw [Prog.run_liftM_bind _ _ e']
  rw [List.length_map, hrank] at hcut
  rcases hcut with ⟨hB, rfl, hk⟩ | ⟨hB, hlast, hk⟩
  · rw [if_pos (by omega), Int.toNat_natCast, Prog.run_liftM_bind _ _ hk, if_pos rfl,
      Prog.run_pure, decide_eq_true (hmem.mpr hB)]
  · have hdec : decide (key ∈ cells.map Prod.fst) = false :=
      decide_eq_false fun h => hB (hmem.mp h)
    have hrank' : (pos + 1).toNat = rank key cells := by omega
    split_ifs with h0
    · obtain ⟨k, hk, hne'⟩ := hk h0
      rw [Prog.run_liftM_bind _ _ hk, if_neg hne', Prog.run_pure, hdec, hrank']
    · rw [Prog.run_pure, hdec, hrank']

end BPlusTree

/-! ## Trees for a search -/

/-- The pages store an ordered tree in which only the root may be without keys, and only if it is a
leaf. -/
structure TreeImage.WellFormed (rowSize : ℕ) (s : TreeImage) (h : ℕ) (t : RowTree h) : Prop where
  room : 0 < LeafNode.pageMax rowSize
  holds : Holds rowSize s.map.content h t
  ordered : Ordered h t
  nonEmpty : h ≠ 0 → NonEmpty h t
  rootPid : s.map.rootPid = pid h t
  root : s.root = some (pid h t)
  lt_numPages : ∀ id ∈ pids h t, id < s.map.numPages
  numPages_le : s.map.numPages ≤ tableMaxPages

lemma Holds.subtree {rowSize : ℕ} {content : ℕ → Page} {r s : Rooted UInt32 Row}
    (hr : Subtree r s) (hs : Holds rowSize content s.height s.tree) :
    Holds rowSize content r.height r.tree := by
  induction hr with
  | refl => exact hs
  | child hc _ ih => exact ih (hs.2 _ hc)

namespace TreeImage.WellFormed

variable {rowSize : ℕ} {s : TreeImage} {h : ℕ} {t : RowTree h}

/-- **No page is at two places** of the tree. -/
theorem nodup (hs : s.WellFormed rowSize h t) : (pids h t).Nodup :=
  pids_nodup hs.ordered hs.nonEmpty fun _ _ hr hr' hpid =>
    (hs.holds.subtree hr).unique (hs.holds.subtree hr') hpid

/-- The tree has as many nodes at most as there are pages. -/
lemma length_pids_le (hs : s.WellFormed rowSize h t) : (pids h t).length ≤ s.map.numPages := by
  have hsub : pids h t ⊆ List.range s.map.numPages :=
    fun id hid => List.mem_range.mpr (hs.lt_numPages id hid)
  have hle := (hs.nodup.subperm hsub).length_le
  rwa [List.length_range] at hle

lemma height_lt (hs : s.WellFormed rowSize h t) : h < tableMaxPages + 1 := by
  have hheight := height_lt_length_pids h t
  have hle := hs.length_pids_le
  have hmax := hs.numPages_le
  omega

end TreeImage.WellFormed

namespace BPlusTree

variable {rowSize : ℕ} {s : TreeImage} {key : UInt32} {h : ℕ} {t : RowTree h}

lemma run_rootBlock (hs : s.WellFormed rowSize h t) :
    rootBlock.run TreeImage.handler s = .ok (s.map.content (pid h t), s) := by
  have hroot : getRoot.run TreeImage.handler s = .ok (some (pid h t), s) := by
    refine (Prog.run_request TreeImage.handler s PageOp.getRoot).trans ?_
    simp only [TreeImage.handler, hs.root]
    rfl
  rw [rootBlock, Prog.run_bind_of_ok _ hroot]
  exact run_getPage (hs.lt_numPages _ (pid_mem_pids h t)) hs.numPages_le

lemma run_getRootPage (s : TreeImage) :
    getRootPage.run TreeImage.handler s = .ok (s.map.rootPid, s) :=
  Prog.run_request TreeImage.handler s PageOp.getRootPage

lemma run_getTotalPage (s : TreeImage) :
    getTotalPage.run TreeImage.handler s = .ok (s.map.numPages, s) :=
  Prog.run_request TreeImage.handler s PageOp.numPages

/-- **`find` finds the place of the key** and changes nothing. -/
theorem run_find (hs : s.WellFormed rowSize h t) :
    (find key).run TreeImage.handler s = .ok (locate key h t, s) := by
  have hnode := hs.holds.loadNodeFrom hs.room
  rw [find, Prog.run_bind_of_ok _ (run_getRootPage s), Prog.run_bind_of_ok _ (run_rootBlock hs),
    Prog.run_liftM_bind _ _ hnode, hs.rootPid]
  by_cases hempty : (nodeOf rowSize s.map.content h t).getNumKeys = 0
  · -- special case: root is empty
    rw [if_pos hempty, Prog.run_pure]
    cases h with
    | zero =>
        have hp : IsLeaf rowSize _ (Leaf.cells t) := hs.holds
        have hnil : Leaf.cells t = [] := List.eq_nil_of_length_eq_zero (hp.numCells.symm.trans hempty)
        show _ = Except.ok (KeyLocation.mk (Leaf.pid t) (rank key (Leaf.cells t))
          (decide (key ∈ (Leaf.cells t).map Prod.fst)), s)
        rw [hnil]
        rfl
    | succ h =>
        have hne := (hs.nonEmpty (Nat.succ_ne_zero h)).1
        have hnum := hs.holds.1.numKeys
        exact absurd (List.eq_nil_of_length_eq_zero (hnum.symm.trans hempty)) hne
  · rw [if_neg hempty, Prog.run_bind_of_ok _ (run_findLoop hs.room hs.numPages_le hs.holds hs.ordered
      hs.nonEmpty hs.lt_numPages _ hs.height_lt)]
    have hleaf := hs.holds.leafFor key
    have hne : (leafFor key h t).cells ≠ [] := by
      cases h with
      | zero =>
          rintro hnil
          exact hempty (hleaf.numCells.trans (by rw [hnil]; rfl))
      | succ h => exact (hs.nonEmpty (Nat.succ_ne_zero h)).leafFor key
    exact run_findLeaf hleaf hs.ordered.leafFor_sorted hne _

end BPlusTree

/-! ## The invariant -/

/-- The image stores the tree, and nothing else: root pointer, root id and root flag are those of
its top node, parents are linked, and its nodes are all the pages there are. -/
structure TreeImage.Stores (rowSize : ℕ) (s : TreeImage) (h : ℕ) (t : RowTree h) : Prop where
  holds : Holds rowSize s.map.content h t
  linked : Linked s.map.content h t
  rootPid : s.map.rootPid = pid h t
  root : s.root = some (pid h t)
  isRoot : (s.map.content (pid h t)).isRoot = true
  parent : (s.map.content (pid h t)).parent = nodeParentInvalid
  numPages_le : s.map.numPages ≤ tableMaxPages
  sound : Sound s.map.numPages h t

namespace TreeImage.Stores

variable {rowSize : ℕ} {s : TreeImage} {h : ℕ} {t : RowTree h}

lemma lt_numPages (hs : s.Stores rowSize h t) : ∀ id ∈ pids h t, id < s.map.numPages :=
  hs.sound.lt_of_mem

lemma ordered (hs : s.Stores rowSize h t) : Ordered h t := hs.sound.ordered

lemma nonEmpty (hs : s.Stores rowSize h t) : h ≠ 0 → NonEmpty h t := hs.sound.nonEmpty

lemma height_lt (hs : s.Stores rowSize h t) : h < tableMaxPages + 1 :=
  lt_of_lt_of_le hs.sound.height_lt (le_trans hs.numPages_le (Nat.le_succ _))

lemma wellFormed (hs : s.Stores rowSize h t) (hrow : 0 < LeafNode.pageMax rowSize) :
    s.WellFormed rowSize h t where
  room := hrow
  holds := hs.holds
  ordered := hs.ordered
  nonEmpty := hs.nonEmpty
  rootPid := hs.rootPid
  root := hs.root
  lt_numPages := hs.lt_numPages
  numPages_le := hs.numPages_le

end TreeImage.Stores

end DbToy
