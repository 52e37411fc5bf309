import DbToy.TreeRefinement

/-!
# Opening a file with other loads

The file does not record the loads, so a tree can be opened with others than it was built with.
Larger loads do no harm.  With smaller ones a node may hold more than it may be loaded with, and
`isFull`, which asks whether it holds as much, is false of it: the insertion goes on as if there
were room, and an assertion fails (`other_loads_abort`).

Everything is well as long as insertions keep away from such nodes (`other_loads_refine`).
-/

namespace DbToy

open SearchTree

variable {P : TreeParams} {S₀ : Session}

/-- Calls of a client that opens the file with any even positive loads. -/
def EvenLoads (P : TreeParams) : TreeCall → Prop
  | .insert _ row => row.length = P.rowSize
  | .reopen leafLoad innerNodeLoad _ _ =>
      (leafLoad % 2 = 0 ∧ 0 < leafLoad) ∧ innerNodeLoad % 2 = 0 ∧ 0 < innerNodeLoad
  | _ => True

/-- A new key meets no node that is fuller than the loads in force allow: the leaf where it belongs
is not, and neither is an inner node all of whose nodes below, on the way, are full. -/
def Dictionary.Fitting (D : Dictionary) : TreeCall → Prop
  | .insert key _ => key ∉ D.cells.map Prod.fst →
      Fits D.params.leafCapacity D.params.innerCapacity key D.tree.height D.tree.tree
  | _ => True

/-- The tree that the pages store is like that. -/
def Session.Fitting (S : Session) (c : TreeCall) : Prop := ∀ D, S.Mirrors D → D.Fitting c

lemma Dictionary.Fitting.admits {D : Dictionary} {c : TreeCall} (h : D.Fitting c)
    (hrow : D.params.rowSize = P.rowSize) (hc : EvenLoads P c) : D.Admits c := by
  cases c with
  | insert key row => exact ⟨hc.trans hrow.symm, h⟩
  | reopen leafLoad innerNodeLoad counts malloc => exact hc
  | find key => trivial
  | select minVal maxVal => trivial
  | getRootPage => trivial
  | getTotalPage => trivial

lemma Dictionary.answer_rowSize {D D' : Dictionary} {c : TreeCall} {r : TreeReply}
    (h : D.answer c = .ok (r, D')) : D'.params.rowSize = D.params.rowSize := by
  rcases Dictionary.answer_cases h with ⟨_, _, -, -, -, -, rfl⟩ | ⟨_, _, _, _, -, rfl⟩ | ⟨rfl, -⟩
  · rfl
  · rfl
  · rfl

/-- A run whose insertions fit is one that the dictionary keeps up with. -/
lemma admitsAll_of_fitting (hmirrors : S₀.Mirrors (.create P)) {calls : List TreeCall}
    (hcalls : ∀ c ∈ calls, EvenLoads P c)
    (hfits : Runs.Along Session.answer Session.Fitting calls S₀) :
    (Dictionary.create P).AdmitsAll calls := by
  have hadmits : ∀ (c : TreeCall) (S : Session) (D : Dictionary),
      (S.Mirrors D ∧ D.params.rowSize = P.rowSize) →
      (S.Fitting c ∧ EvenLoads P c) → D.Admits c := fun c S D hrel hc =>
    (hc.1 D hrel.1).admits hrel.2 hc.2
  refine @Runs.along_of_related _ _ _ _ _ (fun (S : Session) (D : Dictionary) => S.Mirrors D ∧
    D.params.rowSize = P.rowSize) Session.answer Dictionary.answer (fun S c => S.Fitting c ∧
    EvenLoads P c) Dictionary.Admits hadmits ?_ calls S₀ (.create P) ⟨hmirrors, rfl⟩
    (hfits.and_allowed hcalls)
  intro c S D hrel hc
  exact (hrel.1.answer (hadmits c S D hrel hc)).and fun _ _ h =>
    (Dictionary.answer_rowSize h).trans hrel.2

instance (D : Dictionary) : DecidablePred D.Fitting
  | .insert _ _ => inferInstanceAs (Decidable (_ → _))
  | .find _ => isTrue trivial
  | .select _ _ => isTrue trivial
  | .getRootPage => isTrue trivial
  | .getTotalPage => isTrue trivial
  | .reopen _ _ _ _ => isTrue trivial

/-! ## What fits -/

/-- What the page of a node has room for. -/
def nodeRoom (rowSize : ℕ) : ℕ → ℕ
  | 0 => LeafNode.pageMax rowSize
  | _ + 1 => InternalNode.pageMax

lemma Holds.within {rowSize : ℕ} {content : ℕ → Page} : ∀ {h : ℕ} {t : RowTree h},
    Holds rowSize content h t →
      Everywhere (fun h u => (nodeKeys h u).length ≤ nodeRoom rowSize h) h t
  | 0, t, ht => by
      have hleaf : IsLeaf rowSize (content (Leaf.pid t)) (Leaf.cells t) := ht
      show ((Leaf.cells t).map Prod.fst).length ≤ _
      rw [List.length_map]
      exact hleaf.length_le
  | _ + 1, _, ht => ⟨ht.1.length_le, fun c hc => (ht.2 c hc).within⟩

/-- **Under changing loads the tree is still the map of first rows**, and no node outgrows its page,
in every run whose insertions of new keys meet no node that is fuller than the loads allow. -/
theorem other_loads_refine (hP : P.Valid) {file : Option (List UInt8)} {counts : ℕ → ℕ}
    {malloc : ℕ → Page} (hcreate : Session.create P file counts malloc = .ok S₀)
    {calls : List TreeCall} (hcalls : ∀ c ∈ calls, EvenLoads P c)
    (hpages : ∀ i, S₀.runCalls calls ≠ .error (.pageIndex i))
    (hfits : Runs.Along Session.answer Session.Fitting calls S₀) :
    ∃ replies S, S₀.runCalls calls = .ok (replies, S) ∧ ExpectsAll calls replies ∧
      ∃ (s : TreeImage) (R : Rooted UInt32 Row), S.tree.Represents s ∧
        Holds P.rowSize s.map.content R.height R.tree ∧
        (pids R.height R.tree).Perm (List.range s.map.numPages) ∧
        Everywhere (fun h u => (nodeKeys h u).length ≤ nodeRoom P.rowSize h) R.height R.tree := by
  have hmirrors := mirrors_of_create hP hcreate
  rcases Session.runCalls_outcome hmirrors (admitsAll_of_fitting hmirrors hcalls hfits) with
    ⟨replies, S, D, hS, hD, hfinal, -, -, hexpects⟩ | ⟨hS, -⟩
  · obtain ⟨s, hs⟩ := hfinal
    have hrow : D.params.rowSize = P.rowSize :=
      Runs.runAll_keeps (fun c D r D' hD h => (Dictionary.answer_rowSize h).trans hD) rfl hD
    have hholds := hs.stores.holds
    rw [hrow] at hholds
    exact ⟨replies, S, hS, hexpects, s, D.tree, hs.represents, hholds, hs.stores.sound.pids,
      hholds.within⟩
  · exact absurd hS (hpages _)

/-- Built with loads of 4, opened with loads of 2, and again with loads of 6. -/
def changingCalls : List TreeCall :=
  [.insert 1 [1], .insert 2 [2], .reopen 2 2 (fun _ => 1) fun _ => Page.filled 9, .insert 3 [3],
    .insert 2 [4], .reopen 6 6 (fun _ => 1) fun _ => Page.filled 5, .insert 4 [5], .select 0 9]

theorem other_loads_refine_small : ∃ S₀ replies S,
    Session.create ⟨1, 4, 4⟩ none (fun _ => 0) (fun _ => Page.filled 7) = .ok S₀ ∧
      S₀.runCalls changingCalls = .ok (replies, S) ∧ ExpectsAll changingCalls replies := by
  have hP : TreeParams.Valid ⟨1, 4, 4⟩ := ⟨by decide, by decide, by decide⟩
  have hcalls : ∀ c ∈ changingCalls, EvenLoads ⟨1, 4, 4⟩ c := by
    simp [changingCalls, EvenLoads]
  have hadmits : (Dictionary.create ⟨1, 4, 4⟩).AdmitsAll changingCalls := by decide
  obtain ⟨S₀, hcreate, hmirrors⟩ := Session.create_mirrors hP none (fun _ => 0)
    fun _ => Page.filled 7
  obtain ⟨replies, S, hS, hexpects, -⟩ := other_loads_refine hP hcreate hcalls
    (runCalls_ne_pageIndex hmirrors hadmits (by decide))
    (Session.along_of_dictionary hmirrors hadmits (by decide))
  exact ⟨S₀, replies, S, hcreate, hS, hexpects⟩

/-! ## What does not -/

namespace BPlusTree

/-- A leaf that holds more than it may be loaded with does not take a row. -/
lemma run_insertToLeaf_overfull (hP : P.Valid) {s : TreeImage} {id : ℕ}
    {cells : List (UInt32 × Row)} (hp : IsLeaf P.rowSize (s.map.content id) cells)
    (hid : id < s.map.numPages) (hmax : s.map.numPages ≤ tableMaxPages)
    (hover : P.leafCapacity < cells.length) (key : UInt32) (row : Row) :
    (insertToLeaf P id key row).run TreeImage.handler s
      = .error (.assertFailed "num_cells() < num_max_cell") := by
  have hnum : (loadedLeaf P (s.map.content id)).numCells = cells.length := hp.numCells
  have hfull : (loadedLeaf P (s.map.content id)).isFull = false := by
    rw [LeafNode.isFull, hnum]
    exact beq_false_of_ne (ne_of_gt hover)
  have hinsert : (loadedLeaf P (s.map.content id)).insert key row
      = .error (.assertFailed "num_cells() < num_max_cell") := by
    have hno : ¬(loadedLeaf P (s.map.content id)).numCells
        < (loadedLeaf P (s.map.content id)).numMaxCell := by
      rw [hnum]
      exact not_lt_of_gt hover
    rw [LeafNode.insert, assertThat_of_not hno, error_bind]
  rw [insertToLeaf, Prog.run_bind_of_ok _ (run_getPage hid hmax),
    Prog.run_liftM_bind _ _ (hp.load hP.room), Prog.run_liftM_bind _ _ (setNodeLoad_view hP _),
    if_pos hfull]
  refine Prog.run_bind_of_error _ ?_ _
  rw [Prog.run_lift, hinsert]
  rfl

end BPlusTree

/-- **A new key that belongs into an overfull leaf aborts the process.** -/
theorem Session.Mirrors.insert_overfull {S : Session} {D : Dictionary} (h : S.Mirrors D)
    {key : UInt32} (hmem : key ∉ D.cells.map Prod.fst) (hover : D.params.leafCapacity
      < (leafFor key D.tree.height D.tree.tree).cells.length) (row : Row) :
    S.answer (.insert key row) = .error (.assertFailed "num_cells() < num_max_cell") := by
  obtain ⟨s, hparams, hvalid, hrep, hstores, hnum⟩ := h
  have hid := hstores.lt_numPages _ (leafFor_pid key D.tree.height D.tree.tree)
  have hleaf := BPlusTree.run_insertToLeaf_overfull hvalid (hstores.holds.leafFor key) hid
    hstores.numPages_le hover key row
  have hrun : (BPlusTree.insert D.params key row).run TreeImage.handler s
      = .error (.assertFailed "num_cells() < num_max_cell") := by
    rw [BPlusTree.insert_eq,
      Prog.run_bind_of_ok _ (BPlusTree.run_find (hstores.wellFormed hvalid.room)),
      if_neg ((locate_isExist hstores.ordered).not.mpr hmem), BPlusTree.insertBelow]
    exact Prog.run_bind_of_error _ (Prog.run_bind_of_error _ hleaf _) _
  have hanswer : S.answer (.insert key row)
      = S.call (BPlusTree.insert D.params key row) .status := by
    rw [← hparams]; rfl
  rw [hanswer]
  exact Session.call_of_error _ hrep hrun

/-- Three cells in a leaf, and room for two. -/
theorem other_loads_abort : ∃ S₀,
    Session.create ⟨1, 4, 4⟩ none (fun _ => 0) (fun _ => Page.filled 7) = .ok S₀ ∧
      S₀.runCalls [.insert 1 [1], .insert 2 [2], .insert 3 [3],
          .reopen 2 2 (fun _ => 1) fun _ => Page.filled 9, .insert 4 [4]]
        = .error (.assertFailed "num_cells() < num_max_cell") := by
  have hP : TreeParams.Valid ⟨1, 4, 4⟩ := ⟨by decide, by decide, by decide⟩
  obtain ⟨S₀, hcreate, hmirrors⟩ := Session.create_mirrors hP none (fun _ => 0)
    fun _ => Page.filled 7
  refine ⟨S₀, hcreate, ?_⟩
  set before : List TreeCall := [.insert 1 [1], .insert 2 [2], .insert 3 [3],
    .reopen 2 2 (fun _ => 1) fun _ => Page.filled 9] with hbefore
  have hadmits : (Dictionary.create ⟨1, 4, 4⟩).AdmitsAll before := by decide
  have hagree := Session.runCalls_agrees hmirrors hadmits
  have hD : (Dictionary.create ⟨1, 4, 4⟩).runCalls before
      = .ok ([.status .success, .status .success, .status .success, .reopened],
        ⟨⟨1, 2, 2⟩, ⟨0, Leaf.mk 0 [(1, [1]), (2, [2]), (3, [3])]⟩, 1⟩) := rfl
  rw [hD] at hagree
  obtain ⟨S, hS, hmirrors'⟩ := hagree.exists_ok
  have hinsert := @Session.Mirrors.insert_overfull _ _ hmirrors' 4 (by decide) (by decide) [4]
  show S₀.runCalls (before ++ [.insert 4 [4]]) = _
  rw [Session.runCalls, Runs.runAll_append_of_ok hS, Runs.runAll_cons_of_error hinsert]
  rfl

end DbToy
