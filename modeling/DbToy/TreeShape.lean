import DbToy.TreeRefinement

/-!
# The shape of a stored tree

`Shape` is the structural invariant of a B+ tree in its pages; `tree_shape` says that every run on
a new tree ends in it.

The parent fields name the only parents there are: a page that has a child is named by it
(`Holds.parent_of_hasChild`), and every page below the root is the child of one
(`Holds.exists_parent`).
-/

namespace DbToy

open SearchTree
open Dictionary (SameLoads)

section

variable {rowSize : ℕ} {content : ℕ → Page}

lemma not_hasChild_of_isLeaf {page : Page} {cells : List (UInt32 × Row)}
    (h : IsLeaf rowSize page cells) (id : ℕ) : ¬HasChild page id := by
  have htypes : nodeTypeLeaf ≠ nodeTypeInner := by decide
  exact fun hc => htypes (h.nodeType.symm.trans hc.1)

/-- A child names the page that has it, and is not the top of the tree. -/
lemma Holds.parent_of_hasChild {p id : ℕ} : ∀ {h : ℕ} {t : RowTree h}, Holds rowSize content h t →
    Linked content h t → p ∈ pids h t → HasChild (content p) id →
    (content id).parent = p ∧ id ∈ (pids h t).tail
  | 0, t, ht, _, hp, hc => by
      have hleaf : IsLeaf rowSize (content (Leaf.pid t)) (Leaf.cells t) := ht
      rw [← List.mem_singleton.mp hp] at hleaf
      exact absurd hc (not_hasChild_of_isLeaf hleaf id)
  | h + 1, t, ht, hl, hp, hc => by
      rcases List.mem_cons.mp hp with rfl | hp
      · have hid := hc.2
        rw [ht.1.children_eq] at hid
        obtain ⟨c, hmem, rfl⟩ := List.mem_map.mp hid
        exact ⟨(hl c hmem).1, List.mem_flatMap.mpr ⟨c, hmem, pid_mem_pids h c⟩⟩
      · obtain ⟨c, hmem, hp⟩ := List.mem_flatMap.mp hp
        obtain ⟨hparent, hid⟩ := (ht.2 c hmem).parent_of_hasChild (hl c hmem).2 hp hc
        exact ⟨hparent, List.mem_flatMap.mpr ⟨c, hmem, List.mem_of_mem_tail hid⟩⟩

/-- Every page below the top is a child. -/
lemma Holds.exists_parent {id : ℕ} : ∀ {h : ℕ} {t : RowTree h}, Holds rowSize content h t →
    id ∈ (pids h t).tail → ∃ p ∈ pids h t, HasChild (content p) id
  | 0, _, _, hid => absurd hid List.not_mem_nil
  | h + 1, t, ht, hid => by
      obtain ⟨c, hmem, hid⟩ := List.mem_flatMap.mp hid
      rw [pids_eq_cons] at hid
      rcases List.mem_cons.mp hid with rfl | hid
      · refine ⟨Inner.pid t, List.mem_cons_self, ht.1.nodeType, ?_⟩
        rw [ht.1.children_eq]
        exact List.mem_map_of_mem hmem
      · obtain ⟨p, hp, hc⟩ := (ht.2 c hmem).exists_parent hid
        exact ⟨p, List.mem_cons_of_mem _ (List.mem_flatMap.mpr ⟨c, hmem, hp⟩), hc⟩

end

/-- The structural invariant: pages and root pointer of the image make up the tree. -/
structure Shape (P : TreeParams) (s : TreeImage) (R : Rooted UInt32 Row) : Prop where
  /-- Each node is in its page, leaves with the row size of the table; all leaves are `R.height`
  levels below the root. -/
  stored : Holds P.rowSize s.map.content R.height R.tree
  keysIncrease : Everywhere KeysIncrease R.height R.tree
  keysSeparate : Everywhere KeysSeparate R.height R.tree
  /-- Leaves hold between half their capacity and their capacity of cells, inner nodes of keys; the
  root may hold less, but an inner root has a key. -/
  filled : RootFilled P.leafCapacity P.innerCapacity R.height R.tree
  /-- The parent of every page but the root is the one page that has it as a child. -/
  parent : ∀ id < s.map.numPages, id ≠ s.map.rootPid →
    (s.map.content id).parent < s.map.numPages ∧
      ∀ p < s.map.numPages, HasChild (s.map.content p) id ↔ p = (s.map.content id).parent
  parent_root : (s.map.content s.map.rootPid).parent = nodeParentInvalid ∧
    ∀ p < s.map.numPages, ¬HasChild (s.map.content p) s.map.rootPid
  /-- Every page is one node of the tree. -/
  pages : (pids R.height R.tree).Perm (List.range s.map.numPages)
  root : s.root = some s.map.rootPid ∧ s.map.rootPid = pid R.height R.tree

/-- A stored tree whose nodes are filled has the shape. -/
theorem TreeImage.Stores.shape {P : TreeParams} {s : TreeImage} {R : Rooted UInt32 Row}
    (hs : s.Stores P.rowSize R.height R.tree)
    (hfilled : RootFilled P.leafCapacity P.innerCapacity R.height R.tree) : Shape P s R := by
  have hmem : ∀ p < s.map.numPages, p ∈ pids R.height R.tree := fun p hp =>
    hs.sound.pids.mem_iff.mpr (List.mem_range.mpr hp)
  have hnamed : ∀ p < s.map.numPages, ∀ id, HasChild (s.map.content p) id →
      (s.map.content id).parent = p ∧ id ∈ (pids R.height R.tree).tail := fun p hp _ hc =>
    hs.holds.parent_of_hasChild hs.linked (hmem p hp) hc
  refine
    { stored := hs.holds
      keysIncrease := hs.ordered.keysIncrease
      keysSeparate := keysSeparate_of_tight hs.sound.tight hs.sound.sorted
      filled := hfilled
      parent := fun id hid hne => ?_
      parent_root := ⟨hs.rootPid.symm ▸ hs.parent, fun p hp hc => ?_⟩
      pages := hs.sound.pids
      root := ⟨hs.rootPid.symm ▸ hs.root, hs.rootPid⟩ }
  · have htail : id ∈ (pids R.height R.tree).tail := by
      have hid' := hmem id hid
      rw [pids_eq_cons, ← hs.rootPid] at hid'
      exact (List.mem_cons.mp hid').resolve_left hne
    obtain ⟨p, hp, hc⟩ := hs.holds.exists_parent htail
    have hparent := (hnamed p (hs.lt_numPages p hp) id hc).1
    refine ⟨hparent.symm ▸ hs.lt_numPages p hp, fun q hq => ⟨?_, ?_⟩⟩
    · intro hqc
      exact (hnamed q hq id hqc).1.symm
    · rintro rfl
      rwa [hparent]
  · have htail := (hnamed p hp _ hc).2
    have hnodup := hs.sound.nodup
    rw [pids_eq_cons, ← hs.rootPid] at hnodup
    exact (List.nodup_cons.mp hnodup).1 htail

/-- The pages at the end of a run. -/
lemma Session.stores_of_run {P : TreeParams} {S₀ S : Session} (hP : P.Valid)
    {file : Option (List UInt8)} {counts : ℕ → ℕ} {malloc : ℕ → Page}
    (hcreate : Session.create P file counts malloc = .ok S₀) {calls : List TreeCall}
    (hcalls : ∀ c ∈ calls, SameLoads P c) {replies : List TreeReply}
    (hrun : S₀.runCalls calls = .ok (replies, S)) :
    ∃ s D, S.Simulates s D ∧ D.Steady P ∧ s.Stores P.rowSize D.tree.height D.tree.tree ∧
      (Dictionary.create P).runCalls calls = .ok (replies, D) := by
  have hsteady := Dictionary.create_steady hP
  rcases Session.runCalls_outcome (mirrors_of_create hP hcreate)
    (admitsAll_of_sameLoads hP hcalls) with ⟨_, S', D, hS, hD, hmirrors, -⟩ | ⟨hS, -⟩
  · cases hS.symm.trans hrun
    have hfinal := hsteady.runCalls hcalls hD
    obtain ⟨s, hs⟩ := hmirrors
    have hstores := hs.stores
    rw [hfinal.params_eq] at hstores
    exact ⟨s, D, hs, hfinal, hstores, hD⟩
  · exact nomatch hS.symm.trans hrun

/-- **Every run on a new tree ends in a tree of that shape.** -/
theorem tree_shape {P : TreeParams} {S₀ S : Session} (hP : P.Valid) {file : Option (List UInt8)}
    {counts : ℕ → ℕ} {malloc : ℕ → Page} (hcreate : Session.create P file counts malloc = .ok S₀)
    {calls : List TreeCall} (hcalls : ∀ c ∈ calls, SameLoads P c) {replies : List TreeReply}
    (hrun : S₀.runCalls calls = .ok (replies, S)) :
    ∃ s R, S.tree.Represents s ∧ Shape P s R := by
  obtain ⟨s, D, hs, hsteady, hstores, -⟩ := Session.stores_of_run hP hcreate hcalls hrun
  exact ⟨s, D.tree, hs.represents, hstores.shape hsteady.filled⟩

lemma exists_run_smallCalls : ∃ S₀ replies S,
    Session.create smallParams none (fun _ => 0) (fun _ => Page.filled 7) = .ok S₀ ∧
      S₀.runCalls smallCalls = .ok (replies, S) := by
  obtain ⟨S₀, hcreate, hmirrors⟩ := Session.create_mirrors smallParams_valid none (fun _ => 0)
    fun _ => Page.filled 7
  have hadmits := admitsAll_of_sameLoads smallParams_valid smallCalls_sameLoads
  rcases Session.runCalls_outcome hmirrors hadmits with ⟨replies, S, -, hS, -⟩ | ⟨hS, -⟩
  · exact ⟨S₀, replies, S, hcreate, hS⟩
  · exact absurd hS (runCalls_ne_pageIndex hmirrors hadmits (by decide) _)

theorem tree_shape_small : ∃ S₀ replies S s R,
    Session.create smallParams none (fun _ => 0) (fun _ => Page.filled 7) = .ok S₀ ∧
      S₀.runCalls smallCalls = .ok (replies, S) ∧ S.tree.Represents s ∧ Shape smallParams s R := by
  obtain ⟨S₀, replies, S, hcreate, hrun⟩ := exists_run_smallCalls
  obtain ⟨s, R, hrep, hshape⟩ := tree_shape smallParams_valid hcreate smallCalls_sameLoads hrun
  exact ⟨S₀, replies, S, s, R, hcreate, hrun, hrep, hshape⟩

end DbToy
