import DbToy.TreeShape

/-!
# The frame of insertion

What an insertion leaves alone, in every tree that a session reaches (`insert_frame`).  Let `f` be
the number of full nodes from the leaf of the key upwards without a gap.  A new key takes `f` pages
and one for a new root if all nodes on the way are full; of the pages that were there it changes
the leaf, the other full nodes of that run and the first node that is not full, and besides these
only the parent fields of children that a new inner page has taken over.

`Framed` collects this for the trees and images before and after.
-/

namespace DbToy

open SearchTree
open Dictionary (SameLoads)

/-- What the insertion of a new key makes of the tree `R` in the image `s`. -/
structure Framed (P : TreeParams) (key : UInt32) (R R' : Rooted UInt32 Row) (s s' : TreeImage) :
    Prop where
  /-- A page for each node that splits, and one for a new root. -/
  numPages : s'.map.numPages
    = s.map.numPages + fullRun P.leafCapacity P.innerCapacity key R.height R.tree
      + if fullRun P.leafCapacity P.innerCapacity key R.height R.tree = R.height + 1 then 1 else 0
  height : R'.height = R.height
    + if fullRun P.leafCapacity P.innerCapacity key R.height R.tree = R.height + 1 then 1 else 0
  /-- The new root, if there is one, has the last page. -/
  rootPid : s'.map.rootPid
    = if fullRun P.leafCapacity P.innerCapacity key R.height R.tree = R.height + 1
      then s.map.numPages + fullRun P.leafCapacity P.innerCapacity key R.height R.tree
      else s.map.rootPid
  spares : Spares s s' (passed P.leafCapacity P.innerCapacity key R.height R.tree)

/-- If the leaf has room, its page is the only one that changes. -/
lemma Framed.only_leaf {P : TreeParams} {key : UInt32} {R R' : Rooted UInt32 Row}
    {s s' : TreeImage} (h : Framed P key R R' s s')
    (hrun : fullRun P.leafCapacity P.innerCapacity key R.height R.tree = 0) {id : ℕ}
    (hid : id < s.map.numPages) (hne : id ≠ (leafFor key R.height R.tree).pid) :
    s'.map.content id = s.map.content id := by
  have hnum := h.numPages
  rw [hrun, if_neg (Nat.succ_ne_zero _).symm] at hnum
  have hkept := h.spares id hid (by simpa [passed_of_fullRun_eq_zero hrun] using hne)
  rcases hkept with heq | ⟨q, hq, hq', -⟩
  · exact heq
  · omega

lemma Inserts.framed {P : TreeParams} {s s' : TreeImage} {R : Rooted UInt32 Row} {key : UInt32}
    {row : Row} (hP : P.Valid) (hs : s.Stores P.rowSize R.height R.tree)
    (hne : key ∉ R.cells.map Prod.fst) (hins : Inserts P s s' (key, row) R)
    (hsp : Spares s s' (passed P.leafCapacity P.innerCapacity key R.height R.tree)) :
    Framed P key R (R.insert P.leafCapacity P.innerCapacity (key, row) s.map.numPages).1 s s' := by
  have hL := hP.leafCapacity_even
  have hI := hP.innerCapacity_even
  have hfull := @full_iff_fullRun UInt32 Row _ P.leafCapacity P.innerCapacity key R.height R.tree
  have hpid := @Rooted.pid_insert UInt32 Row _ P.leafCapacity P.innerCapacity (key, row)
    R s.map.numPages (by omega) (by omega) hs.sound
    fun d hd heq => hne (List.mem_map.mpr ⟨d, hd, heq⟩)
  refine ⟨?_, ?_, ?_, hsp⟩
  · rw [hins.numPages, Rooted.insert_snd, fullRun_eq_splits]
    simp only [hfull, fullRun_eq_splits]
  · rw [Rooted.height_insert]
    simp only [hfull]
  · rw [hins.stores.rootPid, hpid, hs.rootPid, fullRun_eq_splits]
    simp only [hfull, fullRun_eq_splits]

/-- An insertion into the tree of the session changes nothing if the tree has the key, and what it
has to if the tree has not and the pages last. -/
def FramesInsert (P : TreeParams) (S : Session) (key : UInt32) (row : Row) : Prop :=
  ∃ s R, S.tree.Represents s ∧ s.Stores P.rowSize R.height R.tree ∧
    (key ∈ R.cells.map Prod.fst → ∃ S', S.answer (.insert key row)
      = .ok (.status .failDuplicateKey, S') ∧ S'.tree.Represents s) ∧
    (key ∉ R.cells.map Prod.fst →
      s.map.numPages + fullRun P.leafCapacity P.innerCapacity key R.height R.tree
        + (if fullRun P.leafCapacity P.innerCapacity key R.height R.tree = R.height + 1
            then 1 else 0) ≤ tableMaxPages →
      ∃ S' s' R', S.answer (.insert key row) = .ok (.status .success, S') ∧
        S'.tree.Represents s' ∧ s'.Stores P.rowSize R'.height R'.tree ∧ Framed P key R R' s s' ∧
        (fullRun P.leafCapacity P.innerCapacity key R.height R.tree = 0 →
          ∀ id < s.map.numPages, id ≠ (leafFor key R.height R.tree).pid →
            s'.map.content id = s.map.content id))

/-- **The frame of insertion.** -/
theorem insert_frame {P : TreeParams} {S₀ S : Session} (hP : P.Valid) {file : Option (List UInt8)}
    {counts : ℕ → ℕ} {malloc : ℕ → Page} (hcreate : Session.create P file counts malloc = .ok S₀)
    {calls : List TreeCall} (hcalls : ∀ c ∈ calls, SameLoads P c) {replies : List TreeReply}
    (hrun : S₀.runCalls calls = .ok (replies, S)) (key : UInt32) {row : Row}
    (hrow : row.length = P.rowSize) : FramesInsert P S key row := by
  obtain ⟨s, D, hs, hsteady, hstores, -⟩ := Session.stores_of_run hP hcreate hcalls hrun
  have hanswer : S.answer (.insert key row) = S.call (BPlusTree.insert P key row) .status := by
    rw [Session.answer, hs.params, hsteady.params_eq]
  refine ⟨s, D.tree, hs.represents, hstores, ?_, ?_⟩
  · intro hmem
    obtain ⟨t, ht, hrep⟩ := Session.call_of_ok TreeReply.status hs.represents
      (BPlusTree.run_insert_of_mem hP hstores hmem row)
    exact ⟨_, hanswer.trans ht, hrep⟩
  · intro hne hroom
    have hneeded := @Rooted.insert_snd UInt32 Row _ P.leafCapacity P.innerCapacity (key, row)
      s.map.numPages D.tree
    simp only [full_iff_fullRun, ← fullRun_eq_splits] at hneeded
    obtain ⟨hgood, -⟩ := BPlusTree.run_insert hP hstores hne hrow hsteady.filled.fits
    obtain ⟨s', hinsert, hins, hsp⟩ := hgood (hneeded.trans_le hroom)
    obtain ⟨t, ht, hrep⟩ := Session.call_of_ok TreeReply.status hs.represents hinsert
    have hframed := hins.framed hP hstores hne hsp
    exact ⟨_, s', _, hanswer.trans ht, hrep, hins.stores, hframed,
      fun hnone _ hid hleaf => hframed.only_leaf hnone hid hleaf⟩

/-! ## A leaf that splits -/

/-- The pages store no other tree. -/
lemma Session.Mirrors.eq_of_stores {S : Session} {D : Dictionary} (h : S.Mirrors D) {s : TreeImage}
    {R : Rooted UInt32 Row} (hrep : S.tree.Represents s)
    (hstores : s.Stores D.params.rowSize R.height R.tree) :
    R = D.tree ∧ s.map.numPages = D.numPages := by
  obtain ⟨s₀, hs⟩ := h
  have hmirrors : S.Mirrors ⟨D.params, R, s.map.numPages⟩ :=
    ⟨s, hs.params, hs.valid, hrep, hstores, rfl⟩
  have heq := hmirrors.unique ⟨s₀, hs⟩
  exact ⟨congrArg Dictionary.tree heq, congrArg Dictionary.numPages heq⟩

/-- What the small session leaves: two leaves, 3 and 4 in one and 5 and 7 in the other. -/
def smallDictionary : Dictionary :=
  ((((Dictionary.create smallParams).put (5, [1])).put (3, [2])).put (4, [3])).put (7, [4])

lemma exists_run_smallDictionary : ∃ S₀ replies S,
    Session.create smallParams none (fun _ => 0) (fun _ => Page.filled 7) = .ok S₀ ∧
      S₀.runCalls smallCalls = .ok (replies, S) ∧ S.Mirrors smallDictionary := by
  obtain ⟨S₀, replies, S, hcreate, hrun⟩ := exists_run_smallCalls
  have hdictionary : ∃ replies, (Dictionary.create smallParams).runCalls smallCalls
      = .ok (replies, smallDictionary) := ⟨_, rfl⟩
  obtain ⟨replies', hdictionary⟩ := hdictionary
  have hagree := Session.runCalls_agrees (mirrors_of_create smallParams_valid hcreate)
    (admitsAll_of_sameLoads smallParams_valid smallCalls_sameLoads)
  rw [hdictionary] at hagree
  obtain ⟨S', hS', hmirrors⟩ := hagree.exists_ok
  cases hrun.symm.trans hS'
  exact ⟨S₀, _, S, hcreate, hrun, hmirrors⟩

/-- Its root is page 2. -/
lemma smallDictionary_pages {content : ℕ → Page}
    (h : Holds 1 content 1 smallDictionary.tree.tree) :
    IsLeaf 1 (content 1) [(5, [1]), (7, [4])] ∧ IsInner (content 2) [4] [0, 1] :=
  ⟨h.2 (Leaf.mk 1 [(5, [1]), (7, [4])]) (List.mem_cons_of_mem _ List.mem_cons_self), h.1⟩

lemma answer_smallDictionary : smallDictionary.answer (.insert 6 [8])
    = .ok (.status .success, smallDictionary.put (6, [8])) := rfl

lemma put_smallDictionary_pages {content : ℕ → Page}
    (h : Holds 1 content 1 (smallDictionary.put (6, [8])).tree.tree) :
    IsLeaf 1 (content 1) [(5, [1]), (6, [8])] ∧ IsLeaf 1 (content 3) [(7, [4])] ∧
      IsInner (content 2) [4, 6] [0, 1, 3] :=
  ⟨h.2 (Leaf.mk 1 [(5, [1]), (6, [8])]) (List.mem_cons_of_mem _ List.mem_cons_self),
    h.2 (Leaf.mk 3 [(7, [4])]) (List.mem_cons_of_mem _ (List.mem_cons_of_mem _
      List.mem_cons_self)), h.1⟩

/-- The leaf of 5 and 7 is full and splits: 7 moves to page 3.  Of the pages there were, the leaf
and the root above it change, and the leaf of 3 and 4 does not. -/
theorem insert_frame_small : ∃ S₀ replies S S' s s',
    Session.create smallParams none (fun _ => 0) (fun _ => Page.filled 7) = .ok S₀ ∧
      S₀.runCalls smallCalls = .ok (replies, S) ∧ S.tree.Represents s ∧
      S.answer (.insert 6 [8]) = .ok (.status .success, S') ∧ S'.tree.Represents s' ∧
      s.map.numPages = 3 ∧ s'.map.numPages = 4 ∧ s.map.rootPid = 2 ∧ s'.map.rootPid = 2 ∧
      ∀ id < 3, s'.map.content id = s.map.content id ↔ id = 0 := by
  obtain ⟨S₀, replies, S, hcreate, hrun, hmirrors⟩ := exists_run_smallDictionary
  have hrow : ([8] : Row).length = smallParams.rowSize := rfl
  obtain ⟨s, R, hrep, hstores, -, hnew⟩ :=
    insert_frame smallParams_valid hcreate smallCalls_sameLoads hrun 6 hrow
  obtain ⟨rfl, hnum⟩ := hmirrors.eq_of_stores hrep hstores
  have hpages : s.map.numPages = 3 := hnum
  have hroom : s.map.numPages + 1 + 0 ≤ tableMaxPages := by
    rw [hpages]
    decide
  obtain ⟨S', s', R', hanswer, hrep', hstores', hframed, -⟩ := hnew (by decide) hroom
  have hagree := hmirrors.answer (c := .insert 6 [8]) (by decide)
  rw [answer_smallDictionary] at hagree
  obtain ⟨S'', hS'', hmirrors'⟩ := hagree.exists_ok
  cases hanswer.symm.trans hS''
  obtain ⟨rfl, -⟩ := hmirrors'.eq_of_stores hrep' hstores'
  have hgrown : s'.map.numPages = s.map.numPages + 1 + 0 := hframed.numPages
  have hroot : s'.map.rootPid = s.map.rootPid := hframed.rootPid
  obtain ⟨hleaf, hinner⟩ := smallDictionary_pages hstores.holds
  obtain ⟨hleaf', hright, hinner'⟩ := put_smallDictionary_pages hstores'.holds
  refine ⟨S₀, replies, S, S', s, s', hcreate, hrun, hrep, hanswer, hrep', hpages, by omega,
    hstores.rootPid, hroot.trans hstores.rootPid, fun id hid => ⟨fun heq => ?_, ?_⟩⟩
  · obtain rfl | rfl | rfl : id = 0 ∨ id = 1 ∨ id = 2 := by omega
    · rfl
    · rw [heq] at hleaf'
      exact absurd (hleaf.cells_eq.symm.trans hleaf'.cells_eq) (by decide)
    · rw [heq] at hinner'
      exact absurd (hinner.keys_eq.symm.trans hinner'.keys_eq) (by decide)
  · rintro rfl
    rcases hframed.spares 0 (by omega) (by decide) with hkept | ⟨q, hq, hq', hchild, -⟩
    · exact hkept
    · -- The new page is a leaf, so nothing can have moved below it.
      obtain rfl : q = 3 := by omega
      exact absurd hchild (not_hasChild_of_isLeaf hright 0)

end DbToy
