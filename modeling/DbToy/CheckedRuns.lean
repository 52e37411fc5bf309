import DbToy.CheckValid
import DbToy.PageCount
import DbToy.RootFlag
import DbToy.WellFormedTrees

/-!
# The validity check on the trees that insertion builds

With zero pages from `malloc` every test of `check_valid` succeeds on these trees, except one: the
checker compares the keys of an inner node with `inner_node_load` itself, while a node splits at the
number of keys that its page can hold.

* `check_valid_iff`: `check_valid` returns true exactly if no inner node but the root has too few
  keys for `inner_node_load`.  With an `inner_node_load` that fits a page that is always so.
* `check_valid_throws`: the loads of the shell do not fit a page.
-/

namespace DbToy

open SearchTree
open Dictionary (SameLoads)

variable {rowSize : ℕ} {s : TreeImage} {P : TreeParams}

/-- Every inner node but the root has at least half of `inner_node_load` keys. -/
def TreeImage.InnerLoaded (P : TreeParams) (s : TreeImage) : Prop :=
  ∀ id < s.map.numPages, id ≠ s.map.rootPid → (s.map.content id).nodeType = nodeTypeInner →
    P.innerNodeLoad ≤ 2 * (InternalNode.load (s.map.content id)).numKeys

/-! ## Nodes of a stored tree -/

lemma Linked.subtree {content : ℕ → Page} {r R : Rooted UInt32 Row} (hr : Subtree r R)
    (hR : Linked content R.height R.tree) : Linked content r.height r.tree := by
  induction hr with
  | refl => exact hR
  | child hc _ ih => exact ih (hR _ hc).2

/-- Every page below the first names another one of the tree. -/
lemma Linked.parent_mem {content : ℕ → Page} : ∀ {h : ℕ} {t : RowTree h}, Linked content h t →
    ∀ id ∈ (pids h t).tail, (content id).parent ∈ pids h t
  | h + 1, t, ht, id, hid => by
      obtain ⟨c, hc, hid⟩ := List.mem_flatMap.mp hid
      obtain ⟨hparent, hc'⟩ := ht c hc
      rw [pids_eq_cons] at hid
      rcases List.mem_cons.mp hid with rfl | hid
      · rw [hparent]
        exact pid_mem_pids (h + 1) t
      · exact List.mem_cons_of_mem _ (List.mem_flatMap.mpr ⟨c, hc, hc'.parent_mem id hid⟩)

lemma Holds.hasKeys {content : ℕ → Page} : ∀ {h : ℕ} {t : RowTree h}, Holds rowSize content h t →
    (nodeOf rowSize content h t).HasKeys (nodeKeys h t)
  | 0, t, ht => by
      have hl : IsLeaf rowSize (content (Leaf.pid t)) (Leaf.cells t) := ht
      have hget := @LeafNode.getKey_cells _ (LeafNode.view_wf (content (Leaf.pid t)) rowSize)
        (by rw [hl.numCells]; exact hl.length_le)
      rw [hl.cells_eq] at hget
      exact ⟨hl.numCells.trans (List.length_map _).symm, hget⟩
  | h + 1, t, ht => by
      have hget := @InternalNode.getKey_keys (InternalNode.load (content (Inner.pid t))) le_rfl
        (by rw [ht.1.numKeys]; exact ht.1.length_le)
      rw [ht.1.keys_eq] at hget
      exact ⟨ht.1.numKeys, hget⟩

lemma Holds.length_nodeKeys_lt {content : ℕ → Page} : ∀ {h : ℕ} {t : RowTree h},
    Holds rowSize content h t → (nodeKeys h t).length < 2 ^ 31
  | 0, t, ht => by
      have hl : IsLeaf rowSize (content (Leaf.pid t)) (Leaf.cells t) := ht
      rw [nodeKeys, List.length_map]
      exact lt_of_le_of_lt hl.length_le (LeafNode.pageMax_lt rowSize)
  | h + 1, t, ht => lt_of_le_of_lt ht.1.length_le (by decide)

/-- No node is without keys. -/
lemma nodeKeys_ne_nil : ∀ {h : ℕ} {t : RowTree h}, NonEmpty h t → nodeKeys h t ≠ []
  | 0, _, ht => fun hnil => ht (List.map_eq_nil_iff.mp hnil)
  | _ + 1, _, ht => ht.1

lemma TreeImage.page_of_lt {id : ℕ} (hid : id < s.map.numPages)
    (hmax : s.map.numPages ≤ tableMaxPages) : s.page id = s.map.content id :=
  congrArg s.map.content (BPlusTree.pageId_of_lt_tableMaxPages hid hmax)

lemma Holds.nodeAt {h : ℕ} {t : RowTree h} (ht : Holds rowSize s.map.content h t)
    (hrow : 0 < LeafNode.pageMax rowSize) (hmax : s.map.numPages ≤ tableMaxPages)
    (hid : pid h t < s.map.numPages) :
    s.nodeAt (pid h t) = .ok (nodeOf rowSize s.map.content h t) := by
  rw [TreeImage.nodeAt, BPlusTree.pageId_of_lt_tableMaxPages hid hmax, if_pos hid,
    TreeImage.page_of_lt hid hmax]
  exact ht.loadNodeFrom hrow

/-! ## The tests -/

/-- A tree whose pages pass all tests but that of the load. -/
structure TreeImage.Checkable (rowSize : ℕ) (s : TreeImage) (h : ℕ) (t : RowTree h) : Prop where
  room : 0 < LeafNode.pageMax rowSize
  numPages_le : s.map.numPages ≤ tableMaxPages
  lt_numPages : ∀ id ∈ pids h t, id < s.map.numPages
  holds : Holds rowSize s.map.content h t
  linked : Linked s.map.content h t
  ordered : Ordered h t
  nonEmpty : NonEmpty h t

namespace TreeImage.Checkable

variable {h : ℕ}

lemma child {t : RowTree (h + 1)} (ht : s.Checkable rowSize (h + 1) t) {c : RowTree h}
    (hc : c ∈ (Inner.slots t).children) : s.Checkable rowSize h c where
  room := ht.room
  numPages_le := ht.numPages_le
  lt_numPages id hid :=
    ht.lt_numPages id (List.mem_cons_of_mem _ (List.mem_flatMap.mpr ⟨c, hc, hid⟩))
  holds := ht.holds.2 c hc
  linked := (ht.linked c hc).2
  ordered := ht.ordered.1 c hc
  nonEmpty := ht.nonEmpty.2 c hc

lemma nodeAt {t : RowTree h} (ht : s.Checkable rowSize h t) :
    s.nodeAt (pid h t) = .ok (nodeOf rowSize s.map.content h t) :=
  ht.holds.nodeAt ht.room ht.numPages_le (ht.lt_numPages _ (pid_mem_pids h t))

lemma page_eq {t : RowTree h} (ht : s.Checkable rowSize h t) :
    s.page (pid h t) = s.map.content (pid h t) :=
  page_of_lt (ht.lt_numPages _ (pid_mem_pids h t)) ht.numPages_le

/-- The last and the first key of a node are between its cells. -/
lemma ends {t : RowTree h} (ht : s.Checkable rowSize h t) :
    (∃ last, (nodeOf rowSize s.map.content h t).getKey (nodeOf rowSize s.map.content h t).lastIndex
      = .ok last ∧ ∃ x ∈ cells h t, last ≤ x.1) ∧
    ∃ first, (nodeOf rowSize s.map.content h t).getKey 0 = .ok first ∧
      ∃ x ∈ cells h t, x.1 ≤ first := by
  have hkeys := ht.holds.hasKeys
  have hpos : 0 < (nodeKeys h t).length := List.length_pos_iff.mpr (nodeKeys_ne_nil ht.nonEmpty)
  have hlt := ht.holds.length_nodeKeys_lt
  have hbetween := ht.ordered.nodeKey_between ht.nonEmpty
  constructor
  · rw [hkeys.lastIndex hpos (by omega)]
    exact ⟨_, hkeys.get _ (by omega), (hbetween _ (List.getElem_mem _)).2⟩
  · exact ⟨_, hkeys.get 0 hpos, (hbetween _ (List.getElem_mem _)).1⟩

/-- The keys of an inner node are where its children meet. -/
lemma meets {t : RowTree (h + 1)} (ht : s.Checkable rowSize (h + 1) t) :
    ∀ i < (InternalNode.load (s.map.content (Inner.pid t))).numKeys,
      s.Meets (Inner.pid t) (InternalNode.load (s.map.content (Inner.pid t))) i := by
  intro i hi
  have hnum := ht.holds.1.numKeys
  rw [hnum] at hi
  obtain ⟨c, d, hc, hd, hp, habove⟩ := ht.ordered.2.around i _ (List.getElem?_eq_getElem hi)
  have hc' := ht.child (List.mem_of_getElem? hc)
  have hd' := ht.child (List.mem_of_getElem? hd)
  have hkey := ht.holds.hasKeys.get i hi
  -- the ids of the two children are where the source looks for them
  have hgetChild : ∀ j e, (Inner.slots t).children[j]? = some e →
      (InternalNode.load (s.map.content (Inner.pid t))).getChild j = .ok (pid h e) := by
    intro j e he
    refine InternalNode.getChild_of_getElem? le_rfl (by rw [hnum]; exact ht.holds.1.length_le) ?_
    rw [ht.holds.1.children_eq, List.getElem?_map, he]
    rfl
  obtain ⟨last, hlast, x, hx, hle⟩ := hc'.ends.1
  obtain ⟨first, hfirst, y, hy, hlt⟩ := hd'.ends.2
  refine ⟨_, pid h c, _, pid h d, _, last, first, hkey, hgetChild i c hc, hc'.nodeAt,
    hgetChild (i + 1) d hd, hd'.nodeAt, ?_, ?_, hlast, ?_, hfirst, ?_⟩
  · rw [hc'.page_eq]
    exact (ht.linked c (List.mem_of_getElem? hc)).1
  · rw [hd'.page_eq]
    exact (ht.linked d (List.mem_of_getElem? hd)).1
  · exact le_trans hle (ht.ordered.2.below_of_pair _ hp x hx)
  · exact lt_of_lt_of_le (habove y hy) hlt

/-- What is left to test is the load. -/
lemma innerChecked_iff {t : RowTree (h + 1)} (ht : s.Checkable rowSize (h + 1) t)
    (hroot : BPlusTree.RootSet (Inner.pid t = s.map.rootPid) (s.map.content (Inner.pid t))) :
    (∃ node, s.InnerChecked P (Inner.pid t) node) ↔
      ((s.map.content (Inner.pid t)).isRoot = true ∨
        P.innerNodeLoad ≤ 2 * (InternalNode.load (s.map.content (Inner.pid t))).numKeys) := by
  have hnode : s.nodeAt (Inner.pid t)
      = .ok (.inner (InternalNode.load (s.map.content (Inner.pid t)))) := ht.nodeAt
  have hpage : s.page (Inner.pid t) = s.map.content (Inner.pid t) := ht.page_eq
  have hlt := ht.holds.length_nodeKeys_lt
  have hnum := ht.holds.1.numKeys
  have hmod : (InternalNode.load (s.map.content (Inner.pid t))).numKeys * 2 % 2 ^ 32
      = 2 * (InternalNode.load (s.map.content (Inner.pid t))).numKeys := by
    rw [hnum, Nat.mod_eq_of_lt, Nat.mul_comm]
    have : (Inner.slots t).keys.length < 2 ^ 31 := hlt
    omega
  constructor
  · rintro ⟨node, hchecked⟩
    have hloaded := hchecked.loaded
    cases hnode.symm.trans hchecked.nodeAt
    rwa [hpage, hmod] at hloaded
  · intro hloaded
    refine ⟨_, hnode, hpage ▸ hroot, ?_, ?_, ht.meets⟩
    · rwa [hpage, hmod]
    · exact ht.holds.hasKeys.isKeyMonotonicIncreasing_eq_true.mpr ht.ordered.keys_sorted

end TreeImage.Checkable

/-! ## The visit of the checker -/

namespace BPlusTree

/-- What the checker does with an event. -/
def checkEvent (P : TreeParams) (s : TreeImage) (isValid : Bool) : Event → Except Fault Bool
  | .inner id => ((innerNodeChecker P id isValid).run TreeImage.handler s).map Prod.fst
  | _ => .ok isValid

lemma acts_checker (P : TreeParams) (s : TreeImage) :
    Acts s ⟨some (innerNodeChecker P), none, none⟩ (checkEvent P s) where
  innerNode id isValid := by
    show (innerNodeChecker P id isValid).run TreeImage.handler s = (Except.map _ _).map _
    cases isValid with
    | false => rfl
    | true =>
        cases hrun : (innerNodeChecker P id true).run TreeImage.handler s with
        | error e => rfl
        | ok r =>
            obtain ⟨b, s'⟩ := r
            obtain ⟨-, rfl, -⟩ := run_innerNodeChecker.mp hrun
            rfl
  leafNode _ _ := rfl
  noCell _ _ _ _ _ := rfl
  cell _ haction := nomatch haction

lemma checkEvent_eq_ok {id : ℕ} {b : Bool} : checkEvent P s true (.inner id) = .ok b ↔
    b = true ∧ ∃ node, s.InnerChecked P id node := by
  have hiff := fun s' => @run_innerNodeChecker s s' P id b
  rw [checkEvent]
  cases hrun : (innerNodeChecker P id true).run TreeImage.handler s with
  | error e =>
      refine iff_of_false nofun ?_
      intro h
      exact nomatch hrun.symm.trans ((hiff s).mpr ⟨h.1, rfl, h.2⟩)
  | ok r =>
      constructor
      · intro h
        cases h
        obtain ⟨hb, -, hnode⟩ := (hiff r.2).mp hrun
        exact ⟨hb, hnode⟩
      · intro h
        cases hrun.symm.trans ((hiff s).mpr ⟨h.1, rfl, h.2⟩)
        rfl

lemma foldlM_checkEvent : ∀ {es : List Event}, es.foldlM (checkEvent P s) true = .ok true ↔
    ∀ id, Event.inner id ∈ es → ∃ node, s.InnerChecked P id node
  | [] => iff_of_true rfl fun _ h => absurd h List.not_mem_nil
  | e :: es => by
      have ih := @foldlM_checkEvent es
      rw [List.foldlM_cons]
      cases e with
      | cell id off c =>
          rw [show checkEvent P s true (.cell id off c) = .ok true from rfl, ok_bind, ih]
          simp only [List.mem_cons, reduceCtorEq, false_or]
      | leaf id =>
          rw [show checkEvent P s true (.leaf id) = .ok true from rfl, ok_bind, ih]
          simp only [List.mem_cons, reduceCtorEq, false_or]
      | inner id =>
          simp only [List.mem_cons, Event.inner.injEq, forall_eq_or_imp, ← ih]
          constructor
          · intro h
            obtain ⟨b, hb, hrest⟩ := bind_eq_ok h
            obtain ⟨rfl, hnode⟩ := checkEvent_eq_ok.mp hb
            exact ⟨hnode, hrest⟩
          · rintro ⟨hnode, hrest⟩
            rw [checkEvent_eq_ok.mpr ⟨rfl, hnode⟩, ok_bind, hrest]

/-- The check succeeds if all inner nodes that it meets pass. -/
lemma run_checkValid {h : ℕ} {t : RowTree h} (hs : s.WellFormed rowSize h t) :
    (∃ s', (checkValid P).run TreeImage.handler s = .ok (true, s')) ↔
      ∀ id, Event.inner id ∈ events rowSize 0 uint32Max h t → ∃ node, s.InnerChecked P id node := by
  have hvisit := run_postOrderVisit_acts hs.room hs.numPages_le (zero_le_uint32 uint32Max)
    (acts_checker P s) hs.holds hs.ordered hs.nonEmpty hs.lt_numPages (tableMaxPages + 1) true
    hs.height_lt
  rw [← foldlM_checkEvent, checkValid, Prog.run_bind_of_ok _ (run_getRootPage s), hs.rootPid, hvisit]
  cases (events rowSize 0 uint32Max h t).foldlM (checkEvent P s) true with
  | error e => exact iff_of_false nofun nofun
  | ok b => exact ⟨fun ⟨_, h⟩ => by cases h; rfl, fun h => ⟨s, by cases h; rfl⟩⟩

end BPlusTree

/-! ## After insertions -/

lemma inner_mem_events {lo hi : UInt32} (hlo : ∀ k, lo ≤ k) (hhi : ∀ k, k ≤ hi) {h : ℕ}
    {t : RowTree h} (hs : s.WellFormed rowSize h t) {id : ℕ} :
    Event.inner id ∈ events rowSize lo hi h t ↔
      ∃ n, ∃ u : RowTree (n + 1), Subtree ⟨n + 1, u⟩ ⟨h, t⟩ ∧ Inner.pid u = id := by
  cases h with
  | zero =>
      refine iff_of_false ?_ ?_
      · intro hmem
        rw [events] at hmem
        split_ifs at hmem
        · exact absurd hmem List.not_mem_nil
        · rcases List.mem_append.mp hmem with hmem | hmem
          · have hnode := List.mem_filter.mpr ⟨hmem, show (Event.inner id).isNode = true from rfl⟩
            rw [filter_cellEvents] at hnode
            exact absurd hnode List.not_mem_nil
          · cases List.mem_singleton.mp hmem
      · rintro ⟨n, u, ⟨⟩, -⟩
  | succ h =>
      have hvisits := @events_visitsAllNodes rowSize lo hi hlo hhi (h + 1) t hs.ordered
        (hs.nonEmpty (Nat.succ_ne_zero h)) hs.nodup
      rw [hvisits.mem_iff _ rfl]
      constructor
      · rintro ⟨⟨n, u⟩, hr, heq⟩
        cases n with
        | zero => cases heq
        | succ n => exact ⟨n, u, hr, Event.inner.inj heq⟩
      · rintro ⟨n, u, hr, rfl⟩
        exact ⟨⟨n + 1, u⟩, hr, rfl⟩

namespace TreeImage.Stores

variable {h : ℕ} {t : RowTree h}

/-- The flag and the parent of every page are right. -/
lemma rootSet (hs : s.Stores rowSize h t) (hflags : s.FlagsRoot) : ∀ id ∈ pids h t,
    BPlusTree.RootSet (id = s.map.rootPid) (s.map.content id) := by
  intro id hid
  have hflag := hflags id (hs.lt_numPages id hid)
  by_cases hroot : id = s.map.rootPid
  · rw [BPlusTree.RootSet, if_pos hroot]
    refine ⟨hflag.mpr hroot, ?_⟩
    rw [hroot, hs.rootPid]
    exact hs.parent
  · rw [BPlusTree.RootSet, if_neg hroot]
    refine ⟨eq_false_of_ne_true (hflag.not.mpr hroot), ?_⟩
    intro hinvalid
    rw [hs.rootPid] at hroot
    rw [pids_eq_cons] at hid
    have hparent := hs.linked.parent_mem id ((List.mem_cons.mp hid).resolve_left hroot)
    have hlt := hs.lt_numPages _ hparent
    have hmax := hs.numPages_le
    rw [hinvalid] at hlt
    simp only [nodeParentInvalid, tableMaxPages] at hlt hmax
    omega

lemma checkable (hs : s.Stores rowSize h t) (hrow : 0 < LeafNode.pageMax rowSize)
    {n : ℕ} {u : RowTree (n + 1)} (hu : Subtree ⟨n + 1, u⟩ ⟨h, t⟩) :
    s.Checkable rowSize (n + 1) u where
  room := hrow
  numPages_le := hs.numPages_le
  lt_numPages id hid := hs.lt_numPages id (hu.pids_subset hid)
  holds := Holds.subtree hu hs.holds
  linked := Linked.subtree hu hs.linked
  ordered := hu.ordered hs.ordered
  nonEmpty := hu.nonEmpty (hs.nonEmpty fun h0 => by
    have hle : n + 1 ≤ h := hu.height_le
    omega)

/-- The inner nodes pass exactly if their load does. -/
theorem checked_iff_innerLoaded (hs : s.Stores rowSize h t) (hrow : 0 < LeafNode.pageMax rowSize)
    (hflags : s.FlagsRoot) :
    (∃ s', (BPlusTree.checkValid P).run TreeImage.handler s = .ok (true, s')) ↔
      s.InnerLoaded P := by
  rw [BPlusTree.run_checkValid (hs.wellFormed hrow)]
  have hmem := fun id => @inner_mem_events rowSize s 0 uint32Max zero_le_uint32 le_uint32Max h t
    (hs.wellFormed hrow) id
  have hchecked : ∀ {n : ℕ} {u : RowTree (n + 1)}, Subtree ⟨n + 1, u⟩ ⟨h, t⟩ →
      ((∃ node, s.InnerChecked P (Inner.pid u) node) ↔
        ((s.map.content (Inner.pid u)).isRoot = true ∨
          P.innerNodeLoad ≤ 2 * (InternalNode.load (s.map.content (Inner.pid u))).numKeys)) :=
    fun hu => (hs.checkable hrow hu).innerChecked_iff (hs.rootSet hflags _ hu.pid_mem)
  constructor
  · intro hall id hid hne hinner
    have hpids : id ∈ pids h t := hs.sound.pids.mem_iff.mpr (List.mem_range.mpr hid)
    obtain ⟨⟨n, u⟩, hu, rfl⟩ := Subtree.exists_of_mem_pids hpids
    cases n with
    | zero =>
        have hl : IsLeaf rowSize (s.map.content (Leaf.pid u)) (Leaf.cells u) :=
          Holds.subtree hu hs.holds
        exact absurd (hl.nodeType.symm.trans hinner) (by decide)
    | succ n =>
        rcases (hchecked hu).mp (hall _ ((hmem _).mpr ⟨n, u, hu, rfl⟩)) with hroot | hload
        · exact absurd ((hflags _ hid).mp hroot) hne
        · exact hload
  · intro hloaded id hid
    obtain ⟨n, u, hu, rfl⟩ := (hmem id).mp hid
    have hlt := hs.lt_numPages _ hu.pid_mem
    refine (hchecked hu).mpr ?_
    by_cases hroot : Inner.pid u = s.map.rootPid
    · exact Or.inl ((hflags _ hlt).mpr hroot)
    · exact Or.inr (hloaded _ hlt hroot (Holds.subtree hu hs.holds).1.nodeType)

/-- A load that fits a page is met. -/
lemma innerLoaded_of_le (hs : s.Stores P.rowSize h t) (hP : P.Valid)
    (hfilled : RootFilled P.leafCapacity P.innerCapacity h t)
    (hle : P.innerNodeLoad ≤ InternalNode.pageMax) : s.InnerLoaded P := by
  intro id hid hne hinner
  have hpids : id ∈ pids h t := hs.sound.pids.mem_iff.mpr (List.mem_range.mpr hid)
  obtain ⟨⟨n, u⟩, hu, rfl⟩ := Subtree.exists_of_mem_pids hpids
  have hholds := Holds.subtree hu hs.holds
  cases n with
  | zero =>
      have hl : IsLeaf P.rowSize (s.map.content (Leaf.pid u)) (Leaf.cells u) := hholds
      exact absurd (hl.nodeType.symm.trans hinner) (by decide)
  | succ n =>
      rcases hu.eq_or_filled hfilled with heq | hfilled
      · rw [heq] at hne
        exact absurd hs.rootPid.symm hne
      · have hhalf : P.innerCapacity / 2 ≤ (Inner.slots u).keys.length := hfilled.1
        have hcap : P.innerCapacity = P.innerNodeLoad := Nat.min_eq_right hle
        have heven := hP.innerNodeLoad.1
        rw [hcap] at hhalf
        have hnum : (InternalNode.load (s.map.content (Inner.pid u))).numKeys
            = (Inner.slots u).keys.length := hholds.1.numKeys
        show _ ≤ 2 * (InternalNode.load (s.map.content (Inner.pid u))).numKeys
        omega

end TreeImage.Stores

/-- The pages at the end of a run that got zero flags from `malloc`. -/
lemma Session.flagged_of_run {S₀ S : Session} (hP : P.Valid) {file : Option (List UInt8)}
    {counts : ℕ → ℕ} {malloc : ℕ → Page} (hcreate : Session.create P file counts malloc = .ok S₀)
    (hmalloc : ∀ id, (malloc id).isRoot = false) {calls : List TreeCall}
    (hcalls : ∀ c ∈ calls, SameLoads P c ∧ c.ZeroFlags) {replies : List TreeReply}
    (hrun : S₀.runCalls calls = .ok (replies, S)) :
    ∃ s D, S.Simulates s D ∧ D.Steady P ∧ s.Stores P.rowSize D.tree.height D.tree.tree ∧
      (Dictionary.create P).runCalls calls = .ok (replies, D) ∧ s.FlagsRoot := by
  have hzero : ∀ id, (S₀.tree.malloc id).isRoot = false := by
    obtain ⟨t, ht, hS₀⟩ := bind_eq_ok hcreate
    cases hS₀
    show ∀ id, (t.malloc id).isRoot = false
    rw [BPlusTree.new_malloc ht]
    exact hmalloc
  have hclean := along_clean hzero fun c hc => (hcalls c hc).2
  obtain ⟨s, D, hs, -, hflags⟩ := Runs.runAll_preserves
    (fun c S r S' hS hc h => Session.Flagged.answer hS hc.2 hc.1 h)
    ((mirrors_of_create hP hcreate).flagged hP)
    (hclean.and_allowed fun c hc => (hcalls c hc).1) hrun
  obtain ⟨s', D', hs', hsteady, hstores, hD⟩ :=
    stores_of_run hP hcreate (fun c hc => (hcalls c hc).1) hrun
  exact ⟨s', D', hs', hsteady, hstores, hD,
    hs'.represents.flagsRoot_image (hs.represents.flagsRoot hflags)⟩

/-- What the check of a tree on a pager returns. -/
lemma BPlusTree.Represents.checkValid_iff {t : BPlusTree} (h : t.Represents s) :
    (∃ t', (BPlusTree.checkValid P).run BPlusTree.handler t = .ok (true, t')) ↔
      ∃ s', (BPlusTree.checkValid P).run TreeImage.handler s = .ok (true, s') := by
  have hagree := BPlusTree.run_agrees (BPlusTree.checkValid P) h
  constructor
  · rintro ⟨t', ht'⟩
    rw [ht'] at hagree
    obtain ⟨s', hs', -⟩ := hagree.exists_ok'
    exact ⟨s', hs'⟩
  · rintro ⟨s', hs'⟩
    rw [hs'] at hagree
    obtain ⟨t', ht', -⟩ := hagree.exists_ok
    exact ⟨t', ht'⟩

/-- The pages at the end of such a run, and when they pass the check. -/
lemma Session.checkValid_of_run {S₀ S : Session} (hP : P.Valid) {file : Option (List UInt8)}
    {counts : ℕ → ℕ} {malloc : ℕ → Page} (hcreate : Session.create P file counts malloc = .ok S₀)
    (hmalloc : ∀ id, (malloc id).isRoot = false) {calls : List TreeCall}
    (hcalls : ∀ c ∈ calls, SameLoads P c ∧ c.ZeroFlags) {replies : List TreeReply}
    (hrun : S₀.runCalls calls = .ok (replies, S)) :
    ∃ s, S.tree.Represents s ∧ (P.innerNodeLoad ≤ InternalNode.pageMax → s.InnerLoaded P) ∧
      ((∃ t', (BPlusTree.checkValid P).run BPlusTree.handler S.tree = .ok (true, t')) ↔
        s.InnerLoaded P) := by
  obtain ⟨s, D, hs, hsteady, hstores, -, hflags⟩ := flagged_of_run hP hcreate hmalloc hcalls hrun
  refine ⟨s, hs.represents, hstores.innerLoaded_of_le hP hsteady.filled, ?_⟩
  rw [hs.represents.checkValid_iff, hstores.checked_iff_innerLoaded hP.room hflags]

/-- **`check_valid` after insertions** returns true exactly if `inner_node_load` fits a page, or no
inner node but the root has fewer keys than half of it. -/
theorem check_valid_iff (hP : P.Valid) {file : Option (List UInt8)} {counts : ℕ → ℕ}
    {malloc : ℕ → Page} {S₀ : Session} (hcreate : Session.create P file counts malloc = .ok S₀)
    (hmalloc : ∀ id, (malloc id).isRoot = false) {calls : List TreeCall}
    (hcalls : ∀ c ∈ calls, SameLoads P c ∧ c.ZeroFlags) {replies : List TreeReply} {S : Session}
    (hrun : S₀.runCalls calls = .ok (replies, S)) :
    ∃ s, S.tree.Represents s ∧
      ((∃ t', (BPlusTree.checkValid P).run BPlusTree.handler S.tree = .ok (true, t')) ↔
        P.innerNodeLoad ≤ InternalNode.pageMax ∨ s.InnerLoaded P) := by
  obtain ⟨s, hrep, hfits, hiff⟩ := Session.checkValid_of_run hP hcreate hmalloc hcalls hrun
  exact ⟨s, hrep, hiff.trans ⟨Or.inr, fun h => h.elim hfits id⟩⟩

/-- Five keys, with the file opened again in between. -/
def zeroedCalls : List TreeCall :=
  [.insert 4 [1], .insert 2 [2], .insert 3 [3], .reopen 2 2 (fun _ => 1) fun _ => Page.filled 0,
    .insert 1 [4], .insert 5 [5]]

lemma zero_isRoot (_ : ℕ) : (Page.filled 0).isRoot = false := by decide

lemma zeroedCalls_allowed : ∀ c ∈ zeroedCalls, SameLoads smallParams c ∧ c.ZeroFlags := by
  simp [zeroedCalls, SameLoads, TreeCall.ZeroFlags, smallParams, zero_isRoot 0]

lemma exists_run_zeroedCalls : ∃ S₀ replies S,
    Session.create smallParams none (fun _ => 0) (fun _ => Page.filled 0) = .ok S₀ ∧
      S₀.runCalls zeroedCalls = .ok (replies, S) := by
  obtain ⟨S₀, hcreate, hmirrors⟩ := Session.create_mirrors smallParams_valid none (fun _ => 0)
    fun _ => Page.filled 0
  have hadmits := admitsAll_of_sameLoads smallParams_valid fun c hc => (zeroedCalls_allowed c hc).1
  rcases Session.runCalls_outcome hmirrors hadmits with ⟨replies, S, -, hrun, -⟩ | ⟨hrun, -⟩
  · exact ⟨S₀, replies, S, hcreate, hrun⟩
  · exact absurd hrun (runCalls_ne_pageIndex hmirrors hadmits (by decide) _)

theorem check_valid_iff_small : ∃ S₀ replies S t',
    Session.create smallParams none (fun _ => 0) (fun _ => Page.filled 0) = .ok S₀ ∧
      S₀.runCalls zeroedCalls = .ok (replies, S) ∧
      (BPlusTree.checkValid smallParams).run BPlusTree.handler S.tree = .ok (true, t') := by
  obtain ⟨S₀, replies, S, hcreate, hrun⟩ := exists_run_zeroedCalls
  obtain ⟨s, -, hiff⟩ :=
    check_valid_iff smallParams_valid hcreate zero_isRoot zeroedCalls_allowed hrun
  obtain ⟨t', ht'⟩ := hiff.mpr (Or.inl (by decide))
  exact ⟨S₀, replies, S, t', hcreate, hrun, ht'⟩

/-! ## Loads that do not fit a page -/

/-- A row for each of 20000 keys. -/
def manyCalls : List TreeCall :=
  (List.range 20000).map fun k => .insert (UInt32.ofNat k) (List.replicate mainParams.rowSize 0)

lemma manyCalls_allowed : ∀ c ∈ manyCalls, SameLoads mainParams c ∧ c.ZeroFlags := by
  intro c hc
  obtain ⟨k, -, rfl⟩ := List.mem_map.mp hc
  exact ⟨List.length_replicate, trivial⟩

lemma rowsOf_manyCalls : rowsOf manyCalls
    = (List.range 20000).map fun k => (UInt32.ofNat k, List.replicate mainParams.rowSize 0) := by
  rw [rowsOf, manyCalls, List.flatMap_map]
  exact List.map_eq_flatMap.symm

lemma Dictionary.length_rowsOf_le (hP : P.Valid) {calls : List TreeCall}
    (hcalls : ∀ c ∈ calls, SameLoads P c) (hnodup : ((rowsOf calls).map Prod.fst).Nodup)
    {replies : List TreeReply} {D : Dictionary}
    (hD : (Dictionary.create P).runCalls calls = .ok (replies, D)) :
    (rowsOf calls).length ≤ D.cells.length := by
  have hadmits := (Dictionary.create_steady hP).admitsAll hcalls
  obtain ⟨-, hkeeps, -⟩ := Dictionary.runCalls_expects hP hadmits hD
  exact hkeeps.length_le hnodup

lemma manyCalls_nodup : ((rowsOf manyCalls).map Prod.fst).Nodup := by
  rw [rowsOf_manyCalls, List.map_map]
  refine List.Nodup.map_on ?_ List.nodup_range
  intro i hi j hj heq
  rw [List.mem_range] at hi hj
  have hval : (UInt32.ofNat i).toNat = (UInt32.ofNat j).toNat := congrArg UInt32.toNat heq
  have hsize : UInt32.size = 4294967296 := rfl
  rwa [UInt32.toNat_ofNat_of_lt' (by omega), UInt32.toNat_ofNat_of_lt' (by omega)] at hval

/-- So many keys need more than two levels. -/
lemma two_le_height {R : Rooted UInt32 Row} (hR : RootFilled 56 338 R.height R.tree)
    (hcells : 20000 ≤ R.cells.length) : 2 ≤ R.height := by
  obtain ⟨h, t⟩ := R
  have hle : (Rooted.mk h t).cells.length ≤ 56 * (pids h t).length := hR.length_cells_le
  match h with
  | 0 =>
      have hone : (pids 0 t).length = 1 := rfl
      omega
  | 1 =>
      have hkeys : (Inner.slots t).keys.length ≤ 338 := hR.2.1
      have hchildren := (Inner.slots t).length_children
      have hlen : (pids 1 t).length = (Inner.slots t).children.length + 1 := by
        have hsum : ((Inner.slots t).children.map fun _ => 1).sum
            = (Inner.slots t).children.length := by
          rw [List.map_const', List.sum_replicate_nat, Nat.mul_one]
        rw [pids, List.length_cons, List.length_flatMap]
        exact congrArg (· + 1) hsum
      omega
  | h + 2 => exact Nat.le_add_left 2 h

/-- A tree with three levels has an inner node that is not the root. -/
lemma TreeImage.Stores.not_innerLoaded {h : ℕ} {t : RowTree (h + 2)}
    (hs : s.Stores rowSize (h + 2) t) {L I : ℕ} (ht : RootFilled L I (h + 2) t)
    (hlt : 2 * I < P.innerNodeLoad) : ¬s.InnerLoaded P := by
  intro hloaded
  have hc := (Inner.slots t).head_mem
  have hu : Subtree ⟨h + 1, (Inner.slots t).head⟩ ⟨h + 2, t⟩ := .child hc .refl
  have hholds := Holds.subtree hu hs.holds
  have hne : pid (h + 1) (Inner.slots t).head ≠ s.map.rootPid := by
    intro heq
    rw [hs.rootPid] at heq
    have hmem : pid (h + 2) t ∈ pids (h + 1) (Inner.slots t).head := by
      rw [← heq]
      exact pid_mem_pids _ _
    exact (List.nodup_cons.mp hs.sound.nodup).1 (List.mem_flatMap.mpr ⟨_, hc, hmem⟩)
  have hload := hloaded _ (hs.lt_numPages _ hu.pid_mem) hne hholds.1.nodeType
  have hnum : (InternalNode.load (s.map.content (pid (h + 1) (Inner.slots t).head))).numKeys
      = (Inner.slots (Inner.slots t).head).keys.length := hholds.1.numKeys
  have hkeys : (Inner.slots (Inner.slots t).head).keys.length ≤ I := (ht.2.2 _ hc).2.1
  have hload' : P.innerNodeLoad
      ≤ 2 * (InternalNode.load (s.map.content (pid (h + 1) (Inner.slots t).head))).numKeys := hload
  omega

/-- With the loads of the shell and 20000 keys, `check_valid` does not return true. -/
theorem check_valid_throws : ∃ S₀ replies S,
    Session.create mainParams none (fun _ => 0) (fun _ => Page.filled 0) = .ok S₀ ∧
      S₀.runCalls manyCalls = .ok (replies, S) ∧ S.tree.pager.numPages ≤ tableMaxPages ∧
      ∀ t', (BPlusTree.checkValid mainParams).run BPlusTree.handler S.tree ≠ .ok (true, t') := by
  obtain ⟨S₀, hcreate, -⟩ := Session.create_mirrors mainParams_valid none (fun _ => 0)
    fun _ => Page.filled 0
  have hsame : ∀ c ∈ manyCalls, SameLoads mainParams c := fun c hc => (manyCalls_allowed c hc).1
  have hlen : (distinctKeys manyCalls).length ≤ 27800 := by
    refine (List.dedup_sublist _).length_le.trans ?_
    rw [rowsOf_manyCalls, List.length_map, List.length_map, List.length_range]
    decide
  obtain ⟨replies, S, hrun, hpages⟩ := Session.run_of_few_keys hcreate hsame hlen
  refine ⟨S₀, replies, S, hcreate, hrun, hpages, ?_⟩
  intro t' ht'
  obtain ⟨s, D, hs, hsteady, hstores, hD, hflags⟩ :=
    Session.flagged_of_run mainParams_valid hcreate zero_isRoot manyCalls_allowed hrun
  have hloaded := (hstores.checked_iff_innerLoaded mainParams_valid.room hflags).mp
    (hs.represents.checkValid_iff.mp ⟨t', ht'⟩)
  have hfilled := hsteady.filled
  rw [mainParams_leafCapacity, mainParams_innerCapacity] at hfilled
  have hcells := Dictionary.length_rowsOf_le mainParams_valid hsame manyCalls_nodup hD
  rw [rowsOf_manyCalls, List.length_map, List.length_range] at hcells
  have hheight := two_le_height hfilled hcells
  obtain ⟨params, ⟨h, tree⟩, numPages⟩ := D
  obtain ⟨h, rfl⟩ := Nat.exists_eq_add_of_le' hheight
  exact hstores.not_innerLoaded hfilled (by decide) hloaded

end DbToy
