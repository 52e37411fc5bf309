import DbToy.Lib.Ways
import DbToy.TreeLinks

/-!
# Insertion below a node

What `insert` does from the leaf upwards, on pages that store a tree: the leaf where the key
belongs takes the row, and as long as nodes are full the overflow is posted to the parents that
the pages name.  `run_insertBelow` follows this up to the top of any stored tree, by induction on
its height: the pages then store what `SearchTree.insert` gives, unless a page beyond the table is
needed; and if the top has split, the loop goes on with the two halves.

`Updated` is what such an insertion changes, and what it does not; `Spares` says it byte by byte.
-/

namespace DbToy

open SearchTree

namespace TreeParams

/-- The cells that a leaf holds at most: `min(leaf.num_max_cell, leaf_load)`. -/
def leafCapacity (P : TreeParams) : ℕ := min (LeafNode.pageMax P.rowSize) P.leafLoad

/-- The keys that an inner node holds at most: `min(parentNode.num_max_keys, inner_node_load)`. -/
def innerCapacity (P : TreeParams) : ℕ := min InternalNode.pageMax P.innerNodeLoad

/-- Two cells fit a page, and the loads are even and positive. -/
structure Valid (P : TreeParams) : Prop where
  two_cells : 2 * (4 + P.rowSize) ≤ leafNodeSpaceForCells
  leafLoad : P.leafLoad % 2 = 0 ∧ 0 < P.leafLoad
  innerNodeLoad : P.innerNodeLoad % 2 = 0 ∧ 0 < P.innerNodeLoad

variable {P : TreeParams}

lemma Valid.room (hP : P.Valid) : 0 < LeafNode.pageMax P.rowSize := by
  have htwo : 2 ≤ leafNodeSpaceForCells / (4 + P.rowSize) :=
    (Nat.le_div_iff_mul_le (by omega)).mpr hP.two_cells
  simp only [LeafNode.pageMax, LeafNode.capacity]
  generalize leafNodeSpaceForCells / (4 + P.rowSize) = q at htwo ⊢
  split_ifs <;> omega

lemma Valid.leafCapacity_even (hP : P.Valid) : P.leafCapacity % 2 = 0 ∧ 0 < P.leafCapacity := by
  have hroom := hP.room
  have heven := LeafNode.pageMax_even P.rowSize
  have hload := hP.leafLoad
  rw [leafCapacity]
  omega

lemma Valid.innerCapacity_even (hP : P.Valid) :
    P.innerCapacity % 2 = 0 ∧ 0 < P.innerCapacity := by
  have hmax := InternalNode.pageMax_eq
  have hload := hP.innerNodeLoad
  rw [innerCapacity]
  omega

end TreeParams

/-! ## Stored subtrees -/

/-- The pages store the tree, which is tight and in order, each node in a page of its own. -/
structure Ready (rowSize : ℕ) (s : TreeImage) (h : ℕ) (t : RowTree h) : Prop where
  holds : Holds rowSize s.map.content h t
  linked : Linked s.map.content h t
  tight : Tight h t
  nonEmpty : h ≠ 0 → NonEmpty h t
  sorted : Sorted (cells h t)
  nodup : (pids h t).Nodup
  lt : ∀ id ∈ pids h t, id < s.map.numPages
  numPages_le : s.map.numPages ≤ tableMaxPages

lemma Ready.child {rowSize h : ℕ} {s : TreeImage} {t : RowTree (h + 1)}
    (ht : Ready rowSize s (h + 1) t) (key : UInt32) :
    Ready rowSize s h ((Inner.slots t).childFor key) := by
  have hmem := (Inner.slots t).childFor_mem key
  have hsub : ∀ id ∈ pids h ((Inner.slots t).childFor key), id ∈ pids (h + 1) t := fun id hid =>
    List.mem_cons_of_mem _ (List.mem_flatMap.mpr ⟨_, hmem, hid⟩)
  obtain ⟨C, D, hsplit⟩ := List.append_of_mem hmem
  have hsorted := ht.sorted
  rw [cells, hsplit, List.flatMap_append, List.flatMap_cons] at hsorted
  exact
    { holds := ht.holds.2 _ hmem
      linked := (ht.linked _ hmem).2
      tight := ht.tight.1 _ hmem
      nonEmpty := fun _ => (ht.nonEmpty (Nat.succ_ne_zero h)).2 _ hmem
      sorted := (sorted_append.mp (sorted_append.mp hsorted).2.1).1
      nodup := (List.nodup_flatMap.mp (List.nodup_cons.mp ht.nodup).2).1 _ hmem
      lt := fun id hid => ht.lt id (hsub id hid)
      numPages_le := ht.numPages_le }

/-- What an insertion below a node does: the pages store the trees `r` that take the node's place.
No other page has changed; root flags are as they were, and as `malloc` left them in the new
pages; the node itself still names the same parent. -/
structure Updated (rowSize : ℕ) (s s' : TreeImage) (h : ℕ) (t : RowTree h)
    (r : Alt UInt32 (RowTree h) × ℕ) : Prop where
  numPages : s'.map.numPages = r.2
  sameRoot : s.SameRoot s'
  same : ∀ id < s.map.numPages, id ∉ pids h t → s'.map.content id = s.map.content id
  isRoot : ∀ id < s.map.numPages, (s'.map.content id).isRoot = (s.map.content id).isRoot
  isRoot_new : ∀ id, s.map.numPages ≤ id → id < r.2 →
    (s'.map.content id).isRoot = (s.malloc id).isRoot
  parent : (s'.map.content (pid h t)).parent = (s.map.content (pid h t)).parent
  holds : ∀ d ∈ r.1.children, Holds rowSize s'.map.content h d
  linked : ∀ d ∈ r.1.children, Linked s'.map.content h d

/-- The page is as it was, or it has been moved below an inner page from `first` on: but for its
parent field, it is as it was then too. -/
def KeptOrMoved (s s' : TreeImage) (first id : ℕ) : Prop :=
  s'.map.content id = s.map.content id ∨
    ∃ q, first ≤ q ∧ q < s'.map.numPages ∧ HasChild (s'.map.content q) id ∧
      s'.map.content id = (s.map.content id).setParent q

/-- The pages that are not in `ids` are as they were, but for those that are below a new inner page
now. -/
def Spares (s s' : TreeImage) (ids : List ℕ) : Prop :=
  ∀ id < s.map.numPages, id ∉ ids → KeptOrMoved s s' s.map.numPages id

/-- The state of an inner node's pages when an insertion below one of its children is done and its
own page has yet to follow. -/
structure Grafted (rowSize : ℕ) (s : TreeImage) (h : ℕ) (t : RowTree (h + 1))
    (slots : Alt UInt32 (RowTree h)) : Prop where
  page : IsInner (s.map.content (Inner.pid t)) (Inner.slots t).keys
    ((Inner.slots t).children.map (pid h))
  holds : ∀ d ∈ slots.children, Holds rowSize s.map.content h d
  linked : ∀ d ∈ slots.children, Linked s.map.content h d
  nodup : (slots.children.flatMap (pids h)).Nodup
  notMem : Inner.pid t ∉ slots.children.flatMap (pids h)
  lt : ∀ id ∈ slots.children.flatMap (pids h), id < s.map.numPages
  pid_lt : Inner.pid t < s.map.numPages
  sorted : slots.keys.Pairwise (· < ·)

section Graft

variable {rowSize h : ℕ} {s s₁ : TreeImage} {t : RowTree (h + 1)} {key : UInt32} {row : Row}
  {r : Alt UInt32 (RowTree h) × ℕ}

/-- The pages of the other children are not touched. -/
lemma Updated.same_sibling (hu : Updated rowSize s s₁ h ((Inner.slots t).childFor key) r)
    (ht : Ready rowSize s (h + 1) t) {C D : List (RowTree h)}
    (hchildren : (Inner.slots t).children = C ++ (Inner.slots t).childFor key :: D) :
    ∀ d, d ∈ C ∨ d ∈ D → ∀ id ∈ pids h d, s₁.map.content id = s.map.content id := by
  have hnodup := (List.nodup_cons.mp ht.nodup).2
  have hlt := ht.lt
  rw [pids] at hlt
  rw [hchildren, List.flatMap_append, List.flatMap_cons] at hnodup hlt
  have hC := List.disjoint_of_nodup_append hnodup
  have hD := List.disjoint_of_nodup_append (List.Nodup.of_append_right hnodup)
  rintro d (hd | hd) id hid
  · have hmem : id ∈ C.flatMap (pids h) := List.mem_flatMap.mpr ⟨d, hd, hid⟩
    exact hu.same id (hlt id (List.mem_cons_of_mem _ (List.mem_append_left _ hmem)))
      fun h => hC hmem (List.mem_append_left _ h)
  · have hmem : id ∈ D.flatMap (pids h) := List.mem_flatMap.mpr ⟨d, hd, hid⟩
    exact hu.same id (hlt id (List.mem_cons_of_mem _ (List.mem_append_right _
      (List.mem_append_right _ hmem)))) fun h => hD h hmem

/-- The page of the node itself is not touched. -/
lemma Updated.same_top (hu : Updated rowSize s s₁ h ((Inner.slots t).childFor key) r)
    (ht : Ready rowSize s (h + 1) t) :
    s₁.map.content (Inner.pid t) = s.map.content (Inner.pid t) := by
  refine hu.same _ (ht.lt _ List.mem_cons_self) fun hmem => (List.nodup_cons.mp ht.nodup).1 ?_
  exact List.mem_flatMap.mpr ⟨_, (Inner.slots t).childFor_mem key, hmem⟩

lemma Ready.graft (ht : Ready rowSize s (h + 1) t) (hne : ∀ d ∈ cells (h + 1) t, d.1 ≠ key)
    (hr : Inserted h ((Inner.slots t).childFor key) (key, row) s.map.numPages r)
    (hu : Updated rowSize s s₁ h ((Inner.slots t).childFor key) r) :
    Grafted rowSize s₁ h t ((Inner.slots t).put key r.1) := by
  have hnonEmpty := ht.nonEmpty (Nat.succ_ne_zero h)
  have hgrown := put_grown (c := (key, row)) ht.tight hnonEmpty ht.sorted hne hr
  obtain ⟨htop, hnodup⟩ := List.nodup_cons.mp ht.nodup
  have hpid : Inner.pid t < s.map.numPages := ht.lt _ List.mem_cons_self
  have hnum := hu.numPages
  have hle := hr.fresh_le
  obtain ⟨_, _, C, D, _, hchildren, _, _, hput, _⟩ := (Inner.slots t).exists_cut key
  have hsame := hu.same_sibling ht hchildren
  have hcases : ∀ d ∈ ((Inner.slots t).put key r.1).children,
      d ∈ r.1.children ∨ (d ∈ C ∨ d ∈ D) := by
    intro d hd
    rw [(hput r.1).2, List.mem_append, List.mem_append] at hd
    tauto
  have hold : ∀ d, d ∈ C ∨ d ∈ D → d ∈ (Inner.slots t).children := by
    intro d hd
    rw [hchildren, List.mem_append, List.mem_cons]
    tauto
  have hpids : ∀ id ∈ ((Inner.slots t).put key r.1).children.flatMap (pids h),
      id ∈ (Inner.slots t).children.flatMap (pids h) ∨
        s.map.numPages ≤ id ∧ id < r.2 := by
    intro id hid
    rcases List.mem_append.mp (hgrown.pids.mem_iff.mp hid) with hid | hid
    · exact Or.inl hid
    · rw [List.mem_range'_1] at hid
      exact Or.inr ⟨hid.1, by omega⟩
  refine ⟨?_, ?_, ?_, ?_, ?_, ?_, by omega, ?_⟩
  · rw [hu.same_top ht]
    exact ht.holds.1
  · intro d hd
    rcases hcases d hd with hd | hd
    · exact hu.holds d hd
    · exact (ht.holds.2 d (hold d hd)).congr fun id hid => by rw [hsame d hd id hid]
  · intro d hd
    rcases hcases d hd with hd | hd
    · exact hu.linked d hd
    · exact (ht.linked d (hold d hd)).2.congr fun id hid => by
        rw [hsame d hd id (List.mem_of_mem_tail hid)]
  · refine hgrown.pids.nodup_iff.mpr (hnodup.append List.nodup_range' fun id hid hid' => ?_)
    rw [List.mem_range'_1] at hid'
    have hlt := ht.lt id (List.mem_cons_of_mem _ hid)
    omega
  · intro hid
    rcases hpids _ hid with hid | hid
    · exact htop hid
    · omega
  · intro id hid
    rcases hpids id hid with hid | hid
    · have hlt := ht.lt id (List.mem_cons_of_mem _ hid)
      omega
    · omega
  · refine (sep_of_tight ?_ hgrown.pairs).keys_pairwise
    rw [hgrown.cells]
    exact sorted_putCell (c := (key, row)) ht.sorted hne

/-- The page of a child is not that of the node. -/
lemma Grafted.ne_pid {slots : Alt UInt32 (RowTree h)} (hg : Grafted rowSize s₁ h t slots)
    {d : RowTree h} (hd : d ∈ slots.children) {id : ℕ} (hid : id ∈ pids h d) : id ≠ Inner.pid t :=
  fun heq => hg.notMem (heq ▸ List.mem_flatMap.mpr ⟨d, hd, hid⟩)

lemma Grafted.lt_of_mem {slots : Alt UInt32 (RowTree h)} (hg : Grafted rowSize s₁ h t slots)
    {d : RowTree h} (hd : d ∈ slots.children) {id : ℕ} (hid : id ∈ pids h d) :
    id < s₁.map.numPages :=
  hg.lt id (List.mem_flatMap.mpr ⟨d, hd, hid⟩)

lemma Grafted.pid_notMem {slots : Alt UInt32 (RowTree h)} (hg : Grafted rowSize s₁ h t slots) :
    Inner.pid t ∉ slots.children.map (pid h) := by
  intro hmem
  obtain ⟨d, hd, heq⟩ := List.mem_map.mp hmem
  exact hg.ne_pid hd (pid_mem_pids h d) heq

lemma Updated.parent_head (hu : Updated rowSize s s₁ h ((Inner.slots t).childFor key) r)
    (ht : Ready rowSize s (h + 1) t)
    (hr : Inserted h ((Inner.slots t).childFor key) (key, row) s.map.numPages r) :
    (s₁.map.content (pid h r.1.head)).parent = Inner.pid t := by
  rw [hr.head, hu.parent]
  exact (ht.linked _ ((Inner.slots t).childFor_mem key)).1

/-- Every child still names the node as its parent, except a new half of the one that split. -/
lemma Updated.parent_child (hu : Updated rowSize s s₁ h ((Inner.slots t).childFor key) r)
    (ht : Ready rowSize s (h + 1) t)
    (hr : Inserted h ((Inner.slots t).childFor key) (key, row) s.map.numPages r)
    (hone : r.1.keys.length ≤ 1) :
    ∀ d ∈ ((Inner.slots t).put key r.1).children, r.1.keys ≠ [] ∧ d = r.1.last ∨
      (s₁.map.content (pid h d)).parent = Inner.pid t := by
  obtain ⟨_, _, C, D, _, hchildren, _, _, hput, _⟩ := (Inner.slots t).exists_cut key
  have hsame := hu.same_sibling ht hchildren
  have hhead := hu.parent_head ht hr
  have hsibling : ∀ d, d ∈ C ∨ d ∈ D → (s₁.map.content (pid h d)).parent = Inner.pid t := by
    intro d hd
    rw [hsame d hd _ (pid_mem_pids h d)]
    refine (ht.linked d ?_).1
    rw [hchildren, List.mem_append, List.mem_cons]
    tauto
  have hbelow : ∀ d ∈ r.1.children, r.1.keys ≠ [] ∧ d = r.1.last ∨
      (s₁.map.content (pid h d)).parent = Inner.pid t := by
    intro d hd
    match hr' : r.1 with
    | .one c =>
        rw [hr'] at hd hhead
        rw [List.mem_singleton.mp hd]
        exact Or.inr hhead
    | .cons l k (.one c) =>
        rw [hr'] at hd hhead
        rcases List.mem_cons.mp hd with rfl | hd
        · exact Or.inr hhead
        · exact Or.inl ⟨List.cons_ne_nil _ _, List.mem_singleton.mp hd⟩
    | .cons l k (.cons _ _ _) =>
        rw [hr'] at hone
        exact absurd hone (by simp)
  intro d hd
  rw [(hput r.1).2, List.mem_append, List.mem_append] at hd
  rcases hd with hd | hd | hd
  · exact Or.inr (hsibling d (Or.inl hd))
  · exact hbelow d hd
  · exact Or.inr (hsibling d (Or.inr hd))

/-- Pages that keep their bodies, and their parents below the children, still store them. -/
lemma Grafted.congr {slots : Alt UInt32 (RowTree h)} {s₂ : TreeImage}
    (hg : Grafted rowSize s₁ h t slots)
    (hbody : ∀ id ∈ slots.children.flatMap (pids h),
      (s₂.map.content id).body = (s₁.map.content id).body)
    (hparent : ∀ d ∈ slots.children, ∀ id ∈ (pids h d).tail,
      (s₂.map.content id).parent = (s₁.map.content id).parent) :
    ∀ d ∈ slots.children, Holds rowSize s₂.map.content h d ∧ Linked s₂.map.content h d := by
  intro d hd
  refine ⟨(hg.holds d hd).congr ?_, (hg.linked d hd).congr ?_⟩
  · intro id hid
    exact (hbody id (List.mem_flatMap.mpr ⟨d, hd, hid⟩)).symm
  · intro id hid
    exact (hparent d hd id hid).symm

/-- The page `top` has been rewritten behind its header, and the parents of the pages `ids` may
have been set; whatever new pages there are do not matter. -/
structure Rewired (s₁ s₂ : TreeImage) (top : ℕ) (ids : List ℕ) : Prop where
  sameRoot : s₁.SameRoot s₂
  body : ∀ id < s₁.map.numPages, id ≠ top →
    (s₂.map.content id).body = (s₁.map.content id).body
  isRoot : ∀ id < s₁.map.numPages, (s₂.map.content id).isRoot = (s₁.map.content id).isRoot
  same : ∀ id < s₁.map.numPages, id ≠ top → id ∉ ids → s₂.map.content id = s₁.map.content id
  parent : (s₂.map.content top).parent = (s₁.map.content top).parent

/-- What rewiring keeps: everything but what the node itself holds and the parents of its
children. -/
lemma Rewired.kept {s₂ : TreeImage} (ht : Ready rowSize s (h + 1) t)
    (hne : ∀ d ∈ cells (h + 1) t, d.1 ≠ key)
    (hr : Inserted h ((Inner.slots t).childFor key) (key, row) s.map.numPages r)
    (hu : Updated rowSize s s₁ h ((Inner.slots t).childFor key) r)
    (hw : Rewired s₁ s₂ (Inner.pid t) (((Inner.slots t).put key r.1).children.map (pid h))) :
    (∀ id < s.map.numPages, id ∉ pids (h + 1) t → s₂.map.content id = s.map.content id) ∧
      (∀ id < s.map.numPages, (s₂.map.content id).isRoot = (s.map.content id).isRoot) ∧
      (∀ id, s.map.numPages ≤ id → id < r.2 →
        (s₂.map.content id).isRoot = (s.malloc id).isRoot) ∧
      (s₂.map.content (Inner.pid t)).parent = (s.map.content (Inner.pid t)).parent ∧
      ∀ d ∈ ((Inner.slots t).put key r.1).children,
        Holds rowSize s₂.map.content h d ∧ Linked s₂.map.content h d := by
  have hg := ht.graft hne hr hu
  have hnum := hu.numPages
  have hle := hr.fresh_le
  have hgrown := put_grown (c := (key, row)) ht.tight (ht.nonEmpty (Nat.succ_ne_zero h)) ht.sorted
    hne hr
  refine ⟨?_, ?_, ?_, ?_, ?_⟩
  · intro id hlt hnot
    have htop : id ≠ Inner.pid t := fun heq => hnot (heq ▸ pid_mem_pids (h + 1) t)
    have hids : id ∉ ((Inner.slots t).put key r.1).children.map (pid h) := by
      intro hid
      obtain ⟨d, hd, rfl⟩ := List.mem_map.mp hid
      have hmem := hgrown.pids.mem_iff.mp (List.mem_flatMap.mpr ⟨d, hd, pid_mem_pids h d⟩)
      rcases List.mem_append.mp hmem with hmem | hmem
      · exact hnot (List.mem_cons_of_mem _ hmem)
      · rw [List.mem_range'_1] at hmem
        omega
    rw [hw.same id (by omega) htop hids]
    refine hu.same id hlt fun hid => hnot (List.mem_cons_of_mem _ ?_)
    exact List.mem_flatMap.mpr ⟨_, (Inner.slots t).childFor_mem key, hid⟩
  · intro id hlt
    rw [hw.isRoot id (by omega), hu.isRoot id hlt]
  · intro id hge hlt
    rw [hw.isRoot id (by omega), hu.isRoot_new id hge hlt]
  · rw [hw.parent, hu.same_top ht]
  · refine hg.congr (fun id hid => hw.body id (hg.lt id hid) ?_) fun d hd id hid => ?_
    · exact fun heq => hg.notMem (heq ▸ hid)
    · have hmem : id ∈ ((Inner.slots t).put key r.1).children.flatMap (pids h) :=
        List.mem_flatMap.mpr ⟨d, hd, List.mem_of_mem_tail hid⟩
      rw [hw.same id (hg.lt id hmem) fun heq => hg.notMem (heq ▸ hmem)]
      intro hid'
      obtain ⟨e, he, rfl⟩ := List.mem_map.mp hid'
      exact pid_notMem_tail hg.nodup hd he hid

/-- What a turn of the loop spares, and what was spared below. -/
lemma Spares.climb {l d : RowTree h} {k : UInt32} {next : ℕ} {s₂ : TreeImage} {ids : List ℕ}
    (hsp : Spares s s₁ ids) (ht : Ready rowSize s (h + 1) t)
    (hu : Updated rowSize s s₁ h ((Inner.slots t).childFor key) (.cons l k (.one d), next))
    (hw : Rewired s₁ s₂ (Inner.pid t)
      (((Inner.slots t).put key (.cons l k (.one d))).children.map (pid h)))
    (hturn : Spares s₁ s₂ [Inner.pid t, pid h l, pid h d])
    (hle : s.map.numPages ≤ s₁.map.numPages) (hle' : s₁.map.numPages ≤ s₂.map.numPages)
    (hl : pid h l ∈ ids) (hd : s.map.numPages ≤ pid h d) :
    Spares s s₂ (ids ++ [Inner.pid t]) := by
  intro id hid hnot
  have hids : id ∉ ids := fun hmem => hnot (List.mem_append_left _ hmem)
  have htop : id ≠ Inner.pid t := fun heq =>
    hnot (List.mem_append_right _ (List.mem_singleton.mpr heq))
  have hnl : id ≠ pid h l := fun heq => hids (heq ▸ hl)
  have hnd : id ≠ pid h d := by omega
  have hlt₁ : id < s₁.map.numPages := by omega
  by_cases hchild : id ∈ ((Inner.slots t).put key (.cons l k (.one d))).children.map (pid h)
  · -- a sibling of the halves: nothing has happened to it below
    obtain ⟨_, _, C, D, _, hchildren, _, _, hput, _⟩ := (Inner.slots t).exists_cut key
    obtain ⟨e, he, rfl⟩ := List.mem_map.mp hchild
    have hsibling : e ∈ C ∨ e ∈ D := by
      rw [(hput _).2, List.mem_append, List.mem_append] at he
      rcases he with he | he | he
      · exact Or.inl he
      · rcases List.mem_cons.mp he with rfl | he
        · exact absurd rfl hnl
        · rw [List.mem_singleton.mp he] at hnd
          exact absurd rfl hnd
      · exact Or.inr he
    have hsame := hu.same_sibling ht hchildren e hsibling _ (pid_mem_pids h e)
    have hkept := hturn _ hlt₁ (by simp [htop, hnl, hnd])
    rw [KeptOrMoved, hsame] at hkept
    refine hkept.imp_right ?_
    rintro ⟨q, hq, hrest⟩
    exact ⟨q, hle.trans hq, hrest⟩
  · -- the turn does not touch it
    rw [KeptOrMoved, hw.same id hlt₁ htop hchild]
    refine (hsp id hid hids).imp_right ?_
    rintro ⟨q, hq, hq', hhas, heq⟩
    have hne : q ≠ Inner.pid t := by
      have hpid := ht.lt _ List.mem_cons_self
      omega
    exact ⟨q, hq, hq'.trans_le hle', hhas.congr (hw.body q hq' hne).symm, heq⟩

/-- The same of the nodes that an insertion passes: this one is the next of them. -/
lemma Spares.climb_passed {L I : ℕ} {l d : RowTree h} {k : UInt32} {next : ℕ} {s₂ : TreeImage}
    (hbelow : Full L I key h ((Inner.slots t).childFor key))
    (hsp : Spares s s₁ (passed L I key h ((Inner.slots t).childFor key)))
    (ht : Ready rowSize s (h + 1) t)
    (hr : Inserted h ((Inner.slots t).childFor key) (key, row) s.map.numPages
      (.cons l k (.one d), next))
    (hu : Updated rowSize s s₁ h ((Inner.slots t).childFor key) (.cons l k (.one d), next))
    (hw : Rewired s₁ s₂ (Inner.pid t)
      (((Inner.slots t).put key (.cons l k (.one d))).children.map (pid h)))
    (hturn : Spares s₁ s₂ [Inner.pid t, pid h l, pid h d])
    (hle : s₁.map.numPages ≤ s₂.map.numPages) (hd : s.map.numPages ≤ pid h d) :
    Spares s s₂ (passed L I key (h + 1) t) := by
  have hhead : pid h l = pid h ((Inner.slots t).childFor key) := hr.head
  rw [passed_succ, if_pos hbelow]
  refine hsp.climb ht hu hw hturn (hr.fresh_le.trans hu.numPages.symm.le) hle ?_ hd
  rw [hhead]
  exact pid_mem_passed hbelow

/-- The child has not split: the node's page stays as it is. -/
lemma Updated.keep (ht : Ready rowSize s (h + 1) t) (hne : ∀ d ∈ cells (h + 1) t, d.1 ≠ key)
    (hr : Inserted h ((Inner.slots t).childFor key) (key, row) s.map.numPages r)
    (hu : Updated rowSize s s₁ h ((Inner.slots t).childFor key) r) (hnil : r.1.keys = []) :
    Updated rowSize s s₁ (h + 1) t
      (.one (SearchTree.Inner.mk (Inner.pid t) ((Inner.slots t).put key r.1)), r.2) := by
  have hg := ht.graft hne hr hu
  have hparent := hu.parent_child ht hr (by rw [hnil]; exact Nat.zero_le _)
  obtain ⟨A, B, C, D, hkeys, hchildren, _, _, hput, _⟩ := (Inner.slots t).exists_cut key
  have hone := Alt.children_of_keys_nil hnil
  refine ⟨hu.numPages, hu.sameRoot, fun id hlt hnot => hu.same id hlt ?_, hu.isRoot, hu.isRoot_new,
    congrArg Page.parent (hu.same_top ht), ?_, ?_⟩
  · intro hid
    exact hnot (List.mem_cons_of_mem _ (List.mem_flatMap.mpr
      ⟨_, (Inner.slots t).childFor_mem key, hid⟩))
  · intro d hd
    rw [List.mem_singleton.mp hd]
    refine ⟨?_, hg.holds⟩
    have hkeys' : ((Inner.slots t).put key r.1).keys = (Inner.slots t).keys := by
      rw [(hput r.1).1, hnil, hkeys]
      rfl
    have hchildren' : ((Inner.slots t).put key r.1).children.map (pid h)
        = (Inner.slots t).children.map (pid h) := by
      rw [(hput r.1).2, hone, hchildren]
      simp only [List.map_append, List.map_cons, Alt.children_one, List.map_nil, hr.head]
      rfl
    show IsInner (s₁.map.content (Inner.pid t)) ((Inner.slots t).put key r.1).keys
      (((Inner.slots t).put key r.1).children.map (pid h))
    rw [hkeys', hchildren']
    exact hg.page
  · intro d hd
    rw [List.mem_singleton.mp hd]
    exact fun c hc => ⟨(hparent c hc).resolve_left fun h => h.1 hnil, hg.linked c hc⟩

/-- The child has split and the node has taken the key: the node's tree is one still. -/
lemma Rewired.updated {s₂ : TreeImage} (ht : Ready rowSize s (h + 1) t)
    (hne : ∀ d ∈ cells (h + 1) t, d.1 ≠ key)
    (hr : Inserted h ((Inner.slots t).childFor key) (key, row) s.map.numPages r)
    (hu : Updated rowSize s s₁ h ((Inner.slots t).childFor key) r)
    (hw : Rewired s₁ s₂ (Inner.pid t) (((Inner.slots t).put key r.1).children.map (pid h)))
    (hnum : s₂.map.numPages = r.2)
    (hpage : IsInner (s₂.map.content (Inner.pid t)) ((Inner.slots t).put key r.1).keys
      (((Inner.slots t).put key r.1).children.map (pid h)))
    (hlink : ∀ d ∈ ((Inner.slots t).put key r.1).children,
      (s₂.map.content (pid h d)).parent = Inner.pid t) :
    Updated rowSize s s₂ (h + 1) t
      (.one (SearchTree.Inner.mk (Inner.pid t) ((Inner.slots t).put key r.1)), r.2) := by
  obtain ⟨hold, hroot, hnew, hparent, hchild⟩ := hw.kept ht hne hr hu
  refine ⟨hnum, hu.sameRoot.trans hw.sameRoot, hold, hroot, hnew, hparent, ?_, ?_⟩
  · intro d hd
    rw [List.mem_singleton.mp hd]
    exact ⟨hpage, fun c hc => (hchild c hc).1⟩
  · intro d hd
    rw [List.mem_singleton.mp hd]
    exact fun c hc => ⟨hlink c hc, (hchild c hc).2⟩

/-- The page `top` has been split between itself and the new page `next`, and the children of the
halves are linked to them. -/
structure Parted (s₁ s₂ : TreeImage) (top next : ℕ) (left right : Alt UInt32 (RowTree h)) :
    Prop where
  numPages : s₂.map.numPages = next + 1
  leftPage : IsInner (s₂.map.content top) left.keys (left.children.map (pid h))
  rightPage : IsInner (s₂.map.content next) right.keys (right.children.map (pid h))
  isRoot_new : (s₂.map.content next).isRoot = (s₁.malloc next).isRoot
  leftParent : ∀ d ∈ left.children, (s₂.map.content (pid h d)).parent = top
  rightParent : ∀ d ∈ right.children, (s₂.map.content (pid h d)).parent = next
  relinked : ∀ id < next, id ≠ top →
    s₂.map.content id = (s₁.map.content id).setParent (s₂.map.content id).parent

section Part

variable {s₂ : TreeImage} {l d : RowTree h} {k k₀ : UInt32} {next : ℕ}
  {left right : Alt UInt32 (RowTree h)}

lemma Parted.updated (hp : Parted s₁ s₂ (Inner.pid t) next left right)
    (ht : Ready rowSize s (h + 1) t) (hne : ∀ d ∈ cells (h + 1) t, d.1 ≠ key)
    (hr : Inserted h ((Inner.slots t).childFor key) (key, row) s.map.numPages
      (.cons l k (.one d), next))
    (hu : Updated rowSize s s₁ h ((Inner.slots t).childFor key) (.cons l k (.one d), next))
    (hw : Rewired s₁ s₂ (Inner.pid t)
      (((Inner.slots t).put key (.cons l k (.one d))).children.map (pid h)))
    (hcut : (Inner.slots t).put key (.cons l k (.one d)) = left.append k₀ right) :
    Updated rowSize s s₂ (h + 1) t
      (.cons (SearchTree.Inner.mk (Inner.pid t) left) k₀
        (.one (SearchTree.Inner.mk next right)), next + 1) := by
  obtain ⟨hold, hroot, hrootnew, hparent, hchild⟩ := hw.kept ht hne hr hu
  rw [hcut, Alt.children_append] at hchild
  refine ⟨hp.numPages, hu.sameRoot.trans hw.sameRoot, hold, hroot, ?_, hparent, ?_, ?_⟩
  · intro id hge hlt
    rcases Nat.lt_succ_iff_lt_or_eq.mp hlt with hlt | rfl
    · exact hrootnew id hge hlt
    · rw [hp.isRoot_new, hu.sameRoot.malloc]
  · intro d hd
    rcases List.mem_cons.mp hd with rfl | hd
    · exact ⟨hp.leftPage, fun c hc => (hchild c (List.mem_append_left _ hc)).1⟩
    · rw [List.mem_singleton.mp hd]
      exact ⟨hp.rightPage, fun c hc => (hchild c (List.mem_append_right _ hc)).1⟩
  · intro d hd
    rcases List.mem_cons.mp hd with rfl | hd
    · exact fun c hc => ⟨hp.leftParent c hc, (hchild c (List.mem_append_left _ hc)).2⟩
    · rw [List.mem_singleton.mp hd]
      exact fun c hc => ⟨hp.rightParent c hc, (hchild c (List.mem_append_right _ hc)).2⟩

/-- But for the node and the halves of the child, the pages are as they were, or below the new
page. -/
lemma Parted.spares (hp : Parted s₁ s₂ (Inner.pid t) next left right)
    (ht : Ready rowSize s (h + 1) t)
    (hr : Inserted h ((Inner.slots t).childFor key) (key, row) s.map.numPages
      (.cons l k (.one d), next))
    (hu : Updated rowSize s s₁ h ((Inner.slots t).childFor key) (.cons l k (.one d), next))
    (hw : Rewired s₁ s₂ (Inner.pid t)
      (((Inner.slots t).put key (.cons l k (.one d))).children.map (pid h)))
    (hcut : (Inner.slots t).put key (.cons l k (.one d)) = left.append k₀ right) :
    Spares s₁ s₂ [Inner.pid t, pid h l, pid h d] := by
  have hnum : s₁.map.numPages = next := hu.numPages
  intro id hlt hid
  simp only [List.mem_cons, List.not_mem_nil, or_false, not_or] at hid
  by_cases hmem : id ∈ ((Inner.slots t).put key (.cons l k (.one d))).children.map (pid h)
  · obtain ⟨c, hc, rfl⟩ := List.mem_map.mp hmem
    have hrelinked := hp.relinked _ (hnum ▸ hlt) hid.1
    have hside := hc
    rw [hcut, Alt.children_append] at hside
    rcases List.mem_append.mp hside with hside | hside
    · -- it stays on the left and has its parent already
      have hold := (hu.parent_child ht hr le_rfl c hc).resolve_left fun heq =>
        hid.2.2 (heq.2 ▸ rfl)
      refine Or.inl ?_
      rw [hrelinked, hp.leftParent c hside, ← hold, Page.setParent_parent]
    · refine Or.inr ⟨next, hnum.le, by rw [hp.numPages]; exact Nat.lt_succ_self _,
        ⟨hp.rightPage.nodeType, ?_⟩, ?_⟩
      · rw [hp.rightPage.children_eq]
        exact List.mem_map_of_mem hside
      · rw [hrelinked, hp.rightParent c hside]
  · exact Or.inl (hw.same id hlt hid.1 hmem)

end Part

end Graft

/-- A node object whose page is a leaf. -/
lemma IsLeaf.of_node {rowSize : ℕ} {n : LeafNode} {cells : List (UInt32 × Row)}
    (htype : n.data.nodeType = nodeTypeLeaf) (hrow : n.data.u32 leafNodeRowsizeOffset = rowSize)
    (hsize : n.cellSize = 4 + rowSize) (hcells : n.cells = cells)
    (hle : cells.length ≤ LeafNode.pageMax rowSize) : IsLeaf rowSize n.data cells := by
  refine ⟨htype, hrow, ?_, hle⟩
  rw [← hcells, LeafNode.cells, LeafNode.cells]
  refine Slots.slots_congr ?_
  intro i _
  rw [LeafNode.cellAt, LeafNode.cellAt, LeafNode.cellBytes, LeafNode.cellBytes,
    LeafNode.cellStart, LeafNode.cellStart, hsize]
  rfl

/-- Only the page of a leaf changes when it takes a row or splits. -/
lemma Updated.spares_zero {rowSize L I : ℕ} {s s' : TreeImage} {t : RowTree 0} {key : UInt32}
    {r : Alt UInt32 (RowTree 0) × ℕ} (hu : Updated rowSize s s' 0 t r) :
    Spares s s' (passed L I key 0 t) := by
  intro id hid hnot
  rw [passed_zero] at hnot
  exact Or.inl (hu.same id hid hnot)

namespace BPlusTree

/-- `insert` from the leaf upwards, as far as the loop goes. -/
def insertBelow (P : TreeParams) (fuel pageId : ℕ) (key : UInt32) (row : Row) :
    PageM (Option Upward) := do
  match ← insertToLeaf P pageId key row with
  | none => pure none
  | some up => climb P fuel up

/-- How the loop goes on when the trees `r` have taken the place of a node. -/
def goOn (P : TreeParams) (fuel : ℕ) (s : TreeImage) {h : ℕ} (parent : ℕ) :
    Alt UInt32 (RowTree h) → Except Fault (Option Upward × TreeImage)
  | .one _ => .ok (none, s)
  | .cons l key rest =>
      (climb P fuel ⟨key, pid h l, pid h rest.head, parent⟩).run TreeImage.handler s

variable {P : TreeParams} {s : TreeImage} {key : UInt32} {row : Row}

section Leaf

/-- The leaf as `insert` sees it. -/
def loadedLeaf (P : TreeParams) (page : Page) : LeafNode :=
  { LeafNode.view page P.rowSize with numMaxCell := P.leafCapacity }

lemma loadedLeaf_wf (P : TreeParams) (page : Page) : (loadedLeaf P page).WF :=
  ⟨rfl, min_le_left _ _⟩

lemma setNodeLoad_view (hP : P.Valid) (page : Page) :
    (LeafNode.view page P.rowSize).setNodeLoad
      (min (LeafNode.view page P.rowSize).numMaxCell P.leafLoad) = .ok (loadedLeaf P page) := by
  show (LeafNode.view page P.rowSize).setNodeLoad P.leafCapacity = _
  rw [LeafNode.setNodeLoad, assertThat_of hP.leafCapacity_even]
  rfl

lemma isFull_loadedLeaf {page : Page} {cells : List (UInt32 × Row)}
    (hp : IsLeaf P.rowSize page cells) :
    (loadedLeaf P page).isFull = (cells.length == P.leafCapacity) := by
  have hnum : (loadedLeaf P page).numCells = cells.length := hp.numCells
  rw [LeafNode.isFull, hnum]
  rfl

variable {t : RowTree 0} (hP : P.Valid) (ht : Ready P.rowSize s 0 t)
  (hne : ∀ d ∈ Leaf.cells t, d.1 ≠ key) (hrow : row.length = P.rowSize)

include hP ht hne hrow

/-- The leaf takes the row. -/
lemma run_insertToLeaf_room (hlt : (Leaf.cells t).length < P.leafCapacity) :
    ∃ s', Updated P.rowSize s s' 0 t
        (SearchTree.insert P.leafCapacity P.innerCapacity (key, row) s.map.numPages 0 t) ∧
      (insertToLeaf P (Leaf.pid t) key row).run TreeImage.handler s = .ok (none, s') := by
  have hp : IsLeaf P.rowSize (s.map.content (Leaf.pid t)) (Leaf.cells t) := ht.holds
  have hid : Leaf.pid t < s.map.numPages := ht.lt _ (pid_mem_pids 0 t)
  set page := s.map.content (Leaf.pid t)
  have hnum : (loadedLeaf P page).numCells = (Leaf.cells t).length := hp.numCells
  obtain ⟨A, B, hcut, hA, hB⟩ := exists_cells_cut ht.sorted hne
  have hcut' : Leaf.cells t = A ++ B := hcut
  obtain ⟨n, hins, hcells, hsame⟩ := LeafNode.insert_spec (loadedLeaf_wf P page)
    (show (loadedLeaf P page).cells = A ++ B from hp.cells_eq.trans hcut) hA hB
    (by rw [hnum]; exact hlt) hrow
  have hput : putCell (key, row) (Leaf.cells t) = A ++ (key, row) :: B := by
    rw [hcut', putCell_append hA hB]
  have hlen := length_putCell (key, row) (Leaf.cells t)
  have hcap : P.leafCapacity ≤ LeafNode.pageMax P.rowSize := min_le_left _ _
  refine ⟨store s (Leaf.pid t) n.data, ?_, ?_⟩
  · rw [insert_zero_of_ne (key, row) _ (ne_of_lt hlt)]
    refine ⟨rfl, ⟨rfl, rfl, rfl⟩, ?_, ?_, ?_, ?_, ?_, fun _ _ => trivial⟩
    · intro id _ hnot
      exact s.map.write_content_of_ne _ fun h => hnot (h ▸ pid_mem_pids 0 t)
    · intro id _
      rw [content_store]
      split_ifs with h
      · rw [h]; exact hsame.isRoot
      · rfl
    · intro id hge hlt'
      exact absurd hlt' (not_lt_of_ge hge)
    · show ((store s (Leaf.pid t) n.data).map.content (Leaf.pid t)).parent = page.parent
      rw [content_store, if_pos rfl]
      exact hsame.parent
    · intro d hd
      rw [List.mem_singleton.mp hd]
      show IsLeaf P.rowSize ((store s (Leaf.pid t) n.data).map.content (Leaf.pid t)) _
      rw [content_store, if_pos rfl]
      refine IsLeaf.of_node (hsame.nodeType.trans hp.nodeType)
        (hsame.rowSizeField.trans hp.rowSize_eq) hsame.cellSize (hcells.trans hput.symm) ?_
      show (putCell (key, row) (Leaf.cells t)).length ≤ _
      omega
  · have hfull := (isFull_loadedLeaf hp).trans (beq_false_of_ne (ne_of_lt hlt))
    rw [insertToLeaf, Prog.run_bind_of_ok _ (run_getPage hid ht.numPages_le),
      Prog.run_liftM_bind _ _ (hp.load hP.room), Prog.run_liftM_bind _ _ (setNodeLoad_view hP page),
      if_pos hfull, Prog.run_liftM_bind _ _ hins,
      Prog.run_bind_of_ok _ (run_writePage hid ht.numPages_le _)]
    rfl

/-- The leaf is full and splits, if there is a page. -/
lemma run_insertToLeaf_full (hfull : (Leaf.cells t).length = P.leafCapacity)
    (hroom : s.map.numPages < tableMaxPages) :
    ∃ s' l k r, SearchTree.insert P.leafCapacity P.innerCapacity (key, row) s.map.numPages 0 t
        = (.cons l k (.one r), s.map.numPages + 1) ∧
      Updated P.rowSize s s' 0 t (.cons l k (.one r), s.map.numPages + 1) ∧
      (insertToLeaf P (Leaf.pid t) key row).run TreeImage.handler s
        = .ok (some ⟨k, pid 0 l, pid 0 r, (s.map.content (Leaf.pid t)).parent⟩, s') := by
  have hp : IsLeaf P.rowSize (s.map.content (Leaf.pid t)) (Leaf.cells t) := ht.holds
  have hid : Leaf.pid t < s.map.numPages := ht.lt _ (pid_mem_pids 0 t)
  set page := s.map.content (Leaf.pid t) with hpage
  have hnum : (loadedLeaf P page).numCells = P.leafCapacity := hp.numCells.trans hfull
  obtain ⟨heven, hpos⟩ := hP.leafCapacity_even
  obtain ⟨A, B, hcut, hA, hB⟩ := exists_cells_cut ht.sorted hne
  have hcut' : Leaf.cells t = A ++ B := hcut
  obtain ⟨pivot, l, r, hins, hpivot, hl, hr, hsame, hrtype, hrroot, -, hrfield, hrsize⟩ :=
    LeafNode.insertAndSplit_spec (loadedLeaf_wf P page)
      (show (loadedLeaf P page).cells = A ++ B from hp.cells_eq.trans hcut) hA hB hnum
      (by rw [hnum]; exact hpos) (by rw [hnum]; exact heven) hrow (s.malloc s.map.numPages)
  have hput : putCell (key, row) (Leaf.cells t) = A ++ (key, row) :: B := by
    rw [hcut', putCell_append hA hB]
  rw [hnum, ← hput] at hpivot hl hr
  have hlen := length_putCell (key, row) (Leaf.cells t)
  have hcap : P.leafCapacity ≤ LeafNode.pageMax P.rowSize := min_le_left _ _
  obtain ⟨p, hmid, hinsert⟩ := @insert_zero_of_full _ _ _ P.leafCapacity P.innerCapacity (key, row)
    s.map.numPages t hfull
  rw [hmid] at hpivot
  obtain rfl : p.1 = pivot := Option.some.inj hpivot
  set s' := splitPage s (Leaf.pid t) l.data r.data
  have hold : s'.map.content (Leaf.pid t) = l.data := by
    rw [content_splitPage, if_neg (ne_of_lt hid), if_pos rfl]
  have hnew : s'.map.content s.map.numPages = r.data := by
    rw [content_splitPage, if_pos rfl]
  refine ⟨s', _, _, _, hinsert, ?_, ?_⟩
  · refine ⟨rfl, ⟨rfl, rfl, rfl⟩, ?_, ?_, ?_, ?_, ?_, fun _ _ => trivial⟩
    · intro id hlt hnot
      rw [content_splitPage, if_neg (ne_of_lt hlt),
        if_neg fun h => hnot (show id ∈ [Leaf.pid t] by rw [h]; exact List.mem_singleton_self _)]
    · intro id hlt
      rw [content_splitPage, if_neg (ne_of_lt hlt)]
      split_ifs with h
      · rw [h]; exact hsame.isRoot
      · rfl
    · intro id hge hlt'
      obtain rfl : id = s.map.numPages := by omega
      rw [hnew]
      exact hrroot
    · exact (congrArg Page.parent hold).trans hsame.parent
    · intro d hd
      rcases List.mem_cons.mp hd with rfl | hd
      · show IsLeaf P.rowSize (s'.map.content (Leaf.pid t)) _
        rw [hold]
        refine IsLeaf.of_node (hsame.nodeType.trans hp.nodeType)
          (hsame.rowSizeField.trans hp.rowSize_eq) hsame.cellSize hl ?_
        show ((putCell (key, row) (Leaf.cells t)).take _).length ≤ _
        rw [List.length_take]
        omega
      · rw [List.mem_singleton.mp hd]
        show IsLeaf P.rowSize (s'.map.content s.map.numPages) _
        rw [hnew]
        refine IsLeaf.of_node hrtype hrfield hrsize hr ?_
        show ((putCell (key, row) (Leaf.cells t)).drop _).length ≤ _
        rw [List.length_drop]
        omega
  · have hisFull := (isFull_loadedLeaf hp).trans (beq_iff_eq.mpr hfull)
    rw [insertToLeaf, Prog.run_bind_of_ok _ (run_getPage hid ht.numPages_le),
      Prog.run_liftM_bind _ _ (hp.load hP.room), Prog.run_liftM_bind _ _ (setNodeLoad_view hP page),
      if_neg (by rw [hisFull]; decide), Prog.run_bind_of_ok _ (run_allocatePage hroom),
      Prog.run_liftM_bind _ _ hins]
    rw [Prog.run_bind_of_ok _ (@run_writePage (extend s) _ (Nat.lt_succ_of_lt hid) hroom _),
      Prog.run_bind_of_ok _ (run_writePage_new hroom _ _ _), Prog.run_pure,
      hsame.parent]
    rfl

omit hne hrow in
/-- The leaf is full and the page table too. -/
lemma run_insertToLeaf_fault (hfull : (Leaf.cells t).length = P.leafCapacity)
    (hroom : tableMaxPages ≤ s.map.numPages) :
    (insertToLeaf P (Leaf.pid t) key row).run TreeImage.handler s
      = .error (.pageIndex tableMaxPages) := by
  have hp : IsLeaf P.rowSize (s.map.content (Leaf.pid t)) (Leaf.cells t) := ht.holds
  have hid : Leaf.pid t < s.map.numPages := ht.lt _ (pid_mem_pids 0 t)
  have hisFull := (isFull_loadedLeaf hp).trans (beq_iff_eq.mpr hfull)
  rw [insertToLeaf, Prog.run_bind_of_ok _ (run_getPage hid ht.numPages_le),
    Prog.run_liftM_bind _ _ (hp.load hP.room), Prog.run_liftM_bind _ _ (setNodeLoad_view hP _),
    if_neg (by rw [hisFull]; decide)]
  exact Prog.run_bind_of_error _ (run_allocatePage_of_full hroom) _

end Leaf

/-- Which halves of a child can end up left of the pivot `k₀`: the right one only if the key `k`
between them is below the pivot, the left one only if it is not above. -/
lemma left_sides {h : ℕ} {left right : Alt UInt32 (RowTree h)} {k k₀ : UInt32} {A B : List UInt32}
    {C D : List (RowTree h)} {l r : RowTree h}
    (hnodup : ((left.append k₀ right).children.flatMap (pids h)).Nodup)
    (hsorted : (left.append k₀ right).keys.Pairwise (· < ·))
    (hkeys : (left.append k₀ right).keys = A ++ k :: B)
    (hchildren : (left.append k₀ right).children = C ++ l :: r :: D) (hlen : C.length = A.length) :
    (r ∈ left.children → k < k₀) ∧ (l ∈ left.children → ¬k₀ < k) := by
  obtain ⟨hge, hgt⟩ := Alt.mem_left_of_append hkeys hchildren hlen hsorted
  rw [hchildren] at hnodup
  have hlC : l ∉ C := notMem_of_nodup hnodup
  have hrC : r ∉ C ++ [l] := by
    refine notMem_of_nodup (D := D) ?_
    rw [List.append_assoc]
    exact hnodup
  refine ⟨?_, fun hl hlt => hlC (hgt hlt l hl)⟩
  intro hr
  by_contra hnot
  rcases hge (not_lt.mp hnot) r hr with hmem | hmem
  · exact hrC (List.mem_append_left _ hmem)
  · exact hrC (List.mem_append_right _ (List.mem_singleton.mpr hmem))

/-- The links that a split of an inner node sets: the children that stay on the left have the node
as their parent, the others the new node. -/
lemma run_links (hP : P.Valid) {h : ℕ} {slots left right : Alt UInt32 (RowTree h)}
    {k k₀ : UInt32} {A B : List UInt32} {C D : List (RowTree h)} {l r : RowTree h} {top new : ℕ}
    (hmax : s.map.numPages ≤ tableMaxPages) (htop : top < 2 ^ 64)
    (hheld : ∀ d ∈ slots.children, Holds P.rowSize s.map.content h d ∧ pid h d < s.map.numPages)
    (hnodup : (slots.children.flatMap (pids h)).Nodup) (hsorted : slots.keys.Pairwise (· < ·))
    (hcut : slots = left.append k₀ right) (hkeys : slots.keys = A ++ k :: B)
    (hchildren : slots.children = C ++ l :: r :: D) (hlen : C.length = A.length)
    (hparent : ∀ d ∈ slots.children, d = r ∨ (s.map.content (pid h d)).parent = top)
    (hnew : IsInner (s.map.content new) right.keys (right.children.map (pid h)))
    (hidnew : new < s.map.numPages) (hnotnew : new ∉ slots.children.map (pid h)) :
    ∃ s₁ s₂, (linkHalves ⟨k, pid h l, pid h r, top⟩ k₀ new).run TreeImage.handler s
        = .ok ((), s₁) ∧
      (getNodeBy new).run TreeImage.handler s₁
        = .ok (.inner (InternalNode.load (s.map.content new)), s₁) ∧
      (relinkLoop (InternalNode.load (s.map.content new)) new
          ((InternalNode.load (s.map.content new)).numKeys + 1) 0).run TreeImage.handler s₁
        = .ok ((), s₂) ∧
      s₂.map.numPages = s.map.numPages ∧ s.SameRoot s₂ ∧
      (∀ i, (s₂.map.content i).body = (s.map.content i).body) ∧
      (∀ i, (s₂.map.content i).isRoot = (s.map.content i).isRoot) ∧
      (∀ i ∉ slots.children.map (pid h), s₂.map.content i = s.map.content i) ∧
      (∀ d ∈ left.children, (s₂.map.content (pid h d)).parent = top) ∧
      ∀ d ∈ right.children, (s₂.map.content (pid h d)).parent = new := by
  have htm : tableMaxPages < 2 ^ 64 := by decide
  have hl : l ∈ slots.children := by
    rw [hchildren]; exact List.mem_append_right _ List.mem_cons_self
  have hr : r ∈ slots.children := by
    rw [hchildren]; exact List.mem_append_right _ (List.mem_cons_of_mem _ List.mem_cons_self)
  obtain ⟨s₀, s₁, hhalves, h₁, h₂⟩ := @run_linkHalves P.rowSize h hP.room s hmax l r
    (hheld l hl).1 (hheld l hl).2 (hheld r hr).1 (hheld r hr).2 k k₀ top new htop (by omega)
  have hnum₁ : s₁.map.numPages = s.map.numPages := h₂.numPages.trans h₁.numPages
  have hsame₁ : ∀ i, i ≠ pid h l → i ≠ pid h r → s₁.map.content i = s.map.content i :=
    fun i hil hir => (h₂.same i fun hi => hir (List.mem_singleton.mp hi)).trans
      (h₁.same i fun hi => hil (List.mem_singleton.mp hi))
  have hnew₁ : s₁.map.content new = s.map.content new :=
    hsame₁ new (fun heq => hnotnew (heq ▸ List.mem_map_of_mem hl))
      fun heq => hnotnew (heq ▸ List.mem_map_of_mem hr)
  have hright : ∀ d ∈ right.children, d ∈ slots.children := by
    intro d hd
    rw [hcut, Alt.children_append]; exact List.mem_append_right _ hd
  have hleft : ∀ d ∈ left.children, d ∈ slots.children := by
    intro d hd
    rw [hcut, Alt.children_append]; exact List.mem_append_left _ hd
  obtain ⟨s₂, hloop, h₃⟩ := @run_relinkLoop P.rowSize h hP.room
    (InternalNode.load (s.map.content new)) (le_refl _)
    (by rw [hnew.numKeys]; exact hnew.length_le) new (by omega) right.children [] s₁
    (by rw [hnum₁]; exact hmax) hnew.children_eq fun d hd =>
      ⟨h₂.holds (h₁.holds (hheld d (hright d hd)).1), by
        rw [hnum₁]; exact (hheld d (hright d hd)).2⟩
  have hcount : right.children.length = (InternalNode.load (s.map.content new)).numKeys + 1 := by
    rw [right.length_children, hnew.numKeys]
  rw [hcount] at hloop
  refine ⟨s₁, s₂, hhalves, ?_, hloop, h₃.numPages.trans hnum₁, (h₁.sameRoot.trans h₂.sameRoot).trans
    h₃.sameRoot, fun i => (h₃.body i).trans ((h₂.body i).trans (h₁.body i)), fun i => (h₃.isRoot
    i).trans ((h₂.isRoot i).trans (h₁.isRoot i)), ?_, ?_, fun d hd => h₃.parent _
    (List.mem_map_of_mem hd)⟩
  · have hnew' : IsInner (s₁.map.content new) right.keys (right.children.map (pid h)) :=
      hnew₁.symm ▸ hnew
    rw [getNodeBy, Prog.run_bind_of_ok _ (run_getPage (by rw [hnum₁]; exact hidnew)
      (by rw [hnum₁]; exact hmax)), Prog.run_lift, hnew'.loadNodeFrom, hnew₁]
    rfl
  · intro i hi
    rw [h₃.same i fun hmem => ?_]
    · exact hsame₁ i (fun heq => hi (heq ▸ List.mem_map_of_mem hl))
        fun heq => hi (heq ▸ List.mem_map_of_mem hr)
    · obtain ⟨d, hd, rfl⟩ := List.mem_map.mp hmem
      exact hi (List.mem_map_of_mem (hright d hd))
  · intro d hd
    -- a child on the left is linked by the first two writes, or was linked before
    obtain ⟨hrside, hlside⟩ :=
      left_sides (hcut ▸ hnodup) (hcut ▸ hsorted) (hcut ▸ hkeys) (hcut ▸ hchildren) hlen
    have hnodup' := hnodup
    rw [hcut, Alt.children_append] at hnodup'
    rw [h₃.same _ (pid_notMem_of_nodup hnodup' hd)]
    by_cases hdr : pid h d = pid h r
    · have heq : d = r := eq_of_pid_mem hnodup hr (hleft d hd) (hdr ▸ pid_mem_pids h r)
      rw [hdr, h₂.parent _ (List.mem_singleton_self _), if_pos (hrside (heq ▸ hd))]
    · rw [h₂.same _ fun hmem => hdr (List.mem_singleton.mp hmem)]
      by_cases hdl : pid h d = pid h l
      · have heq : d = l := eq_of_pid_mem hnodup hl (hleft d hd) (hdl ▸ pid_mem_pids h l)
        rw [hdl, h₁.parent _ (List.mem_singleton_self _), if_neg (hlside (heq ▸ hd))]
      · rw [h₁.same _ fun hmem => hdl (List.mem_singleton.mp hmem)]
        exact (hparent d (hleft d hd)).resolve_left fun heq => hdr (heq ▸ rfl)

/-- The halves of a child are children afterwards. -/
lemma halves_mem_put {h : ℕ} (slots : Alt UInt32 (RowTree h)) (key : UInt32) (l r : RowTree h)
    (k : UInt32) : l ∈ (slots.put key (.cons l k (.one r))).children ∧
      r ∈ (slots.put key (.cons l k (.one r))).children := by
  obtain ⟨A, B, C, D, -, -, -, -, hput, -⟩ := slots.exists_cut key
  rw [(hput _).2]
  exact ⟨List.mem_append_right _ (List.mem_append_left _ List.mem_cons_self),
    List.mem_append_right _ (List.mem_append_left _ (List.mem_cons_of_mem _ List.mem_cons_self))⟩

section Inner

variable {h : ℕ} {t : RowTree (h + 1)}

/-- The inner node as `insert` sees it. -/
def loadedInner (P : TreeParams) (page : Page) : InternalNode :=
  { InternalNode.load page with numMaxKeys := P.innerCapacity }

lemma loadedInner_wf (P : TreeParams) (page : Page) : (loadedInner P page).WF := min_le_left _ _

lemma setNodeLoad_load (hP : P.Valid) (page : Page) :
    (InternalNode.load page).setNodeLoad
      (min (InternalNode.load page).numMaxKeys P.innerNodeLoad) = .ok (loadedInner P page) := by
  show (InternalNode.load page).setNodeLoad P.innerCapacity = _
  rw [InternalNode.setNodeLoad, assertThat_of hP.innerCapacity_even]
  rfl

lemma isFull_loadedInner {page : Page} {keys : List UInt32} {children : List ℕ}
    (hp : IsInner page keys children) :
    (loadedInner P page).isFull = (keys.length == P.innerCapacity) := by
  have hnum : (loadedInner P page).numKeys = keys.length := hp.numKeys
  rw [InternalNode.isFull, hnum]
  rfl

variable {s₁ : TreeImage} {l r : RowTree h} {k : UInt32} {next : ℕ} (hP : P.Valid)
  (ht : Ready P.rowSize s (h + 1) t) (hne : ∀ d ∈ cells (h + 1) t, d.1 ≠ key)
  (hr : Inserted h ((Inner.slots t).childFor key) (key, row) s.map.numPages
    (.cons l k (.one r), next))
  (hu : Updated P.rowSize s s₁ h ((Inner.slots t).childFor key) (.cons l k (.one r), next))

include ht hne hr hu

/-- The place of the key and of the new child in the node. -/
lemma loadedInner_cut : ∃ A B C D,
    ((Inner.slots t).put key (.cons l k (.one r))).keys = A ++ k :: B ∧
      ((Inner.slots t).put key (.cons l k (.one r))).children = C ++ l :: r :: D ∧
      C.length = A.length ∧
      (loadedInner P (s₁.map.content (Inner.pid t))).keys = A ++ B ∧
      (∀ a ∈ A, a < k) ∧ (∀ b ∈ B, k < b) ∧
      (loadedInner P (s₁.map.content (Inner.pid t))).children
        = C.map (pid h) ++ pid h l :: D.map (pid h) := by
  have hg := ht.graft hne hr hu
  obtain ⟨A, B, C, D, hkeys, hchildren, hlen, -, hput, -⟩ := (Inner.slots t).exists_cut key
  obtain ⟨hputk, hputc⟩ := hput (.cons l k (.one r))
  have hsorted := hg.sorted
  rw [hputk, List.pairwise_append] at hsorted
  obtain ⟨-, hkB, hAk⟩ := hsorted
  refine ⟨A, B, C, D, hputk, hputc, hlen, hg.page.keys_eq.trans hkeys, ?_,
    (List.pairwise_cons.mp hkB).1, ?_⟩
  · exact fun a ha => hAk a ha k List.mem_cons_self
  · have hhead : pid h l = pid h ((Inner.slots t).childFor key) := hr.head
    refine hg.page.children_eq.trans ?_
    rw [hchildren, List.map_append, List.map_cons, hhead]

/-- The node that has taken the key, as a page. -/
lemma insert_loaded (hlt : (Inner.slots t).keys.length < P.innerCapacity)
    (hidr : pid h r < 2 ^ 64) :
    ∃ n, (loadedInner P (s₁.map.content (Inner.pid t))).insert k (pid h l) (pid h r) = .ok n ∧
      IsInner n.data ((Inner.slots t).put key (.cons l k (.one r))).keys
        (((Inner.slots t).put key (.cons l k (.one r))).children.map (pid h)) ∧
      n.data.isRoot = (s₁.map.content (Inner.pid t)).isRoot ∧
      n.data.parent = (s₁.map.content (Inner.pid t)).parent := by
  have hg := ht.graft hne hr hu
  obtain ⟨A, B, C, D, hputk, hputc, hlen, hkeys, hA, hB, hchildren⟩ :=
    loadedInner_cut (P := P) ht hne hr hu
  set page := s₁.map.content (Inner.pid t)
  have hnumKeys : (loadedInner P page).numKeys = (Inner.slots t).keys.length := hg.page.numKeys
  obtain ⟨n, hins, hnkeys, hnchildren, hsame⟩ := InternalNode.insert_spec (loadedInner_wf P page)
    hkeys hA hB hchildren (by rw [List.length_map, hlen])
    (by rw [hnumKeys]; exact List.length_pos_of_ne_nil (ht.nonEmpty (Nat.succ_ne_zero h)).1)
    (show (loadedInner P page).numKeys < P.innerCapacity by rw [hnumKeys]; exact hlt) hidr
  have hcap : P.innerCapacity ≤ InternalNode.pageMax := min_le_left _ _
  have hlen' := congrArg List.length (hg.page.keys_eq.symm.trans hkeys)
  refine ⟨n, hins, ?_, hsame.isRoot, hsame.parent⟩
  rw [hputk, hputc, List.map_append, List.map_cons, List.map_cons]
  refine ⟨hsame.nodeType.trans hg.page.nodeType, hnkeys, hnchildren, ?_⟩
  rw [List.length_append] at hlen' ⊢
  rw [List.length_cons]
  omega

/-- The two nodes that a split of the node gives, as pages. -/
lemma insertAndSplit_loaded (hP : P.Valid) (hfull : (Inner.slots t).keys.length = P.innerCapacity)
    (hidr : pid h r < 2 ^ 64) {left right : Alt UInt32 (RowTree h)} {k₀ : UInt32}
    (hcut : (Inner.slots t).put key (.cons l k (.one r)) = left.append k₀ right)
    (hleft : left.keys.length = P.innerCapacity / 2) (newPage : Page) :
    ∃ ln rn, (loadedInner P (s₁.map.content (Inner.pid t))).insertAndSplit k (pid h l) (pid h r)
        newPage = .ok (k₀, ln, rn) ∧
      IsInner ln.data left.keys (left.children.map (pid h)) ∧
      IsInner rn.data right.keys (right.children.map (pid h)) ∧
      ln.data.isRoot = (s₁.map.content (Inner.pid t)).isRoot ∧
      ln.data.parent = (s₁.map.content (Inner.pid t)).parent ∧
      rn.data.isRoot = newPage.isRoot := by
  have hg := ht.graft hne hr hu
  obtain ⟨A, B, C, D, hputk, hputc, hlen, hkeys, hA, hB, hchildren⟩ :=
    loadedInner_cut (P := P) ht hne hr hu
  set page := s₁.map.content (Inner.pid t)
  have hnumKeys : (loadedInner P page).numKeys = P.innerCapacity := hg.page.numKeys.trans hfull
  obtain ⟨heven, hpos⟩ := hP.innerCapacity_even
  obtain ⟨pivot, ln, rn, hins, hpivot, hlk, hlc, hrk, hrc, hsame, htype, hroot, -⟩ :=
    InternalNode.insertAndSplit_spec (loadedInner_wf P page) hkeys hA hB
      (show (loadedInner P page).keys.Pairwise (· < ·) by
        rw [show (loadedInner P page).keys = (Inner.slots t).keys from hg.page.keys_eq]
        exact (ordered_of_tight ht.tight ht.sorted).keys_sorted)
      hchildren (by rw [List.length_map, hlen]) hnumKeys (by rw [hnumKeys]; exact hpos)
      (by rw [hnumKeys]; exact heven) hidr newPage
  have hW : A ++ k :: B = left.keys ++ k₀ :: right.keys := by
    rw [← hputk, hcut, Alt.keys_append]
  have hV : C.map (pid h) ++ pid h l :: pid h r :: D.map (pid h)
      = left.children.map (pid h) ++ right.children.map (pid h) := by
    rw [← List.map_append, ← Alt.children_append, ← hcut, hputc]
    simp only [List.map_append, List.map_cons]
  have hlc' : (left.children.map (pid h)).length = P.innerCapacity / 2 + 1 := by
    rw [List.length_map, left.length_children, hleft]
  have hcap : P.innerCapacity ≤ InternalNode.pageMax := min_le_left _ _
  have hlenW := congrArg List.length hW
  have hlenK := congrArg List.length hkeys
  rw [InternalNode.length_keys, hnumKeys, List.length_append] at hlenK
  simp only [List.length_append, List.length_cons] at hlenW
  rw [hnumKeys, hW] at hpivot hlk hrk
  rw [hnumKeys, hV] at hlc hrc
  rw [← hleft, List.getElem?_append_right le_rfl, Nat.sub_self] at hpivot
  rw [← hleft, List.take_left] at hlk
  rw [← hleft, ← List.drop_drop, List.drop_left] at hrk
  rw [← hlc', List.take_left] at hlc
  rw [← hlc', List.drop_left] at hrc
  obtain rfl : k₀ = pivot := Option.some.inj hpivot
  refine ⟨ln, rn, hins, ⟨hsame.nodeType.trans hg.page.nodeType, hlk, hlc, ?_⟩,
    ⟨htype, hrk, hrc, ?_⟩, hsame.isRoot, hsame.parent, hroot⟩ <;> omega

include hP

/-- The child has split, and the node has room for the key between the halves. -/
lemma run_climb_room (hmax : next ≤ tableMaxPages)
    (hlt : (Inner.slots t).keys.length < P.innerCapacity) :
    ∃ s₂, Updated P.rowSize s s₂ (h + 1) t
        (.one (SearchTree.Inner.mk (Inner.pid t)
          ((Inner.slots t).put key (.cons l k (.one r)))), next) ∧
      Rewired s₁ s₂ (Inner.pid t)
        (((Inner.slots t).put key (.cons l k (.one r))).children.map (pid h)) ∧
      Spares s₁ s₂ [Inner.pid t, pid h l, pid h r] ∧
      ∀ fuel, (climb P (fuel + 1) ⟨k, pid h l, pid h r, Inner.pid t⟩).run TreeImage.handler s₁
        = .ok (none, s₂) := by
  have hg := ht.graft hne hr hu
  obtain ⟨hl, hr'⟩ := halves_mem_put (Inner.slots t) key l r k
  have hnum : s₁.map.numPages = next := hu.numPages
  have hmax₁ : s₁.map.numPages ≤ tableMaxPages := hnum.symm ▸ hmax
  have htm : tableMaxPages < 2 ^ 64 - 1 := by decide
  have htop := hg.pid_lt
  have hidl := hg.lt_of_mem hl (pid_mem_pids h l)
  have hidr := hg.lt_of_mem hr' (pid_mem_pids h r)
  obtain ⟨n, hins, hpage, hroot, hparent⟩ :=
    insert_loaded ht hne hr hu hlt (show pid h r < 2 ^ 64 by omega)
  set page := s₁.map.content (Inner.pid t)
  set sw := store s₁ (Inner.pid t) n.data with hsw
  have hsame_w : ∀ id, id ≠ Inner.pid t → sw.map.content id = s₁.map.content id := by
    intro id hid
    rw [hsw, content_store, if_neg hid]
  have hheld : Holds P.rowSize sw.map.content h r := (hg.holds r hr').congr fun id hid => by
    rw [hsame_w id (hg.ne_pid hr' hid)]
  obtain ⟨s₂, hlink, hadopt⟩ := run_linkTo hP.room (s := sw) hmax₁ hheld hidr
    (show Inner.pid t < 2 ^ 64 by omega)
  have hroot_w : s₁.SameRoot sw := ⟨rfl, rfl, rfl⟩
  have hother : ∀ id, id ≠ Inner.pid t → id ≠ pid h r → s₂.map.content id = s₁.map.content id :=
    fun id hid hidr => by
      rw [hadopt.same id fun hmem => hidr (List.mem_singleton.mp hmem), hsame_w id hid]
  have htop₂ : s₂.map.content (Inner.pid t) = n.data := by
    rw [hadopt.same _ fun hmem =>
        hg.ne_pid hr' (pid_mem_pids h r) (List.mem_singleton.mp hmem).symm, hsw, content_store, if_pos rfl]
  have hw : Rewired s₁ s₂ (Inner.pid t)
      (((Inner.slots t).put key (.cons l k (.one r))).children.map (pid h)) := by
    refine ⟨hroot_w.trans hadopt.sameRoot, ?_, ?_, fun id _ hid hids => hother id hid fun heq =>
      hids (heq ▸ List.mem_map_of_mem hr'), ?_⟩
    · intro id _ hid
      rw [hadopt.body, hsame_w id hid]
    · intro id _
      rw [hadopt.isRoot, hsw, content_store]
      split_ifs with heq
      · rw [heq]; exact hroot
      · rfl
    · rw [htop₂]
      exact hparent
  refine ⟨s₂, hw.updated ht hne hr hu (hadopt.numPages.trans hnum) (by rw [htop₂]; exact hpage) ?_,
    hw, ?_, ?_⟩
  · intro d hd
    -- the right half is linked by the write, the other children were linked before
    by_cases heq : pid h d = pid h r
    · exact hadopt.parent _ (by rw [heq]; exact List.mem_singleton_self _)
    · rw [hother _ (hg.ne_pid hd (pid_mem_pids h d)) heq]
      refine (hu.parent_child ht hr le_rfl d hd).resolve_left fun h' => heq ?_
      rw [h'.2]
      rfl
  · intro id _ hid
    simp only [List.mem_cons, List.not_mem_nil, or_false, not_or] at hid
    exact Or.inl (hother id hid.1 hid.2.2)
  · intro fuel
    have hnel := hg.ne_pid hl (pid_mem_pids h l)
    have hleft : (sw.map.content (pid h l)).parent = Inner.pid t := by
      rw [hsame_w _ hnel]
      exact hu.parent_head ht hr
    have hload : BtreeNode.loadNodeFrom (sw.map.content (pid h l))
        = .ok (nodeOf P.rowSize s₁.map.content h l) := by
      rw [hsame_w _ hnel]
      exact (hg.holds l hl).loadNodeFrom hP.room
    have hnotFull := (isFull_loadedInner hg.page).trans (beq_false_of_ne (ne_of_lt hlt))
    rw [climb, if_neg (show Inner.pid t ≠ nodeParentInvalid by rw [nodeParentInvalid]; omega),
      Prog.run_bind_of_ok _ (run_getPage htop hmax₁),
      Prog.run_liftM_bind _ _ (setNodeLoad_load hP page), if_pos hnotFull,
      Prog.run_liftM_bind _ _ hins, Prog.run_bind_of_ok _ (run_writePage htop hmax₁ _),
      Prog.run_bind_of_ok _ (run_getPage (s := sw) hidl hmax₁), Prog.run_liftM_bind _ _ hload,
      Prog.run_liftM_bind _ _ (assertThat_of hleft _), Prog.run_bind_of_ok _ hlink, Prog.run_pure]

/-- The child has split and the node is full: it is split too, if there is a page. -/
lemma run_climb_parted (hroom : next < tableMaxPages)
    (hfull : (Inner.slots t).keys.length = P.innerCapacity)
    {left right : Alt UInt32 (RowTree h)} {k₀ : UInt32}
    (hcut : (Inner.slots t).put key (.cons l k (.one r)) = left.append k₀ right)
    (hleft : left.keys.length = P.innerCapacity / 2) :
    ∃ s₂, Parted s₁ s₂ (Inner.pid t) next left right ∧
      Rewired s₁ s₂ (Inner.pid t)
        (((Inner.slots t).put key (.cons l k (.one r))).children.map (pid h)) ∧
      ∀ fuel, (climb P (fuel + 1) ⟨k, pid h l, pid h r, Inner.pid t⟩).run TreeImage.handler s₁
        = (climb P fuel ⟨k₀, Inner.pid t, next, (s.map.content (Inner.pid t)).parent⟩).run
            TreeImage.handler s₂ := by
  have hg := ht.graft hne hr hu
  have hparent := hu.parent_child ht hr le_rfl
  have hsame := hu.same_top ht
  obtain ⟨A, B, C, D, hputk, hputc, hlen, -⟩ := loadedInner_cut (P := P) ht hne hr hu
  obtain ⟨-, hr'⟩ := halves_mem_put (Inner.slots t) key l r k
  obtain rfl : s₁.map.numPages = next := hu.numPages
  have htm : tableMaxPages < 2 ^ 64 - 1 := by decide
  have htop := hg.pid_lt
  have hidr := hg.lt_of_mem hr' (pid_mem_pids h r)
  obtain ⟨ln, rn, hins, hln, hrn, hlroot, hlparent, hrroot⟩ :=
    insertAndSplit_loaded ht hne hr hu hP hfull (show pid h r < 2 ^ 64 by omega) hcut hleft
      (s₁.malloc s₁.map.numPages)
  set page := s₁.map.content (Inner.pid t)
  set sw := splitPage s₁ (Inner.pid t) ln.data rn.data with hsw
  have hmaxw : sw.map.numPages ≤ tableMaxPages := hroom
  have hwtop : sw.map.content (Inner.pid t) = ln.data := by
    rw [hsw, content_splitPage, if_neg (ne_of_lt htop), if_pos rfl]
  have hwnew : sw.map.content s₁.map.numPages = rn.data := by
    rw [hsw, content_splitPage, if_pos rfl]
  have hwsame : ∀ id < s₁.map.numPages, id ≠ Inner.pid t →
      sw.map.content id = s₁.map.content id := by
    intro id hlt hid
    rw [hsw, content_splitPage, if_neg (ne_of_lt hlt), if_neg hid]
  have hnewids : s₁.map.numPages ∉
      ((Inner.slots t).put key (.cons l k (.one r))).children.map (pid h) := by
    intro hmem
    obtain ⟨d, hd, heq⟩ := List.mem_map.mp hmem
    exact absurd heq (ne_of_lt (hg.lt_of_mem hd (pid_mem_pids h d)))
  obtain ⟨sA, s₂, hhalves, hnode, hloop, hnum₂, hroot₂, hbody₂, hisRoot₂, hsame₂, hleft₂, hright₂⟩ :=
    @run_links P sw hP h _ left right k k₀ A B C D l r (Inner.pid t) s₁.map.numPages hmaxw
      (by omega)
      (fun d hd => ⟨(hg.holds d hd).congr fun id hid => by
          rw [hwsame id (hg.lt_of_mem hd hid) (hg.ne_pid hd hid)],
        Nat.lt_succ_of_lt (hg.lt_of_mem hd (pid_mem_pids h d))⟩)
      hg.nodup hg.sorted hcut hputk hputc hlen (fun d hd => by
        rw [hwsame _ (hg.lt_of_mem hd (pid_mem_pids h d)) (hg.ne_pid hd (pid_mem_pids h d))]
        exact (hparent d hd).imp_left And.right)
      (by rw [hwnew]; exact hrn) (Nat.lt_succ_self _) hnewids
  have htop₂ : s₂.map.content (Inner.pid t) = ln.data := (hsame₂ _ hg.pid_notMem).trans hwtop
  have hnew₂ : s₂.map.content s₁.map.numPages = rn.data := (hsame₂ _ hnewids).trans hwnew
  have hroot_w : s₁.SameRoot sw := ⟨rfl, rfl, rfl⟩
  have hrelinked := (relinked_linkHalves hhalves).trans (relinked_relinkLoop _ _ hloop)
  refine ⟨s₂, ⟨hnum₂, by rw [htop₂]; exact hln, by rw [hnew₂]; exact hrn, by rw [hnew₂]; exact
    hrroot, hleft₂, hright₂, ?_⟩, ⟨hroot_w.trans hroot₂, ?_, ?_, ?_, ?_⟩, ?_⟩
  · intro id hlt hid
    rw [← hwsame id hlt hid]
    exact hrelinked id
  · intro id hlt hid
    rw [hbody₂, hwsame id hlt hid]
  · intro id hlt
    by_cases hid : id = Inner.pid t
    · rw [hid, htop₂, hlroot]
    · rw [hisRoot₂, hwsame id hlt hid]
  · intro id hlt hid hids
    rw [hsame₂ id hids, hwsame id hlt hid]
  · rw [htop₂, hlparent]
  · intro fuel
    have hisFull := (isFull_loadedInner hg.page).trans (beq_iff_eq.mpr hfull)
    have hidtop : Inner.pid t < s₂.map.numPages := by rw [hnum₂]; exact Nat.lt_succ_of_lt htop
    rw [hwnew] at hnode hloop
    rw [climb, if_neg (show Inner.pid t ≠ nodeParentInvalid by rw [nodeParentInvalid]; omega),
      Prog.run_bind_of_ok _ (run_getPage htop (le_of_lt hroom)),
      Prog.run_liftM_bind _ _ (setNodeLoad_load hP page), if_neg (by rw [hisFull]; decide),
      Prog.run_bind_of_ok _ (run_allocatePage hroom), Prog.run_liftM_bind _ _ hins,
      Prog.run_bind_of_ok _ (run_writePage (s := extend s₁) (Nat.lt_succ_of_lt htop) hmaxw _),
      Prog.run_bind_of_ok _ (run_writePage_new hroom _ _ _), Prog.run_bind_of_ok _ hhalves,
      Prog.run_bind_of_ok _ hnode]
    refine (Prog.run_bind_of_ok _ hloop _).trans ?_
    rw [Prog.run_bind_of_ok _ (run_getPage hidtop (by rw [hnum₂]; exact hmaxw)), htop₂, hlparent,
      hsame]

/-- The child has split and the node is full, and the page table too. -/
lemma run_climb_fault (hmax : next ≤ tableMaxPages) (hroom : tableMaxPages ≤ next)
    (hfull : (Inner.slots t).keys.length = P.innerCapacity) (fuel : ℕ) :
    (climb P (fuel + 1) ⟨k, pid h l, pid h r, Inner.pid t⟩).run TreeImage.handler s₁
      = .error (.pageIndex tableMaxPages) := by
  have hg := ht.graft hne hr hu
  have hnum : s₁.map.numPages = next := hu.numPages
  have htm : tableMaxPages < 2 ^ 64 - 1 := by decide
  have hlt := hg.pid_lt
  have hisFull := (isFull_loadedInner hg.page).trans (beq_iff_eq.mpr hfull)
  rw [climb, if_neg (show Inner.pid t ≠ nodeParentInvalid by rw [nodeParentInvalid]; omega),
    Prog.run_bind_of_ok _ (run_getPage hlt (by omega)),
    Prog.run_liftM_bind _ _ (setNodeLoad_load hP _), if_neg (by rw [hisFull]; decide)]
  exact Prog.run_bind_of_error _ (run_allocatePage_of_full (by omega)) _

end Inner

/-! ## Up to the top of a tree -/

lemma insertBelow_of_none (fuel : ℕ) {pageId : ℕ} {s' : TreeImage}
    (h : (insertToLeaf P pageId key row).run TreeImage.handler s = .ok (none, s')) :
    (insertBelow P fuel pageId key row).run TreeImage.handler s = .ok (none, s') := by
  rw [insertBelow, Prog.run_bind_of_ok _ h]
  rfl

lemma insertBelow_of_some (fuel : ℕ) {pageId : ℕ} {up : Upward} {s' : TreeImage}
    (h : (insertToLeaf P pageId key row).run TreeImage.handler s = .ok (some up, s')) :
    (insertBelow P fuel pageId key row).run TreeImage.handler s
      = (climb P fuel up).run TreeImage.handler s' := by
  rw [insertBelow, Prog.run_bind_of_ok _ h]

/-- What insertion from the leaf upwards comes to, `res` being the trees that take the place of `t`.
If the pages last, they store these afterwards, and the loop goes on with the halves of the top, or
is done; if they do not, the page table is overrun. -/
def InsertsBelow (P : TreeParams) (key : UInt32) (row : Row) (s : TreeImage) (h : ℕ)
    (t : RowTree h) (res : Alt UInt32 (RowTree h) × ℕ) : Prop :=
  (res.2 ≤ tableMaxPages → ∃ s', Updated P.rowSize s s' h t res ∧
    Spares s s' (passed P.leafCapacity P.innerCapacity key h t) ∧
    ∀ fuel, (insertBelow P (h + fuel) (leafFor key h t).pid key row).run TreeImage.handler s
      = goOn P fuel s' (s.map.content (pid h t)).parent res.1) ∧
  (tableMaxPages < res.2 → ∀ fuel,
    (insertBelow P (h + fuel) (leafFor key h t).pid key row).run TreeImage.handler s
      = .error (.pageIndex tableMaxPages))

/-- At the leaf itself. -/
lemma insertsBelow_leaf (hP : P.Valid) {t : RowTree 0} (ht : Ready P.rowSize s 0 t)
    (hne : ∀ d ∈ Leaf.cells t, d.1 ≠ key) (hrow : row.length = P.rowSize)
    (hfits : (Leaf.cells t).length ≤ P.leafCapacity) :
    InsertsBelow P key row s 0 t
      (SearchTree.insert P.leafCapacity P.innerCapacity (key, row) s.map.numPages 0 t) := by
  rcases Nat.lt_or_eq_of_le hfits with hlt | hfull
  · obtain ⟨s', hu, hrun⟩ := run_insertToLeaf_room hP ht hne hrow hlt
    rw [insert_zero_of_ne (key, row) _ (ne_of_lt hlt)] at hu ⊢
    refine ⟨fun _ => ⟨s', hu, hu.spares_zero, fun fuel => insertBelow_of_none _ hrun⟩, ?_⟩
    intro hgt
    exact absurd ht.numPages_le (not_le_of_gt hgt)
  · rcases Nat.lt_or_ge s.map.numPages tableMaxPages with hroom | hroom
    · obtain ⟨s', l, k, r, hins, hu, hrun⟩ := run_insertToLeaf_full hP ht hne hrow hfull hroom
      rw [hins]
      refine ⟨fun _ => ⟨s', hu, hu.spares_zero, ?_⟩, ?_⟩
      · intro fuel
        rw [Nat.zero_add]
        exact insertBelow_of_some fuel hrun
      · intro hgt
        exact absurd (Nat.le_of_lt_succ hgt) (not_le_of_gt hroom)
    · obtain ⟨p, -, hins⟩ := @insert_zero_of_full _ _ _ P.leafCapacity P.innerCapacity
        (key, row) s.map.numPages t hfull
      have hrun : (insertToLeaf P (Leaf.pid t) key row).run TreeImage.handler s
          = .error (.pageIndex tableMaxPages) := run_insertToLeaf_fault hP ht hfull hroom
      rw [hins]
      refine ⟨fun hle => absurd (Nat.lt_of_succ_le hle) (not_lt_of_ge hroom), ?_⟩
      intro _ fuel
      exact Prog.run_bind_of_error _ hrun _

section Up

variable {h : ℕ} {t : RowTree (h + 1)}

/-- The loop has a turn for the node after those for the nodes below it. -/
lemma fuel_succ (h fuel : ℕ) : h + 1 + fuel = h + (fuel + 1) := by omega

variable (ht : Ready P.rowSize s (h + 1) t) (hne : ∀ d ∈ cells (h + 1) t, d.1 ≠ key)

include ht hne

/-- The child has not split: the node does not change. -/
lemma insertsBelow_of_one {c : RowTree h} {next : ℕ}
    (hr : Inserted h ((Inner.slots t).childFor key) (key, row) s.map.numPages (.one c, next))
    (hnot : ¬Full P.leafCapacity P.innerCapacity key h ((Inner.slots t).childFor key))
    (hchild : InsertsBelow P key row s h ((Inner.slots t).childFor key) (.one c, next)) :
    InsertsBelow P key row s (h + 1) t
      (.one (SearchTree.Inner.mk (Inner.pid t) ((Inner.slots t).put key (.one c))), next) := by
  obtain ⟨hgood, hbad⟩ := hchild
  refine ⟨?_, ?_⟩
  · intro hle
    obtain ⟨s₁, hu, hsp, hrun⟩ := hgood hle
    refine ⟨s₁, hu.keep ht hne hr rfl, ?_, fun fuel => ?_⟩
    · rw [passed_succ, if_neg hnot, List.append_nil]
      exact hsp
    · rw [fuel_succ]
      exact hrun (fuel + 1)
  · intro hgt fuel
    rw [fuel_succ]
    exact hbad hgt (fuel + 1)

variable {l r : RowTree h} {k : UInt32} {next : ℕ} (hP : P.Valid)
  (hr : Inserted h ((Inner.slots t).childFor key) (key, row) s.map.numPages
    (.cons l k (.one r), next))
  (hbelow : Full P.leafCapacity P.innerCapacity key h ((Inner.slots t).childFor key))
  (hfresh : s.map.numPages ≤ pid h r)
  (hchild : InsertsBelow P key row s h ((Inner.slots t).childFor key) (.cons l k (.one r), next))

include hP hr hbelow hfresh hchild

/-- The child has split and the node takes the key. -/
lemma insertsBelow_of_room (hlt : (Inner.slots t).keys.length < P.innerCapacity) :
    InsertsBelow P key row s (h + 1) t
      (.one (SearchTree.Inner.mk (Inner.pid t)
        ((Inner.slots t).put key (.cons l k (.one r)))), next) := by
  obtain ⟨hgood, hbad⟩ := hchild
  rw [(ht.linked _ ((Inner.slots t).childFor_mem key)).1] at hgood
  refine ⟨?_, ?_⟩
  · intro hle
    obtain ⟨s₁, hu, hsp, hrun⟩ := hgood hle
    obtain ⟨s₂, hu₂, hw, hturn, hrun₂⟩ := run_climb_room hP ht hne hr hu hle hlt
    refine ⟨s₂, hu₂, hsp.climb_passed hbelow ht hr hu hw hturn
      (hu.numPages.trans hu₂.numPages.symm).le hfresh, fun fuel => ?_⟩
    rw [fuel_succ]
    exact (hrun (fuel + 1)).trans (hrun₂ fuel)
  · intro hgt fuel
    rw [fuel_succ]
    exact hbad hgt (fuel + 1)

/-- The child has split and the node is full: it splits too. -/
lemma insertsBelow_of_full (hfull : (Inner.slots t).keys.length = P.innerCapacity)
    {left right : Alt UInt32 (RowTree h)} {k₀ : UInt32}
    (hcut : (Inner.slots t).put key (.cons l k (.one r)) = left.append k₀ right)
    (hleft : left.keys.length = P.innerCapacity / 2) :
    InsertsBelow P key row s (h + 1) t
      (.cons (SearchTree.Inner.mk (Inner.pid t) left) k₀
        (.one (SearchTree.Inner.mk next right)), next + 1) := by
  obtain ⟨hgood, hbad⟩ := hchild
  rw [(ht.linked _ ((Inner.slots t).childFor_mem key)).1] at hgood
  refine ⟨?_, ?_⟩
  · intro hle
    obtain ⟨s₁, hu, hsp, hrun⟩ := hgood (Nat.le_of_succ_le hle)
    obtain ⟨s₂, hp, hw, hrun₂⟩ := run_climb_parted hP ht hne hr hu hle hfull hcut hleft
    refine ⟨s₂, hp.updated ht hne hr hu hw hcut, hsp.climb_passed hbelow ht hr hu hw
      (hp.spares ht hr hu hw hcut) ?_ hfresh, fun fuel => ?_⟩
    · rw [hu.numPages, hp.numPages]
      exact Nat.le_succ next
    · rw [fuel_succ]
      exact (hrun (fuel + 1)).trans (hrun₂ fuel)
  · intro hgt fuel
    rw [fuel_succ]
    rcases Nat.lt_or_ge tableMaxPages next with hlt | hge
    · exact hbad hlt (fuel + 1)
    · obtain ⟨s₁, hu, -, hrun⟩ := hgood hge
      exact (hrun (fuel + 1)).trans
        (run_climb_fault hP ht hne hr hu hge (Nat.le_of_lt_succ hgt) hfull fuel)

end Up

/-- **Insertion from the leaf upwards** does on the pages what `SearchTree.insert` does on the
tree. -/
theorem run_insertBelow (hP : P.Valid) (hrow : row.length = P.rowSize) (h : ℕ) (t : RowTree h)
    (ht : Ready P.rowSize s h t) (hne : ∀ d ∈ cells h t, d.1 ≠ key)
    (hfits : Fits P.leafCapacity P.innerCapacity key h t) :
    InsertsBelow P key row s h t
      (SearchTree.insert P.leafCapacity P.innerCapacity (key, row) s.map.numPages h t) := by
  induction h with
  | zero => exact insertsBelow_leaf hP ht hne hrow hfits
  | succ h ih =>
      have hmem := (Inner.slots t).childFor_mem key
      have hc := ht.child key
      have hne' : ∀ d ∈ cells h ((Inner.slots t).childFor key), d.1 ≠ key := fun d hd =>
        hne d (List.mem_flatMap.mpr ⟨_, hmem, hd⟩)
      obtain ⟨hL, hL'⟩ := hP.leafCapacity_even
      obtain ⟨hI, hI'⟩ := hP.innerCapacity_even
      have hr := insert_spec (show 2 ≤ P.leafCapacity by omega)
        (show 2 ≤ P.innerCapacity by omega) (key, row) s.map.numPages h _ hc.tight hc.nonEmpty
        hc.sorted hne'
      have hsplit := @insert_keys_ne_nil _ _ _ P.leafCapacity P.innerCapacity (key, row)
        s.map.numPages h ((Inner.slots t).childFor key)
      have hchild := ih _ hc hne' hfits.1
      rcases @insert_one_or_two _ _ _ P.leafCapacity P.innerCapacity (key, row) s.map.numPages h
        ((Inner.slots t).childFor key) with ⟨c, next, hins⟩ | ⟨l, k, r, next, hins⟩
      · have heq := @insert_succ_of_not _ _ _ P.leafCapacity P.innerCapacity (key, row)
          s.map.numPages h t (by rw [hins]; exact fun hn => hn.1 rfl)
        rw [hins] at hr hchild hsplit heq
        rw [heq]
        exact insertsBelow_of_one ht hne hr (fun hfull => hsplit.mpr hfull rfl) hchild
      · have hfresh := le_pid_right hins
        by_cases hfull : (Inner.slots t).keys.length = P.innerCapacity
        · obtain ⟨left, k₀, right, hcut, hleft, heq⟩ := @insert_succ_of_full _ _ _ P.leafCapacity
            P.innerCapacity (key, row) s.map.numPages h t
            (by rw [hins]; exact ⟨List.cons_ne_nil _ _, hfull⟩)
          rw [hins] at hr hchild hsplit hcut heq
          rw [heq]
          exact insertsBelow_of_full ht hne hP hr (hsplit.mp (List.cons_ne_nil _ _)) hfresh hchild
            hfull hcut hleft
        · have heq := @insert_succ_of_not _ _ _ P.leafCapacity P.innerCapacity (key, row)
            s.map.numPages h t (fun hn => hfull hn.2)
          rw [hins] at hr hchild hsplit heq
          rw [heq]
          have hbelow := hsplit.mp (List.cons_ne_nil _ _)
          exact insertsBelow_of_room ht hne hP hr hbelow hfresh hchild
            (lt_of_le_of_ne (hfits.2 hbelow) hfull)

end BPlusTree

end DbToy
