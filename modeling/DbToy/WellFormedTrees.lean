import DbToy.TreeShape

/-!
# Search and visits in any well-formed tree

The searches need less of a tree than insertion keeps: keys in order and no empty node, but no
occupancy and no links to parents.

* `find_exact`: `find` gives the place of the key or, if the tree does not have it, a place where
  it can be put.
* `visit_exact`: `post_order_visit` meets the cells of the range, in order, and with the whole
  range every page once, each inner page after its children.
-/

namespace DbToy

open SearchTree

/-- Where a key is, or where it can go. -/
structure IsLocation (key : UInt32) (h : ℕ) (t : RowTree h) (loc : KeyLocation) : Prop where
  isExist : loc.isExist = true ↔
    ∃ leaf, Subtree ⟨0, leaf⟩ ⟨h, t⟩ ∧ key ∈ (Leaf.cells leaf).map Prod.fst
  /-- The cell is in the leaf, at this place. -/
  exact : loc.isExist = true → ∃ leaf, Subtree ⟨0, leaf⟩ ⟨h, t⟩ ∧ Leaf.pid leaf = loc.pageId ∧
    ((Leaf.cells leaf)[loc.rowId]?).map Prod.fst = some key
  /-- The key can be put into the leaf, at this place. -/
  insertable : loc.isExist = false → ∃ leaf, Subtree ⟨0, leaf⟩ ⟨h, t⟩ ∧
    Leaf.pid leaf = loc.pageId ∧ loc.rowId ≤ (Leaf.cells leaf).length ∧
    ∀ row, Sorted ((Leaf.cells leaf).insertIdx loc.rowId (key, row)) ∧
      Everywhere KeysIncrease h (insertAt loc.pageId loc.rowId (key, row) h t) ∧
      Everywhere KeysBetween h (insertAt loc.pageId loc.rowId (key, row) h t)

variable {rowSize : ℕ} {s : TreeImage} {h : ℕ} {T : RowTree h}

lemma rank_le_length (key : UInt32) (l : List (UInt32 × Row)) : rank key l ≤ l.length :=
  List.countP_le_length

lemma locate_isLocation (hord : Ordered h T) (hnodup : (pids h T).Nodup) (key : UInt32) :
    IsLocation key h T (locate key h T) := by
  have hsub := leafFor_subtree key h T
  have hsorted := @Ordered.leafFor_sorted _ _ _ key _ _ hord
  refine ⟨⟨?_, ?_⟩, ?_, ?_⟩
  · intro hexist
    exact ⟨_, hsub, of_decide_eq_true hexist⟩
  · rintro ⟨leaf, hleaf, hkey⟩
    obtain ⟨c, hc, hkey⟩ := List.mem_map.mp hkey
    exact (locate_isExist hord).mpr (List.mem_map.mpr ⟨c, hleaf.cells_subset hc, hkey⟩)
  · intro hexist
    obtain ⟨c, hc, hkey⟩ := List.mem_map.mp (of_decide_eq_true hexist)
    obtain ⟨A, B, hcut, hrank⟩ := hsorted.rank_cut hc
    rw [hkey] at hrank
    refine ⟨_, hsub, rfl, ?_⟩
    show ((leafFor key h T).cells[rank key (leafFor key h T).cells]?).map Prod.fst = some key
    rw [← hrank, hcut, List.getElem?_append_right le_rfl, Nat.sub_self, List.getElem?_cons_zero,
      Option.map_some, hkey]
  · intro hexist
    have hnot : key ∉ (leafFor key h T).cells.map Prod.fst := of_decide_eq_false hexist
    refine ⟨_, hsub, rfl, rank_le_length key _, fun row => ?_⟩
    have hnot' : key ∉ (cells h T).map Prod.fst := (mem_keys_iff hord).not.mp hnot
    exact ⟨@sorted_insertIdx_rank _ _ (key, row) _ _ hsorted hnot,
      ordered_iff.mp (@ordered_insertAt _ _ (key, row) _ _ _ hord hnodup hnot')⟩

/-- **`find` is exact on every well-formed tree.** -/
theorem find_exact {t : BPlusTree} (hrep : t.Represents s) (hs : s.WellFormed rowSize h T)
    (key : UInt32) : ∃ loc t', (BPlusTree.find key).run BPlusTree.handler t = .ok (loc, t') ∧
      t'.Represents s ∧ IsLocation key h T loc := by
  have hagree := BPlusTree.run_agrees (BPlusTree.find key) hrep
  rw [BPlusTree.run_find hs] at hagree
  obtain ⟨t', hrun, hrep'⟩ := hagree.exists_ok
  exact ⟨_, t', hrun, hrep', locate_isLocation hs.ordered hs.nodup key⟩

/-- The pages at the end of a small run. -/
lemma exists_small_wellFormed : ∃ S₀ replies S s R,
    Session.create smallParams none (fun _ => 0) (fun _ => Page.filled 7) = .ok S₀ ∧
      S₀.runCalls smallCalls = .ok (replies, S) ∧ S.tree.Represents s ∧ Rooted.height R = 1 ∧
      s.WellFormed smallParams.rowSize R.height R.tree := by
  obtain ⟨S₀, replies, S, hcreate, hrun⟩ := exists_run_smallCalls
  obtain ⟨s, D, hs, -, hstores, hD⟩ :=
    Session.stores_of_run smallParams_valid hcreate smallCalls_sameLoads hrun
  have hheight : ((Dictionary.create smallParams).runCalls smallCalls).map
      (fun p => p.2.tree.height) = .ok 1 := by decide
  rw [hD, map_ok] at hheight
  exact ⟨S₀, replies, S, s, D.tree, hcreate, hrun, hs.represents, Except.ok.inj hheight,
    hstores.wellFormed smallParams_valid.room⟩

theorem find_exact_small : ∃ S₀ replies S s R loc t',
    Session.create smallParams none (fun _ => 0) (fun _ => Page.filled 7) = .ok S₀ ∧
      S₀.runCalls smallCalls = .ok (replies, S) ∧ S.tree.Represents s ∧ Rooted.height R = 1 ∧
      (BPlusTree.find 6).run BPlusTree.handler S.tree = .ok (loc, t') ∧ t'.Represents s ∧
      IsLocation 6 R.height R.tree loc := by
  obtain ⟨S₀, replies, S, s, R, hcreate, hrun, hrep, hheight, hs⟩ := exists_small_wellFormed
  obtain ⟨loc, t', hfind⟩ := find_exact hrep hs 6
  exact ⟨S₀, replies, S, s, R, loc, t', hcreate, hrun, hrep, hheight, hfind⟩

/-! ## Visits -/

/-- The cells from left to right, each with its page and its place there. -/
def placedCells (rowSize : ℕ) : (h : ℕ) → RowTree h → List ((ℕ × ℕ) × (UInt32 × Row))
  | 0, t => (Leaf.cells t).zipIdx.map fun c =>
      ((Leaf.pid t, leafNodeHeaderSize + c.2 * (4 + rowSize)), c.1)
  | h + 1, t => (Inner.slots t).children.flatMap (placedCells rowSize h)

def Event.placed? : Event → Option ((ℕ × ℕ) × (UInt32 × Row))
  | .cell pageId offset c => some ((pageId, offset), c)
  | _ => none

/-- The visit is done with a node. -/
def Event.isNode : Event → Bool
  | .cell _ _ _ => false
  | _ => true

def Event.pageId : Event → ℕ
  | .cell pageId _ _ => pageId
  | .leaf pageId => pageId
  | .inner pageId => pageId

/-- The event that the visit is done with this node. -/
def nodeEvent : Rooted UInt32 Row → Event
  | ⟨0, t⟩ => .leaf (Leaf.pid t)
  | ⟨_ + 1, t⟩ => .inner (Inner.pid t)

lemma pageId_nodeEvent (r : Rooted UInt32 Row) : (nodeEvent r).pageId = r.pid := by
  obtain ⟨h, t⟩ := r
  cases h <;> rfl

/-- What is called for the range from `lo` to `hi`. -/
structure VisitsRange (rowSize : ℕ) (s : TreeImage) (lo hi : UInt32) (h : ℕ) (t : RowTree h)
    (calls : List Event) : Prop where
  /-- The cells of the range, in the order of the tree. -/
  cells : calls.filterMap Event.placed?
    = (placedCells rowSize h t).filter fun p => inRange lo hi p.2
  increasing : (calls.filterMap Event.placed?).Pairwise fun p q => p.2.1 < q.2.1
  /-- The bytes at these places are the cells. -/
  readable : ∀ p ∈ calls.filterMap Event.placed?,
    (BPlusTree.readCell rowSize p.1).run TreeImage.handler s = .ok (p.2, s)

/-- What is called for nodes when the range is everything. -/
structure VisitsAllNodes (h : ℕ) (t : RowTree h) (calls : List Event) : Prop where
  once : (calls.filter Event.isNode).Nodup
  mem_iff : ∀ e, e.isNode = true → (e ∈ calls ↔ ∃ r, Subtree r ⟨h, t⟩ ∧ nodeEvent r = e)
  /-- Each inner page comes after its children. -/
  after : ∀ n (u : RowTree (n + 1)), Subtree ⟨n + 1, u⟩ ⟨h, t⟩ →
    ∃ A B, calls = A ++ nodeEvent ⟨n + 1, u⟩ :: B ∧
      ∀ c ∈ (Inner.slots u).children, nodeEvent ⟨n, c⟩ ∈ A

variable {lo hi : UInt32}

lemma cellEvents_placed (rowSize pageId : ℕ) (lo hi : UInt32) :
    ∀ (cs : List (UInt32 × Row)) (k : ℕ),
    (cellEvents rowSize pageId lo hi k cs).filterMap Event.placed?
      = ((cs.zipIdx k).map fun c => ((pageId, leafNodeHeaderSize + c.2 * (4 + rowSize)), c.1)).filter
          fun p => inRange lo hi p.2
  | [], _ => rfl
  | c :: cs, k => by
      have ih := cellEvents_placed rowSize pageId lo hi cs (k + 1)
      rw [cellEvents, List.zipIdx_cons, List.map_cons]
      by_cases hc : lo ≤ c.1 ∧ c.1 ≤ hi
      · rw [if_pos hc, List.filter_cons_of_pos (by simpa [inRange] using hc), List.filterMap_cons, ih]
        rfl
      · rw [if_neg hc, List.filter_cons_of_neg (by simpa [inRange] using hc), ih]

lemma map_snd_placedCells (rowSize : ℕ) : ∀ (h : ℕ) (t : RowTree h),
    (placedCells rowSize h t).map Prod.snd = cells h t
  | 0, t => by
      show List.map Prod.snd (List.map _ (Leaf.cells t).zipIdx) = Leaf.cells t
      rw [List.map_map]
      exact List.zipIdx_map_fst 0 (Leaf.cells t)
  | h + 1, t => by
      show List.map Prod.snd ((Inner.slots t).children.flatMap (placedCells rowSize h)) = _
      rw [List.map_flatMap, cells]
      exact List.flatMap_congr fun c _ => map_snd_placedCells rowSize h c

lemma events_placed (hle : lo ≤ hi) : ∀ {h : ℕ} {t : RowTree h}, Ordered h t →
    (events rowSize lo hi h t).filterMap Event.placed?
      = (placedCells rowSize h t).filter fun p => inRange lo hi p.2
  | 0, t, _ => by
      show List.filterMap _ (if Leaf.cells t = [] then [] else _) = _
      split_ifs with hnil
      · rw [placedCells, hnil]
        rfl
      · rw [List.filterMap_append, cellEvents_placed]
        exact List.append_nil _
  | h + 1, t, ht => by
      obtain ⟨C, D, hchildren, -, hC, hD⟩ := ht.range_cut hle
      have hmem : ∀ c ∈ between lo hi (Inner.slots t), c ∈ (Inner.slots t).children := by
        intro c hc
        rw [hchildren]
        exact List.mem_append_right _ (List.mem_append_left _ hc)
      -- the other children have no cell in the range
      have hout : ∀ l : List (RowTree h), (∀ x ∈ l.flatMap (cells h), ¬(lo ≤ x.1 ∧ x.1 ≤ hi)) →
          (l.flatMap (placedCells rowSize h)).filter (fun p => inRange lo hi p.2) = [] := by
        intro l hl
        refine List.filter_eq_nil_iff.mpr ?_
        intro p hp
        obtain ⟨c, hc, hp⟩ := List.mem_flatMap.mp hp
        have hcell : p.2 ∈ cells h c := by
          rw [← map_snd_placedCells rowSize h c]
          exact List.mem_map_of_mem hp
        simpa [inRange] using fun h₁ => not_le.mp fun h₂ =>
          hl p.2 (List.mem_flatMap.mpr ⟨c, hc, hcell⟩) ⟨h₁, h₂⟩
      have hC' := hout C fun x hx hin => absurd (hC x hx) (not_lt_of_ge hin.1)
      have hD' := hout D fun x hx hin => absurd (hD x hx) (not_lt_of_ge hin.2)
      rw [placedCells, hchildren, List.flatMap_append, List.flatMap_append, List.filter_append,
        List.filter_append, hC', hD', List.nil_append, List.append_nil, List.filter_flatMap, events,
        List.filterMap_append, List.filterMap_flatMap]
      refine (List.append_nil _).trans ?_
      exact List.flatMap_congr fun c hc => events_placed hle (ht.1 c (hmem c hc))

lemma filterMap_placed_readable {es : List Event}
    (hes : ∀ e ∈ es, BPlusTree.Readable rowSize s e) : ∀ p ∈ es.filterMap Event.placed?,
      (BPlusTree.readCell rowSize p.1).run TreeImage.handler s = .ok (p.2, s) := by
  intro p hp
  obtain ⟨e, he, hplaced⟩ := List.mem_filterMap.mp hp
  have hread := hes e he
  cases e with
  | cell id off c =>
      cases hplaced
      exact hread
  | leaf id => exact nomatch hplaced
  | inner id => exact nomatch hplaced

lemma filter_cellEvents (rowSize pageId : ℕ) (lo hi : UInt32) :
    ∀ (cs : List (UInt32 × Row)) (k : ℕ),
    (cellEvents rowSize pageId lo hi k cs).filter Event.isNode = []
  | [], _ => rfl
  | c :: cs, k => by
      have ih := filter_cellEvents rowSize pageId lo hi cs (k + 1)
      rw [cellEvents]
      split_ifs
      · exact ih
      · exact ih

section All

variable (hlo : ∀ k, lo ≤ k) (hhi : ∀ k, k ≤ hi)

include hlo hhi

/-- The nodes of the whole range, in post-order. -/
lemma events_nodes : ∀ {h : ℕ} {t : RowTree h}, Ordered h t → NonEmpty h t →
    (events rowSize lo hi h t).filter Event.isNode = (postOrder h t).map nodeEvent
  | 0, t, _, hne => by
      show List.filter _ (if Leaf.cells t = [] then [] else _) = _
      rw [if_neg hne, List.filter_append, filter_cellEvents]
      rfl
  | h + 1, t, ht, hne => by
      rw [events, between_eq_children ht hne hlo hhi, List.filter_append, List.filter_flatMap,
        postOrder, List.map_append, List.map_flatMap]
      exact congrArg (· ++ _) (List.flatMap_congr fun c hc => events_nodes (ht.1 c hc) (hne.2 c hc))

lemma nodeEvent_mem_events {h : ℕ} {t : RowTree h} (ht : Ordered h t) (hne : NonEmpty h t) :
    nodeEvent ⟨h, t⟩ ∈ events rowSize lo hi h t := by
  have hmem : nodeEvent ⟨h, t⟩ ∈ (events rowSize lo hi h t).filter Event.isNode := by
    rw [events_nodes hlo hhi ht hne]
    exact List.mem_map_of_mem (mem_postOrder.mpr .refl)
  exact List.mem_of_mem_filter hmem

lemma events_after {n : ℕ} {u : RowTree (n + 1)} : ∀ {h : ℕ} {t : RowTree h}, Ordered h t →
    NonEmpty h t → Subtree ⟨n + 1, u⟩ ⟨h, t⟩ → ∃ A B,
      events rowSize lo hi h t = A ++ nodeEvent ⟨n + 1, u⟩ :: B ∧
        ∀ c ∈ (Inner.slots u).children, nodeEvent ⟨n, c⟩ ∈ A := by
  intro h
  induction h with
  | zero =>
      rintro t _ _ ⟨⟩
  | succ h ih =>
      rintro t ht hne (_ | ⟨hc, hr⟩)
      · refine ⟨_, [], rfl, ?_⟩
        intro c hc
        rw [between_eq_children ht hne hlo hhi]
        exact List.mem_flatMap.mpr
          ⟨c, hc, nodeEvent_mem_events hlo hhi (ht.1 c hc) (hne.2 c hc)⟩
      · obtain ⟨A, B, heq, hbelow⟩ := ih (ht.1 _ hc) (hne.2 _ hc) hr
        obtain ⟨C, D, hsplit⟩ := List.append_of_mem hc
        refine ⟨C.flatMap (events rowSize lo hi h) ++ A,
          B ++ D.flatMap (events rowSize lo hi h) ++ [.inner (Inner.pid t)], ?_, fun d hd =>
            List.mem_append_right _ (hbelow d hd)⟩
        rw [events, between_eq_children ht hne hlo hhi, hsplit, List.flatMap_append,
          List.flatMap_cons, heq]
        simp only [List.append_assoc, List.cons_append]

/-- **The whole range**: every node once, each behind its children. -/
theorem events_visitsAllNodes {h : ℕ} {t : RowTree h} (ht : Ordered h t) (hne : NonEmpty h t)
    (hnodup : (pids h t).Nodup) : VisitsAllNodes h t (events rowSize lo hi h t) where
  once := by
    rw [events_nodes hlo hhi ht hne]
    have hpids := (map_pid_postOrder h t).nodup_iff.mpr hnodup
    refine List.Nodup.of_map Event.pageId ?_
    rw [List.map_map]
    exact (List.map_congr_left fun r _ => pageId_nodeEvent r) ▸ hpids
  mem_iff := by
    intro e he
    rw [← show e ∈ (events rowSize lo hi h t).filter Event.isNode ↔ e ∈ events rowSize lo hi h t
      from by rw [List.mem_filter, and_iff_left he], events_nodes hlo hhi ht hne, List.mem_map]
    exact exists_congr fun r => and_congr_left fun _ => mem_postOrder
  after := fun n u hu => events_after hlo hhi ht hne hu

end All

/-- **Visits are exact on every well-formed tree**: whatever the actions do, as long as they only
read, they are called for `calls` one after the other. -/
theorem visit_exact {t : BPlusTree} (hrep : t.Represents s) (hs : s.WellFormed rowSize h T)
    (hne : NonEmpty h T) (lo hi : UInt32) : ∃ calls,
      (∀ {σ : Type} (actions : BPlusTree.VisitActions σ) (f : σ → Event → σ) (acc : σ),
        Performs s actions f → ∃ t', (BPlusTree.postOrderVisit actions lo hi (tableMaxPages + 1)
          (pid h T) acc).run BPlusTree.handler t = .ok (calls.foldl f acc, t') ∧
            t'.Represents s) ∧
      VisitsRange rowSize s lo hi h T calls ∧
      (lo = 0 → hi = uint32Max → VisitsAllNodes h T calls) := by
  have hincreasing : ((placedCells rowSize h T).filter fun p => inRange lo hi p.2).Pairwise
      fun p q => p.2.1 < q.2.1 := by
    have hsorted : (cells h T).Pairwise fun c d => c.1 < d.1 := hs.ordered.sorted_cells
    rw [← map_snd_placedCells rowSize h T, List.pairwise_map] at hsorted
    exact hsorted.sublist List.filter_sublist
  rcases le_or_gt lo hi with hle | hgt
  · have hplaced := @events_placed rowSize lo hi hle _ _ hs.ordered
    have hreadable := @BPlusTree.events_readable rowSize s lo hi hs.numPages_le _ _ hs.holds
      hs.lt_numPages
    refine ⟨events rowSize lo hi h T, ?_, ⟨hplaced, hplaced ▸ hincreasing, filterMap_placed_readable
      hreadable⟩, ?_⟩
    · intro σ actions f acc hperf
      have hrun := BPlusTree.run_postOrderVisit hs.room hs.numPages_le hle hperf hs.holds hs.ordered
        hs.nonEmpty hs.lt_numPages _ acc hs.height_lt
      have hagree := BPlusTree.run_agrees (BPlusTree.postOrderVisit actions lo hi
        (tableMaxPages + 1) (pid h T) acc) hrep
      rw [hrun] at hagree
      exact hagree.exists_ok
    · rintro rfl rfl
      exact events_visitsAllNodes zero_le_uint32 le_uint32Max hs.ordered hne hs.nodup
  · -- an empty range: nothing is called
    have hnil : (placedCells rowSize h T).filter (fun p => inRange lo hi p.2) = [] :=
      List.filter_eq_nil_iff.mpr fun p _ => by
        simpa [inRange] using fun h => lt_of_lt_of_le hgt h
    refine ⟨[], fun actions f acc _ => ⟨t, ?_, hrep⟩,
      ⟨hnil.symm, List.Pairwise.nil, fun p hp => absurd hp List.not_mem_nil⟩, ?_⟩
    · rw [BPlusTree.postOrderVisit, if_pos hgt]
      rfl
    · rintro rfl rfl
      exact absurd hgt (not_lt_of_ge (zero_le_uint32 _))

/-- Actions that write down what they are called for. -/
def recorder : BPlusTree.VisitActions (List (ℕ × Option ℕ)) where
  innerNode := some fun id acc => pure (acc ++ [(id, none)])
  leafNode := some fun id acc => pure (acc ++ [(id, none)])
  leafCell := some fun id off acc => pure (acc ++ [(id, some off)])

/-- What the recorder writes down for an event. -/
def recorded (acc : List (ℕ × Option ℕ)) : Event → List (ℕ × Option ℕ)
  | .cell id off _ => acc ++ [(id, some off)]
  | .leaf id => acc ++ [(id, none)]
  | .inner id => acc ++ [(id, none)]

lemma recorder_performs (s : TreeImage) : Performs s recorder recorded where
  innerNode _ _ := rfl
  leafNode _ _ := rfl
  noCell hnone := nomatch hnone
  cell action haction _ _ _ _ := by
    cases haction
    rfl

theorem visit_exact_small : ∃ S₀ replies S s R calls t',
    Session.create smallParams none (fun _ => 0) (fun _ => Page.filled 7) = .ok S₀ ∧
      S₀.runCalls smallCalls = .ok (replies, S) ∧ S.tree.Represents s ∧ Rooted.height R = 1 ∧
      (BPlusTree.postOrderVisit recorder 0 uint32Max (tableMaxPages + 1)
          (pid R.height R.tree) []).run BPlusTree.handler S.tree
        = .ok (calls.foldl recorded [], t') ∧ t'.Represents s ∧
      VisitsRange smallParams.rowSize s 0 uint32Max R.height R.tree calls ∧
      VisitsAllNodes R.height R.tree calls := by
  obtain ⟨S₀, replies, S, s, R, hcreate, hrun, hrep, hheight, hs⟩ := exists_small_wellFormed
  obtain ⟨calls, hperform, hrange, hall⟩ :=
    visit_exact hrep hs (hs.nonEmpty (by rw [hheight]; decide)) 0 uint32Max
  obtain ⟨t', hvisit, hrep'⟩ := hperform recorder recorded [] (recorder_performs s)
  exact ⟨S₀, replies, S, s, R, calls, t', hcreate, hrun, hrep, hheight, hvisit, hrep', hrange,
    hall rfl rfl⟩

end DbToy
