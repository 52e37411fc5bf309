import DbToy.TreeFind

/-!
# Visiting a stored tree

`events` is what a visit of a range meets in a search tree, in order: the cells in the range, the
leaves, and each inner node after its children.  On pages that store an ordered tree without empty
nodes, `postOrderVisit` with actions that read only performs these events and no others
(`run_postOrderVisit`); the cells among them are those of the range (`events_cells`).

`selectRows` is `select_cell` followed by reading every cell that it found (`run_selectRows`).
-/

namespace DbToy

open SearchTree

/-- What a visit meets: a cell, given by its page, its place there and what it holds, or a node
that it is done with. -/
inductive Event where
  | cell (pageId offset : ℕ) (cell : UInt32 × Row)
  | leaf (pageId : ℕ)
  | inner (pageId : ℕ)

/-- The cells of a leaf from number `k` on, as far as they are in the range. -/
def cellEvents (rowSize pageId : ℕ) (lo hi : UInt32) : ℕ → List (UInt32 × Row) → List Event
  | _, [] => []
  | k, c :: cs =>
      if lo ≤ c.1 ∧ c.1 ≤ hi then
        .cell pageId (leafNodeHeaderSize + k * (4 + rowSize)) c
          :: cellEvents rowSize pageId lo hi (k + 1) cs
      else cellEvents rowSize pageId lo hi (k + 1) cs

def events (rowSize : ℕ) (lo hi : UInt32) : (h : ℕ) → RowTree h → List Event
  | 0, t =>
      if Leaf.cells t = [] then []
      else cellEvents rowSize (Leaf.pid t) lo hi 0 (Leaf.cells t) ++ [.leaf (Leaf.pid t)]
  | h + 1, t =>
      (between lo hi (Inner.slots t)).flatMap (events rowSize lo hi h) ++ [.inner (Inner.pid t)]

def Event.cell? : Event → Option (UInt32 × Row)
  | .cell _ _ c => some c
  | _ => none

lemma cellEvents_cells (rowSize pageId : ℕ) (lo hi : UInt32) : ∀ (cs : List (UInt32 × Row)) (k : ℕ),
    (cellEvents rowSize pageId lo hi k cs).filterMap Event.cell? = cs.filter (inRange lo hi)
  | [], _ => rfl
  | c :: cs, k => by
      have ih := cellEvents_cells rowSize pageId lo hi cs (k + 1)
      rw [cellEvents]
      by_cases hc : lo ≤ c.1 ∧ c.1 ≤ hi
      · rw [if_pos hc, List.filter_cons_of_pos (by simpa [inRange] using hc), List.filterMap_cons, ih]
        rfl
      · rw [if_neg hc, List.filter_cons_of_neg (by simpa [inRange] using hc), ih]

/-- **The cells that a visit meets are those in the range**, from left to right. -/
theorem events_cells {rowSize : ℕ} {lo hi : UInt32} (hle : lo ≤ hi) : ∀ {h : ℕ} {t : RowTree h},
    Ordered h t →
    (events rowSize lo hi h t).filterMap Event.cell? = (cells h t).filter (inRange lo hi)
  | 0, t, _ => by
      show List.filterMap _ (if Leaf.cells t = [] then [] else _) = (Leaf.cells t).filter _
      split_ifs with hnil
      · rw [hnil]; rfl
      · rw [List.filterMap_append, cellEvents_cells]
        exact List.append_nil _
  | h + 1, t, ht => by
      have hmem : ∀ c ∈ between lo hi (Inner.slots t), c ∈ (Inner.slots t).children :=
        fun c hc => List.mem_of_mem_drop (List.mem_of_mem_take hc)
      rw [ht.filter_cells hle, events, List.filterMap_append, List.filterMap_flatMap]
      refine (List.append_nil _).trans ?_
      exact List.flatMap_congr fun c hc => events_cells hle (ht.1 c (hmem c hc))

/-! ## The visit -/

/-- The actions read only, and do to the state of the visit what `f` says, if they do not fail. -/
structure Acts {σ : Type} (s : TreeImage) (actions : BPlusTree.VisitActions σ)
    (f : σ → Event → Except Fault σ) : Prop where
  innerNode : ∀ id acc, (BPlusTree.callAction actions.innerNode id acc).run TreeImage.handler s
    = (f acc (.inner id)).map (·, s)
  leafNode : ∀ id acc, (BPlusTree.callAction actions.leafNode id acc).run TreeImage.handler s
    = (f acc (.leaf id)).map (·, s)
  noCell : actions.leafCell = none → ∀ id off c acc, f acc (.cell id off c) = .ok acc
  cell : ∀ action, actions.leafCell = some action → ∀ id off c acc,
    (action id off acc).run TreeImage.handler s = (f acc (.cell id off c)).map (·, s)

/-- The actions do not fail either. -/
structure Performs {σ : Type} (s : TreeImage) (actions : BPlusTree.VisitActions σ)
    (f : σ → Event → σ) : Prop where
  innerNode : ∀ id acc, (BPlusTree.callAction actions.innerNode id acc).run TreeImage.handler s
    = .ok (f acc (.inner id), s)
  leafNode : ∀ id acc, (BPlusTree.callAction actions.leafNode id acc).run TreeImage.handler s
    = .ok (f acc (.leaf id), s)
  noCell : actions.leafCell = none → ∀ id off c acc, f acc (.cell id off c) = acc
  cell : ∀ action, actions.leafCell = some action → ∀ id off c acc,
    (action id off acc).run TreeImage.handler s = .ok (f acc (.cell id off c), s)

lemma Performs.acts {σ : Type} {s : TreeImage} {actions : BPlusTree.VisitActions σ}
    {f : σ → Event → σ} (h : Performs s actions f) :
    Acts s actions fun acc e => .ok (f acc e) where
  innerNode := h.innerNode
  leafNode := h.leafNode
  noCell hnone id off c acc := congrArg Except.ok (h.noCell hnone id off c acc)
  cell := h.cell

lemma foldlM_ok {σ : Type} (f : σ → Event → σ) : ∀ (es : List Event) (acc : σ),
    es.foldlM (fun acc e => (.ok (f acc e) : Except Fault σ)) acc = .ok (es.foldl f acc)
  | [], _ => rfl
  | e :: es, acc => by
      rw [List.foldlM_cons, ok_bind, foldlM_ok f es, List.foldl_cons]

/-- One list of events after the other. -/
lemma map_foldlM_append {σ τ : Type} (f : σ → Event → Except Fault σ) (g : σ → τ)
    (es ds : List Event) (acc : σ) : ((es ++ ds).foldlM f acc).map g
      = es.foldlM f acc >>= fun acc => (ds.foldlM f acc).map g := by
  rw [List.foldlM_append]
  cases es.foldlM f acc <;> rfl

lemma map_foldlM_singleton {σ τ : Type} (f : σ → Event → Except Fault σ) (g : σ → τ) (e : Event)
    (acc : σ) : (([e] : List Event).foldlM f acc).map g = (f acc e).map g := by
  rw [List.foldlM_cons]
  cases f acc e <;> rfl

lemma map_foldlM_cons {σ τ : Type} (f : σ → Event → Except Fault σ) (g : σ → τ) (e : Event)
    (es : List Event) (acc : σ) : ((e :: es).foldlM f acc).map g
      = f acc e >>= fun acc => (es.foldlM f acc).map g := by
  rw [List.foldlM_cons]
  cases f acc e <;> rfl

namespace BPlusTree

variable {σ : Type} {rowSize : ℕ} {s : TreeImage} {lo hi : UInt32}
  {f : σ → Event → Except Fault σ}

lemma run_cellLoop {page : Page} {cs : List (UInt32 × Row)} (hp : IsLeaf rowSize page cs)
    {pageId : ℕ} {action : ℕ → ℕ → σ → PageM σ}
    (haction : ∀ off c acc, (action pageId off acc).run TreeImage.handler s
      = (f acc (.cell pageId off c)).map (·, s)) :
    ∀ (rest front : List (UInt32 × Row)) (acc : σ), cs = front ++ rest →
      (cellLoop pageId (LeafNode.view page rowSize) action lo hi rest.length front.length acc).run
        TreeImage.handler s
      = ((cellEvents rowSize pageId lo hi front.length rest).foldlM f acc).map (·, s) := by
  intro rest
  induction rest with
  | nil => intro front acc _; rfl
  | cons c rest ih =>
      intro front acc hcs
      have hwf := LeafNode.view_wf page rowSize
      have hlen : front.length < cs.length := by
        rw [hcs, List.length_append, List.length_cons]; omega
      have hnum : front.length < (LeafNode.view page rowSize).numCells := by
        rw [hp.numCells]; exact hlen
      have hmax : front.length < LeafNode.pageMax rowSize := lt_of_lt_of_le hlen hp.length_le
      have hkey : (LeafNode.view page rowSize).getKey front.length = .ok c.1 := by
        rw [LeafNode.getKey_of_lt hwf hmax hnum]
        have hget : cs[front.length]? = some ((LeafNode.view page rowSize).cellAt front.length) := by
          rw [← hp.cells_eq, LeafNode.cells, Slots.getElem?_slots, if_pos hnum]
        rw [hcs, List.getElem?_append_right le_rfl, Nat.sub_self] at hget
        rw [← Option.some.inj hget]
      have hcell := LeafNode.getCell_of_lt hwf hmax hnum
      have hnext := fun acc => ih (front ++ [c]) acc (by rw [hcs, List.append_assoc]; rfl)
      rw [List.length_append, List.length_singleton] at hnext
      rw [List.length_cons, cellLoop, Prog.run_liftM_bind _ _ hkey, cellEvents]
      by_cases hc : lo ≤ c.1 ∧ c.1 ≤ hi
      · rw [if_pos hc, if_pos hc, Prog.run_liftM_bind _ _ hcell,
          Prog.run_bind_of_map _ (haction _ c acc), map_foldlM_cons]
        exact bind_congr hnext
      · rw [if_neg hc, if_neg hc, hnext]

lemma run_lowerLoop {node : InternalNode} {A B : List UInt32}
    (hget : ∀ i (h : i < (A ++ B).length), node.getKey i = .ok (A ++ B)[i])
    (hA : ∀ k ∈ A, k < lo) (hB : ∀ k ∈ B, lo ≤ k) : ∀ count i, i + count = (A ++ B).length →
      i ≤ A.length → lowerLoop node lo count i = .ok A.length := by
  intro count
  induction count with
  | zero =>
      intro i hi hle
      rw [List.length_append] at hi
      rw [lowerLoop, show i = A.length by omega]
  | succ count ih =>
      intro i hi hle
      have hlt : i < (A ++ B).length := by omega
      rw [lowerLoop, hget i hlt, ok_bind]
      rcases Nat.lt_or_ge i A.length with h | h
      · have hk := hA _ (List.getElem_mem h)
        rw [List.getElem_append_left h, if_pos hk]
        exact ih (i + 1) (by omega) h
      · rw [List.getElem_append_right h, if_neg (not_lt_of_ge (hB _ (List.getElem_mem _))),
          show i = A.length by omega]

lemma run_upperLoop {node : InternalNode} {A B : List UInt32}
    (hget : ∀ i (h : i < (A ++ B).length), node.getKey i = .ok (A ++ B)[i])
    (hA : ∀ k ∈ A, k < hi) (hB : ∀ k ∈ B, hi ≤ k) : ∀ j, j ≤ (A ++ B).length →
      A.length ≤ j → upperLoop node hi j = .ok A.length := by
  intro j
  induction j with
  | zero =>
      intro _ hle
      rw [upperLoop, Nat.le_zero.mp hle]
  | succ j ih =>
      intro hj hle
      have hlt : j < (A ++ B).length := by omega
      rw [upperLoop, hget j hlt, ok_bind]
      rcases Nat.lt_or_ge j A.length with h | h
      · rw [List.getElem_append_left h, if_neg (not_le_of_gt (hA _ (List.getElem_mem h))),
          show j + 1 = A.length by omega]
      · rw [List.getElem_append_right h, if_pos (hB _ (List.getElem_mem _))]
        exact ih (by omega) h

lemma run_childLoop {node : InternalNode} (hn : node.WF) (hle : node.numKeys ≤ node.numMaxKeys)
    {h : ℕ} {visit : ℕ → σ → PageM σ} {visited : RowTree h → List Event} {D : List ℕ} :
    ∀ (M : List (RowTree h)) (C : List ℕ) (acc : σ), node.children = C ++ (M.map (pid h) ++ D) →
      (∀ c ∈ M, ∀ acc, (visit (pid h c) acc).run TreeImage.handler s
        = ((visited c).foldlM f acc).map (·, s)) →
      (childLoop node visit M.length C.length acc).run TreeImage.handler s
        = ((M.flatMap visited).foldlM f acc).map (·, s) := by
  intro M
  induction M with
  | nil => intro C acc _ _; rfl
  | cons c M ih =>
      intro C acc hchildren hvisit
      have hchild := InternalNode.getChild_cut hn hle hchildren
      have hnext := fun acc => ih (C ++ [pid h c]) acc
        (by rw [hchildren, List.append_assoc]; rfl)
        fun d hd => hvisit d (List.mem_cons_of_mem _ hd)
      rw [List.length_append, List.length_singleton] at hnext
      rw [List.length_cons, childLoop, Prog.run_liftM_bind _ _ hchild,
        Prog.run_bind_of_map _ (hvisit c List.mem_cons_self acc), List.flatMap_cons,
        map_foldlM_append]
      exact bind_congr hnext

/-- The cells of a leaf, whether or not there is an action for them. -/
lemma run_visitCells {actions : VisitActions σ} (hacts : Acts s actions f) {page : Page}
    {cs : List (UInt32 × Row)} (hp : IsLeaf rowSize page cs) (pageId : ℕ) (acc : σ) :
    (visitCells actions.leafCell pageId (LeafNode.view page rowSize) lo hi acc).run
        TreeImage.handler s
      = ((cellEvents rowSize pageId lo hi 0 cs).foldlM f acc).map (·, s) := by
  cases haction : actions.leafCell with
  | none =>
      have hskip : ∀ (cs : List (UInt32 × Row)) (k : ℕ),
          (cellEvents rowSize pageId lo hi k cs).foldlM f acc = .ok acc := by
        intro cs
        induction cs with
        | nil => intro k; rfl
        | cons c cs ih =>
            intro k
            rw [cellEvents]
            split_ifs
            · rw [List.foldlM_cons, hacts.noCell haction, ok_bind, ih]
            · exact ih (k + 1)
      rw [hskip]
      rfl
  | some action =>
      have hsmall := lt_of_le_of_lt hp.length_le (LeafNode.pageMax_lt rowSize)
      rw [visitCells, hp.numCells, toInt_of_lt hsmall, Int.toNat_natCast]
      exact run_cellLoop hp (fun off c acc => hacts.cell action haction pageId off c acc) cs [] acc
        rfl

/-- The two scans of an inner node give the first and the last child of the range. -/
lemma run_scans (hle : lo ≤ hi) {h : ℕ} {t : RowTree (h + 1)} {node : InternalNode}
    (hn : node.WF) (hmax : node.numKeys ≤ node.numMaxKeys) (hkeys : node.keys = (Inner.slots t).keys)
    (hsmall : node.numKeys < 2 ^ 31) (hord : Ordered (h + 1) t) : ∃ (i : ℕ) (j : ℤ),
      lowerLoop node lo (toInt node.numKeys).toNat 0 = .ok i ∧
      upperScan node hi (toInt node.numKeys) = .ok j ∧ (i : ℤ) ≤ j ∧
      (Inner.slots t).keys.countP (fun k => decide (k < lo)) = i ∧
      (between lo hi (Inner.slots t)).length = (j + 1 - i).toNat := by
  obtain ⟨A, B, _, _, hkeysA, _, _, hA, hB, _⟩ := hord.cut lo
  obtain ⟨A', B', _, _, hkeysA', _, _, hA', hB', _⟩ := hord.cut hi
  have hlo : (Inner.slots t).keys.countP (fun k => decide (k < lo)) = A.length := by
    rw [hkeysA, countP_of_cut hA hB]
  have hhi : (Inner.slots t).keys.countP (fun k => decide (k < hi)) = A'.length := by
    rw [hkeysA', countP_of_cut hA' hB']
  have hget := InternalNode.getKey_keys hn hmax
  have hnum : node.numKeys = (Inner.slots t).keys.length := by
    rw [← hkeys, InternalNode.length_keys]
  rw [toInt_of_lt hsmall, Int.toNat_natCast, upperScan_natCast]
  refine ⟨A.length, A'.length, ?_, ?_, ?_, hlo, ?_⟩
  · simp only [hkeys.trans hkeysA] at hget
    exact run_lowerLoop hget hA hB _ 0 (by rw [hnum, hkeysA, Nat.zero_add]) (Nat.zero_le _)
  · simp only [hkeys.trans hkeysA'] at hget
    rw [hnum, hkeysA', run_upperLoop hget hA' hB' _ (le_refl _)
      (by rw [List.length_append]; exact Nat.le_add_right _ _)]
    rfl
  · rw [Int.ofNat_le, ← hlo, ← hhi]
    refine List.countP_mono_left ?_
    intro k _ hk
    simp only [decide_eq_true_eq] at hk ⊢
    exact lt_of_lt_of_le hk hle
  · have hl := (Inner.slots t).length_children
    have hl' := congrArg List.length hkeysA'
    rw [List.length_append] at hl'
    rw [between, hlo, hhi, List.length_take, List.length_drop]
    omega

/-- **A visit acts on the events of the range**, in order, until an action fails. -/
theorem run_postOrderVisit_acts (hrow : 0 < LeafNode.pageMax rowSize)
    (hmax : s.map.numPages ≤ tableMaxPages) (hle : lo ≤ hi) {actions : VisitActions σ}
    (hacts : Acts s actions f) : ∀ {h : ℕ} {t : RowTree h},
    Holds rowSize s.map.content h t → Ordered h t → (h ≠ 0 → NonEmpty h t) →
    (∀ id ∈ pids h t, id < s.map.numPages) → ∀ fuel acc, h < fuel →
    (postOrderVisit actions lo hi fuel (pid h t) acc).run TreeImage.handler s
      = ((events rowSize lo hi h t).foldlM f acc).map (·, s) := by
  intro h
  induction h with
  | zero =>
      intro t ht _ _ hids fuel acc hfuel
      obtain ⟨fuel, rfl⟩ := Nat.exists_eq_succ_of_ne_zero (Nat.ne_of_gt hfuel)
      have hp : IsLeaf rowSize (s.map.content (Leaf.pid t)) (Leaf.cells t) := ht
      have hnode := run_getNodeBy hrow hmax ht (hids _ (pid_mem_pids 0 t))
      have hnum : (nodeOf rowSize s.map.content 0 t).getNumKeys = (Leaf.cells t).length :=
        hp.numCells
      rw [postOrderVisit, if_neg (not_lt_of_ge hle), Prog.run_bind_of_ok _ hnode, events, hnum]
      by_cases hnil : Leaf.cells t = []
      · rw [if_pos hnil, if_pos (List.length_eq_zero_iff.mpr hnil)]
        rfl
      · rw [if_neg hnil, if_neg fun h => hnil (List.length_eq_zero_iff.mp h), map_foldlM_append]
        refine (Prog.run_bind_of_map _ (run_visitCells hacts hp (Leaf.pid t) acc) _).trans ?_
        refine bind_congr ?_
        intro acc
        exact (hacts.leafNode (Leaf.pid t) acc).trans (map_foldlM_singleton f _ _ acc).symm
  | succ h ih =>
      intro t ht hord hne hids fuel acc hfuel
      obtain ⟨fuel, rfl⟩ := Nat.exists_eq_succ_of_ne_zero (Nat.ne_of_gt (Nat.zero_lt_of_lt hfuel))
      have hne' := hne (Nat.succ_ne_zero h)
      have hnode := run_getNodeBy hrow hmax ht (hids _ (pid_mem_pids (h + 1) t))
      have hwf : (InternalNode.load (s.map.content (Inner.pid t))).WF := le_refl _
      have hlen : (InternalNode.load (s.map.content (Inner.pid t))).numKeys
          ≤ (InternalNode.load (s.map.content (Inner.pid t))).numMaxKeys := by
        rw [ht.1.numKeys]; exact ht.1.length_le
      have hnum : (nodeOf rowSize s.map.content (h + 1) t).getNumKeys ≠ 0 := by
        intro h0
        exact hne'.1 (List.length_eq_zero_iff.mp (ht.1.numKeys.symm.trans h0))
      obtain ⟨i, j, hlower, hupper, hmono, hlo, hM⟩ :=
        run_scans hle hwf hlen ht.1.keys_eq ht.1.numKeys_lt hord
      obtain ⟨C, D, hchildren, hC, _, _⟩ := hord.range_cut hle
      have hsub : ∀ c ∈ between lo hi (Inner.slots t), c ∈ (Inner.slots t).children := by
        intro c hc
        rw [hchildren]
        exact List.mem_append_right _ (List.mem_append_left _ hc)
      have hsplit : (InternalNode.load (s.map.content (Inner.pid t))).children = C.map (pid h) ++
          ((between lo hi (Inner.slots t)).map (pid h) ++ D.map (pid h)) := by
        rw [ht.1.children_eq, hchildren, List.map_append, List.map_append]
      have hloop := run_childLoop hwf hlen (between lo hi (Inner.slots t)) (C.map (pid h)) acc hsplit
        fun c hc acc => ih (ht.2 c (hsub c hc)) (hord.1 c (hsub c hc))
          (fun _ => hne'.2 c (hsub c hc))
          (fun id hid => hids id (List.mem_cons_of_mem _
            (List.mem_flatMap.mpr ⟨c, hsub c hc, hid⟩))) fuel acc (by omega)
      rw [List.length_map, hC, hlo, hM] at hloop
      rw [postOrderVisit, if_neg (not_lt_of_ge hle), Prog.run_bind_of_ok _ hnode, if_neg hnum,
        events, map_foldlM_append]
      refine (Prog.run_liftM_bind _ _ hlower _).trans ?_
      rw [Prog.run_liftM_bind _ _ hupper, Prog.run_liftM_bind _ _ (assertThat_of hmono _)]
      refine (Prog.run_bind_of_map _ hloop _).trans (bind_congr ?_)
      intro acc
      exact (hacts.innerNode (Inner.pid t) acc).trans (map_foldlM_singleton f _ _ acc).symm

/-- **A visit performs the events of the range**, in order, and changes nothing else. -/
theorem run_postOrderVisit {f : σ → Event → σ} (hrow : 0 < LeafNode.pageMax rowSize)
    (hmax : s.map.numPages ≤ tableMaxPages) (hle : lo ≤ hi) {actions : VisitActions σ}
    (hperf : Performs s actions f) {h : ℕ} {t : RowTree h} (ht : Holds rowSize s.map.content h t)
    (hord : Ordered h t) (hne : h ≠ 0 → NonEmpty h t) (hids : ∀ id ∈ pids h t, id < s.map.numPages)
    (fuel : ℕ) (acc : σ) (hfuel : h < fuel) :
    (postOrderVisit actions lo hi fuel (pid h t) acc).run TreeImage.handler s
      = .ok ((events rowSize lo hi h t).foldl f acc, s) := by
  rw [run_postOrderVisit_acts hrow hmax hle hperf.acts ht hord hne hids fuel acc hfuel, foldlM_ok]
  rfl

/-! ## Selection -/

/-- Where the cell of an event is. -/
def place? : Event → Option (ℕ × ℕ)
  | .cell id off _ => some (id, off)
  | _ => none

/-- Reading the place of an event gives its cell. -/
def Readable (rowSize : ℕ) (s : TreeImage) : Event → Prop
  | .cell id off c => (readCell rowSize (id, off)).run TreeImage.handler s = .ok (c, s)
  | _ => True

lemma run_readCell (hmax : s.map.numPages ≤ tableMaxPages) {id : ℕ} (hid : id < s.map.numPages)
    {front rest : List (UInt32 × Row)} {c : UInt32 × Row}
    (hp : IsLeaf rowSize (s.map.content id) (front ++ c :: rest)) :
    Readable rowSize s (.cell id (leafNodeHeaderSize + front.length * (4 + rowSize)) c) := by
  have hwf := LeafNode.view_wf (s.map.content id) rowSize
  have hlen := hp.length_le
  rw [List.length_append, List.length_cons] at hlen
  have hnum := hp.numCells
  rw [List.length_append, List.length_cons] at hnum
  have hcell : (LeafNode.view (s.map.content id) rowSize).cellAt front.length = c := by
    have hget : (front ++ c :: rest)[front.length]?
        = some ((LeafNode.view (s.map.content id) rowSize).cellAt front.length) := by
      rw [← hp.cells_eq, LeafNode.cells, Slots.getElem?_slots, if_pos (by omega)]
    rw [List.getElem?_append_right le_rfl, Nat.sub_self] at hget
    exact (Option.some.inj hget).symm
  have hfit : leafNodeHeaderSize + front.length * (4 + rowSize) + (4 + rowSize) ≤ pageSize :=
    LeafNode.cell_fits hwf (show front.length < LeafNode.pageMax rowSize by omega)
  have hsplit := (s.map.content id).get_add
    (leafNodeHeaderSize + front.length * (4 + rowSize)) 4 rowSize
  have hkey : ((s.map.content id).get
      (leafNodeHeaderSize + front.length * (4 + rowSize)) 4).length = 4 :=
    Page.length_get (by omega)
  rw [← hcell]
  show (readCell rowSize _).run TreeImage.handler s = _
  rw [readCell, Prog.run_bind_of_ok _ (run_getPage hid hmax),
    Prog.run_liftM_bind _ _ (Page.load_of_le (by omega)),
    Prog.run_liftM_bind _ _ (Page.load_of_le (by rw [leafNodeValueOffset]; omega)),
    Prog.run_pure, LeafNode.cellAt, LeafNode.cellBytes, LeafNode.cellOf]
  show _ = Except.ok ((UInt32.ofNat (Bytes.decodeLE (((s.map.content id).get
    (leafNodeHeaderSize + front.length * (4 + rowSize)) (4 + rowSize)).take 4)),
    ((s.map.content id).get (leafNodeHeaderSize + front.length * (4 + rowSize))
      (4 + rowSize)).drop 4), s)
  rw [hsplit, List.take_left' hkey, List.drop_left' hkey]
  rfl

/-- A client that looks for a key gets its place and its cell. -/
theorem run_findRow (hrow : 0 < LeafNode.pageMax rowSize) {h : ℕ} {t : RowTree h}
    (hs : s.Stores rowSize h t) (key : UInt32) :
    (findRow rowSize key).run TreeImage.handler s
      = .ok ((locate key h t, lookup key (cells h t)), s) := by
  rw [findRow, Prog.run_bind_of_ok _ (run_find (hs.wellFormed hrow))]
  by_cases hexist : (locate key h t).isExist = true
  · have hleaf := hs.holds.leafFor key
    have hid := hs.lt_numPages _ (leafFor_pid key h t)
    obtain ⟨c, hc, hkey⟩ := List.mem_map.mp (of_decide_eq_true hexist)
    obtain ⟨A, B', hcut, hrank⟩ := (@Ordered.leafFor_sorted _ _ _ key _ _ hs.ordered).rank_cut hc
    rw [hkey] at hrank
    have hsome : lookup key (cells h t) = some c :=
      hs.sound.sorted.lookup_eq_some.mpr ⟨leafFor_cells key h t c hc, hkey⟩
    rw [hcut] at hleaf
    have hlen : A.length < (LeafNode.view (s.map.content (leafFor key h t).pid) rowSize).numCells := by
      rw [hleaf.numCells, List.length_append, List.length_cons]
      omega
    have hmax := hleaf.length_le
    rw [List.length_append, List.length_cons] at hmax
    have hcell := LeafNode.getCell_of_lt (LeafNode.view_wf (s.map.content (leafFor key h t).pid)
      rowSize) (show A.length < LeafNode.pageMax rowSize by omega) hlen
    have hread : (readCell rowSize ((leafFor key h t).pid,
        leafNodeHeaderSize + A.length * (4 + rowSize))).run TreeImage.handler s = .ok (c, s) :=
      run_readCell hs.numPages_le hid hleaf
    have hloc : (readLocation rowSize (locate key h t)).run TreeImage.handler s = .ok (c, s) := by
      rw [hrank] at hcell hread
      rw [readLocation, locate, Prog.run_bind_of_ok _ (run_getPage hid hs.numPages_le),
        Prog.run_liftM_bind _ _ (hleaf.load hrow), Prog.run_liftM_bind _ _ hcell]
      exact hread
    rw [if_pos hexist, Prog.run_bind_of_ok _ hloc, hsome]
    rfl
  · have hnone : lookup key (cells h t) = none :=
      lookup_eq_none.mpr ((locate_isExist hs.ordered).not.mp hexist)
    rw [if_neg hexist, hnone]
    rfl

/-- Every cell that a visit meets can be read where it is. -/
lemma events_readable (hmax : s.map.numPages ≤ tableMaxPages) : ∀ {h : ℕ} {t : RowTree h},
    Holds rowSize s.map.content h t → (∀ id ∈ pids h t, id < s.map.numPages) →
    ∀ e ∈ events rowSize lo hi h t, Readable rowSize s e
  | 0, t, ht, hids, e, he => by
      have hcells : ∀ (rest front : List (UInt32 × Row)), Leaf.cells t = front ++ rest →
          ∀ e ∈ cellEvents rowSize (Leaf.pid t) lo hi front.length rest, Readable rowSize s e := by
        intro rest
        induction rest with
        | nil => intro front _ e he; exact absurd he List.not_mem_nil
        | cons c rest ih =>
            intro front hcs e he
            have hnext := ih (front ++ [c]) (by rw [hcs, List.append_assoc]; rfl)
            rw [List.length_append, List.length_singleton] at hnext
            have hp : IsLeaf rowSize (s.map.content (Leaf.pid t)) (front ++ c :: rest) := hcs ▸ ht
            rw [cellEvents] at he
            split_ifs at he
            · rcases List.mem_cons.mp he with rfl | he
              · exact run_readCell hmax (hids _ (pid_mem_pids 0 t)) hp
              · exact hnext e he
            · exact hnext e he
      rw [events] at he
      split_ifs at he
      · exact absurd he List.not_mem_nil
      · rcases List.mem_append.mp he with he | he
        · exact hcells _ [] rfl e he
        · rw [List.mem_singleton.mp he]
          trivial
  | h + 1, t, ht, hids, e, he => by
      rw [events] at he
      rcases List.mem_append.mp he with he | he
      · obtain ⟨c, hc, he⟩ := List.mem_flatMap.mp he
        have hc' : c ∈ (Inner.slots t).children :=
          List.mem_of_mem_drop (List.mem_of_mem_take hc)
        exact events_readable hmax (ht.2 c hc') (fun id hid => hids id (List.mem_cons_of_mem _
          (List.mem_flatMap.mpr ⟨c, hc', hid⟩))) e he
      · rw [List.mem_singleton.mp he]
        trivial

lemma run_readCells : ∀ {es : List Event}, (∀ e ∈ es, Readable rowSize s e) →
    (readCells rowSize (es.filterMap place?)).run TreeImage.handler s
      = .ok (es.filterMap Event.cell?, s) := by
  intro es
  induction es with
  | nil => intro _; rfl
  | cons e es ih =>
      intro h
      have hrest := ih fun e he => h e (List.mem_cons_of_mem _ he)
      cases e with
      | leaf id => exact hrest
      | inner id => exact hrest
      | cell id off c =>
          have hc : (readCell rowSize (id, off)).run TreeImage.handler s = .ok (c, s) :=
            h (.cell id off c) List.mem_cons_self
          show (readCells rowSize ((id, off) :: es.filterMap place?)).run TreeImage.handler s = _
          rw [readCells, Prog.run_bind_of_ok _ hc, Prog.run_bind_of_ok _ hrest]
          rfl

/-- What the action of `select_cell` does with an event. -/
def pushPlace (result : List (ℕ × ℕ)) (e : Event) : List (ℕ × ℕ) := result ++ (place? e).toList

lemma foldl_pushPlace : ∀ (es : List Event) (acc : List (ℕ × ℕ)),
    es.foldl pushPlace acc = acc ++ es.filterMap place?
  | [], acc => (List.append_nil acc).symm
  | e :: es, acc => by
      rw [List.foldl_cons, foldl_pushPlace es, pushPlace, List.append_assoc]
      cases e <;> rfl

/-- **Selection gives the cells in the range**, in increasing order of their keys, and changes
nothing. -/
theorem run_selectRows (hrow : 0 < LeafNode.pageMax rowSize) {h : ℕ} {t : RowTree h}
    (hs : s.Stores rowSize h t) :
    (selectRows rowSize lo hi).run TreeImage.handler s
      = .ok ((cells h t).filter (inRange lo hi), s) := by
  rw [selectRows, selectCell, bind_assoc, Prog.run_bind_of_ok _ (run_getRootPage s), hs.rootPid]
  rcases le_or_gt lo hi with hle | hgt
  · have hperf : Performs s ⟨none, none, some fun pageId cell result =>
        pure (result ++ [(pageId, cell)])⟩ pushPlace :=
      ⟨fun _ acc => by rw [pushPlace]; exact congrArg _ (congrArg (·, s) (List.append_nil acc).symm),
        fun _ acc => by rw [pushPlace]; exact congrArg _ (congrArg (·, s) (List.append_nil acc).symm),
        fun hnone => absurd hnone (by simp), fun action haction id off c acc => by
          cases haction
          rfl⟩
    rw [Prog.run_bind_of_ok _ (run_postOrderVisit hrow hs.numPages_le hle hperf hs.holds hs.ordered
      hs.nonEmpty hs.lt_numPages _ _ hs.height_lt), foldl_pushPlace, List.nil_append,
      run_readCells (events_readable hs.numPages_le hs.holds hs.lt_numPages),
      events_cells hle hs.ordered]
  · have hnil : (cells h t).filter (inRange lo hi) = [] :=
      List.filter_eq_nil_iff.mpr fun c _ => by
        simpa [inRange] using fun h => lt_of_lt_of_le hgt h
    rw [hnil, postOrderVisit, if_pos hgt]
    rfl

end BPlusTree

end DbToy
