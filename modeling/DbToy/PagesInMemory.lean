import DbToy.Lib.Asked
import DbToy.Lib.Visited
import DbToy.PageCount
import DbToy.PageRequests

/-!
# Which pages a search loads

The pager keeps in memory what it has been asked for, and nothing else.  A search asks for the
nodes on its way, so that the pages in memory are a function of the tree and of what has been
searched for.

* `run_inMemory`: a method that reads loads exactly the pages that it asks for.
* `asked_find`, `asked_postOrderVisit`: what the methods ask for on a stored tree.
* `searches_load_paths`: the pages in memory after any series of searches in a file that was opened.
-/

namespace DbToy

open Prog SearchTree
open Dictionary (SameLoads)

namespace PageOp

/-- The page that is asked for. -/
def page? : PageOp → Option ℕ
  | getPage id => some (pageId id)
  | _ => none

/-- The pages that are asked for. -/
def pages (os : List PageOp) : Set ℕ := {id | ∃ o ∈ os, o.page? = some id}

lemma pages_nil : pages [] = ∅ :=
  Set.eq_empty_of_forall_notMem fun _ ⟨_, ho, _⟩ => absurd ho List.not_mem_nil

lemma pages_append (os os' : List PageOp) : pages (os ++ os') = pages os ∪ pages os' := by
  ext id
  simp only [pages, List.mem_append, Set.mem_union, Set.mem_ofPred_eq, or_and_right, exists_or]

lemma pages_cons (o : PageOp) (os : List PageOp) : pages (o :: os) = pages [o] ∪ pages os :=
  pages_append [o] os

lemma pages_cons_of_none {o : PageOp} (h : o.page? = none) (os : List PageOp) :
    pages (o :: os) = pages os := by
  ext id
  simp only [pages, List.mem_cons, Set.mem_ofPred_eq, exists_eq_or_imp, h, reduceCtorEq, false_or]

lemma mem_pages_map {ids : List ℕ} (h : ∀ id ∈ ids, pageId id = id) {i : ℕ} :
    i ∈ pages (ids.map .getPage) ↔ i ∈ ids := by
  constructor
  · rintro ⟨o, ho, hi⟩
    obtain ⟨id, hid, rfl⟩ := List.mem_map.mp ho
    rw [page?, h id hid] at hi
    exact Option.some.inj hi ▸ hid
  · intro hi
    exact ⟨_, List.mem_map_of_mem hi, congrArg some (h i hi)⟩

/-- A client that asks for pages of a set only. -/
lemma pages_asked_subset {α σ : Type} {H : Handler PageOp Ans Fault σ} {s : σ} {S : Set ℕ}
    {p : PageM α} (hp : Only (fun o => ∀ i, o.page? = some i → i ∈ S) p) :
    pages (p.asked H s) ⊆ S := by
  rintro i ⟨o, ho, hi⟩
  exact hp.of_mem_asked o ho i hi

end PageOp

namespace BPlusTree

/-- The pages that are in memory. -/
def inMemory (t : BPlusTree) : Set ℕ := {id | (t.pager.pages id).isSome = true}

/-! ## What a method loads -/

lemma getPage_inMemory {malloc : ℕ → Page} {p p' : BTreePager} {id : ℕ} {page : Page}
    (h : p.getPage malloc id = .ok (page, p')) (i : ℕ) :
    (p'.pages i).isSome = true ↔ (p.pages i).isSome = true ∨ pageId id = i := by
  simp only [BTreePager.getPage] at h
  split_ifs at h
  obtain ⟨entry, he, h⟩ := bind_eq_ok h
  have hentry : p.pages (pageId id) = entry := by
    rw [BTreePager.entry] at he
    split_ifs at he
    exact Except.ok.inj he
  cases entry with
  | some block =>
      cases h
      refine (or_iff_left_of_imp ?_).symm
      rintro rfl
      rw [hentry]
      rfl
  | none =>
      obtain ⟨-, -, h⟩ := bind_eq_ok h
      cases h
      rw [BTreePager.setEntry_pages]
      split_ifs with heq
      · exact iff_of_true rfl (Or.inr heq.symm)
      · exact (or_iff_left (Ne.symm heq)).symm

lemma handler_inMemory {o : PageOp} (ho : o.Reads) {t t' : BPlusTree} {x : PageOp.Ans o}
    (h : handler o t = .ok (x, t')) : t'.inMemory = t.inMemory ∪ PageOp.pages [o] := by
  have hsame : ∀ {o : PageOp}, o.page? = none → t.inMemory = t.inMemory ∪ PageOp.pages [o] := by
    intro o hnone
    rw [PageOp.pages_cons_of_none hnone, PageOp.pages_nil, Set.union_empty]
  cases o with
  | getPage id =>
      obtain ⟨r, hr, h⟩ := bind_eq_ok h
      cases h
      ext i
      refine (getPage_inMemory hr i).trans (or_congr Iff.rfl ?_)
      constructor
      · exact fun hi => ⟨_, List.mem_singleton_self _, congrArg some hi⟩
      · rintro ⟨o, ho, hi⟩
        rw [List.mem_singleton.mp ho] at hi
        exact Option.some.inj hi
  | getRootPage => cases h; exact hsame rfl
  | getRoot => cases h; exact hsame rfl
  | setRoot id => cases h; exact hsame rfl
  | writePage id page => exact absurd ho not_false
  | allocatePage => exact absurd ho not_false
  | setRootPage id => exact absurd ho not_false
  | numPages => exact absurd ho not_false

/-- **A method that reads loads what it asks for**, and nothing else. -/
theorem run_inMemory {α : Type} {p : PageM α} (hp : Only PageOp.Reads p) {t t' : BPlusTree} {a : α}
    (h : p.run handler t = .ok (a, t')) :
    t'.inMemory = t.inMemory ∪ PageOp.pages (p.asked handler t) := by
  refine run_asked (R := fun t os t' => t'.inMemory = t.inMemory ∪ PageOp.pages os) ?_ ?_ hp h
  · intro t
    rw [PageOp.pages_nil, Set.union_empty]
  · intro o os x t t' t'' ho hstep hrest
    rw [hrest, handler_inMemory ho hstep, PageOp.pages_cons o os, Set.union_assoc]

/-! ## What a search asks for -/

section

variable {rowSize : ℕ} {s : TreeImage} {lo hi key : UInt32}

lemma asked_getPage {id : ℕ} (hid : id < s.map.numPages) (hmax : s.map.numPages ≤ tableMaxPages) :
    (getPage id).asked TreeImage.handler s = [.getPage id] :=
  asked_request ((Prog.run_request TreeImage.handler s (PageOp.getPage id)).symm.trans
    (run_getPage hid hmax))

lemma asked_getNodeBy (hmax : s.map.numPages ≤ tableMaxPages) {id : ℕ}
    (hid : id < s.map.numPages) : (getNodeBy id).asked TreeImage.handler s = [.getPage id] := by
  rw [getNodeBy, asked_bind_of_ok (run_getPage hid hmax), asked_getPage hid hmax]
  exact congrArg (PageOp.getPage id :: ·) (asked_liftM _)

/-- The descent asks for the nodes below the one where it starts. -/
lemma asked_findLoop (hrow : 0 < LeafNode.pageMax rowSize)
    (hmax : s.map.numPages ≤ tableMaxPages) : ∀ {h : ℕ} {t : RowTree h},
    Holds rowSize s.map.content h t → Ordered h t → (h ≠ 0 → NonEmpty h t) →
    (∀ id ∈ pids h t, id < s.map.numPages) → ∀ fuel, h < fuel →
    (findLoop key fuel (pid h t) (nodeOf rowSize s.map.content h t)).asked TreeImage.handler s
      = (visited key key h t).tail.map .getPage := by
  intro h
  induction h with
  | zero =>
      intro t _ _ _ _ fuel hfuel
      obtain ⟨fuel, rfl⟩ := Nat.exists_eq_succ_of_ne_zero (Nat.ne_of_gt hfuel)
      rfl
  | succ h ih =>
      intro t ht hord hne hids fuel hfuel
      obtain ⟨fuel, rfl⟩ := Nat.exists_eq_succ_of_ne_zero (Nat.ne_of_gt (Nat.zero_lt_of_lt hfuel))
      have hmem := (Inner.slots t).childFor_mem key
      obtain ⟨A, B, C, D, hkeys, hchildren, hlen, hA, hB, -⟩ := hord.cut key
      obtain ⟨pos, hpos, hslot⟩ := search_slot ht.1 hord.keys_sorted (hne (Nat.succ_ne_zero h)).1
        hkeys hA hB
      have hcut : (InternalNode.load (s.map.content (Inner.pid t))).children
          = C.map (pid h) ++ pid h ((Inner.slots t).childFor key) :: D.map (pid h) := by
        rw [ht.1.children_eq, hchildren, List.map_append, List.map_cons]
      have hchild := InternalNode.getChild_cut (n := InternalNode.load _) (le_refl _)
        (by rw [ht.1.numKeys]; exact ht.1.length_le) hcut
      rw [List.length_map, hlen] at hchild
      have hids' : ∀ id ∈ pids h ((Inner.slots t).childFor key), id < s.map.numPages :=
        fun id hid => hids id (List.mem_cons_of_mem _ (List.mem_flatMap.mpr ⟨_, hmem, hid⟩))
      have hid := hids' _ (pid_mem_pids h _)
      have hrest := ih (ht.2 _ hmem) (hord.1 _ hmem)
        (fun _ => (hne (Nat.succ_ne_zero h)).2 _ hmem) hids' fuel (by omega)
      show (findLoop key (fuel + 1) (Inner.pid t) (.inner _)).asked TreeImage.handler s = _
      rw [findLoop, asked_liftM_bind hpos, asked_liftM_bind hslot, asked_liftM_bind hchild,
        asked_bind_of_ok (run_getNodeBy hrow hmax (ht.2 _ hmem) hid), asked_getNodeBy hmax hid,
        hrest, hord.visited_self key, List.tail_cons, visited_eq_cons h]
      rfl

lemma asked_rootBlock {h : ℕ} {t : RowTree h} (hs : s.WellFormed rowSize h t) :
    rootBlock.asked TreeImage.handler s = [.getRoot, .getPage (pid h t)] := by
  have hroot : getRoot.run TreeImage.handler s = .ok (some (pid h t), s) := hs.root ▸ run_getRoot s
  have hasked : getRoot.asked TreeImage.handler s = [.getRoot] :=
    asked_request ((Prog.run_request TreeImage.handler s PageOp.getRoot).symm.trans hroot)
  rw [rootBlock, asked_bind_of_ok hroot, hasked]
  exact congrArg (PageOp.getRoot :: ·)
    (asked_getPage (hs.lt_numPages _ (pid_mem_pids h t)) hs.numPages_le)

lemma asked_getRootPage (s : TreeImage) :
    getRootPage.asked TreeImage.handler s = [.getRootPage] :=
  asked_request ((Prog.run_request TreeImage.handler s PageOp.getRootPage).symm.trans
    (run_getRootPage s))

/-- **`find` asks for the nodes that the key reaches.** -/
theorem asked_find {h : ℕ} {t : RowTree h} (hs : s.WellFormed rowSize h t) (key : UInt32) :
    (find key).asked TreeImage.handler s
      = .getRootPage :: .getRoot :: (visited key key h t).map .getPage := by
  have hnode := hs.holds.loadNodeFrom hs.room
  have hloop := @asked_findLoop rowSize s key hs.room hs.numPages_le h t hs.holds hs.ordered
    hs.nonEmpty hs.lt_numPages _ hs.height_lt
  have hrunLoop := @run_findLoop rowSize s key hs.room hs.numPages_le h t hs.holds hs.ordered
    hs.nonEmpty hs.lt_numPages _ hs.height_lt
  rw [find, asked_bind_of_ok (run_getRootPage s), asked_getRootPage,
    asked_bind_of_ok (run_rootBlock hs), asked_rootBlock hs, asked_liftM_bind hnode, hs.rootPid,
    visited_eq_cons]
  refine congrArg (fun os => PageOp.getRootPage :: .getRoot :: .getPage (pid h t) :: os) ?_
  split_ifs with hempty
  · -- only a leaf can be empty
    cases h with
    | zero => rfl
    | succ h =>
        have hnum : (Inner.slots t).keys.length = 0 := hs.holds.1.numKeys.symm.trans hempty
        exact absurd (List.eq_nil_of_length_eq_zero hnum) (hs.nonEmpty (Nat.succ_ne_zero h)).1
  · rw [asked_bind_of_ok hrunLoop, hloop]
    refine (congrArg _ (Only.asked_eq_nil ?_)).trans (List.append_nil _)
    refine .bind (.liftM _) fun pos => ?_
    split_ifs
    · refine .bind (.liftM _) fun k => ?_
      split_ifs
      · exact .pure _
      · exact .pure _
    · exact .pure _

/-- The loop over the children asks for what the visits of the children ask for. -/
lemma asked_childLoop {σ : Type} {node : InternalNode} (hn : node.WF)
    (hle : node.numKeys ≤ node.numMaxKeys) {h : ℕ} {visit : ℕ → σ → PageM σ}
    {V : RowTree h → List PageOp} {D : List ℕ} :
    ∀ (M : List (RowTree h)) (C : List ℕ) (acc : σ), node.children = C ++ (M.map (pid h) ++ D) →
      (∀ c ∈ M, ∀ acc, (visit (pid h c) acc).asked TreeImage.handler s = V c ∧
        ∃ acc', (visit (pid h c) acc).run TreeImage.handler s = .ok (acc', s)) →
      (childLoop node visit M.length C.length acc).asked TreeImage.handler s = M.flatMap V := by
  intro M
  induction M with
  | nil => intro C acc _ _; rfl
  | cons c M ih =>
      intro C acc hchildren hvisit
      have hchild := InternalNode.getChild_cut hn hle hchildren
      obtain ⟨hasked, acc', hrun⟩ := hvisit c List.mem_cons_self acc
      have hnext := ih (C ++ [pid h c]) acc' (by rw [hchildren, List.append_assoc]; rfl)
        fun d hd => hvisit d (List.mem_cons_of_mem _ hd)
      rw [List.length_append, List.length_singleton] at hnext
      rw [List.length_cons, childLoop, asked_liftM_bind hchild, asked_bind_of_ok hrun, hasked,
        hnext, List.flatMap_cons]

/-- **A visit of the cells asks for the nodes that the range reaches**, if its action asks for
nothing. -/
theorem asked_postOrderVisit {σ : Type} {action : ℕ → ℕ → σ → PageM σ} {f : σ → Event → σ}
    (hrow : 0 < LeafNode.pageMax rowSize) (hmax : s.map.numPages ≤ tableMaxPages) (hle : lo ≤ hi)
    (hperf : Performs s ⟨none, none, some action⟩ f)
    (hquiet : ∀ id off acc, Only (fun _ => False) (action id off acc)) :
    ∀ {h : ℕ} {t : RowTree h}, Holds rowSize s.map.content h t → Ordered h t →
    (h ≠ 0 → NonEmpty h t) → (∀ id ∈ pids h t, id < s.map.numPages) → ∀ fuel acc, h < fuel →
    (postOrderVisit ⟨none, none, some action⟩ lo hi fuel (pid h t) acc).asked TreeImage.handler s
      = (visited lo hi h t).map .getPage := by
  intro h
  induction h with
  | zero =>
      intro t ht _ _ hids fuel acc hfuel
      obtain ⟨fuel, rfl⟩ := Nat.exists_eq_succ_of_ne_zero (Nat.ne_of_gt hfuel)
      have hid := hids _ (pid_mem_pids 0 t)
      rw [postOrderVisit, if_neg (not_lt_of_ge hle),
        asked_bind_of_ok (run_getNodeBy hrow hmax ht hid), asked_getNodeBy hmax hid]
      refine congrArg (PageOp.getPage (pid 0 t) :: ·) (Only.asked_eq_nil ?_)
      split_ifs
      · exact .pure _
      · exact .bind (only_cellLoop hquiet _ _ _ _ _ _ _) fun _ => .pure _
  | succ h ih =>
      intro t ht hord hne hids fuel acc hfuel
      obtain ⟨fuel, rfl⟩ := Nat.exists_eq_succ_of_ne_zero (Nat.ne_of_gt (Nat.zero_lt_of_lt hfuel))
      have hne' := hne (Nat.succ_ne_zero h)
      have hid := hids _ (pid_mem_pids (h + 1) t)
      have hwf : (InternalNode.load (s.map.content (Inner.pid t))).WF := le_refl _
      have hlen : (InternalNode.load (s.map.content (Inner.pid t))).numKeys
          ≤ (InternalNode.load (s.map.content (Inner.pid t))).numMaxKeys := by
        rw [ht.1.numKeys]; exact ht.1.length_le
      have hnum : (nodeOf rowSize s.map.content (h + 1) t).getNumKeys ≠ 0 := by
        intro h0
        exact hne'.1 (List.length_eq_zero_iff.mp (ht.1.numKeys.symm.trans h0))
      obtain ⟨i, j, hlower, hupper, hmono, hlo, hM⟩ :=
        run_scans hle hwf hlen ht.1.keys_eq ht.1.numKeys_lt hord
      obtain ⟨C, D, hchildren, hC, -, -⟩ := hord.range_cut hle
      have hsplit : (InternalNode.load (s.map.content (Inner.pid t))).children = C.map (pid h) ++
          ((between lo hi (Inner.slots t)).map (pid h) ++ D.map (pid h)) := by
        rw [ht.1.children_eq, hchildren, List.map_append, List.map_append]
      have hmem : ∀ c ∈ between lo hi (Inner.slots t), c ∈ (Inner.slots t).children :=
        fun c hc => mem_of_mem_between hc
      have hids' : ∀ c ∈ between lo hi (Inner.slots t), ∀ id ∈ pids h c, id < s.map.numPages :=
        fun c hc id hid => hids id (List.mem_cons_of_mem _
          (List.mem_flatMap.mpr ⟨c, hmem c hc, hid⟩))
      have hrun : ∀ c ∈ between lo hi (Inner.slots t), ∀ acc,
          (postOrderVisit ⟨none, none, some action⟩ lo hi fuel (pid h c) acc).run
            TreeImage.handler s = .ok ((events rowSize lo hi h c).foldl f acc, s) := fun c hc acc =>
        run_postOrderVisit hrow hmax hle hperf (ht.2 c (hmem c hc)) (hord.1 c (hmem c hc))
          (fun _ => hne'.2 c (hmem c hc)) (hids' c hc) fuel acc (by omega)
      have hrunLoop := @run_childLoop σ s (fun acc e => .ok (f acc e)) _ hwf hlen h _
        (events rowSize lo hi h) _ (between lo hi (Inner.slots t)) (C.map (pid h)) acc hsplit
        fun c hc acc => by rw [hrun c hc acc, foldlM_ok]; rfl
      have hloop := asked_childLoop hwf hlen (between lo hi (Inner.slots t)) (C.map (pid h)) acc
        hsplit fun c hc acc => ⟨ih (ht.2 c (hmem c hc)) (hord.1 c (hmem c hc))
          (fun _ => hne'.2 c (hmem c hc)) (hids' c hc) fuel acc (by omega), _, hrun c hc acc⟩
      rw [List.length_map, hC, hlo, hM] at hloop hrunLoop
      rw [foldlM_ok] at hrunLoop
      rw [postOrderVisit, if_neg (not_lt_of_ge hle),
        asked_bind_of_ok (run_getNodeBy hrow hmax ht hid), asked_getNodeBy hmax hid, if_neg hnum,
        visited, List.map_cons, List.map_flatMap]
      refine congrArg (PageOp.getPage (Inner.pid t) :: ·) ?_
      refine (asked_liftM_bind hlower _).trans ?_
      rw [asked_liftM_bind hupper, asked_liftM_bind (assertThat_of hmono _),
        asked_bind_of_ok hrunLoop, hloop]
      exact List.append_nil _

/-! ## What a client reads -/

lemma pageId_of_visited {h : ℕ} {t : RowTree h} (hs : s.WellFormed rowSize h t) :
    ∀ id ∈ visited lo hi h t, pageId id = id := fun id hid =>
  pageId_of_lt_tableMaxPages (hs.lt_numPages id (visited_subset hid)) hs.numPages_le

/-- A client that looks for a key and reads its cell asks for the pages that the key reaches. -/
lemma pages_findRow {h : ℕ} {t : RowTree h} (hs : s.WellFormed rowSize h t) (key : UInt32) :
    PageOp.pages ((findRow rowSize key).asked TreeImage.handler s)
      = {id | id ∈ visited key key h t} := by
  have hids := @pageId_of_visited rowSize s key key h t hs
  have hleaf := leafFor_mem_visited key hs.ordered
  rw [findRow, asked_bind_of_ok (run_find hs), asked_find hs key, PageOp.pages_append]
  refine Set.Subset.antisymm (Set.union_subset ?_ (PageOp.pages_asked_subset ?_)) ?_
  · rw [PageOp.pages_cons_of_none rfl, PageOp.pages_cons_of_none rfl]
    exact fun i hi => (PageOp.mem_pages_map hids).mp hi
  · -- the leaf again
    have hget : ∀ i, (PageOp.getPage (locate key h t).pageId).page? = some i →
        i ∈ {id | id ∈ visited key key h t} := by
      intro i hi
      obtain rfl := Option.some.inj hi
      rw [show (locate key h t).pageId = (leafFor key h t).pid from rfl, hids _ hleaf]
      exact hleaf
    split_ifs
    · exact .bind (.bind (.request hget) fun page => .bind (.liftM _) fun node =>
        .bind (.liftM _) fun cell => .bind (.request hget) fun page => .bind (.liftM _) fun k =>
          .bind (.liftM _) fun v => .pure _) fun cell => .pure _
    · exact .pure _
  · refine fun i hi => Or.inl ?_
    rw [PageOp.pages_cons_of_none rfl, PageOp.pages_cons_of_none rfl]
    exact (PageOp.mem_pages_map hids).mpr hi

/-- The cells that a visit meets are in the leaves that the range reaches. -/
lemma cell_mem_visited {id off : ℕ} {c : UInt32 × Row} : ∀ {h : ℕ} {t : RowTree h},
    Event.cell id off c ∈ events rowSize lo hi h t → id ∈ visited lo hi h t
  | 0, t, hmem => by
      have hcells : ∀ (cs : List (UInt32 × Row)) (k : ℕ),
          Event.cell id off c ∈ cellEvents rowSize (Leaf.pid t) lo hi k cs → id = Leaf.pid t := by
        intro cs
        induction cs with
        | nil => intro k hmem; exact absurd hmem List.not_mem_nil
        | cons d cs ih =>
            intro k hmem
            rw [cellEvents] at hmem
            split_ifs at hmem
            · rcases List.mem_cons.mp hmem with heq | hmem
              · exact (Event.cell.inj heq).1
              · exact ih _ hmem
            · exact ih _ hmem
      rw [events] at hmem
      split_ifs at hmem
      · exact absurd hmem List.not_mem_nil
      · rcases List.mem_append.mp hmem with hmem | hmem
        · exact List.mem_singleton.mpr (hcells _ _ hmem)
        · cases List.mem_singleton.mp hmem
  | h + 1, t, hmem => by
      rw [events] at hmem
      rcases List.mem_append.mp hmem with hmem | hmem
      · obtain ⟨d, hd, hmem⟩ := List.mem_flatMap.mp hmem
        exact List.mem_cons_of_mem _ (List.mem_flatMap.mpr ⟨d, hd, cell_mem_visited hmem⟩)
      · cases List.mem_singleton.mp hmem

lemma only_readCells_mem {A : PageOp → Prop} (rowSize : ℕ) : ∀ places : List (ℕ × ℕ),
    (∀ p ∈ places, A (.getPage p.1)) → Only A (readCells rowSize places)
  | [], _ => .pure _
  | p :: places, h =>
      .bind (.bind (.request (h p List.mem_cons_self)) fun _ => .bind (.liftM _) fun _ =>
        .bind (.liftM _) fun _ => .pure _) fun _ =>
          .bind (only_readCells_mem rowSize places fun q hq => h q (List.mem_cons_of_mem _ hq))
            fun _ => .pure _

/-- A client that selects a range and reads the cells asks for the pages that the range reaches. -/
lemma pages_selectRows {h : ℕ} {t : RowTree h} (hs : s.WellFormed rowSize h t) :
    PageOp.pages ((selectRows rowSize lo hi).asked TreeImage.handler s)
      = {id | lo ≤ hi ∧ id ∈ visited lo hi h t} := by
  rw [selectRows, selectCell, LawfulMonad.bind_assoc, asked_bind_of_ok (run_getRootPage s),
    asked_getRootPage, hs.rootPid, List.singleton_append, PageOp.pages_cons_of_none rfl]
  rcases lt_or_ge hi lo with hgt | hle
  · -- an empty range
    rw [postOrderVisit, if_pos hgt]
    refine PageOp.pages_nil.trans (Set.eq_empty_of_forall_notMem ?_).symm
    exact fun _ hid => absurd hid.1 (not_le_of_gt hgt)
  have hids := @pageId_of_visited rowSize s lo hi h t hs
  have hperf : Performs s ⟨none, none, some fun pageId cell result =>
      pure (result ++ [(pageId, cell)])⟩ pushPlace :=
    ⟨fun _ acc => by rw [pushPlace]; exact congrArg _ (congrArg (·, s) (List.append_nil acc).symm),
      fun _ acc => by rw [pushPlace]; exact congrArg _ (congrArg (·, s) (List.append_nil acc).symm),
      by rintro ⟨⟩, fun action haction id off c acc => by
        cases haction
        rfl⟩
  have hrun := run_postOrderVisit hs.room hs.numPages_le hle hperf hs.holds hs.ordered hs.nonEmpty
    hs.lt_numPages (tableMaxPages + 1) [] hs.height_lt
  have hasked := asked_postOrderVisit hs.room hs.numPages_le hle hperf
    (fun _ _ acc => .pure _) hs.holds hs.ordered hs.nonEmpty hs.lt_numPages (tableMaxPages + 1) []
    hs.height_lt
  rw [asked_bind_of_ok hrun, hasked, foldl_pushPlace, List.nil_append, PageOp.pages_append]
  refine Set.Subset.antisymm (Set.union_subset ?_ (PageOp.pages_asked_subset ?_)) ?_
  · exact fun i hi => ⟨hle, (PageOp.mem_pages_map hids).mp hi⟩
  · -- the leaves again
    refine only_readCells_mem rowSize _ ?_
    intro p hp i hi
    obtain ⟨e, he, hplace⟩ := List.mem_filterMap.mp hp
    cases e with
    | leaf id => cases hplace
    | inner id => cases hplace
    | cell id off c =>
        cases hplace
        have hmem := cell_mem_visited he
        obtain rfl := Option.some.inj hi
        rw [hids _ hmem]
        exact ⟨hle, hmem⟩
  · exact fun i hi => Or.inl ((PageOp.mem_pages_map hids).mpr hi.2)

/-! ## Opening -/

/-- Opening a file asks for the root. -/
lemma asked_init_open {P : TreeParams} {h : ℕ} {t : RowTree h} (hP : P.Valid)
    (hs : s.Stores P.rowSize h t) (malloc : ℕ → Page) :
    (init P 'o').asked TreeImage.handler ⟨s.map, none, malloc⟩
      = [.getRootPage, .getPage (pid h t), .setRoot (pid h t), .getRoot, .getPage (pid h t)] := by
  have hid := hs.lt_numPages _ (pid_mem_pids h t)
  have hload := hs.holds.loadNodeFrom hP.room
  set s₀ : TreeImage := ⟨s.map, none, malloc⟩
  set s₁ : TreeImage := { s₀ with root := some (pid h t) }
  have hsetRoot : (setRoot (pid h t)).asked TreeImage.handler s₀ = [.setRoot (pid h t)] :=
    asked_request ((Prog.run_request TreeImage.handler s₀ (PageOp.setRoot _)).symm.trans
      (run_setRoot s₀ _))
  have hloadRoot : loadRoot.run TreeImage.handler s₀ = .ok ((), s₁) := by
    rw [loadRoot, Prog.run_bind_of_ok _ (run_getRootPage s₀), hs.rootPid,
      Prog.run_bind_of_ok _ (run_getPage (s := s₀) hid hs.numPages_le),
      Prog.run_liftM_bind _ _ hload, run_setRoot]
  have hasked : loadRoot.asked TreeImage.handler s₀
      = [.getRootPage, .getPage (pid h t), .setRoot (pid h t)] := by
    rw [loadRoot, asked_bind_of_ok (run_getRootPage s₀), asked_getRootPage, hs.rootPid,
      asked_bind_of_ok (run_getPage (s := s₀) hid hs.numPages_le),
      asked_getPage (s := s₀) hid hs.numPages_le, asked_liftM_bind hload, hsetRoot]
    rfl
  have hroot : rootBlock.asked TreeImage.handler s₁ = [.getRoot, .getPage (pid h t)] := by
    have hget : getRoot.asked TreeImage.handler s₁ = [.getRoot] :=
      asked_request ((Prog.run_request TreeImage.handler s₁ PageOp.getRoot).symm.trans
        (run_getRoot s₁))
    rw [rootBlock, asked_bind_of_ok (run_getRoot s₁), hget]
    exact congrArg (PageOp.getRoot :: ·) (asked_getPage (s := s₁) hid hs.numPages_le)
  have hblock : rootBlock.run TreeImage.handler s₁ = .ok (s.map.content (pid h t), s₁) := by
    rw [rootBlock, Prog.run_bind_of_ok _ (run_getRoot s₁)]
    exact run_getPage (s := s₁) hid hs.numPages_le
  rw [init, if_neg (by decide), asked_bind_of_ok hloadRoot, hasked, checkRoot,
    asked_bind_of_ok hblock, hroot]
  exact congrArg _ (congrArg _ (asked_liftM _))

end

lemma inMemory_of_new {p : BTreePager} {file : List UInt8} {counts : ℕ → ℕ}
    (h : BTreePager.new (some file) 'o' counts = .ok p) (malloc : ℕ → Page) :
    inMemory ⟨p, none, malloc⟩ = ∅ := by
  rw [BTreePager.new, if_neg (by decide), if_pos rfl] at h
  cases h
  refine Set.eq_empty_of_forall_notMem ?_
  rintro id ⟨⟩

end BPlusTree

/-! ## Series of searches -/

namespace TreeCall

/-- The pages of the nodes that a call reaches. -/
def reached (R : Rooted UInt32 Row) : TreeCall → Set ℕ
  | .find key => {id | id ∈ visited key key R.height R.tree}
  | .select minVal maxVal =>
      {id | minVal ≤ maxVal ∧ id ∈ visited minVal maxVal R.height R.tree}
  | _ => ∅

def Searches : TreeCall → Prop
  | .find _ => True
  | .select _ _ => True
  | _ => False

end TreeCall

namespace Session

variable {S S' : Session} {s : TreeImage} {D : Dictionary}

lemma call_inMemory (hrep : S.tree.Represents s) {α : Type} {p : PageM α}
    (hp : Only PageOp.Reads p) {reply : α → TreeReply} {r : TreeReply}
    (h : S.call p reply = .ok (r, S')) :
    S'.tree.inMemory = S.tree.inMemory ∪ PageOp.pages (p.asked TreeImage.handler s) := by
  obtain ⟨x, hx, h⟩ := bind_eq_ok h
  cases h
  rw [← asked_related BPlusTree.handler_agrees p hrep]
  exact BPlusTree.run_inMemory hp hx

/-- A search is answered, and loads the pages that it reaches. -/
lemma Simulates.search (h : S.Simulates s D) {c : TreeCall} (hc : c.Searches) :
    ∃ r S', S.answer c = .ok (r, S') ∧ S'.Simulates s D ∧
      S'.tree.inMemory = S.tree.inMemory ∪ c.reached D.tree := by
  have hs := h.stores.wellFormed h.valid.room
  have hparams := h.params
  cases c with
  | find key =>
      have hrun := BPlusTree.run_findRow h.valid.room h.stores key
      obtain ⟨S', hS', hsim⟩ := h.call_read (fun r => .location r.1 r.2) hrun
      refine ⟨_, S', by rw [answer, hparams]; exact hS', hsim, ?_⟩
      rw [call_inMemory h.represents (BPlusTree.only_findRow (fun _ => PageOp.Looks.reads) _ _) hS',
        BPlusTree.pages_findRow hs key]
      rfl
  | select minVal maxVal =>
      have hrun := @BPlusTree.run_selectRows _ s minVal maxVal h.valid.room _ _ h.stores
      obtain ⟨S', hS', hsim⟩ := h.call_read .rows hrun
      refine ⟨_, S', by rw [answer, hparams]; exact hS', hsim, ?_⟩
      rw [call_inMemory h.represents (BPlusTree.only_selectRows (fun _ => PageOp.Looks.reads) _ _ _)
        hS', BPlusTree.pages_selectRows hs]
      rfl
  | insert key row => exact absurd hc not_false
  | reopen leafLoad innerNodeLoad counts malloc => exact absurd hc not_false
  | getRootPage => exact absurd hc not_false
  | getTotalPage => exact absurd hc not_false

/-- Opening loads the root. -/
lemma Simulates.opened (h : S.Simulates s D) {leafLoad innerNodeLoad : ℕ} {counts : ℕ → ℕ}
    {malloc : ℕ → Page} (hadmits : D.Admits (.reopen leafLoad innerNodeLoad counts malloc)) :
    ∃ S', S.answer (.reopen leafLoad innerNodeLoad counts malloc) = .ok (.reopened, S') ∧
      S'.Simulates { s with malloc := malloc } (D.withLoads leafLoad innerNodeLoad) ∧
      S'.tree.inMemory = {D.tree.pid} := by
  have hvalid : (D.withLoads leafLoad innerNodeLoad).params.Valid :=
    ⟨h.valid.two_cells, hadmits.1, hadmits.2⟩
  have hlt := h.stores.lt_numPages _ (pid_mem_pids _ _)
  have hpid := BPlusTree.pageId_of_lt_tableMaxPages hlt h.stores.numPages_le
  obtain ⟨S', hS', hsim⟩ := h.reopen hadmits
  refine ⟨S', hS', hsim, ?_⟩
  obtain ⟨file, hdestroy, hS'⟩ := bind_eq_ok hS'
  obtain ⟨t, hnew, hS'⟩ := bind_eq_ok hS'
  cases hS'
  obtain ⟨p, hp, hnew⟩ := bind_eq_ok hnew
  obtain ⟨u, hinit, hnew⟩ := bind_eq_ok hnew
  cases hnew
  rw [h.params] at hinit
  obtain ⟨file', p', hdestroy', hp', hrep⟩ := BTreePager.reopen_represents h.represents.pager counts
  cases hdestroy.symm.trans hdestroy'
  cases hp.symm.trans hp'
  have hasked := asked_related BPlusTree.handler_agrees (BPlusTree.init
    (D.withLoads leafLoad innerNodeLoad).params 'o') (s := ⟨p, none, malloc⟩)
    (t := ⟨s.map, none, malloc⟩) ⟨hrep, rfl, rfl⟩
  rw [BPlusTree.asked_init_open hvalid h.stores malloc] at hasked
  have hroot : PageOp.pages [.getPage D.tree.pid] = {D.tree.pid} := by
    ext i
    refine (@PageOp.mem_pages_map [D.tree.pid] ?_ i).trans List.mem_singleton
    exact fun id hid => List.mem_singleton.mp hid ▸ hpid
  rw [BPlusTree.run_inMemory (BPlusTree.only_init_open (fun _ => id) _) hinit,
    BPlusTree.inMemory_of_new hp malloc, Set.empty_union]
  refine (congrArg PageOp.pages hasked).trans ?_
  rw [PageOp.pages_cons_of_none rfl, PageOp.pages_cons,
    PageOp.pages_cons_of_none (o := .setRoot _) rfl, PageOp.pages_cons_of_none (o := .getRoot) rfl]
  exact (congrArg₂ _ hroot hroot).trans (Set.union_self _)

/-- Each search adds the pages that it reaches. -/
lemma Simulates.searches (h : S.Simulates s D) {cs : List TreeCall} (hcs : ∀ c ∈ cs, c.Searches) :
    ∃ rs S', S.runCalls cs = .ok (rs, S') ∧
      S'.tree.inMemory = S.tree.inMemory ∪ {id | ∃ c ∈ cs, id ∈ c.reached D.tree} := by
  induction cs generalizing S with
  | nil =>
      refine ⟨[], S, rfl, (Set.union_eq_self_of_subset_right ?_).symm⟩
      rintro id ⟨c, hc, -⟩
      exact absurd hc List.not_mem_nil
  | cons c cs ih =>
      obtain ⟨r, S₁, hanswer, hsim, hmem⟩ := h.search (hcs c List.mem_cons_self)
      obtain ⟨rs, S', hrest, hmem'⟩ := ih hsim fun d hd => hcs d (List.mem_cons_of_mem _ hd)
      refine ⟨r :: rs, S', ?_, ?_⟩
      · rw [runCalls, Runs.runAll_cons_of_ok hanswer]
        exact congrArg (Except.map _) hrest
      · rw [hmem', hmem, Set.union_assoc]
        refine congrArg _ (Set.ext fun id => ?_)
        simp only [Set.mem_union, Set.mem_ofPred_eq, List.mem_cons, exists_eq_or_imp]

end Session

/-! ## A file that is opened -/

/-- **The pages in memory.**  Of a file that a session left only the root is loaded when it is
opened, and any series of searches loads exactly the nodes that they reach; a key reaches one node
on each level, and with the shell's loads there are never more than three levels. -/
theorem searches_load_paths {P : TreeParams} (hP : P.Valid) {file : Option (List UInt8)}
    {counts : ℕ → ℕ} {malloc : ℕ → Page} {S₀ S : Session}
    (hcreate : Session.create P file counts malloc = .ok S₀) {calls : List TreeCall}
    (hcalls : ∀ c ∈ calls, SameLoads P c) {replies : List TreeReply}
    (hrun : S₀.runCalls calls = .ok (replies, S)) (counts' : ℕ → ℕ) (malloc' : ℕ → Page)
    (searches : List TreeCall) (hsearches : ∀ c ∈ searches, c.Searches) :
    ∃ D S₁ found S₂, (Dictionary.create P).runCalls calls = .ok (replies, D) ∧
      S.answer (.reopen P.leafLoad P.innerNodeLoad counts' malloc') = .ok (.reopened, S₁) ∧
      S₁.runCalls searches = .ok (found, S₂) ∧ S₁.tree.inMemory = {D.tree.pid} ∧
      S₂.tree.inMemory = {D.tree.pid} ∪ {id | ∃ c ∈ searches, id ∈ c.reached D.tree} ∧
      (∀ key, (visited key key D.tree.height D.tree.tree).length = D.tree.height + 1) ∧
      (D.tree.height ≠ 0 →
        2 * (P.innerCapacity / 2 + 1) ^ (D.tree.height - 1) ≤ S.tree.pager.numPages) ∧
      (P = mainParams → D.tree.height ≤ 2) := by
  obtain ⟨s, D, hs, hsteady, hstores, hD⟩ := Session.stores_of_run hP hcreate hcalls hrun
  obtain ⟨S₁, hopen, hsim, hroot⟩ := @Session.Simulates.opened S s D hs P.leafLoad P.innerNodeLoad
    counts' malloc' ⟨hP.leafLoad, hP.innerNodeLoad⟩
  obtain ⟨found, S₂, hfound, hmem⟩ := hsim.searches hsearches
  have hnum : S.tree.pager.numPages = s.map.numPages := hs.represents.pager.numPages_eq
  have hlow : ∀ R : Rooted UInt32 Row, D.tree = R → R.height ≠ 0 →
      2 * (P.innerCapacity / 2 + 1) ^ (R.height - 1) ≤ S.tree.pager.numPages := by
    rintro ⟨h, t⟩ heq hne
    obtain ⟨h, rfl⟩ := Nat.exists_eq_succ_of_ne_zero hne
    have hfilled := hsteady.filled
    have hpages := hstores.sound.pids.length_eq
    rw [heq] at hfilled hpages
    rw [hnum, ← List.length_range (n := s.map.numPages), ← hpages]
    exact RootFilled.le_length_pids hfilled
  refine ⟨D, S₁, found, S₂, hD, hopen, hfound, hroot, ?_,
    fun key => length_visited_self key hstores.ordered, hlow _ rfl, ?_⟩
  · rw [hmem, hroot]
    rfl
  · rintro rfl
    by_contra htall
    have hpages := hlow _ rfl (by omega)
    have hmax : s.map.numPages ≤ 1000 := hstores.numPages_le
    have hpow : 170 ^ 2 ≤ 170 ^ (D.tree.height - 1) :=
      Nat.pow_le_pow_right (by decide) (by omega)
    rw [mainParams_innerCapacity, hnum] at hpages
    have hpages' : 2 * 170 ^ (D.tree.height - 1) ≤ s.map.numPages := hpages
    omega

/-- A key and a range in the file that a small run left. -/
theorem searches_load_paths_small : ∃ S₀ replies S D S₁ found S₂,
    Session.create smallParams none (fun _ => 0) (fun _ => Page.filled 7) = .ok S₀ ∧
      S₀.runCalls smallCalls = .ok (replies, S) ∧
      (Dictionary.create smallParams).runCalls smallCalls = .ok (replies, D) ∧
      S.answer (.reopen 2 2 (fun _ => 1) fun _ => Page.filled 9) = .ok (.reopened, S₁) ∧
      S₁.runCalls [.find 7, .select 3 4] = .ok (found, S₂) ∧ S₁.tree.inMemory = {D.tree.pid} ∧
      S₂.tree.inMemory = {D.tree.pid} ∪ {id | ∃ c ∈ [TreeCall.find 7, .select 3 4],
        id ∈ c.reached D.tree} := by
  obtain ⟨S₀, replies, S, hcreate, hrun⟩ := exists_run_smallCalls
  obtain ⟨D, S₁, found, S₂, hD, hopen, hfound, hroot, hmem, -⟩ :=
    searches_load_paths smallParams_valid hcreate smallCalls_sameLoads hrun (fun _ => 1)
      (fun _ => Page.filled 9) [.find 7, .select 3 4] (by simp [TreeCall.Searches])
  exact ⟨S₀, replies, S, D, S₁, found, S₂, hcreate, hrun, hD, hopen, hfound, hroot, hmem⟩

end DbToy
