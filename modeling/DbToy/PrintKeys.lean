import DbToy.Command
import DbToy.Lib.LevelOrder
import DbToy.NodeInserts
import DbToy.PageRequests
import DbToy.TreeRefinement

/-!
# Printing the keys of a tree

`print_keys` works with a queue: it prints the node at the front and puts its children at the back.
A level is announced when the first node of it comes to the front.

On a tree that is stored in pages this prints level by level (`prints_levels`): every page is on one
line, and the last level lists the keys of the tree in their order.
-/

namespace DbToy

open SearchTree Istream

structure QueNodeInfo where
  pageId : ℕ
  node : BtreeNode
  level : ℤ

/-- A number in a field of this width, as `%3lld` prints it. -/
def padLeft (width : ℕ) (digits : List UInt8) : List UInt8 :=
  List.replicate (width - digits.length) ' '.toUInt8 ++ digits

namespace BPlusTree

/-- `for (i = 0; i < num_keys; ++i) printf("%d ", get_key(i))`, from number `i` on; `count` of them
are left. -/
def printKeyLoop (node : BtreeNode) : ℕ → ℕ → Except Fault (List UInt8)
  | 0, _ => .ok []
  | count + 1, i => do
      let key ← node.getKey i
      let rest ← printKeyLoop node count (i + 1)
      .ok (decimal key.toInt32.toInt ++ bytesOf " " ++ rest)

/-- The line of a node. -/
def printNode (pageId : ℕ) (node : BtreeNode) : Except Fault (List UInt8) := do
  let keys ← printKeyLoop node node.getNumKeys 0
  .ok (bytesOf "page " ++ padLeft 3 (decimal (Int.bmod pageId (2 ^ 64))) ++ bytesOf ": " ++ keys ++
    bytesOf "\n")

/-- `for (i = 0; i <= num_keys; ++i) que.push(...)`, from child number `i` on; `count` of them are
left. -/
def pushChildren (node : InternalNode) (level : ℤ) : ℕ → ℕ → List QueNodeInfo →
    PageM (List QueNodeInfo)
  | 0, _, que => pure que
  | count + 1, i, que => do
      let pageIdNext ← (node.getChild i : Except Fault ℕ)
      let nodeNext ← getNodeBy pageIdNext
      pushChildren node level count (i + 1) (que ++ [⟨pageIdNext, nodeNext, level⟩])

/-- The children of an inner node are put at the back of the queue. -/
def pushNext (level : ℤ) (que : List QueNodeInfo) : BtreeNode → PageM (List QueNodeInfo)
  | .inner node => pushChildren node (level + 1) (node.numKeys + 1) 0 que
  | .leaf _ => pure que

/-- `while (!que.empty())`, for so many turns; `level` is the one that was announced last. -/
def printLoop : ℕ → List QueNodeInfo → ℤ → PageM (List UInt8)
  | _, [], _ => pure []
  | 0, _ :: _, _ => Prog.fail .diverges
  | fuel + 1, curr :: que, level => do
      let announced := if level < curr.level then
          bytesOf "level " ++ decimal curr.level ++ bytesOf ":\n" else []
      let level := if level < curr.level then curr.level else level
      let line ← (printNode curr.pageId curr.node : Except Fault (List UInt8))
      let que ← pushNext level que curr.node
      let rest ← printLoop fuel que level
      pure (announced ++ line ++ rest)

/-- `print_keys()`: what it writes to the standard output, if its loop ends within so many turns. -/
def printKeys (fuel : ℕ) : PageM (List UInt8) := do
  let page ← rootBlock
  let node ← (BtreeNode.loadNodeFrom page : Except Fault BtreeNode)
  let pageId ← getRootPage
  printLoop fuel [⟨pageId, node, 0⟩] (-1)

end BPlusTree

/-! ## What is printed -/

def nodeLine (node : ℕ × List UInt32) : List UInt8 :=
  bytesOf "page " ++ padLeft 3 (decimal (Int.bmod node.1 (2 ^ 64))) ++ bytesOf ": " ++
    node.2.flatMap (fun key => decimal key.toInt32.toInt ++ bytesOf " ") ++ bytesOf "\n"

def levelLine (level : ℕ) : List UInt8 := bytesOf "level " ++ decimal level ++ bytesOf ":\n"

/-- The levels from this one on. -/
def printed : ℕ → List (List (ℕ × List UInt32)) → List UInt8
  | _, [] => []
  | level, nodes :: levels => levelLine level ++ nodes.flatMap nodeLine ++ printed (level + 1) levels

namespace BPlusTree

variable {rowSize : ℕ} {s : TreeImage}

lemma printKeyLoop_eq {node : BtreeNode} (hn : node.Fits) : ∀ (B A : List UInt32),
    node.keys = A ++ B → printKeyLoop node B.length A.length
      = .ok (B.flatMap fun key => decimal key.toInt32.toInt ++ bytesOf " ")
  | [], _, _ => rfl
  | key :: B, A, hkeys => by
      have hget := BtreeNode.getKey_keys hn A.length (by rw [hkeys, List.length_append]; simp)
      rw [List.getElem_of_eq hkeys, List.getElem_append_right (le_refl _)] at hget
      simp only [Nat.sub_self, List.getElem_cons_zero] at hget
      have hrest := printKeyLoop_eq hn B (A ++ [key]) (by rw [hkeys, List.append_assoc]; rfl)
      rw [List.length_append, List.length_singleton] at hrest
      rw [List.length_cons, printKeyLoop, hget, ok_bind, hrest]
      rfl

end BPlusTree

lemma Holds.nodeOf_fits {rowSize : ℕ} {content : ℕ → Page} : ∀ {h : ℕ} {t : RowTree h},
    Holds rowSize content h t →
      (nodeOf rowSize content h t).Fits ∧ (nodeOf rowSize content h t).keys = rootKeys h t
  | 0, t, ht => by
      have hp : IsLeaf rowSize _ (Leaf.cells t) := ht
      refine ⟨⟨LeafNode.view_wf _ _, ?_⟩, congrArg (List.map Prod.fst) hp.cells_eq⟩
      rw [hp.numCells]
      exact hp.length_le
  | h + 1, t, ht => by
      refine ⟨⟨le_refl _, ?_⟩, ht.1.keys_eq⟩
      rw [ht.1.numKeys]
      exact ht.1.length_le

namespace BPlusTree

variable {rowSize : ℕ} {s : TreeImage}

/-- A node on its page prints as it stands on its level. -/
lemma printNode_eq {h : ℕ} {t : RowTree h} (ht : Holds rowSize s.map.content h t) :
    printNode (pid h t) (nodeOf rowSize s.map.content h t)
      = .ok (nodeLine (pid h t, rootKeys h t)) := by
  obtain ⟨hfits, hkeys⟩ := ht.nodeOf_fits
  have hloop := printKeyLoop_eq hfits (rootKeys h t) [] hkeys
  rw [← hkeys, BtreeNode.length_keys, hkeys] at hloop
  rw [printNode, show 0 = ([] : List UInt32).length from rfl, hloop]
  rfl

/-- A node in the queue. -/
def queued (rowSize : ℕ) (s : TreeImage) (level : ℕ) (h : ℕ) (t : RowTree h) : QueNodeInfo :=
  ⟨pid h t, nodeOf rowSize s.map.content h t, level⟩

/-- The pages have these trees. -/
def AllHeld (rowSize : ℕ) (s : TreeImage) (h : ℕ) (l : List (RowTree h)) : Prop :=
  ∀ t ∈ l, Holds rowSize s.map.content h t ∧ ∀ id ∈ pids h t, id < s.map.numPages

lemma AllHeld.below {h : ℕ} {l : List (RowTree (h + 1))} (hl : AllHeld rowSize s (h + 1) l) :
    AllHeld rowSize s h (below l) := by
  intro c hc
  obtain ⟨t, ht, hc⟩ := List.mem_flatMap.mp hc
  obtain ⟨hholds, hlt⟩ := hl t ht
  exact ⟨hholds.2 c hc, fun id hid =>
    hlt id (List.mem_cons_of_mem _ (List.mem_flatMap.mpr ⟨c, hc, hid⟩))⟩

lemma run_pushChildren (hrow : 0 < LeafNode.pageMax rowSize) (hmax : s.map.numPages ≤ tableMaxPages)
    {h : ℕ} {node : InternalNode} (hn : node.WF) (hle : node.numKeys ≤ node.numMaxKeys)
    (level : ℕ) : ∀ (M : List (RowTree h)) (C : List ℕ) (que : List QueNodeInfo),
      node.children = C ++ M.map (pid h) → AllHeld rowSize s h M →
      (pushChildren node level M.length C.length que).run TreeImage.handler s
        = .ok (que ++ M.map (queued rowSize s level h), s)
  | [], _, que, _, _ => by rw [List.map_nil, List.append_nil]; rfl
  | c :: M, C, que, hchildren, hM => by
      obtain ⟨hholds, hlt⟩ := hM c List.mem_cons_self
      have hchild := InternalNode.getChild_cut hn hle hchildren
      have hnode := run_getNodeBy hrow hmax hholds (hlt _ (pid_mem_pids h c))
      have hrest := run_pushChildren hrow hmax hn hle level M (C ++ [pid h c])
        (que ++ [queued rowSize s level h c]) (by rw [hchildren, List.append_assoc]; rfl)
        fun d hd => hM d (List.mem_cons_of_mem _ hd)
      rw [List.length_append, List.length_singleton] at hrest
      rw [List.length_cons, pushChildren, Prog.run_liftM_bind _ _ hchild,
        Prog.run_bind_of_ok _ hnode]
      refine hrest.trans ?_
      rw [List.append_assoc, List.map_cons]
      rfl

/-- The loop ends with this output and leaves the pages as they are. -/
def Prints (s : TreeImage) (fuel : ℕ) (que : List QueNodeInfo) (level : ℤ) (out : List UInt8) :
    Prop := (printLoop fuel que level).run TreeImage.handler s = .ok (out, s)

namespace Prints

variable {fuel level h : ℕ} {que que' : List QueNodeInfo} {out : List UInt8}

lemma nil (s : TreeImage) (fuel : ℕ) (level : ℤ) : Prints s fuel [] level [] := by
  cases fuel <;> rfl

/-- The first node of a level announces it. -/
lemma announce {curr : QueNodeInfo} (hp : Prints s (fuel + 1) (curr :: que) curr.level out)
    {level : ℤ} (hlevel : level < curr.level) : Prints s (fuel + 1) (curr :: que) level
      (bytesOf "level " ++ decimal curr.level ++ bytesOf ":\n" ++ out) := by
  have hbind : printLoop (fuel + 1) (curr :: que) level
      = printLoop (fuel + 1) (curr :: que) curr.level >>= fun out =>
        pure (bytesOf "level " ++ decimal curr.level ++ bytesOf ":\n" ++ out) := by
    rw [printLoop, printLoop]
    simp only [if_pos hlevel, if_neg (lt_irrefl curr.level), bind_assoc, pure_bind,
      List.nil_append, List.append_assoc]
  rw [Prints, hbind, Prog.run_bind_of_ok _ hp, Prog.run_pure]

/-- **One turn**, in the level that was announced last. -/
lemma turn {t : RowTree h} (ht : Holds rowSize s.map.content h t)
    (hque : (pushNext level que (nodeOf rowSize s.map.content h t)).run TreeImage.handler s
      = .ok (que', s)) (hp : Prints s fuel que' level out) :
    Prints s (fuel + 1) (queued rowSize s level h t :: que) level
      (nodeLine (pid h t, rootKeys h t) ++ out) := by
  have hlevel : ¬((level : ℤ) < (queued rowSize s level h t).level) := lt_irrefl _
  rw [Prints, printLoop]
  simp only [if_neg hlevel, List.nil_append]
  refine (Prog.run_liftM_bind _ _ (printNode_eq ht) _).trans ?_
  refine (Prog.run_bind_of_ok _ hque _).trans ?_
  exact (Prog.run_bind_of_ok _ hp _).trans rfl

/-- **The rest of a level**: its nodes are printed, and the nodes below them come behind those that
are in the queue already. -/
lemma inner (hrow : 0 < LeafNode.pageMax rowSize) (hmax : s.map.numPages ≤ tableMaxPages) :
    ∀ (l : List (RowTree (h + 1))) (m : List (RowTree h)), AllHeld rowSize s (h + 1) l →
      Prints s fuel ((m ++ below l).map (queued rowSize s (level + 1) h)) level out →
      Prints s (fuel + l.length) (l.map (queued rowSize s level (h + 1)) ++
        m.map (queued rowSize s (level + 1) h)) level ((row (h + 1) l).flatMap nodeLine ++ out)
  | [], m, _, hp => by
      rw [below, List.flatMap_nil, List.append_nil] at hp
      exact hp
  | t :: l, m, hl, hp => by
      have hholds := (hl t List.mem_cons_self).1
      have hbelow : AllHeld rowSize s h (childTrees t) := by
        have hone : AllHeld rowSize s h (below [t]) := AllHeld.below fun d hd =>
          hl d (List.mem_singleton.mp hd ▸ List.mem_cons_self)
        rwa [below, List.flatMap_singleton] at hone
      have hnum := hholds.1.numKeys
      have hlen := hholds.1.length_le
      have hpush := run_pushChildren hrow hmax (le_refl _) (by rw [hnum]; exact hlen) (level + 1)
        (childTrees t) [] (l.map (queued rowSize s level (h + 1)) ++
          m.map (queued rowSize s (level + 1) h)) hholds.1.children_eq hbelow
      have hcount : (childTrees t).length = (Inner.slots t).keys.length + 1 :=
        (Inner.slots t).length_children
      rw [hcount, ← hnum, List.append_assoc, ← List.map_append, Nat.cast_succ] at hpush
      rw [below, List.flatMap_cons, ← List.append_assoc] at hp
      have hrest := inner hrow hmax l (m ++ childTrees t)
        (fun d hd => hl d (List.mem_cons_of_mem _ hd)) hp
      have hout : (row (h + 1) (t :: l)).flatMap nodeLine ++ out
          = nodeLine (pid (h + 1) t, rootKeys (h + 1) t)
            ++ ((row (h + 1) l).flatMap nodeLine ++ out) := by
        simp only [row, List.map_cons, List.flatMap_cons, List.append_assoc]
      rw [hout]
      exact turn hholds hpush hrest

lemma leaves : ∀ (l : List (RowTree 0)), AllHeld rowSize s 0 l →
    Prints s (fuel + l.length) (l.map (queued rowSize s level 0)) level ((row 0 l).flatMap nodeLine)
  | [], _ => nil s _ _
  | t :: l, hl => turn (hl t List.mem_cons_self).1 rfl
      (leaves l fun d hd => hl d (List.mem_cons_of_mem _ hd))

/-- **Level by level**, with one turn for each node. -/
theorem levels (hrow : 0 < LeafNode.pageMax rowSize) (hmax : s.map.numPages ≤ tableMaxPages) :
    ∀ {h level : ℕ} {l : List (RowTree h)}, l ≠ [] → AllHeld rowSize s h l →
      Prints s (fuel + (l.flatMap (pids h)).length) (l.map (queued rowSize s level h)) (level - 1)
        (printed level (SearchTree.levels h l)) := by
  intro h
  induction h with
  | zero =>
      intro level l hne hl
      obtain ⟨t, l', rfl⟩ := List.exists_cons_of_ne_nil hne
      have hlen : ((t :: l').flatMap (pids 0)).length = (t :: l').length := by
        rw [← (levels_perm 0 (t :: l')).length_eq]
        simp [SearchTree.levels, row]
      have hp := @leaves rowSize s fuel level (t :: l') hl
      have hout : printed level (SearchTree.levels 0 (t :: l'))
          = levelLine level ++ (row 0 (t :: l')).flatMap nodeLine := by
        simp only [SearchTree.levels, printed, List.append_nil]
      rw [hlen, hout]
      exact announce hp (sub_one_lt _)
  | succ h ih =>
      intro level l hne hl
      obtain ⟨t, l', rfl⟩ := List.exists_cons_of_ne_nil hne
      have hlen := (flatMap_pids_perm (t :: l')).length_eq
      have hrest := @ih (level + 1) _ (below_ne_nil hne) hl.below
      rw [Nat.cast_succ, add_sub_cancel_right] at hrest
      have hp := inner hrow hmax (t :: l') [] hl hrest
      have hout : printed level (SearchTree.levels (h + 1) (t :: l')) = levelLine level ++
          ((row (h + 1) (t :: l')).flatMap nodeLine ++ printed (level + 1)
            (SearchTree.levels h (below (t :: l')))) := by
        simp only [SearchTree.levels, printed, List.append_assoc]
      rw [hlen, List.length_append, List.length_map, Nat.add_comm _ (List.length _),
        ← Nat.add_assoc, hout]
      rw [List.map_nil, List.append_nil] at hp
      exact announce hp (sub_one_lt _)

end Prints

/-- `print_keys` on pages that store a tree. -/
theorem run_printKeys (hrow : 0 < LeafNode.pageMax rowSize) {h : ℕ} {t : RowTree h}
    (hs : s.Stores rowSize h t) {fuel : ℕ} (hfuel : (pids h t).length ≤ fuel) :
    (printKeys fuel).run TreeImage.handler s = .ok (printed 0 (SearchTree.levels h [t]), s) := by
  have hnode := hs.holds.loadNodeFrom hrow
  have hall : AllHeld rowSize s h [t] := fun c hc => by
    rw [List.mem_singleton.mp hc]
    exact ⟨hs.holds, fun id hid => hs.lt_numPages id hid⟩
  obtain ⟨more, rfl⟩ := Nat.exists_eq_add_of_le' hfuel
  have hp := @Prints.levels rowSize s more hrow hs.numPages_le h 0 [t] (List.cons_ne_nil _ _) hall
  rw [List.flatMap_singleton, Nat.cast_zero, zero_sub] at hp
  rw [printKeys, Prog.run_bind_of_ok _ (run_rootBlock (hs.wellFormed hrow)),
    Prog.run_liftM_bind _ _ hnode, Prog.run_bind_of_ok _ (run_getRootPage s), hs.rootPid]
  exact hp

end BPlusTree

/-- The levels of the tree from the root on: of each node its page and its keys. -/
def Dictionary.levels (D : Dictionary) : List (List (ℕ × List UInt32)) :=
  SearchTree.levels D.tree.height [D.tree.tree]

/-- **What `print_keys` prints**: the levels of the tree from the root to the leaves, each page of
the file on one line, and on the last level the keys of all rows in increasing order.  The loop
ends after one turn for each page, and the tree stays what it was. -/
theorem prints_levels {P : TreeParams} (hP : P.Valid) {file : Option (List UInt8)} {counts : ℕ → ℕ}
    {malloc : ℕ → Page} {S₀ S : Session} {calls : List TreeCall} {replies : List TreeReply}
    (hcreate : Session.create P file counts malloc = .ok S₀)
    (hcalls : (Dictionary.create P).AdmitsAll calls)
    (hrun : S₀.runCalls calls = .ok (replies, S)) :
    ∃ D, (Dictionary.create P).runCalls calls = .ok (replies, D) ∧
      (∀ fuel, D.numPages ≤ fuel → ∃ S', S.method (BPlusTree.printKeys fuel)
        = .ok (printed 0 D.levels, S') ∧ S'.Mirrors D) ∧
      D.levels.length = D.tree.height + 1 ∧
      (D.levels.flatten.map Prod.fst).Perm (List.range D.numPages) ∧
      ∃ upper bottom, D.levels = upper ++ [bottom] ∧
        bottom.flatMap Prod.snd = D.cells.map Prod.fst ∧
        (D.cells.map Prod.fst).Pairwise (· < ·) := by
  have hmirrors := mirrors_of_create hP hcreate
  rcases Session.runCalls_outcome hmirrors hcalls with
    ⟨_, S', D, hS, hD, ⟨s, hs⟩, hwf, -⟩ | ⟨hS, -⟩
  · cases hrun.symm.trans hS
    have hpids := hwf.sound.pids
    obtain ⟨upper, bottom, hlevels, hkeys⟩ := exists_bottom D.tree.height [D.tree.tree]
    rw [List.flatMap_singleton] at hkeys
    refine ⟨D, hD, fun fuel hfuel => ?_, length_levels _ _, ?_, upper, bottom, hlevels, hkeys, ?_⟩
    · have hlen := hpids.length_eq
      rw [List.length_range] at hlen
      have hprint := BPlusTree.run_printKeys hs.valid.room hs.stores (hlen.trans_le hfuel)
      have hagree := BPlusTree.run_agrees (BPlusTree.printKeys fuel) hs.represents
      rw [hprint] at hagree
      obtain ⟨t, ht, hrep⟩ := hagree.exists_ok
      exact ⟨{ S with tree := t }, by rw [Session.method, ht, ok_bind, Dictionary.levels],
        s, hs.params, hs.valid, hrep, hs.stores, hs.numPages⟩
    · have hperm := levels_perm D.tree.height [D.tree.tree]
      rw [List.flatMap_singleton] at hperm
      exact hperm.trans hpids
    · exact List.pairwise_map.mpr hwf.sorted
  · rw [hrun] at hS
    exact nomatch hS

theorem prints_levels_small : ∃ S₀ replies S D,
    Session.create smallParams none (fun _ => 0) (fun _ => Page.filled 7) = .ok S₀ ∧
      S₀.runCalls smallCalls = .ok (replies, S) ∧
      (∀ fuel, D.numPages ≤ fuel → ∃ S', S.method (BPlusTree.printKeys fuel)
        = .ok (printed 0 D.levels, S') ∧ S'.Mirrors D) ∧
      (D.levels.flatten.map Prod.fst).Perm (List.range D.numPages) := by
  obtain ⟨S₀, hcreate, hmirrors⟩ := Session.create_mirrors smallParams_valid none (fun _ => 0)
    fun _ => Page.filled 7
  have hadmits := admitsAll_of_sameLoads smallParams_valid smallCalls_sameLoads
  rcases Session.runCalls_outcome hmirrors hadmits with ⟨replies, S, -, hrun, -⟩ | ⟨hfull, -⟩
  · obtain ⟨D, -, hprint, -, hperm, -⟩ := prints_levels smallParams_valid hcreate hadmits hrun
    exact ⟨S₀, replies, S, D, hcreate, hrun, hprint, hperm⟩
  · exact absurd hfull (runCalls_ne_pageIndex hmirrors hadmits (by decide) tableMaxPages)

/-- A root with one key and two leaves. -/
example : printed 0 [[(2, [4])], [(0, [3, 4]), (1, [5, 7])]]
    = bytesOf ("level 0:\npage   2: 4 \n" ++
      "level 1:\npage   0: 3 4 \npage   1: 5 7 \n") := by
  decide +kernel

end DbToy
