import DbToy.TreeFind
import DbToy.TreeInsert

/-!
# Insertion into a stored tree

`insert` as a whole: the search, the insertion below the root, and the new root when the old one
has split.  On an image that stores a tree it does to it what `Rooted.insert` does, as long as the
pages last and no node on the way is fuller than it may be (`run_insert`); a key that the tree has
is refused and nothing changes (`run_insert_of_mem`).

`Inserts` collects what is true of the image afterwards, root flags included.
-/

namespace DbToy

open SearchTree

/-- What the insertion of a new cell makes of an image that stores the tree `R`: it stores the tree
with the cell.  A new page that is not the root has the root flag that `malloc` left in it. -/
structure Inserts (P : TreeParams) (s s' : TreeImage) (c : UInt32 × Row)
    (R : Rooted UInt32 Row) : Prop where
  stores : s'.Stores P.rowSize
    (R.insert P.leafCapacity P.innerCapacity c s.map.numPages).1.height
    (R.insert P.leafCapacity P.innerCapacity c s.map.numPages).1.tree
  numPages : s'.map.numPages = (R.insert P.leafCapacity P.innerCapacity c s.map.numPages).2
  malloc : s'.malloc = s.malloc
  isRoot_old : ∀ id < s.map.numPages, id ≠ s'.map.rootPid →
    (s'.map.content id).isRoot = (id != s.map.rootPid && (s.map.content id).isRoot)
  isRoot_new : ∀ id, s.map.numPages ≤ id → id < s'.map.numPages → id ≠ s'.map.rootPid →
    (s'.map.content id).isRoot = (s.malloc id).isRoot

lemma TreeImage.Stores.ready {rowSize h : ℕ} {s : TreeImage} {t : RowTree h}
    (hs : s.Stores rowSize h t) : Ready rowSize s h t where
  holds := hs.holds
  linked := hs.linked
  tight := hs.sound.tight
  nonEmpty := hs.nonEmpty
  sorted := hs.sound.sorted
  nodup := hs.sound.nodup
  lt := hs.lt_numPages
  numPages_le := hs.numPages_le

/-- What was spared below the root is spared by a new root too. -/
lemma Spares.grow {s s₁ s₂ : TreeImage} {ids : List ℕ} {l r : ℕ} (hsp : Spares s s₁ ids)
    (hle : s.map.numPages ≤ s₁.map.numPages) (hle' : s₁.map.numPages ≤ s₂.map.numPages)
    (hbody : ∀ id < s₁.map.numPages, (s₂.map.content id).body = (s₁.map.content id).body)
    (hsame : ∀ id < s₁.map.numPages, id ≠ l → id ≠ r → s₂.map.content id = s₁.map.content id)
    (hl : l ∈ ids) (hr : s.map.numPages ≤ r) : Spares s s₂ ids := by
  intro id hid hnot
  have heq : s₂.map.content id = s₁.map.content id :=
    hsame id (hid.trans_le hle) (fun h => hnot (h ▸ hl)) (by omega)
  rw [KeptOrMoved, heq]
  refine (hsp id hid hnot).imp_right ?_
  rintro ⟨q, hq, hq', hhas, hmoved⟩
  exact ⟨q, hq, hq'.trans_le hle', hhas.congr (hbody q hq').symm, hmoved⟩

/-- The root has not split: it is the root still. -/
lemma Updated.inserts {P : TreeParams} {s s' : TreeImage} {h : ℕ} {t t' : RowTree h} {key : UInt32}
    {row : Row} {next : ℕ} (hs : s.Stores P.rowSize h t)
    (hins : Inserted h t (key, row) s.map.numPages (.one t', next))
    (hR : Rooted.insert P.leafCapacity P.innerCapacity (key, row) s.map.numPages ⟨h, t⟩
      = (⟨h, t'⟩, next))
    (hsound : Sound next h t') (hle : next ≤ tableMaxPages)
    (hu : Updated P.rowSize s s' h t (.one t', next)) : Inserts P s s' (key, row) ⟨h, t⟩ := by
  have hpid : pid h t' = pid h t := hins.head
  have hnum : s'.map.numPages = next := hu.numPages
  have hrootPid : s'.map.rootPid = s.map.rootPid := hu.sameRoot.rootPid
  refine ⟨?_, by rw [hR]; exact hnum, hu.sameRoot.malloc, ?_, fun id hge hlt _ => hu.isRoot_new id
    hge (hnum ▸ hlt)⟩
  · rw [hR]
    exact
      { holds := hu.holds t' List.mem_cons_self
        linked := hu.linked t' List.mem_cons_self
        rootPid := hrootPid.trans (hs.rootPid.trans hpid.symm)
        root := hu.sameRoot.root.trans (hs.root.trans (congrArg some hpid.symm))
        isRoot := by rw [hpid, hu.isRoot _ (hs.lt_numPages _ (pid_mem_pids h t))]; exact hs.isRoot
        parent := by rw [hpid, hu.parent]; exact hs.parent
        numPages_le := hnum.symm ▸ hle
        sound := hnum.symm ▸ hsound }
  · intro id hid hid'
    rw [hrootPid] at hid'
    rw [hu.isRoot id hid, bne_iff_ne.mpr hid', Bool.true_and]

namespace BPlusTree

variable {P : TreeParams} {s : TreeImage}

lemma run_getRoot (s : TreeImage) : getRoot.run TreeImage.handler s = .ok (s.root, s) :=
  Prog.run_request TreeImage.handler s PageOp.getRoot

lemma run_setRoot (s : TreeImage) (id : ℕ) :
    (setRoot id).run TreeImage.handler s = .ok ((), { s with root := some id }) :=
  Prog.run_request TreeImage.handler s (PageOp.setRoot id)

lemma run_setRootPage (s : TreeImage) {id : ℕ} (hid : id < 2 ^ 64) :
    (setRootPage id).run TreeImage.handler s
      = .ok ((), { s with map := s.map.setRootPage id }) := by
  refine (Prog.run_request TreeImage.handler s (PageOp.setRootPage id)).trans ?_
  simp only [TreeImage.handler, Nat.mod_eq_of_lt hid]
  rfl

/-- The image after `update_root(new)`, with the block of the root as it is before. -/
def reroot (s : TreeImage) (new : ℕ) : TreeImage :=
  store { s with map := s.map.setRootPage new, root := some new } new
    (((s.map.content new).setRoot true).setParent nodeParentInvalid)

lemma content_reroot (s : TreeImage) (new i : ℕ) : (reroot s new).map.content i
    = if i = new then ((s.map.content new).setRoot true).setParent nodeParentInvalid
      else s.map.content i :=
  content_store _ new i _

/-- The part of `update_root` behind the change of the old root. -/
lemma run_updateRoot {s s₁ : TreeImage} {new : ℕ} (hmax : s₁.map.numPages ≤ tableMaxPages)
    (hunmark : unmarkRoot.run TreeImage.handler s = .ok ((), s₁)) (hnew : new < s₁.map.numPages)
    {node : BtreeNode} (hload : BtreeNode.loadNodeFrom (s₁.map.content new) = .ok node) :
    (updateRoot new).run TreeImage.handler s = .ok ((), reroot s₁ new) := by
  have htm : tableMaxPages < 2 ^ 64 := by decide
  set s₂ : TreeImage := { s₁ with map := s₁.map.setRootPage new }
  have hget := run_getPage (s := s₂) hnew hmax
  have hload₂ : BtreeNode.loadNodeFrom (s₂.map.content new) = .ok node := hload
  rw [updateRoot, Prog.run_bind_of_ok _ hunmark,
    Prog.run_bind_of_ok _ (run_setRootPage s₁ (show new < 2 ^ 64 by omega)),
    Prog.run_bind_of_ok _ hget, Prog.run_liftM_bind _ _ hload₂,
    Prog.run_bind_of_ok _ (run_setRoot s₂ new)]
  exact run_writePage (s := { s₂ with root := some new }) hnew hmax _

lemma run_unmarkRoot {old : ℕ} (hmax : s.map.numPages ≤ tableMaxPages)
    (hroot : s.root = some old) (hold : old < s.map.numPages) :
    unmarkRoot.run TreeImage.handler s
      = .ok ((), store s old ((s.map.content old).setRoot false)) := by
  rw [unmarkRoot, Prog.run_bind_of_ok _ (run_getRoot s), hroot]
  refine (Prog.run_bind_of_ok _ (run_getPage hold hmax) _).trans ?_
  exact run_writePage hold hmax _

/-! ## A new root -/

/-- What the growth of a root does, once the halves of the old one are stored. -/
structure Grew (rowSize : ℕ) (s s' : TreeImage) {h : ℕ} (l : RowTree h) (k : UInt32)
    (r : RowTree h) : Prop where
  numPages : s'.map.numPages = s.map.numPages + 1
  malloc : s'.malloc = s.malloc
  rootPid : s'.map.rootPid = s.map.numPages
  root : s'.root = some s.map.numPages
  holds : Holds rowSize s'.map.content (h + 1)
    (SearchTree.Inner.mk s.map.numPages (.cons l k (.one r)))
  linked : Linked s'.map.content (h + 1)
    (SearchTree.Inner.mk s.map.numPages (.cons l k (.one r)))
  isRoot : (s'.map.content s.map.numPages).isRoot = true
  parent : (s'.map.content s.map.numPages).parent = nodeParentInvalid
  isRoot_old : (s'.map.content (pid h l)).isRoot = false
  isRoot_other : ∀ id < s.map.numPages, id ≠ pid h l →
    (s'.map.content id).isRoot = (s.map.content id).isRoot

section Grow

variable {h : ℕ} {l r : RowTree h} {k : UInt32}
  (hholds : ∀ d ∈ (Alt.cons l k (.one r)).children, Holds P.rowSize s.map.content h d)
  (hlinked : ∀ d ∈ (Alt.cons l k (.one r)).children, Linked s.map.content h d)
  (hnodup : ((Alt.cons l k (.one r)).children.flatMap (pids h)).Nodup)
  (hlt : ∀ id ∈ (Alt.cons l k (.one r)).children.flatMap (pids h), id < s.map.numPages)

include hholds hlinked hnodup hlt

/-- The new root is in its page, its children are linked to it, and the root flag has moved. -/
lemma grew_reroot {page : Page} (hpage : IsInner page [k] [pid h l, pid h r]) {s₂ : TreeImage}
    (ha : Adopted (store (extend s) s.map.numPages page) s₂ [pid h l, pid h r] s.map.numPages)
    {s' : TreeImage} (hs' : s' = reroot (store s₂ (pid h l)
      ((s₂.map.content (pid h l)).setRoot false)) s.map.numPages) :
    Grew P.rowSize s s' l k r ∧
      (∀ id < s.map.numPages, (s'.map.content id).body = (s.map.content id).body) ∧
      ∀ id < s.map.numPages, id ≠ pid h l → id ≠ pid h r →
        s'.map.content id = s.map.content id := by
  have hids : ∀ d ∈ (Alt.cons l k (.one r)).children, ∀ id ∈ pids h d, id < s.map.numPages :=
    fun d hd id hid => hlt id (List.mem_flatMap.mpr ⟨d, hd, hid⟩)
  have hl : l ∈ (Alt.cons l k (.one r)).children := List.mem_cons_self
  have hr : r ∈ (Alt.cons l k (.one r)).children := List.mem_cons_of_mem _ List.mem_cons_self
  have hidl := hids l hl _ (pid_mem_pids h l)
  have hidr := hids r hr _ (pid_mem_pids h r)
  have hchildren : ∀ d ∈ (Alt.cons l k (.one r)).children, pid h d ∈ [pid h l, pid h r] :=
    fun d hd => List.mem_map_of_mem (f := pid h) hd
  have hstored : ∀ id < s.map.numPages, (store (extend s) s.map.numPages page).map.content id
      = s.map.content id := by
    intro id hid
    rw [content_store, if_neg (ne_of_lt hid), content_extend, if_neg (ne_of_lt hid)]
  have hold : ∀ id < s.map.numPages, s'.map.content id
      = if id = pid h l then (s₂.map.content (pid h l)).setRoot false else s₂.map.content id :=
    fun id hid => by rw [hs', content_reroot, if_neg (ne_of_lt hid), content_store]
  have htop : s'.map.content s.map.numPages = (page.setRoot true).setParent nodeParentInvalid := by
    have hnot : s.map.numPages ∉ [pid h l, pid h r] := by
      rw [List.mem_cons, List.mem_singleton, not_or]
      exact ⟨ne_of_gt hidl, ne_of_gt hidr⟩
    rw [hs', content_reroot, if_pos rfl, content_store, if_neg (ne_of_gt hidl), ha.same _ hnot,
      content_store, if_pos rfl]
  have hbody : ∀ id < s.map.numPages, (s'.map.content id).body = (s.map.content id).body := by
    intro id hid
    rw [hold id hid, ← hstored id hid, ← ha.body]
    split_ifs with heq
    · rw [heq, Page.body_setRoot]
    · rfl
  have hrest : ∀ id < s.map.numPages, id ≠ pid h l → id ≠ pid h r →
      s'.map.content id = s.map.content id := by
    intro id hid hnl hnr
    have hnot : id ∉ [pid h l, pid h r] := by
      rw [List.mem_cons, List.mem_singleton, not_or]
      exact ⟨hnl, hnr⟩
    rw [hold id hid, if_neg hnl, ha.same id hnot, hstored id hid]
  have hparent : ∀ d ∈ (Alt.cons l k (.one r)).children,
      (s'.map.content (pid h d)).parent = s.map.numPages := by
    intro d hd
    have hlink := ha.parent _ (hchildren d hd)
    rw [hold _ (hids d hd _ (pid_mem_pids h d))]
    split_ifs with heq
    · rw [Page.parent_setRoot, ← heq, hlink]
    · exact hlink
  have hbelow : ∀ d ∈ (Alt.cons l k (.one r)).children, ∀ id ∈ (pids h d).tail,
      s'.map.content id = s.map.content id := by
    intro d hd id hid
    have hne : ∀ e ∈ (Alt.cons l k (.one r)).children, id ≠ pid h e := fun e he heq =>
      pid_notMem_tail hnodup hd he (heq ▸ hid)
    exact hrest id (hids d hd id (List.mem_of_mem_tail hid)) (hne l hl) (hne r hr)
  have hinvalid : nodeParentInvalid < 2 ^ 64 := by decide
  have hnum : s'.map.numPages = s.map.numPages + 1 := by rw [hs']; exact ha.numPages
  have hmalloc : s'.malloc = s.malloc := by rw [hs']; exact ha.sameRoot.malloc
  refine ⟨⟨hnum, hmalloc, by rw [hs']; rfl, by rw [hs']; rfl, ⟨?_, ?_⟩, fun d hd => ⟨hparent d hd,
    ?_⟩, ?_, ?_, ?_, ?_⟩, hbody, hrest⟩
  · show IsInner (s'.map.content s.map.numPages) [k] [pid h l, pid h r]
    rw [htop]
    exact hpage.congr (by rw [Page.body_setParent, Page.body_setRoot])
  · intro d hd
    exact (hholds d hd).congr fun id hid => (hbody id (hids d hd id hid)).symm
  · exact (hlinked d hd).congr fun id hid => by rw [hbelow d hd id hid]
  · rw [htop, Page.isRoot_setParent, Page.isRoot_setRoot]
  · rw [htop, Page.parent_setParent _ hinvalid]
  · rw [hold _ hidl, if_pos rfl, Page.isRoot_setRoot]
  · intro id hid hne
    rw [hold id hid, if_neg hne, ha.isRoot, hstored id hid]

lemma run_growRoot (hP : P.Valid) {parent : ℕ} (hroom : s.map.numPages < tableMaxPages)
    (hroot : s.root = some (pid h l)) :
    ∃ s', (growRoot ⟨k, pid h l, pid h r, parent⟩).run TreeImage.handler s = .ok ((), s') ∧
      Grew P.rowSize s s' l k r ∧
      (∀ id < s.map.numPages, (s'.map.content id).body = (s.map.content id).body) ∧
      ∀ id < s.map.numPages, id ≠ pid h l → id ≠ pid h r →
        s'.map.content id = s.map.content id := by
  have htm : tableMaxPages < 2 ^ 64 := by decide
  have hl : l ∈ (Alt.cons l k (.one r)).children := List.mem_cons_self
  have hr : r ∈ (Alt.cons l k (.one r)).children := List.mem_cons_of_mem _ List.mem_cons_self
  have hids : ∀ d ∈ (Alt.cons l k (.one r)).children, ∀ id ∈ pids h d, id < s.map.numPages :=
    fun d hd id hid => hlt id (List.mem_flatMap.mpr ⟨d, hd, hid⟩)
  have hidl := hids l hl _ (pid_mem_pids h l)
  have hidr := hids r hr _ (pid_mem_pids h r)
  obtain ⟨hwf, hnum, hmaxKeys, htype, -, -⟩ :=
    InternalNode.create_spec (s.malloc s.map.numPages)
  obtain ⟨n, hins, hkeys, hchildren, hsame⟩ := InternalNode.insert_empty_spec hwf k hnum
    (by rw [hmaxKeys]; decide) (show pid h l < 2 ^ 64 by omega) (show pid h r < 2 ^ 64 by omega)
  have hpage : IsInner n.data [k] [pid h l, pid h r] :=
    ⟨hsame.nodeType.trans htype, hkeys, hchildren, show 1 ≤ InternalNode.pageMax by decide⟩
  set sw := store (extend s) s.map.numPages n.data with hsw
  have hmaxw : sw.map.numPages ≤ tableMaxPages := hroom
  have hheld : ∀ d ∈ (Alt.cons l k (.one r)).children, Holds P.rowSize sw.map.content h d :=
    fun d hd => (hholds d hd).congr fun id hid => by
      have hlt := ne_of_lt (hids d hd id hid)
      rw [hsw, content_store, if_neg hlt, content_extend, if_neg hlt]
  obtain ⟨s₁, e₁, h₁⟩ := run_linkTo hP.room hmaxw (hheld l hl) (Nat.lt_succ_of_lt hidl)
    (show s.map.numPages < 2 ^ 64 by omega)
  obtain ⟨s₂, e₂, h₂⟩ := run_linkTo hP.room (h₁.numPages.symm ▸ hmaxw) (h₁.holds (hheld r hr))
    (h₁.numPages.symm ▸ Nat.lt_succ_of_lt hidr) (show s.map.numPages < 2 ^ 64 by omega)
  have ha : Adopted sw s₂ [pid h l, pid h r] s.map.numPages := h₁.append h₂
  have hnum₂ : s₂.map.numPages = s.map.numPages + 1 := ha.numPages
  have hmax₂ : s₂.map.numPages ≤ tableMaxPages := hnum₂.symm ▸ hroom
  have hunmark := run_unmarkRoot hmax₂ (ha.sameRoot.root.trans hroot)
    (hnum₂.symm ▸ Nat.lt_succ_of_lt hidl)
  set s₃ := store s₂ (pid h l) ((s₂.map.content (pid h l)).setRoot false) with hs₃
  have hnew : s.map.numPages ∉ [pid h l, pid h r] := by
    rw [List.mem_cons, List.mem_singleton, not_or]
    exact ⟨ne_of_gt hidl, ne_of_gt hidr⟩
  have hload : BtreeNode.loadNodeFrom (s₃.map.content s.map.numPages)
      = .ok (.inner (InternalNode.load n.data)) := by
    rw [hs₃, content_store, if_neg (ne_of_gt hidl), ha.same _ hnew, hsw, content_store, if_pos rfl]
    exact hpage.loadNodeFrom
  have hupdate := @run_updateRoot s₂ s₃ s.map.numPages hmax₂ hunmark
    (hnum₂.symm ▸ Nat.lt_succ_self _) _ hload
  refine ⟨reroot s₃ s.map.numPages, ?_, grew_reroot hholds hlinked hnodup hlt hpage ha rfl⟩
  rw [growRoot, Prog.run_bind_of_ok _ (run_allocatePage hroom), Prog.run_liftM_bind _ _ hins,
    Prog.run_bind_of_ok _ (run_writePage (s := extend s) (Nat.lt_succ_self _) hmaxw _),
    Prog.run_bind_of_ok _ e₁, Prog.run_bind_of_ok _ e₂]
  exact hupdate

end Grow

/-! ## Insertion as a whole -/

/-- What `insert` does with the outcome of the loop. -/
def finish : Option Upward → PageM InsertStatus
  | none => pure .success
  | some up => do
      growRoot up
      pure .success

lemma insert_eq (P : TreeParams) (key : UInt32) (row : Row) : insert P key row
    = find key >>= fun loc =>
        if loc.isExist = true then pure .failDuplicateKey
        else insertBelow P (tableMaxPages + 1) loc.pageId key row >>= finish := by
  rw [insert]
  refine congrArg (find key >>= ·) (funext ?_)
  intro loc
  split_ifs
  · rfl
  · rw [insertBelow, bind_assoc]
    refine congrArg (insertToLeaf P loc.pageId key row >>= ·) (funext ?_)
    intro o
    cases o with
    | none => rfl
    | some up =>
        refine congrArg (climb P (tableMaxPages + 1) up >>= ·) (funext ?_)
        intro o
        cases o <;> rfl

variable {h : ℕ} {t : RowTree h} {key : UInt32} {row : Row}

/-- **A key that the tree has is refused**, and nothing changes. -/
theorem run_insert_of_mem (hP : P.Valid) (hs : s.Stores P.rowSize h t)
    (hmem : key ∈ (cells h t).map Prod.fst) (row : Row) :
    (insert P key row).run TreeImage.handler s = .ok (.failDuplicateKey, s) := by
  rw [insert_eq, Prog.run_bind_of_ok _ (run_find (hs.wellFormed hP.room)),
    if_pos ((locate_isExist hs.ordered).mpr hmem)]
  rfl

/-- The root has split: there is a new one above its halves. -/
lemma Grew.inserts {s' s'' : TreeImage} {l r : RowTree h} {k : UInt32} {next : ℕ}
    (hs : s.Stores P.rowSize h t)
    (hins : Inserted h t (key, row) s.map.numPages (.cons l k (.one r), next))
    (hR : Rooted.insert P.leafCapacity P.innerCapacity (key, row) s.map.numPages ⟨h, t⟩
      = (⟨h + 1, SearchTree.Inner.mk next (.cons l k (.one r))⟩, next + 1))
    (hsound : Sound (next + 1) (h + 1) (SearchTree.Inner.mk next (.cons l k (.one r))))
    (hle : next + 1 ≤ tableMaxPages)
    (hu : Updated P.rowSize s s' h t (.cons l k (.one r), next))
    (hg : Grew P.rowSize s' s'' l k r) : Inserts P s s'' (key, row) ⟨h, t⟩ := by
  obtain rfl : s'.map.numPages = next := hu.numPages
  have hpid : pid h l = pid h t := hins.head
  refine ⟨?_, by rw [hR]; exact hg.numPages, hg.malloc.trans hu.sameRoot.malloc, ?_, ?_⟩
  · rw [hR]
    exact
      { holds := hg.holds
        linked := hg.linked
        rootPid := hg.rootPid
        root := hg.root
        isRoot := hg.isRoot
        parent := hg.parent
        numPages_le := hg.numPages.symm ▸ hle
        sound := hg.numPages.symm ▸ hsound }
  · intro id hid _
    have hlt : id < s'.map.numPages := lt_of_lt_of_le hid hins.fresh_le
    by_cases hold : id = pid h l
    · have hroot : id = s.map.rootPid := hold.trans (hpid.trans hs.rootPid.symm)
      rw [hold, hg.isRoot_old, ← hold, hroot, bne_self_eq_false, Bool.false_and]
    · have hroot : id ≠ s.map.rootPid := fun heq => hold (heq.trans (hs.rootPid.trans hpid.symm))
      rw [hg.isRoot_other id hlt hold, hu.isRoot id hid, bne_iff_ne.mpr hroot, Bool.true_and]
  · intro id hge hlt hid
    rw [hg.rootPid] at hid
    rw [hg.numPages] at hlt
    have hlt' : id < s'.map.numPages := by omega
    have hleft : pid h l < s.map.numPages := hpid ▸ hs.lt_numPages _ (pid_mem_pids h t)
    rw [hg.isRoot_other id hlt' (by omega), hu.isRoot_new id hge hlt']

/-- **A new key is inserted** if the pages last; if they do not, the page table is overrun. -/
theorem run_insert (hP : P.Valid) (hs : s.Stores P.rowSize h t)
    (hne : key ∉ (cells h t).map Prod.fst) (hrow : row.length = P.rowSize)
    (hfits : Fits P.leafCapacity P.innerCapacity key h t) :
    ((Rooted.insert P.leafCapacity P.innerCapacity (key, row) s.map.numPages ⟨h, t⟩).2
        ≤ tableMaxPages →
      ∃ s', (insert P key row).run TreeImage.handler s = .ok (.success, s') ∧
        Inserts P s s' (key, row) ⟨h, t⟩ ∧
        Spares s s' (passed P.leafCapacity P.innerCapacity key h t)) ∧
    (tableMaxPages
        < (Rooted.insert P.leafCapacity P.innerCapacity (key, row) s.map.numPages ⟨h, t⟩).2 →
      (insert P key row).run TreeImage.handler s = .error (.pageIndex tableMaxPages)) := by
  have hne' : ∀ d ∈ cells h t, d.1 ≠ key := fun d hd heq => hne (List.mem_map.mpr ⟨d, hd, heq⟩)
  have hnotExist : ¬(locate key h t).isExist = true := (locate_isExist hs.ordered).not.mpr hne
  obtain ⟨hL, hL'⟩ := hP.leafCapacity_even
  obtain ⟨hI, hI'⟩ := hP.innerCapacity_even
  have hins := insert_spec (show 2 ≤ P.leafCapacity by omega) (show 2 ≤ P.innerCapacity by omega)
    (key, row) s.map.numPages h t hs.sound.tight hs.nonEmpty hs.sound.sorted hne'
  obtain ⟨hsound, -⟩ := @Rooted.insert_sound _ _ _ P.leafCapacity P.innerCapacity (key, row)
    ⟨h, t⟩ s.map.numPages (by omega) (by omega) hs.sound hne'
  have hheight := hs.sound.height_lt
  have hle := hs.numPages_le
  have htop := hs.lt_numPages _ (pid_mem_pids h t)
  obtain ⟨hgood, hbad⟩ := run_insertBelow hP hrow h t hs.ready hne' hfits
  -- the loop makes at most one turn more than the tree has levels
  obtain ⟨f, hf⟩ : ∃ f, tableMaxPages + 1 = h + (f + 1) := ⟨tableMaxPages - h, by omega⟩
  rw [insert_eq, Prog.run_bind_of_ok _ (run_find (hs.wellFormed hP.room)), if_neg hnotExist, hf]
  show (_ → ∃ s', (insertBelow P _ (leafFor key h t).pid key row >>= finish).run _ s = _ ∧ _) ∧
    (_ → (insertBelow P _ (leafFor key h t).pid key row >>= finish).run _ s = _)
  rcases Rooted.insert_cases (key, row) s.map.numPages ⟨h, t⟩ with
    ⟨t', next, heq, hR⟩ | ⟨l, k, r, next, heq, hR⟩
  · -- the root has not split
    rw [heq] at hgood hbad hins
    rw [hR] at hsound ⊢
    refine ⟨?_, fun hgt => Prog.run_bind_of_error _ (hbad hgt (f + 1)) _⟩
    intro hle'
    obtain ⟨s', hu, hsp, hrun⟩ := hgood hle'
    exact ⟨s', Prog.run_bind_of_ok _ (hrun (f + 1)) _, hu.inserts hs hins hR hsound hle', hsp⟩
  · -- the root has split
    rw [heq] at hgood hbad hins
    rw [hR] at hsound ⊢
    have hpid : pid h l = pid h t := hins.head
    have hmem : pid h l ∈ passed P.leafCapacity P.innerCapacity key h t := by
      rw [hpid]
      refine pid_mem_passed ((insert_keys_ne_nil (key, row) s.map.numPages h t).mp ?_)
      rw [heq]
      exact List.cons_ne_nil _ _
    have hclimb : ∀ s', (climb P (f + 1) ⟨k, pid h l, pid h r,
        (s.map.content (pid h t)).parent⟩).run TreeImage.handler s'
        = .ok (some ⟨k, pid h l, pid h r, nodeParentInvalid⟩, s') := by
      intro s'
      rw [hs.parent, climb, if_pos rfl]
      rfl
    refine ⟨?_, ?_⟩
    · intro hle'
      obtain ⟨s', hu, hsp, hrun⟩ := hgood (Nat.le_of_succ_le hle')
      obtain rfl : s'.map.numPages = next := hu.numPages
      have hpids := Rooted.pids_range hins hs.sound.pids
      have hrootl : s'.root = some (pid h l) :=
        hu.sameRoot.root.trans (hs.root.trans (congrArg some hpid.symm))
      obtain ⟨s'', hgrow, hg, hbody, hsame⟩ := @run_growRoot P s' h l r k hu.holds hu.linked
        (hpids.nodup_iff.mpr List.nodup_range) (fun id hid => List.mem_range.mp
          (hpids.mem_iff.mp hid)) hP nodeParentInvalid hle' hrootl
      refine ⟨s'', ?_, hg.inserts hs hins hR hsound hle' hu, hsp.grow hins.fresh_le
        (hg.numPages.symm ▸ Nat.le_succ _) hbody hsame hmem (le_pid_right heq)⟩
      rw [Prog.run_bind_of_ok _ ((hrun (f + 1)).trans (hclimb s'))]
      exact Prog.run_bind_of_ok _ hgrow _
    · intro hgt
      rcases Nat.lt_or_ge tableMaxPages next with hlt | hge
      · exact Prog.run_bind_of_error _ (hbad hlt (f + 1)) _
      · obtain ⟨s', hu, -, hrun⟩ := hgood hge
        have hnum : s'.map.numPages = next := hu.numPages
        have hfull : tableMaxPages ≤ s'.map.numPages := by
          rw [hnum]
          exact Nat.le_of_lt_succ hgt
        rw [Prog.run_bind_of_ok _ ((hrun (f + 1)).trans (hclimb s')), finish]
        refine Prog.run_bind_of_error _ ?_ _
        rw [growRoot]
        exact Prog.run_bind_of_error _ (run_allocatePage_of_full hfull) _

end BPlusTree

end DbToy
