import DbToy.TreeOnPages

/-!
# The validity check

`BPlusTree::check_valid` visits the tree with one action, which tests an inner node and throws if a
test fails.  What it prints before it throws is left out.

* `BPlusTree.checkValid`: the method.
* `BPlusTree.run_innerNodeChecker`: exactly the inner nodes with `InnerChecked` pass.
-/

namespace DbToy

/-- `if (!is_valid) throw std::runtime_error(what)`. -/
def throwUnless (cond : Prop) [Decidable cond] (what : String) : Except Fault Unit :=
  if cond then .ok () else .error (.thrown what)

namespace BtreeNode

/-- The loop of `is_key_monotonic_increasing`, from number `i` on; `count` turns are left. -/
def monotonicLoop (node : BtreeNode) : ℕ → ℕ → Except Fault Bool
  | 0, _ => .ok true
  | count + 1, i => do
      let a ← node.getKey i
      let b ← node.getKey (i + 1)
      if b ≤ a then .ok false else monotonicLoop node count (i + 1)

/-- `is_key_monotonic_increasing()`. -/
def isKeyMonotonicIncreasing (node : BtreeNode) : Except Fault Bool :=
  if node.getNumKeys ≤ 1 then .ok true else monotonicLoop node (node.getNumKeys - 1) 0

/-- `get_num_keys() - 1`, of type `uint32_t`. -/
def lastIndex (node : BtreeNode) : ℕ := (node.getNumKeys + (2 ^ 32 - 1)) % 2 ^ 32

end BtreeNode

namespace BPlusTree

/-- The loop of the checker over the keys of an inner node, from number `i` on; `count` of them are
left. -/
def checkChildren (node : InternalNode) (pageId : ℕ) : ℕ → ℕ → PageM Unit
  | 0, _ => pure ()
  | count + 1, i => do
      let key ← (node.getKey i : Except Fault UInt32)
      let left ← (node.getChild i : Except Fault ℕ)
      let lpage ← getPage left
      let lchild ← (BtreeNode.loadNodeFrom lpage : Except Fault BtreeNode)
      let right ← (node.getChild (i + 1) : Except Fault ℕ)
      let rpage ← getPage right
      let rchild ← (BtreeNode.loadNodeFrom rpage : Except Fault BtreeNode)
      (throwUnless (lpage.parent = pageId ∧ rpage.parent = pageId)
        "parent and child not correctly linked" : Except Fault Unit)
      let last ← (lchild.getKey lchild.lastIndex : Except Fault UInt32)
      (throwUnless (last ≤ key) "left child <= key < right child invalidate" : Except Fault Unit)
      let first ← (rchild.getKey 0 : Except Fault UInt32)
      (throwUnless (key < first) "left child <= key < right child invalidate" : Except Fault Unit)
      checkChildren node pageId count (i + 1)

/-- Root flag and parent are those of the root, or those of another node. -/
def RootSet (isRootPage : Prop) [Decidable isRootPage] (page : Page) : Prop :=
  if isRootPage then page.isRoot = true ∧ page.parent = nodeParentInvalid
  else page.isRoot = false ∧ page.parent ≠ nodeParentInvalid

instance (isRootPage : Prop) [Decidable isRootPage] (page : Page) :
    Decidable (RootSet isRootPage page) :=
  inferInstanceAs (Decidable (if isRootPage then _ else _))

/-- The action of `check_valid`.  It is called for inner nodes only, so that the cast of its node to
an `InternalNode` is right. -/
def innerNodeChecker (P : TreeParams) (pageId : ℕ) (isValid : Bool) : PageM Bool :=
  if isValid = false then pure isValid
  else do
    let page ← getPage pageId
    let ptr ← (BtreeNode.loadNodeFrom page : Except Fault BtreeNode)
    let rootPid ← getRootPage
    (throwUnless (RootSet (pageId = rootPid) page) "root not correctly set" : Except Fault Unit)
    let isIncreasing ← (if page.isRoot = true ∨ P.innerNodeLoad ≤ ptr.getNumKeys * 2 % 2 ^ 32 then
        ptr.isKeyMonotonicIncreasing
      else .ok false : Except Fault Bool)
    (throwUnless (isIncreasing = true) "load or key increasing not satisfied" : Except Fault Unit)
    match ptr with
    | .leaf _ => Prog.fail .nullPointer
    | .inner node => do
        checkChildren node pageId node.numKeys 0
        pure true

/-- `check_valid()`. -/
def checkValid (P : TreeParams) : PageM Bool := do
  let rootPid ← getRootPage
  postOrderVisit ⟨some (innerNodeChecker P), none, none⟩ 0 uint32Max (tableMaxPages + 1) rootPid true

end BPlusTree

/-! ## What passes -/

lemma throwUnless_eq_ok {cond : Prop} [Decidable cond] {what : String} {u : Unit} :
    throwUnless cond what = .ok u ↔ cond := by
  rw [throwUnless]
  split_ifs with h
  · exact iff_of_true rfl h
  · exact iff_of_false nofun h

namespace BtreeNode

/-- The keys of a node, which its own access gives one by one. -/
structure HasKeys (node : BtreeNode) (keys : List UInt32) : Prop where
  length : node.getNumKeys = keys.length
  get : ∀ i (h : i < keys.length), node.getKey i = .ok keys[i]

variable {node : BtreeNode} {keys : List UInt32}

lemma HasKeys.monotonicLoop_eq_true (h : node.HasKeys keys) : ∀ count i, i + count < keys.length →
    (node.monotonicLoop count i = .ok true ↔
      ∀ j (hj : j + 1 < keys.length), i ≤ j → j < i + count → keys[j] < keys[j + 1]) := by
  intro count
  induction count with
  | zero =>
      intro i _
      exact iff_of_true rfl fun j _ hj hj' => absurd hj' (not_lt_of_ge hj)
  | succ count ih =>
      intro i hi
      rw [monotonicLoop, h.get i (by omega), ok_bind, h.get (i + 1) (by omega), ok_bind]
      split_ifs with hle
      · refine iff_of_false nofun ?_
        intro hlt
        exact absurd (hlt i (by omega) le_rfl (by omega)) (not_lt_of_ge hle)
      · rw [ih (i + 1) (by omega)]
        refine ⟨?_, fun hlt j hj hij hj' => hlt j hj (by omega) (by omega)⟩
        intro hlt j hj hij hj'
        rcases Nat.eq_or_lt_of_le hij with rfl | hij
        · exact lt_of_not_ge hle
        · exact hlt j hj hij (by omega)

/-- `is_key_monotonic_increasing` decides whether the keys are strictly increasing. -/
theorem HasKeys.isKeyMonotonicIncreasing_eq_true (h : node.HasKeys keys) :
    node.isKeyMonotonicIncreasing = .ok true ↔ keys.Pairwise (· < ·) := by
  have hchain : keys.Pairwise (· < ·) ↔ ∀ j (hj : j + 1 < keys.length), keys[j] < keys[j + 1] := by
    rw [← List.isChain_iff_pairwise, List.isChain_iff_getElem]
  rw [hchain, isKeyMonotonicIncreasing, h.length]
  split_ifs with hle
  · exact iff_of_true rfl fun j hj => by omega
  · rw [h.monotonicLoop_eq_true _ _ (by omega)]
    exact ⟨fun hlt j hj => hlt j hj (Nat.zero_le j) (by omega), fun hlt j hj _ _ => hlt j hj⟩

lemma HasKeys.lastIndex (h : node.HasKeys keys) (hpos : 0 < keys.length)
    (hlt : keys.length < 2 ^ 32) : node.lastIndex = keys.length - 1 := by
  rw [BtreeNode.lastIndex, h.length]
  omega

end BtreeNode

namespace TreeImage

variable (s : TreeImage)

/-- The page that `get_page` gives for an id, if there is one. -/
def page (id : ℕ) : Page := s.map.content (pageId id)

/-- `get_node_by(page_id)`. -/
def nodeAt (id : ℕ) : Except Fault BtreeNode :=
  if pageId id < s.map.numPages then BtreeNode.loadNodeFrom (s.page id)
  else .error (.exitFailure "page_id greater than capacity")

/-- The key between two children is where they meet, and both name the node as their parent. -/
def Meets (id : ℕ) (node : InternalNode) (i : ℕ) : Prop :=
  ∃ key left lchild right rchild last first, node.getKey i = .ok key ∧
    node.getChild i = .ok left ∧ s.nodeAt left = .ok lchild ∧
    node.getChild (i + 1) = .ok right ∧ s.nodeAt right = .ok rchild ∧
    (s.page left).parent = id ∧ (s.page right).parent = id ∧
    lchild.getKey lchild.lastIndex = .ok last ∧ last ≤ key ∧
    rchild.getKey 0 = .ok first ∧ key < first

/-- What the checker tests of an inner node. -/
structure InnerChecked (P : TreeParams) (id : ℕ) (node : InternalNode) : Prop where
  nodeAt : s.nodeAt id = .ok (.inner node)
  rootSet : BPlusTree.RootSet (id = s.map.rootPid) (s.page id)
  loaded : (s.page id).isRoot = true ∨ P.innerNodeLoad ≤ node.numKeys * 2 % 2 ^ 32
  increasing : (BtreeNode.inner node).isKeyMonotonicIncreasing = .ok true
  meets : ∀ i < node.numKeys, s.Meets id node i

end TreeImage

namespace BPlusTree

variable {s s' : TreeImage}

lemma run_getPage_map (s : TreeImage) (id : ℕ) :
    (getPage id).run TreeImage.handler s = (if pageId id < s.map.numPages then .ok (s.page id)
      else .error (.exitFailure "page_id greater than capacity") : Except Fault Page).map (·, s) := by
  refine (Prog.run_request TreeImage.handler s (PageOp.getPage id)).trans ?_
  rw [TreeImage.handler]
  split_ifs <;> rfl

/-- A page is read and its node is built. -/
lemma run_getNode_eq_ok {β : Type} {id : ℕ} {f : Page → BtreeNode → PageM β} {r : β × TreeImage} :
    (getPage id >>= fun page => liftM (BtreeNode.loadNodeFrom page) >>= f page).run
        TreeImage.handler s = .ok r ↔
      ∃ node, s.nodeAt id = .ok node ∧ (f (s.page id) node).run TreeImage.handler s = .ok r := by
  rw [Prog.run_bind_of_map _ (run_getPage_map s id), TreeImage.nodeAt]
  split_ifs with hid
  · rw [ok_bind, Prog.run_liftM_bind_eq_ok]
  · exact iff_of_false nofun nofun

lemma run_checkChildren {node : InternalNode} {id : ℕ} {u : Unit} : ∀ count i,
    (checkChildren node id count i).run TreeImage.handler s = .ok (u, s') ↔
      s' = s ∧ ∀ j, i ≤ j → j < i + count → s.Meets id node j := by
  intro count
  induction count with
  | zero =>
      intro i
      refine ⟨?_, fun h => by rw [h.1]; rfl⟩
      intro h
      cases h
      exact ⟨rfl, fun j hj hj' => by omega⟩
  | succ count ih =>
      intro i
      rw [checkChildren]
      simp only [Prog.run_liftM_bind_eq_ok, run_getNode_eq_ok, throwUnless_eq_ok]
      constructor
      · rintro ⟨key, hkey, left, hleft, lchild, hlchild, right, hright, rchild, hrchild, -,
          ⟨hlparent, hrparent⟩, last, hlast, -, hle, first, hfirst, -, hlt, hrest⟩
        obtain ⟨hs, hmeets⟩ := (ih (i + 1)).mp hrest
        refine ⟨hs, ?_⟩
        intro j hj hj'
        rcases Nat.eq_or_lt_of_le hj with rfl | hj
        · exact ⟨key, left, lchild, right, rchild, last, first, hkey, hleft, hlchild, hright,
            hrchild, hlparent, hrparent, hlast, hle, hfirst, hlt⟩
        · exact hmeets j hj (by omega)
      · rintro ⟨hs, hmeets⟩
        obtain ⟨key, left, lchild, right, rchild, last, first, hkey, hleft, hlchild, hright,
          hrchild, hlparent, hrparent, hlast, hle, hfirst, hlt⟩ := hmeets i le_rfl (by omega)
        exact ⟨key, hkey, left, hleft, lchild, hlchild, right, hright, rchild, hrchild, (),
          ⟨hlparent, hrparent⟩, last, hlast, (), hle, first, hfirst, (), hlt,
          (ih (i + 1)).mpr ⟨hs, fun j hj hj' => hmeets j (by omega) (by omega)⟩⟩

/-- **The checker passes exactly the inner nodes that meet its tests**, and changes nothing. -/
theorem run_innerNodeChecker {P : TreeParams} {id : ℕ} {b : Bool} :
    (innerNodeChecker P id true).run TreeImage.handler s = .ok (b, s') ↔
      b = true ∧ s' = s ∧ ∃ node, s.InnerChecked P id node := by
  have hroot : ∀ {β : Type} (f : ℕ → PageM β) (r : β × TreeImage),
      (getRootPage >>= f).run TreeImage.handler s = .ok r ↔
        (f s.map.rootPid).run TreeImage.handler s = .ok r := fun _ _ => Iff.rfl
  rw [innerNodeChecker, if_neg (by decide)]
  simp only [run_getNode_eq_ok, hroot, Prog.run_liftM_bind_eq_ok, throwUnless_eq_ok]
  constructor
  · rintro ⟨node, hnode, -, hrootSet, isIncreasing, hincreasing, -, rfl, hrest⟩
    cases node with
    | leaf node => exact nomatch hrest
    | inner node =>
        obtain ⟨u, t, hchildren, hpure⟩ := Prog.run_bind_eq_ok _ hrest
        obtain ⟨rfl, hmeets⟩ := (run_checkChildren _ _).mp hchildren
        cases hpure
        split_ifs at hincreasing with hloaded
        · exact ⟨rfl, rfl, node, hnode, hrootSet, hloaded, hincreasing,
            fun i hi => hmeets i (Nat.zero_le i) (by omega)⟩
        · exact nomatch hincreasing
  · rintro ⟨rfl, rfl, node, hnode, hrootSet, hloaded, hincreasing, hmeets⟩
    refine ⟨_, hnode, (), hrootSet, true, (if_pos hloaded).trans hincreasing, (), rfl, ?_⟩
    have hchildren := (@run_checkChildren s' s' node id () node.numKeys 0).mpr
      ⟨rfl, fun j _ hj => hmeets j (by omega)⟩
    exact (Prog.run_bind_of_ok _ hchildren _).trans rfl

end BPlusTree

end DbToy
