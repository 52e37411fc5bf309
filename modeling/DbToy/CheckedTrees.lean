import DbToy.CheckedRuns
import Mathlib.Logic.Relation

/-!
# What the validity check says about a tree

The comment in `check_valid` lists what it is for: `TreeImage.Valid` asks it of all nodes, and of
all keys below the two children of a key.  The checker itself sees inner nodes only, and of a child
the first and the last key only.

* `Checked`: what a visit with the checker establishes (`checked_of_visit`).
* `check_valid_sound_iff`: on pages that pass the check, `Valid` is what is left to be tested
  (`UntestedValid`): the leaves, and the ends of the subtrees beside each key.
* `check_valid_misses`: a leaf with its keys in the wrong order passes.
-/

namespace DbToy

open Relation

variable {P : TreeParams} {s s' : TreeImage}

/-- What the node splits at: `set_node_load(min(num_max_keys, inner_node_load))`, or the same for
leaves. -/
def BtreeNode.nodeLoad (P : TreeParams) : BtreeNode → ℕ
  | .inner node => min node.numMaxKeys P.innerNodeLoad
  | .leaf node => min node.numMaxCell P.leafLoad

def BtreeNode.isLeaf : BtreeNode → Bool
  | .inner _ => false
  | .leaf _ => true

namespace TreeImage

/-- The second page is that of a child of the first.  A node without keys has no children: the
first one is set together with the first key. -/
def Child (s : TreeImage) (id c : ℕ) : Prop :=
  ∃ node i, s.nodeAt id = .ok (.inner node) ∧ node.numKeys ≠ 0 ∧ i ≤ node.numKeys ∧
    node.getChild i = .ok c

/-- The key is in a node on this page or below it. -/
def KeyBelow (s : TreeImage) (id : ℕ) (k : UInt32) : Prop :=
  ∃ d node i, ReflTransGen s.Child id d ∧ s.nodeAt d = .ok node ∧ i < node.getNumKeys ∧
    node.getKey i = .ok k

/-- Keys, root flag, parent and load of one node. -/
structure NodeValid (P : TreeParams) (s : TreeImage) (id : ℕ) (node : BtreeNode) : Prop where
  increasing : ∃ keys, node.HasKeys keys ∧ keys.Pairwise (· < ·)
  rootSet : BPlusTree.RootSet (id = s.map.rootPid) (s.page id)
  loaded : id ≠ s.map.rootPid → node.nodeLoad P ≤ 2 * node.getNumKeys

/-- What the comment asks of a tree. -/
structure Valid (P : TreeParams) (s : TreeImage) : Prop where
  nodes : ∀ id, ReflTransGen s.Child s.map.rootPid id →
    ∃ node, s.nodeAt id = .ok node ∧ s.NodeValid P id node
  parent : ∀ id c, ReflTransGen s.Child s.map.rootPid id → s.Child id c → (s.page c).parent = id
  separates : ∀ id node i key left right, ReflTransGen s.Child s.map.rootPid id →
    s.nodeAt id = .ok (.inner node) → i < node.numKeys → node.getKey i = .ok key →
    node.getChild i = .ok left → node.getChild (i + 1) = .ok right →
    (∀ k, s.KeyBelow left k → k ≤ key) ∧ ∀ k, s.KeyBelow right k → key < k

/-- The second page is on the path from the first that takes child number `slot` in every node. -/
inductive Spine (s : TreeImage) (slot : InternalNode → ℕ) : ℕ → ℕ → Prop
  | refl {id : ℕ} : Spine s slot id id
  | step {id c d : ℕ} {node : InternalNode} : s.nodeAt id = .ok (.inner node) →
      node.numKeys ≠ 0 → node.getChild (slot node) = .ok c → Spine s slot c d → Spine s slot id d

/-- The end keys on such a path are all related to a bound. -/
def SpineBound (s : TreeImage) (r : UInt32 → UInt32 → Prop) (slot : InternalNode → ℕ)
    (endIndex : BtreeNode → ℕ) (id : ℕ) (bound : UInt32) : Prop :=
  ∀ d node e, s.Spine slot id d → s.nodeAt d = .ok node → node.getNumKeys ≠ 0 →
    node.getKey (endIndex node) = .ok e → r e bound

/-- The last keys on the rightmost path are at most the bound. -/
abbrev EndsBelow (s : TreeImage) : ℕ → UInt32 → Prop :=
  s.SpineBound (· ≤ ·) InternalNode.numKeys fun node => node.getNumKeys - 1

/-- The first keys on the leftmost path are greater than the bound. -/
abbrev StartsAbove (s : TreeImage) : ℕ → UInt32 → Prop :=
  s.SpineBound (· > ·) (fun _ => 0) fun _ => 0

/-- What the checker does not see of that. -/
structure UntestedValid (P : TreeParams) (s : TreeImage) : Prop where
  nodes : ∀ id node, ReflTransGen s.Child s.map.rootPid id → s.nodeAt id = .ok node →
    node.isLeaf = true ∨ node.getNumKeys = 0 → s.NodeValid P id node
  separates : ∀ id node i key left right, ReflTransGen s.Child s.map.rootPid id →
    s.nodeAt id = .ok (.inner node) → i < node.numKeys → node.getKey i = .ok key →
    node.getChild i = .ok left → node.getChild (i + 1) = .ok right →
    s.EndsBelow left key ∧ s.StartsAbove right key

/-! ## The visit -/

/-- What a visit with the checker establishes. -/
inductive Checked (P : TreeParams) (s : TreeImage) : ℕ → Prop
  | untested {id : ℕ} {node : BtreeNode} : s.nodeAt id = .ok node →
      node.isLeaf = true ∨ node.getNumKeys = 0 → Checked P s id
  | inner {id : ℕ} {node : InternalNode} : s.InnerChecked P id node → node.numKeys ≠ 0 →
      (∀ i c, i ≤ node.numKeys → node.getChild i = .ok c → Checked P s c) → Checked P s id

end TreeImage

namespace BPlusTree

lemma run_getNodeBy_map (s : TreeImage) (id : ℕ) :
    (getNodeBy id).run TreeImage.handler s = (s.nodeAt id).map (·, s) := by
  rw [getNodeBy, Prog.run_bind_of_map _ (run_getPage_map s id), TreeImage.nodeAt]
  split_ifs
  · exact Prog.run_monadLift _ _ _
  · rfl

lemma lowerLoop_zero {node : InternalNode} {count i : ℕ}
    (h : lowerLoop node 0 count 0 = .ok i) : i = 0 := by
  cases count with
  | zero => exact (Except.ok.inj h).symm
  | succ count =>
      obtain ⟨k, -, h⟩ := bind_eq_ok h
      rw [if_neg (not_lt_of_ge (zero_le_uint32 k))] at h
      exact (Except.ok.inj h).symm

/-- A greatest key below the upper bound leaves no child out. -/
lemma upperLoop_of_lt {node : InternalNode} {n : ℕ} {k : UInt32} (hkey : node.getKey n = .ok k)
    (hlt : k < uint32Max) : upperLoop node uint32Max (n + 1) = .ok (n + 1) := by
  rw [upperLoop, hkey, ok_bind, if_neg (not_le_of_gt hlt)]

/-- The assertion holds the number of keys to that of a nonnegative `int`. -/
lemma upperScan_of_lt {node : InternalNode} {n : ℕ} {j : ℤ} {k : UInt32}
    (hnum : node.numKeys = n + 1) (hkey : node.getKey n = .ok k) (hlt : k < uint32Max)
    (h : upperScan node uint32Max (toInt node.numKeys) = .ok j) (hj : 0 ≤ j) :
    j = node.numKeys := by
  by_cases hneg : toInt node.numKeys < 0
  · rw [upperScan, if_pos hneg] at h
    split_ifs at h
    cases h
    omega
  · have hn : toInt node.numKeys = node.numKeys :=
      toInt_of_nonneg (Page.u32_lt _ _) (not_lt.mp hneg)
    rw [hn, upperScan_natCast, hnum, upperLoop_of_lt hkey hlt] at h
    rw [hnum]
    exact (Except.ok.inj h).symm

lemma childLoop_checked {node : InternalNode} {visit : ℕ → Bool → PageM Bool}
    (hvisit : ∀ c b s', (visit c true).run TreeImage.handler s = .ok (b, s') →
      b = true ∧ s' = s ∧ s.Checked P c) : ∀ count i b s',
    (childLoop node visit count i true).run TreeImage.handler s = .ok (b, s') →
      b = true ∧ s' = s ∧ ∀ j c, i ≤ j → j < i + count → node.getChild j = .ok c →
        s.Checked P c := by
  intro count
  induction count with
  | zero =>
      intro i b s' h
      cases h
      exact ⟨rfl, rfl, fun j c hj hj' => by omega⟩
  | succ count ih =>
      intro i b s' h
      rw [childLoop, Prog.run_liftM_bind_eq_ok] at h
      obtain ⟨child, hchild, h⟩ := h
      obtain ⟨b₁, s₁, h₁, h₂⟩ := Prog.run_bind_eq_ok _ h
      obtain ⟨rfl, rfl, hchecked⟩ := hvisit child b₁ s₁ h₁
      obtain ⟨hb, hs, hrest⟩ := ih (i + 1) b s' h₂
      refine ⟨hb, hs, ?_⟩
      intro j c hj hj' hc
      rcases Nat.eq_or_lt_of_le hj with rfl | hj
      · cases hchild.symm.trans hc
        exact hchecked
      · exact hrest j c hj (by omega) hc

/-- **A visit that the checker lets pass** has checked everything that it met. -/
theorem checked_of_visit : ∀ fuel id b s',
    (postOrderVisit ⟨some (innerNodeChecker P), none, none⟩ 0 uint32Max fuel id true).run
      TreeImage.handler s = .ok (b, s') → b = true ∧ s' = s ∧ s.Checked P id := by
  intro fuel
  induction fuel with
  | zero => intro id b s' h; exact nomatch h
  | succ fuel ih =>
      intro id b s' h
      rw [postOrderVisit, if_neg (not_lt_of_ge (zero_le_uint32 _)),
        Prog.run_bind_of_map _ (run_getNodeBy_map s id)] at h
      obtain ⟨node, hnode, h⟩ := bind_eq_ok h
      split_ifs at h with hnum
      · cases h
        exact ⟨rfl, rfl, .untested hnode (Or.inr hnum)⟩
      · cases node with
        | leaf node =>
            cases h
            exact ⟨rfl, rfl, .untested hnode (Or.inl rfl)⟩
        | inner node =>
            simp only [Prog.run_liftM_bind_eq_ok] at h
            obtain ⟨i, hi, j, hj, ⟨⟩, hij, h⟩ := h
            obtain rfl := lowerLoop_zero hi
            obtain ⟨b₁, s₁, h₁, h₂⟩ := Prog.run_bind_eq_ok _ h
            obtain ⟨rfl, rfl, hchildren⟩ := childLoop_checked ih _ _ _ _ h₁
            obtain ⟨rfl, rfl, node', hchecked⟩ := run_innerNodeChecker.mp h₂
            obtain rfl : node' = node := by
              cases hnode.symm.trans hchecked.nodeAt
              rfl
            -- the last key has passed the test against its right child, so no child was left out
            obtain ⟨n, hn⟩ := Nat.exists_eq_succ_of_ne_zero (show node'.numKeys ≠ 0 from hnum)
            obtain ⟨key, -, -, -, -, -, first, hkey, -, -, -, -, -, -, -, -, -, hlt⟩ :=
              hchecked.meets n (by omega)
            obtain rfl := upperScan_of_lt hn hkey (lt_of_lt_of_le hlt (le_uint32Max first)) hj
              (assertThat_eq_ok.mp hij)
            refine ⟨rfl, rfl, .inner hchecked hnum ?_⟩
            intro i c hi hc
            exact hchildren i c (Nat.zero_le i) (by omega) hc

end BPlusTree

/-! ## From the ends of a subtree to all of it -/

namespace BtreeNode

variable {node : BtreeNode} {keys : List UInt32} {i : ℕ} {k e : UInt32}

lemma HasKeys.getElem_of_getKey (h : node.HasKeys keys) (hi : i < node.getNumKeys)
    (hk : node.getKey i = .ok k) : ∃ hlt : i < keys.length, keys[i] = k := by
  have hlt : i < keys.length := h.length ▸ hi
  exact ⟨hlt, Except.ok.inj ((h.get i hlt).symm.trans hk)⟩

lemma HasKeys.exists_last (h : node.HasKeys keys) (hsorted : keys.Pairwise (· < ·))
    (hi : i < node.getNumKeys) (hk : node.getKey i = .ok k) :
    ∃ e, node.getKey (node.getNumKeys - 1) = .ok e ∧ k ≤ e := by
  obtain ⟨hlt, rfl⟩ := h.getElem_of_getKey hi hk
  have hlast : node.getNumKeys - 1 < keys.length := by rw [h.length]; omega
  refine ⟨_, h.get _ hlast, ?_⟩
  rcases Nat.eq_or_lt_of_le (show i ≤ node.getNumKeys - 1 by omega) with heq | hlt'
  · simp only [heq, le_refl]
  · exact le_of_lt (List.pairwise_iff_getElem.mp hsorted i _ hlt hlast hlt')

lemma HasKeys.exists_first (h : node.HasKeys keys) (hsorted : keys.Pairwise (· < ·))
    (hi : i < node.getNumKeys) (hk : node.getKey i = .ok k) :
    ∃ e, node.getKey 0 = .ok e ∧ (k = e ∨ e < k) := by
  obtain ⟨hlt, rfl⟩ := h.getElem_of_getKey hi hk
  have hfirst : 0 < keys.length := by omega
  refine ⟨_, h.get 0 hfirst, ?_⟩
  rcases Nat.eq_zero_or_pos i with rfl | hpos
  · exact Or.inl rfl
  · exact Or.inr (List.pairwise_iff_getElem.mp hsorted 0 i hfirst hlt hpos)

end BtreeNode

namespace TreeImage

variable {id : ℕ}

lemma nodeAt_inner {node : InternalNode} (h : s.nodeAt id = .ok (.inner node)) :
    node = InternalNode.load (s.page id) ∧ pageId id < s.map.numPages := by
  rw [nodeAt] at h
  split_ifs at h with hid
  rw [BtreeNode.loadNodeFrom] at h
  split_ifs at h with hinner
  · cases h
    exact ⟨rfl, hid⟩
  · obtain ⟨leaf, -, h⟩ := bind_eq_ok h
    cases h

/-- An inner node that has passed has as many keys as it says. -/
lemma InnerChecked.numKeys_le {node : InternalNode} (h : s.InnerChecked P id node) :
    node.numKeys ≤ InternalNode.pageMax := by
  obtain ⟨rfl, -⟩ := nodeAt_inner h.nodeAt
  rcases Nat.eq_zero_or_pos (InternalNode.load (s.page id)).numKeys with h0 | hpos
  · omega
  · obtain ⟨key, -, -, -, -, -, -, hkey, -⟩ := h.meets _ (Nat.sub_one_lt_of_lt hpos)
    have hlt := InternalNode.lt_of_getKey hkey
    have hmax : (InternalNode.load (s.page id)).numMaxKeys = InternalNode.pageMax := rfl
    omega

lemma InnerChecked.hasKeys {node : InternalNode} (h : s.InnerChecked P id node) :
    (BtreeNode.inner node).HasKeys node.keys := by
  have hle := h.numKeys_le
  obtain ⟨rfl, -⟩ := nodeAt_inner h.nodeAt
  exact ⟨(InternalNode.length_keys _).symm, InternalNode.getKey_keys le_rfl hle⟩

/-- Behind the end of a path there is no key that the end does not bound. -/
lemma Checked.related {r : UInt32 → UInt32 → Prop} {slot : InternalNode → ℕ}
    {endIndex : BtreeNode → ℕ} (htrans : ∀ a b c, r a b → r b c → r a c)
    (hown : ∀ d node i k, ReflTransGen s.Child s.map.rootPid d → s.nodeAt d = .ok node →
      i < node.getNumKeys → node.getKey i = .ok k →
        ∃ e, node.getKey (endIndex node) = .ok e ∧ (k = e ∨ r k e))
    (hbeside : ∀ d node i c, ReflTransGen s.Child s.map.rootPid d → s.nodeAt d = .ok (.inner node) →
      i ≤ node.numKeys → i ≠ slot node → node.getChild i = .ok c →
        ∃ j key, j < node.numKeys ∧ node.getKey j = .ok key ∧ s.SpineBound r slot endIndex c key)
    (hid : s.Checked P id) : ReflTransGen s.Child s.map.rootPid id → ∀ bound,
      s.SpineBound r slot endIndex id bound → ∀ k, s.KeyBelow id k → r k bound := by
  -- the keys of the node itself
  have hself : ∀ d node i k bound, ReflTransGen s.Child s.map.rootPid d → s.nodeAt d = .ok node →
      s.SpineBound r slot endIndex d bound → i < node.getNumKeys → node.getKey i = .ok k →
        r k bound := by
    intro d node i k bound hd hnode hbound hi hk
    obtain ⟨e, he, hke⟩ := hown d node i k hd hnode hi hk
    have heb := hbound d node e .refl hnode (by omega) he
    rcases hke with rfl | hke
    · exact heb
    · exact htrans _ _ _ hke heb
  induction hid with
  | untested hnode huntested =>
      rintro hroot bound hbound k ⟨d, node, i, hd, hdnode, hi, hk⟩
      rcases ReflTransGen.cases_head hd with rfl | ⟨c, ⟨inner, j, hinner, hnum, -, -⟩, -⟩
      · exact hself _ node i k bound hroot hdnode hbound hi hk
      · cases hnode.symm.trans hinner
        rcases huntested with hleaf | hzero
        · exact nomatch hleaf
        · exact absurd hzero hnum
  | @inner id inner hchecked hnum hchildren ih =>
      rintro hroot bound hbound k ⟨d, node, i, hd, hdnode, hi, hk⟩
      rcases ReflTransGen.cases_head hd with rfl | ⟨c, hc, hcd⟩
      · exact hself _ node i k bound hroot hdnode hbound hi hk
      · have hcroot := hroot.tail hc
        obtain ⟨node', j, hnode', -, hj, hget⟩ := hc
        cases hchecked.nodeAt.symm.trans hnode'
        by_cases hslot : j = slot inner
        · subst hslot
          exact ih _ c hj hget hcroot bound (fun d' node' e hd' => hbound d' node' e
            (.step hchecked.nodeAt hnum hget hd')) k ⟨d, node, i, hcd, hdnode, hi, hk⟩
        · obtain ⟨m, key, hm, hkey, hend⟩ := hbeside id inner j c hroot hchecked.nodeAt hj hslot hget
          have hbelow := ih j c hj hget hcroot key hend k ⟨d, node, i, hcd, hdnode, hi, hk⟩
          exact htrans _ _ _ hbelow
            (hself id (.inner inner) m key bound hroot hchecked.nodeAt hbound hm hkey)

lemma Spine.reaches {slot : InternalNode → ℕ} (hslot : ∀ node, slot node ≤ node.numKeys) {d : ℕ}
    (h : s.Spine slot id d) : ReflTransGen s.Child id d := by
  induction h with
  | refl => exact .refl
  | step hnode hnum hchild _ ih => exact .head ⟨_, _, hnode, hnum, hslot _, hchild⟩ ih

lemma Checked.of_reaches (h : s.Checked P id) : ∀ {d : ℕ}, ReflTransGen s.Child id d →
    s.Checked P d := by
  intro d hd
  induction hd with
  | refl => exact h
  | tail _ hc ih =>
      obtain ⟨node, i, hnode, hnum, hi, hget⟩ := hc
      cases ih with
      | untested hnode' huntested =>
          cases hnode.symm.trans hnode'
          rcases huntested with hleaf | hzero
          · exact nomatch hleaf
          · exact absurd hzero hnum
      | inner hchecked _ hchildren =>
          cases hnode.symm.trans hchecked.nodeAt
          exact hchildren i _ hi hget

/-- The node that a child is found in has been checked. -/
lemma Checked.of_child {c : ℕ} (h : s.Checked P id) (hc : s.Child id c) :
    ∃ node, s.InnerChecked P id node ∧ node.numKeys ≠ 0 ∧
      ∃ i, i ≤ node.numKeys ∧ node.getChild i = .ok c := by
  obtain ⟨node, i, hnode, hnum, hi, hget⟩ := hc
  cases h with
  | untested hnode' huntested =>
      cases hnode.symm.trans hnode'
      rcases huntested with hleaf | hzero
      · exact nomatch hleaf
      · exact absurd hzero hnum
  | inner hchecked _ _ =>
      cases hnode.symm.trans hchecked.nodeAt
      exact ⟨node, hchecked, hnum, i, hi, hget⟩

/-- An inner node that has passed is valid. -/
lemma InnerChecked.nodeValid {node : InternalNode} (h : s.InnerChecked P id node) :
    s.NodeValid P id (.inner node) where
  increasing := ⟨node.keys, h.hasKeys,
    h.hasKeys.isKeyMonotonicIncreasing_eq_true.mp h.increasing⟩
  rootSet := h.rootSet
  loaded hroot := by
    have hset := h.rootSet
    rw [BPlusTree.RootSet, if_neg hroot] at hset
    have hload := h.loaded.resolve_left (by rw [hset.1]; decide)
    have hle := h.numKeys_le
    rw [InternalNode.pageMax_eq] at hle
    show min node.numMaxKeys P.innerNodeLoad ≤ 2 * node.numKeys
    omega

lemma Checked.exists_nodeValid (h : s.Checked P id) (hU : s.UntestedValid P)
    (hid : ReflTransGen s.Child s.map.rootPid id) :
    ∃ node, s.nodeAt id = .ok node ∧ s.NodeValid P id node := by
  cases h with
  | untested hnode huntested => exact ⟨_, hnode, hU.nodes id _ hid hnode huntested⟩
  | inner hchecked _ _ => exact ⟨_, hchecked.nodeAt, hchecked.nodeValid⟩

/-- **What the check does not see is enough.** -/
theorem valid_of_untestedValid (h : s.Checked P s.map.rootPid) (hU : s.UntestedValid P) :
    s.Valid P where
  nodes id hid := (h.of_reaches hid).exists_nodeValid hU hid
  parent id c hid hc := by
    obtain ⟨node, hchecked, hnum, i, hi, hget⟩ := (h.of_reaches hid).of_child hc
    rcases Nat.eq_or_lt_of_le hi with rfl | hlt
    · obtain ⟨-, -, -, right, -, -, -, -, -, -, hright, -, -, hparent, -⟩ :=
        hchecked.meets (node.numKeys - 1) (by omega)
      rw [Nat.sub_add_cancel (Nat.one_le_iff_ne_zero.mpr hnum)] at hright
      cases hget.symm.trans hright
      exact hparent
    · obtain ⟨-, left, -, -, -, -, -, -, hleft, -, -, -, hparent, -⟩ := hchecked.meets i hlt
      cases hget.symm.trans hleft
      exact hparent
  separates id node i key left right hid hnode hi hkey hleft hright := by
    obtain ⟨hends, hstarts⟩ := hU.separates id node i key left right hid hnode hi hkey hleft hright
    have hnum : node.numKeys ≠ 0 := by omega
    have hl : s.Child id left := ⟨node, i, hnode, hnum, le_of_lt hi, hleft⟩
    have hr : s.Child id right := ⟨node, i + 1, hnode, hnum, hi, hright⟩
    have hkeys : ∀ d node, ReflTransGen s.Child s.map.rootPid d → s.nodeAt d = .ok node →
        ∃ keys, node.HasKeys keys ∧ keys.Pairwise (· < ·) := by
      intro d node hd hnode
      obtain ⟨node', hnode', hvalid⟩ := (h.of_reaches hd).exists_nodeValid hU hd
      cases hnode.symm.trans hnode'
      exact hvalid.increasing
    have hmeets : ∀ d node i, ReflTransGen s.Child s.map.rootPid d → s.nodeAt d = .ok (.inner node) →
        i < node.numKeys → s.Meets d node i := by
      intro d node i hd hnode hi
      cases h.of_reaches hd with
      | untested hnode' huntested =>
          cases hnode.symm.trans hnode'
          rcases huntested with hleaf | hzero
          · exact nomatch hleaf
          · exact absurd hi (by rw [show node.numKeys = 0 from hzero]; exact Nat.not_lt_zero i)
      | inner hchecked _ _ =>
          cases hnode.symm.trans hchecked.nodeAt
          exact hchecked.meets i hi
    have htrans : ∀ a b c : UInt32, a ≤ b → b ≤ c → a ≤ c := fun _ _ _ => le_trans
    have htrans' : ∀ a b c : UInt32, a > b → b > c → a > c := fun _ _ _ hab hbc => lt_trans hbc hab
    constructor
    · refine (h.of_reaches (hid.tail hl)).related htrans ?_ ?_ (hid.tail hl) key hends
      · intro d node i k hd hnode hi hk
        obtain ⟨keys, hhas, hsorted⟩ := hkeys d node hd hnode
        obtain ⟨e, he, hke⟩ := hhas.exists_last hsorted hi hk
        exact ⟨e, he, Or.inr hke⟩
      · intro d node i c hd hnode hi hslot hget
        have hlt : i < node.numKeys := Nat.lt_of_le_of_ne hi hslot
        obtain ⟨k, -, -, right', -, -, -, hk, -, -, hright', -⟩ := hmeets d node i hd hnode hlt
        exact ⟨i, k, hlt, hk, (hU.separates d node i k c right' hd hnode hlt hk hget hright').1⟩
    · refine (h.of_reaches (hid.tail hr)).related htrans' ?_ ?_ (hid.tail hr) key hstarts
      · intro d node i k hd hnode hi hk
        obtain ⟨keys, hhas, hsorted⟩ := hkeys d node hd hnode
        exact hhas.exists_first hsorted hi hk
      · intro d node i c hd hnode hi hslot hget
        obtain ⟨i, rfl⟩ := Nat.exists_eq_succ_of_ne_zero hslot
        obtain ⟨k, left', -, -, -, -, -, hk, hleft', -⟩ := hmeets d node i hd hnode hi
        exact ⟨i, k, hi, hk, (hU.separates d node i k left' c hd hnode hi hk hleft' hget).2⟩

/-- Conversely it is a part of what the comment asks. -/
theorem Valid.untestedValid (h : s.Valid P) : s.UntestedValid P where
  nodes id node hid hnode _ := by
    obtain ⟨node', hnode', hvalid⟩ := h.nodes id hid
    cases hnode.symm.trans hnode'
    exact hvalid
  separates id node i key left right hid hnode hi hkey hleft hright := by
    obtain ⟨hbelow, habove⟩ := h.separates id node i key left right hid hnode hi hkey hleft hright
    constructor
    · intro d node' e hd hnode' hnum he
      exact hbelow e ⟨d, node', _, hd.reaches (fun _ => le_rfl), hnode',
        Nat.sub_one_lt hnum, he⟩
    · intro d node' e hd hnode' hnum he
      exact habove e ⟨d, node', 0, hd.reaches (fun _ => Nat.zero_le _), hnode',
        Nat.pos_of_ne_zero hnum, he⟩

end TreeImage

/-- **What `check_valid` says about a tree**, however its pages came about: if it returns true, the
tree is valid exactly if the leaves are and the ends of the subtrees beside each key are on their
sides of it. -/
theorem check_valid_sound_iff {t t' : BPlusTree} (hrep : t.Represents s)
    (hcheck : (BPlusTree.checkValid P).run BPlusTree.handler t = .ok (true, t')) :
    s.Valid P ↔ s.UntestedValid P := by
  obtain ⟨s', hs'⟩ := hrep.checkValid_iff.mp ⟨t', hcheck⟩
  rw [BPlusTree.checkValid, Prog.run_bind_of_ok _ (BPlusTree.run_getRootPage s)] at hs'
  obtain ⟨-, -, hchecked⟩ := BPlusTree.checked_of_visit _ _ _ _ hs'
  exact ⟨TreeImage.Valid.untestedValid, TreeImage.valid_of_untestedValid hchecked⟩

/-- A tree at the end of a small run. -/
theorem check_valid_sound_iff_small : ∃ S₀ replies S s t',
    Session.create smallParams none (fun _ => 0) (fun _ => Page.filled 0) = .ok S₀ ∧
      S₀.runCalls zeroedCalls = .ok (replies, S) ∧ S.tree.Represents s ∧
      (BPlusTree.checkValid smallParams).run BPlusTree.handler S.tree = .ok (true, t') ∧
      (s.Valid smallParams ↔ s.UntestedValid smallParams) := by
  obtain ⟨S₀, replies, S, hcreate, hrun⟩ := exists_run_zeroedCalls
  obtain ⟨s, hrep, hfits, hiff⟩ :=
    Session.checkValid_of_run smallParams_valid hcreate zero_isRoot zeroedCalls_allowed hrun
  obtain ⟨t', hcheck⟩ := hiff.mpr (hfits (by decide))
  exact ⟨S₀, replies, S, s, t', hcreate, hrun, hrep, hcheck, check_valid_sound_iff hrep hcheck⟩

/-! ## What the check misses -/

/-- A tree of one leaf passes, whatever is in the leaf. -/
lemma BPlusTree.run_checkValid_leaf {node : LeafNode}
    (h : s.nodeAt s.map.rootPid = .ok (.leaf node)) :
    (checkValid P).run TreeImage.handler s = .ok (true, s) := by
  rw [checkValid, Prog.run_bind_of_ok _ (run_getRootPage s), postOrderVisit,
    if_neg (not_lt_of_ge (zero_le_uint32 _)), Prog.run_bind_of_map _ (run_getNodeBy_map s _), h,
    ok_bind]
  split_ifs <;> rfl

/-- A root with two cells of one byte, the greater key first. -/
def reversedLeaf : Page :=
  (((((Page.filled 0).setNodeType nodeTypeLeaf).setRoot true).setParent nodeParentInvalid).setU32
    leafNodeNumCellsOffset 2).setU32 leafNodeRowsizeOffset 1
    |>.set leafNodeHeaderSize [2, 0, 0, 0, 7, 1, 0, 0, 0, 7]

lemma reversedLeaf_load : BtreeNode.loadNodeFrom reversedLeaf
    = .ok (.leaf (LeafNode.view reversedLeaf 1)) := by
  have htype : reversedLeaf.nodeType = nodeTypeLeaf := by decide +kernel
  have hrow : reversedLeaf.u32 leafNodeRowsizeOffset = 1 := by decide +kernel
  rw [BtreeNode.loadNodeFrom, htype, if_neg (by decide), if_pos rfl,
    LeafNode.load_spec hrow (by decide), ok_bind]

/-- **A leaf with decreasing keys passes the check.** -/
theorem check_valid_misses : ∃ t t' s, BPlusTree.Represents t s ∧
    (BPlusTree.checkValid smallParams).run BPlusTree.handler t = .ok (true, t') ∧
    ¬s.Valid smallParams := by
  obtain ⟨t₀, s₀, -, hrep₀, hstores, hnum, -⟩ :=
    BPlusTree.new_create smallParams_valid none (fun _ => 0) fun _ => Page.filled 0
  -- a client writes the page behind the tree's back
  have hwrite := @BPlusTree.run_writePage s₀ 0 (by omega) hstores.numPages_le reversedLeaf
  have hagree := BPlusTree.run_agrees (BPlusTree.writePage 0 reversedLeaf) hrep₀
  rw [hwrite] at hagree
  obtain ⟨t, -, hrep⟩ := hagree.exists_ok
  have hnode : (BPlusTree.store s₀ 0 reversedLeaf).nodeAt 0
      = .ok (.leaf (LeafNode.view reversedLeaf 1)) := by
    rw [TreeImage.nodeAt, if_pos (by show 0 < s₀.map.numPages; omega)]
    show BtreeNode.loadNodeFrom ((s₀.map.write 0 reversedLeaf).content 0) = _
    rw [PageMap.write_content_self, reversedLeaf_load]
  have hroot : (BPlusTree.store s₀ 0 reversedLeaf).map.rootPid = 0 := hstores.rootPid
  obtain ⟨t', hcheck⟩ := hrep.checkValid_iff.mpr
    ⟨_, BPlusTree.run_checkValid_leaf (P := smallParams) (by rw [hroot]; exact hnode)⟩
  refine ⟨t, t', _, hrep, hcheck, ?_⟩
  intro hvalid
  obtain ⟨node, hnode', hvalid⟩ := hvalid.nodes 0 (by rw [hroot])
  cases hnode.symm.trans hnode'
  obtain ⟨keys, hkeys, hsorted⟩ := hvalid.increasing
  have hlen : (BtreeNode.leaf (LeafNode.view reversedLeaf 1)).getNumKeys = 2 := by decide +kernel
  have hfirst : (BtreeNode.leaf (LeafNode.view reversedLeaf 1)).getKey 0 = .ok 2 := by decide +kernel
  have hsecond : (BtreeNode.leaf (LeafNode.view reversedLeaf 1)).getKey 1 = .ok 1 := by decide +kernel
  obtain ⟨h₀, hk₀⟩ := hkeys.getElem_of_getKey (by omega) hfirst
  obtain ⟨h₁, hk₁⟩ := hkeys.getElem_of_getKey (by omega) hsecond
  have hlt := List.pairwise_iff_getElem.mp hsorted 0 1 h₀ h₁ Nat.zero_lt_one
  rw [hk₀, hk₁] at hlt
  exact absurd hlt (by decide)

end DbToy
